import NuWicam.Lib.Copies
import NuWicam.Media.TextBounds

/-!
# An image over a video frame (`ImgOverlap.c`)

The routine is modelled by the list of its `memcpy` calls (`Copy`), with offsets modulo `2^32`: a position right of the
background or below it makes the difference wrap. `mem_overlapCopies`: for a position inside, the calls are the clipped rows of
the planes.
-/

namespace NuWicam.Media.ImgOverlap

open Lib List

/-! ## The source -/

/-- `u32CopyImgWidth` and `u32CopyImgHeight` -/
def copySize (bg op pos : Nat) : Nat := if u32 (pos + op) > bg then u32 (bg + (2 ^ 32 - pos)) else op

section

variable (w h ow oh posX posY : Nat)

def overlapYuv422 : List Copy :=
  (List.range (copySize h oh posY)).map fun y =>
    ⟨u32 ((posY * w + posX) * 2 + y * (w * 2)), u32 (y * (ow * 2)), u32 (copySize w ow posX * 2)⟩

def overlapYuv420 : List Copy :=
  (List.range (copySize h oh posY)).map fun y =>
    ⟨u32 (u32 (posY * w + posX) / 2 * 3 + y * (w / 2 * 3)), u32 (y * (ow / 2 * 3)), u32 (copySize w ow posX / 2 * 3)⟩

def overlapYuv422P : List Copy :=
  let n := copySize w ow posX
  (List.range (copySize h oh posY)).flatMap fun y =>
    let bgU := w * h + u32 (posY * w + posX) / 2 + y * (w / 2)
    let opU := ow * oh + y * (ow / 2)
    [⟨u32 (posY * w + posX + y * w), u32 (y * ow), n⟩,
      ⟨u32 bgU, u32 opU, n / 2⟩,
      ⟨u32 (bgU + u32 (w * h) / 2), u32 (opU + u32 (ow * oh) / 2), n / 2⟩]

/-- `Overlap_YUV420P`, for `y = 2 * j` -/
def overlapYuv420P : List Copy :=
  let n := copySize w ow posX
  (List.range ((copySize h oh posY + 1) / 2)).flatMap fun j =>
    let bgY := posY * w + posX + j * (w * 2)
    let opY := j * (ow * 2)
    let bgU := w * h + (posY / 2 * (w / 2) + posX / 2) + j * (w / 2)
    let opU := ow * oh + j * (ow / 2)
    [⟨u32 bgY, u32 opY, n⟩,
      ⟨u32 (bgY + w), u32 (opY + ow), n⟩,
      ⟨u32 bgU, u32 opU, n / 2⟩,
      ⟨u32 (bgU + u32 (w * h) / 4), u32 (opU + u32 (ow * oh) / 4), n / 2⟩]

def overlapYuv420MB : List Copy :=
  let n := copySize w ow posX / 16
  (List.range (copySize h oh posY / 16)).flatMap fun j =>
    let y := u32 (posY + 16 * j)
    let yPos := (y / 16 * (u32 (w + 15) / 16) + posX / 16) * 256 + (y % 16 * 16 + posX % 16)
    let uvPos := (y / 16 * ((w / 2 + 7) / 8) + posX / 2 / 8) * 128 + (y % 16 * 8 + posX / 2 % 8)
    [⟨u32 yPos, u32 (j * (256 * (ow / 16))), u32 (256 * n)⟩,
      ⟨u32 (w * h + uvPos), u32 (ow * oh + j * (128 * (ow / 16))), u32 (128 * n)⟩]

/-- The calls of `memcpy` for each colour format; there are none for the others. -/
def overlapCopies (bgColor : ColorFormat) : List Copy :=
  match bgColor with
  | .yuv420PMb => overlapYuv420MB w h ow oh posX posY
  | .yuv422 => overlapYuv422 w h ow oh posX posY
  | .yuv422P => overlapYuv422P w h ow oh posX posY
  | .yuv420 => overlapYuv420 w h ow oh posX posY
  | .yuv420P => overlapYuv420P w h ow oh posX posY
  | _ => []

/-- `ImgOverlap_Overlap`: its calls of `memcpy`, or `none` for `eIMG_OVERLAP_ERROR_MB_BOUNDARY` -/
def imgOverlapOverlap (bgColor : ColorFormat) : Option (List Copy) :=
  if bgColor = .yuv420PMb ∧
      (ow % 16 ≠ 0 ∨ oh % 16 ≠ 0 ∨ roundX posX % 16 ≠ 0 ∨ roundY bgColor posY % 16 ≠ 0) then none
  else some (overlapCopies w h ow oh (roundX posX) (roundY bgColor posY) bgColor)

/-! ## Planes -/

def planes (bgColor : ColorFormat) : List Plane :=
  match bgColor with
  | .yuv422 => [⟨0, w * 2, h, 0, ow * 2, oh, posX * 2, posY⟩]
  | .yuv420 => [⟨0, w / 2 * 3, h, 0, ow / 2 * 3, oh, posX / 2 * 3, posY⟩]
  | .yuv422P => [⟨0, w, h, 0, ow, oh, posX, posY⟩,
      ⟨w * h, w / 2, h, ow * oh, ow / 2, oh, posX / 2, posY⟩,
      ⟨w * h + w * h / 2, w / 2, h, ow * oh + ow * oh / 2, ow / 2, oh, posX / 2, posY⟩]
  | .yuv420P => [⟨0, w, h, 0, ow, oh, posX, posY⟩,
      ⟨w * h, w / 2, h / 2, ow * oh, ow / 2, oh / 2, posX / 2, posY / 2⟩,
      ⟨w * h + w * h / 4, w / 2, h / 2, ow * oh + ow * oh / 4, ow / 2, oh / 2, posX / 2, posY / 2⟩]
  | .yuv420PMb => [⟨0, 256 * (w / 16), h / 16, 0, 256 * (ow / 16), oh / 16, 256 * (posX / 16), posY / 16⟩,
      ⟨w * h, 128 * (w / 16), h / 16, ow * oh, 128 * (ow / 16), oh / 16, 128 * (posX / 16), posY / 16⟩]
  | _ => []

end

def unit (bgColor : ColorFormat) : Nat := if bgColor = .yuv420PMb then 16 else 2

def lineUnit (bgColor : ColorFormat) : Nat := if bgColor = .yuv422 ∨ bgColor = .yuv422P then 1 else unit bgColor

/-- Two images of a format, with sizes as it takes them and as they can be in memory, and a place between the samples. -/
structure Whole (bgColor : ColorFormat) (w h ow oh x y : Nat) : Prop where
  width : unit bgColor ∣ w
  height : unit bgColor ∣ h
  opWidth : unit bgColor ∣ ow
  opHeight : unit bgColor ∣ oh
  col : unit bgColor ∣ x
  row : lineUnit bgColor ∣ y
  size : imageSize bgColor w h < 2 ^ 32
  opSize : imageSize bgColor ow oh < 2 ^ 32

/-! ## A position inside of the background -/

structure Inside (w h ow oh x y : Nat) : Prop where
  left : x < w
  top : y < h
  wide : 0 < ow
  high : 0 < oh
  cols : copySize w ow x = min ow (w - x)
  rows : copySize h oh y = min oh (h - y)

structure Fits (size opSize : Nat) (p : Plane) : Prop where
  px : p.px < p.stride
  wide : 0 < p.opStride
  size : p.base + p.rows * p.stride ≤ size
  opSize : p.opBase + p.opRows * p.opStride ≤ opSize

section

variable {size opSize : Nat} (hsize : size < 2 ^ 32) (hopSize : opSize < 2 ^ 32)

include hsize hopSize in
theorem Fits.copy_eq {p : Plane} (hfit : Fits size opSize p) {r d s n : Nat} (hr : r < p.lines)
    (hd : d = p.base + ((p.py + r) * p.stride + p.px)) (hs : s = p.opBase + r * p.opStride) (hn : n = p.cols) :
    (⟨u32 d, u32 s, n⟩ : Copy) = p.row r := by
  have hlt := Plane.row_lt hr hfit.px hfit.wide
  have h₁ := hfit.size
  have h₂ := hfit.opSize
  simp only [Plane.row] at hlt
  rw [Plane.row, hd, hs, hn, u32_of_lt (by omega), u32_of_lt (by omega)]

end

variable {w h ow oh x y : Nat} {c : Copy}

theorem mul_half (hw : 2 ∣ w) : h * (w / 2) = w * h / 2 := by
  rw [Nat.mul_comm w h, Nat.mul_div_assoc h hw]

theorem half_mul_half (hw : 2 ∣ w) (hh : 2 ∣ h) : h / 2 * (w / 2) = w * h / 4 := by
  obtain ⟨a, rfl⟩ := hw
  obtain ⟨b, rfl⟩ := hh
  rw [Nat.mul_mul_mul_comm 2 a 2 b, Nat.mul_div_cancel_left a Nat.zero_lt_two, Nat.mul_div_cancel_left b Nat.zero_lt_two,
    Nat.mul_comm b a]
  omega

theorem mb_mul_mb (m : Nat) (hw : 16 ∣ w) (hh : 16 ∣ h) : 256 * (h / 16 * (m * (w / 16))) = m * (w * h) := by
  obtain ⟨a, rfl⟩ := hw
  obtain ⟨b, rfl⟩ := hh
  rw [Nat.mul_mul_mul_comm 16 a 16 b, Nat.mul_div_cancel_left a (by omega),
    Nat.mul_div_cancel_left b (by omega), Nat.mul_left_comm b m a, Nat.mul_comm b a, Nat.mul_left_comm m (16 * 16)]

theorem mul_double (w h : Nat) : h * (w * 2) = 2 * (w * h) := by
  rw [← Nat.mul_assoc, Nat.mul_comm h w, Nat.mul_comm _ 2]

variable {bgColor : ColorFormat}

theorem planes_fit (hin : Inside w h ow oh x y) (hwhole : Whole bgColor w h ow oh x y) :
    ∀ p ∈ planes w h ow oh x y bgColor, Fits (imageSize bgColor w h) (imageSize bgColor ow oh) p := by
  obtain ⟨hleft, htop, hwide, hhigh, -, -⟩ := hin
  obtain ⟨hw, hh, how, hoh, hx, -, -, -⟩ := hwhole
  cases bgColor <;> simp only [unit, reduceCtorEq, if_false, if_true] at hw hh how hoh hx <;>
    simp [planes, imageSize]
  case yuv422 =>
    constructor <;> simp only [mul_double] <;> omega
  case yuv422P =>
    refine ⟨?_, ?_, ?_⟩ <;> constructor <;> simp only [mul_half hw, mul_half how, Nat.mul_comm h, Nat.mul_comm oh] <;> omega
  case yuv420 =>
    constructor <;> simp only [← Nat.mul_assoc, mul_half hw, mul_half how] <;> omega
  case yuv420P =>
    refine ⟨?_, ?_, ?_⟩ <;> constructor <;>
      simp only [half_mul_half hw hh, half_mul_half how hoh, Nat.mul_comm h, Nat.mul_comm oh] <;> omega
  case yuv420PMb =>
    have hY := mb_mul_mb 256 hw hh
    have hUV := mb_mul_mb 128 hw hh
    have hOpY := mb_mul_mb 256 how hoh
    have hOpUV := mb_mul_mb 128 how hoh
    refine ⟨?_, ?_⟩ <;> constructor <;> dsimp only <;> omega

section

variable (hin : Inside w h ow oh x y)

include hin

theorem mem_overlapYuv422 (hwhole : Whole .yuv422 w h ow oh x y) :
    c ∈ overlapYuv422 w h ow oh x y ↔ ∃ p ∈ planes w h ow oh x y .yuv422, ∃ r < p.lines, c = p.row r := by
  have hfit := planes_fit hin hwhole
  obtain ⟨hw, hh, how, hoh, hx, -, hbg, hop⟩ := hwhole
  have hle : ow * 1 ≤ ow * oh := Nat.mul_le_mul_left ow hin.high
  simp only [planes, forall_mem_singleton] at hfit
  simp only [overlapYuv422, hin.cols, hin.rows, planes, List.mem_map, mem_range, mem_singleton, exists_eq_left]
  refine exists_congr fun r => and_congr_right fun hr => ?_
  simp only [imageSize] at hop
  rw [eq_comm, u32_of_lt (n := min ow (w - x) * 2) (by omega), hfit.copy_eq hbg hop hr]
  · dsimp only
    rw [Nat.add_mul y r, ← Nat.mul_assoc y]
    omega
  · dsimp only
    omega
  · simp only [Plane.cols]
    omega

theorem mem_overlapYuv420 (hwhole : Whole .yuv420 w h ow oh x y) :
    c ∈ overlapYuv420 w h ow oh x y ↔ ∃ p ∈ planes w h ow oh x y .yuv420, ∃ r < p.lines, c = p.row r := by
  have hfit := planes_fit hin hwhole
  obtain ⟨hw, hh, how, hoh, hx, -, hbg, hop⟩ := hwhole
  simp only [unit, reduceCtorEq, if_false] at hw hx how hoh
  have hle : ow * 2 ≤ ow * oh := Nat.mul_le_mul_left ow (Nat.le_of_dvd hin.high hoh)
  have hpos : y * w + x < h * w := rows_lt hin.left hin.top
  simp only [planes, forall_mem_singleton] at hfit
  simp only [overlapYuv420, hin.cols, hin.rows, planes, List.mem_map, mem_range, mem_singleton, exists_eq_left]
  refine exists_congr fun r => and_congr_right fun hr => ?_
  simp only [imageSize] at hbg hop
  rw [Nat.mul_comm h w] at hpos
  rw [eq_comm, u32_of_lt (n := y * w + x) (by omega), u32_of_lt (n := min ow (w - x) / 2 * 3) (by omega),
    hfit.copy_eq hbg hop hr]
  · dsimp only
    rw [Nat.add_mul y r, ← Nat.mul_assoc y (w / 2) 3, mul_half hw, Nat.mul_comm w y]
    omega
  · dsimp only
    omega
  · simp only [Plane.cols]
    omega

theorem mem_overlapYuv422P (hwhole : Whole .yuv422P w h ow oh x y) :
    c ∈ overlapYuv422P w h ow oh x y ↔ ∃ p ∈ planes w h ow oh x y .yuv422P, ∃ r < p.lines, c = p.row r := by
  have hfit := planes_fit hin hwhole
  obtain ⟨hw, hh, how, hoh, hx, -, hbg, hop⟩ := hwhole
  simp only [unit, reduceCtorEq, if_false] at hw hx how hoh
  have hpos : y * w + x < h * w := rows_lt hin.left hin.top
  rw [Nat.mul_comm h w] at hpos
  have hyw : y * (w / 2) = y * w / 2 := (Nat.mul_div_assoc y hw).symm
  simp only [planes, forall_mem_cons, not_mem_nil, false_imp_iff, implies_true, and_true] at hfit
  obtain ⟨hY, hU, hV⟩ := hfit
  have hbg' := hbg
  have hop' := hop
  simp only [imageSize] at hbg hop
  simp only [overlapYuv422P, hin.cols, hin.rows, planes, mem_flatMap, mem_range, mem_cons, not_mem_nil,
    or_false, exists_eq_or_imp, exists_eq_left, and_or_left, exists_or]
  rw [u32_of_lt (n := y * w + x) (by omega), u32_of_lt (n := w * h) (by omega), u32_of_lt (n := ow * oh) (by omega)]
  refine or_congr (exists_congr fun r => and_congr_right fun hr => ?_)
    (or_congr (exists_congr fun r => and_congr_right fun hr => ?_) (exists_congr fun r => and_congr_right fun hr => ?_))
  · rw [hY.copy_eq hbg' hop' hr] <;> simp only [Plane.cols, Nat.add_mul] <;> omega
  · rw [hU.copy_eq hbg' hop' hr] <;> simp only [Plane.cols, Nat.add_mul] <;> omega
  · rw [hV.copy_eq hbg' hop' hr] <;> simp only [Plane.cols, Nat.add_mul] <;> omega

omit hin in
theorem two_rows (j w : Nat) : j * (w * 2) = 2 * j * w := by
  rw [Nat.mul_comm w 2, Nat.mul_left_comm, Nat.mul_assoc]

omit hin in
theorem exists_rows_two {n : Nat} {P : Nat → Prop} : (∃ r < n * 2, P r) ↔ (∃ j < n, P (2 * j)) ∨ ∃ j < n, P (2 * j + 1) := by
  constructor
  · rintro ⟨r, hr, hP⟩
    rcases Nat.mod_two_eq_zero_or_one r with hmod | hmod
    · exact .inl ⟨r / 2, by omega, by rwa [show 2 * (r / 2) = r by omega]⟩
    · exact .inr ⟨r / 2, by omega, by rwa [show 2 * (r / 2) + 1 = r by omega]⟩
  · rintro (⟨j, hj, hP⟩ | ⟨j, hj, hP⟩)
    · exact ⟨_, by omega, hP⟩
    · exact ⟨_, by omega, hP⟩

theorem mem_overlapYuv420P (hwhole : Whole .yuv420P w h ow oh x y) :
    c ∈ overlapYuv420P w h ow oh x y ↔ ∃ p ∈ planes w h ow oh x y .yuv420P, ∃ r < p.lines, c = p.row r := by
  have hfit := planes_fit hin hwhole
  obtain ⟨hw, hh, how, hoh, hx, hy, hbg, hop⟩ := hwhole
  simp only [lineUnit, unit, reduceCtorEq, if_false, or_self] at hw hh hx hy how hoh
  simp only [planes, forall_mem_cons, not_mem_nil, false_imp_iff, implies_true, and_true] at hfit
  obtain ⟨hY, hU, hV⟩ := hfit
  have hbg' := hbg
  have hop' := hop
  simp only [imageSize] at hbg hop
  have hlines : (min oh (h - y) + 1) / 2 = min (oh / 2) (h / 2 - y / 2) := by omega
  have hluma : min oh (h - y) = min (oh / 2) (h / 2 - y / 2) * 2 := by omega
  simp only [overlapYuv420P, hin.cols, hin.rows, planes, mem_flatMap, mem_range, mem_cons, not_mem_nil,
    or_false, exists_eq_or_imp, exists_eq_left, and_or_left, exists_or, hlines]
  rw [← or_assoc, u32_of_lt (n := w * h) (by omega), u32_of_lt (n := ow * oh) (by omega)]
  refine or_congr ?_
    (or_congr (exists_congr fun r => and_congr_right fun hr => ?_) (exists_congr fun r => and_congr_right fun hr => ?_))
  · have hpairs : ∀ r < min oh (h - y), ∀ d s n, d = y * w + x + r * w → s = r * ow → n = min ow (w - x) →
        (⟨u32 d, u32 s, n⟩ : Copy) = Plane.row ⟨0, w, h, 0, ow, oh, x, y⟩ r := by
      intro r hr d s n hd hs hn
      rw [hY.copy_eq hbg' hop' hr] <;> simp only [Plane.cols, Nat.add_mul] <;> omega
    simp only [Plane.lines]
    rw [hluma, exists_rows_two]
    refine or_congr (exists_congr fun j => and_congr_right fun hj => ?_) (exists_congr fun j => and_congr_right fun hj => ?_)
    · rw [hpairs (2 * j) (by omega) _ _ _ _ _ rfl] <;> rw [two_rows]
    · rw [hpairs (2 * j + 1) (by omega) _ _ _ _ _ rfl] <;> rw [two_rows, Nat.add_mul (2 * j)] <;> omega
  · rw [hU.copy_eq hbg' hop' hr] <;> simp only [Plane.cols, Nat.add_mul] <;> omega
  · rw [hV.copy_eq hbg' hop' hr] <;> simp only [Plane.cols, Nat.add_mul] <;> omega

theorem mem_overlapYuv420MB (hwhole : Whole .yuv420PMb w h ow oh x y) :
    c ∈ overlapYuv420MB w h ow oh x y ↔ ∃ p ∈ planes w h ow oh x y .yuv420PMb, ∃ r < p.lines, c = p.row r := by
  have hfit := planes_fit hin hwhole
  obtain ⟨hw, hh, how, hoh, hx, hy, hbg, hop⟩ := hwhole
  simp only [lineUnit, unit, reduceCtorEq, if_false, if_true, or_self] at hw hh hx hy how hoh
  simp only [planes, forall_mem_cons, not_mem_nil, false_imp_iff, implies_true, and_true] at hfit
  obtain ⟨hY, hUV⟩ := hfit
  have hbg' := hbg
  have hop' := hop
  simp only [imageSize] at hbg hop
  have hlines : min oh (h - y) / 16 = min (oh / 16) (h / 16 - y / 16) := by omega
  have hcols : min ow (w - x) / 16 = min (ow / 16) (w / 16 - x / 16) := by omega
  have hW : w * 16 ≤ w * h := Nat.mul_le_mul_left w (Nat.le_of_dvd (by have := hin.top; omega) hh)
  have hH : h * 16 ≤ h * w := Nat.mul_le_mul_left h (Nat.le_of_dvd (by have := hin.left; omega) hw)
  rw [Nat.mul_comm h w] at hH
  simp only [overlapYuv420MB, hin.cols, hin.rows, planes, mem_flatMap, mem_range, mem_cons, not_mem_nil,
    or_false, exists_eq_or_imp, exists_eq_left, and_or_left, exists_or, hlines, hcols]
  rw [u32_of_lt (n := w + 15) (by omega), show (w + 15) / 16 = w / 16 by omega, show (w / 2 + 7) / 8 = w / 16 by omega,
    show x % 16 = 0 by omega, show x / 2 % 8 = 0 by omega, show x / 2 / 8 = x / 16 by omega]
  have hline : ∀ r < min (oh / 16) (h / 16 - y / 16), u32 (y + 16 * r) / 16 = y / 16 + r ∧ u32 (y + 16 * r) % 16 = 0 := by
    intro r hr
    rw [u32_of_lt (by omega)]
    omega
  refine or_congr (exists_congr fun r => and_congr_right fun hr => ?_) (exists_congr fun r => and_congr_right fun hr => ?_)
  · rw [(hline r hr).1, (hline r hr).2, u32_of_lt (n := 256 * _) (by omega), hY.copy_eq hbg' hop' hr] <;>
      simp only [Plane.cols, Nat.add_mul, Nat.mul_left_comm _ 256] <;> omega
  · rw [(hline r hr).1, (hline r hr).2, u32_of_lt (n := 128 * _) (by omega), hUV.copy_eq hbg' hop' hr] <;>
      simp only [Plane.cols, Nat.add_mul, Nat.mul_left_comm _ 128] <;> omega

theorem mem_overlapCopies {bgColor : ColorFormat} (hwhole : Whole bgColor w h ow oh x y) :
    c ∈ overlapCopies w h ow oh x y bgColor ↔ ∃ p ∈ planes w h ow oh x y bgColor, ∃ r < p.lines, c = p.row r := by
  cases bgColor with
  | yuv422 => exact mem_overlapYuv422 hin hwhole
  | yuv420 => exact mem_overlapYuv420 hin hwhole
  | yuv422P => exact mem_overlapYuv422P hin hwhole
  | yuv420P => exact mem_overlapYuv420P hin hwhole
  | yuv420PMb => exact mem_overlapYuv420MB hin hwhole
  | _ => simp [overlapCopies, planes]

end

theorem planes_apart (hwhole : Whole bgColor w h ow oh x y) : Plane.Apart (planes w h ow oh x y bgColor) := by
  obtain ⟨hw, hh, -, -, -, -, -, -⟩ := hwhole
  cases bgColor <;> simp only [unit, reduceCtorEq, if_false, if_true] at hw hh <;>
    simp [Plane.Apart, planes, List.Pairwise.nil]
  case yuv422P => simp only [mul_half hw, Nat.mul_comm h w]; omega
  case yuv420P => simp only [half_mul_half hw hh, Nat.mul_comm h w]; omega
  case yuv420PMb =>
    have hY := mb_mul_mb 256 hw hh
    omega

/-! ## Sizes -/

/-- The formats that `ImgOverlap_Overlap` has a routine for -/
def Supported (bgColor : ColorFormat) : Prop := bgColor ∈ [.yuv422, .yuv420, .yuv422P, .yuv420P, .yuv420PMb]

instance : DecidablePred Supported := fun _ => inferInstanceAs (Decidable (_ ∈ _))

theorem two_mul_side_le (hsupp : Supported bgColor) (hw : unit bgColor ∣ w)
    (hh : unit bgColor ∣ h) (hwide : 0 < w) (hhigh : 0 < h) :
    2 * w ≤ imageSize bgColor w h ∧ 2 * h ≤ imageSize bgColor w h := by
  have hunit : 2 ∣ unit bgColor := by cases bgColor <;> decide
  have hW : w * 2 ≤ w * h := Nat.mul_le_mul_left w (Nat.le_of_dvd hhigh (Nat.dvd_trans hunit hh))
  have hH : h * 2 ≤ h * w := Nat.mul_le_mul_left h (Nat.le_of_dvd hwide (Nat.dvd_trans hunit hw))
  rw [Nat.mul_comm h w] at hH
  cases bgColor <;> first | exact absurd hsupp (by decide) | (simp only [imageSize]; omega)

theorem copySize_inside {bg op pos : Nat} (hpos : pos < bg) (hlt : pos + op < 2 ^ 32) :
    copySize bg op pos = min op (bg - pos) := by
  unfold copySize
  rw [u32_of_lt hlt]
  split
  · rw [u32]
    omega
  · omega

theorem Whole.inside (hwhole : Whole bgColor w h ow oh x y) (hsupp : Supported bgColor)
    (hx : x < w) (hy : y < h) (how : 0 < ow) (hoh : 0 < oh) : Inside w h ow oh x y := by
  have hbg := two_mul_side_le hsupp hwhole.width hwhole.height (by omega) (by omega)
  have hop := two_mul_side_le hsupp hwhole.opWidth hwhole.opHeight how hoh
  have hsize := hwhole.size
  have hopSize := hwhole.opSize
  exact ⟨hx, hy, how, hoh, copySize_inside hx (by omega), copySize_inside hy (by omega)⟩

/-! ## Nothing to copy -/

def span (bgColor : ColorFormat) : Nat :=
  match bgColor with
  | .yuv422 => 2 ^ 31
  | .yuv420PMb => 2 ^ 29
  | _ => 2 ^ 32

theorem forall_lt_const {n : Nat} {P : Prop} : (∀ j < n, P) ↔ n = 0 ∨ P := by
  rcases Nat.eq_zero_or_pos n with rfl | hn
  · simp
  · exact ⟨fun hall => .inr (hall 0 hn), fun hor _ _ => hor.resolve_left (Nat.pos_iff_ne_zero.mp hn)⟩

theorem u32_mul_three {m : Nat} (hm : m < 2 ^ 32) : u32 (m * 3) = 0 ↔ m = 0 := by
  refine ⟨fun h => ?_, fun h => by rw [h]; rfl⟩
  have hdvd : 2 ^ 32 ∣ m := Nat.Coprime.dvd_of_dvd_mul_right (by decide) (Nat.dvd_of_mod_eq_zero h)
  omega

theorem dvd_copySize {m bg op pos : Nat} (hm : m ∣ 2 ^ 32) (hbg : m ∣ bg) (hop : m ∣ op) (hpos : m ∣ pos) :
    m ∣ copySize bg op pos := by
  unfold copySize
  split
  · exact (Nat.dvd_mod_iff hm).mpr (Nat.dvd_add hbg (Nat.dvd_sub hm hpos))
  · exact hop

theorem copySize_lt {bg op pos : Nat} (hop : op < 2 ^ 32) : copySize bg op pos < 2 ^ 32 := by
  unfold copySize
  split
  · exact Nat.mod_lt _ (by decide)
  · exact hop

theorem overlapCopies_empty_iff (hsupp : Supported bgColor) (hwhole : Whole bgColor w h ow oh x y)
    (how : ow < 2 ^ 32) : (∀ c ∈ overlapCopies w h ow oh x y bgColor, c.len = 0) ↔
      copySize h oh y = 0 ∨ copySize w ow x % span bgColor = 0 := by
  have hlt : copySize w ow x < 2 ^ 32 := copySize_lt how
  have hcols : unit bgColor ∣ copySize w ow x :=
    dvd_copySize (by cases bgColor <;> decide) hwhole.width hwhole.opWidth hwhole.col
  have hrows : lineUnit bgColor ∣ copySize h oh y :=
    dvd_copySize (by cases bgColor <;> decide) (Nat.dvd_trans (by cases bgColor <;> decide) hwhole.height)
      (Nat.dvd_trans (by cases bgColor <;> decide) hwhole.opHeight) hwhole.row
  cases bgColor <;> first | exact absurd hsupp (by decide) | skip
  all_goals simp only [lineUnit, unit, reduceCtorEq, if_false, if_true, or_self] at hcols hrows
  all_goals simp only [overlapCopies, overlapYuv422, overlapYuv420, overlapYuv422P, overlapYuv420P, overlapYuv420MB, span]
  all_goals generalize copySize w ow x = n at hlt hcols ⊢
  all_goals generalize copySize h oh y = m at hrows ⊢
  case yuv422 =>
    simp only [List.forall_mem_map, mem_range, forall_lt_const, u32]
    omega
  case yuv420 =>
    simp only [List.forall_mem_map, mem_range, forall_lt_const]
    rw [u32_mul_three (by omega)]
    omega
  case yuv422P =>
    simp only [forall_mem_flatMap, mem_range, forall_mem_cons, not_mem_nil, false_imp_iff, implies_true,
      and_true, forall_lt_const]
    omega
  case yuv420P =>
    simp only [forall_mem_flatMap, mem_range, forall_mem_cons, not_mem_nil, false_imp_iff, implies_true,
      and_true, forall_lt_const]
    omega
  case yuv420PMb =>
    simp only [forall_mem_flatMap, mem_range, forall_mem_cons, not_mem_nil, false_imp_iff, implies_true,
      and_true, forall_lt_const, u32]
    omega

end NuWicam.Media.ImgOverlap
