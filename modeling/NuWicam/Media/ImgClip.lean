import NuWicam.Media.ImgOverlap

/-!
# Clip, then copy

A format has components, each with its subsampling and with the offset of a sample in an image of any size (`Component`). A
sample of the overlay belongs to the place it has at the position, if that is inside of the background; a position between the
samples of a component has no place for them (`Copied`). `imgOverlap_clips_iff`: the positions with which `ImgOverlap_Overlap`,
which rounds them down to even ones, leaves these samples, and every other byte as it was.
-/

namespace NuWicam.Media.ImgOverlap

open Lib

/-! ## Samples -/

/-- One sample of `bytes` for `sx` columns and `sy` rows, at `addr width height column row`. -/
structure Component where
  sx : Nat
  sy : Nat
  bytes : Nat
  addr : Nat → Nat → Nat → Nat → Nat

def linear (sx sy bytes : Nat) (base : Nat → Nat) : Component :=
  ⟨sx, sy, bytes, fun w h i j => base (w * h) + (j * (w / sx) + i) * bytes⟩

/-- Macroblocks of `m` bytes, `side` rows and columns in each, rows of 16 bytes from `off` on -/
def blocks (sub side m off : Nat) (base : Nat → Nat) : Component :=
  ⟨sub, sub, 1, fun w h i j => base (w * h) + ((j / side * (w / 16) + i / side) * m + (j % side * 16 + i % side + off))⟩

/-- The packed formats have one component, whose samples are pixels or pairs of them. -/
def components (bgColor : ColorFormat) : List Component :=
  match bgColor with
  | .yuv422 => [linear 1 1 2 fun _ => 0]
  | .yuv420 => [linear 2 1 3 fun _ => 0]
  | .yuv422P => [linear 1 1 1 fun _ => 0, linear 2 1 1 fun n => n, linear 2 1 1 fun n => n + n / 2]
  | .yuv420P => [linear 1 1 1 fun _ => 0, linear 2 2 1 fun n => n, linear 2 2 1 fun n => n + n / 4]
  | .yuv420PMb => [blocks 1 16 256 0 fun _ => 0, blocks 2 8 128 0 fun n => n, blocks 2 8 128 8 fun n => n]
  | _ => []

section

variable (w h ow oh x y a a' : Nat)

/-- A byte of a sample of the overlay and its place in the background, which is not outside of it. -/
def Component.Copied (c : Component) : Prop := ∃ i < ow / c.sx, ∃ j < oh / c.sy,
  x / c.sx + i < w / c.sx ∧ y / c.sy + j < h / c.sy ∧ ∃ d < c.bytes,
    a = c.addr w h (x / c.sx + i) (y / c.sy + j) + d ∧ a' = c.addr ow oh i j + d

def Copied (bgColor : ColorFormat) : Prop :=
  ∃ c ∈ components bgColor, (c.sx ∣ x ∧ c.sy ∣ y) ∧ c.Copied w h ow oh x y a a'

end

section

variable {w h ow oh x y a a' : Nat} {bgColor : ColorFormat}

theorem linear_copied {sx sy bytes : Nat} {base : Nat → Nat} : (linear sx sy bytes base).Copied w h ow oh x y a a' ↔
    Plane.Moves ⟨base (w * h), w / sx * bytes, h / sy, base (ow * oh), ow / sx * bytes, oh / sy, x / sx * bytes, y / sy⟩
      a a' := Plane.moves_samples.symm

/-- The samples of a component in a side that is whole macroblocks. -/
theorem div_sub {sub side n : Nat} (hunit : sub * side = 16) (hn : 16 ∣ n) : n / sub = side * (n / 16) := by
  have hsub : 0 < sub := Nat.pos_of_ne_zero fun h0 => by simp [h0] at hunit
  obtain ⟨k, rfl⟩ := hn
  rw [Nat.mul_div_cancel_left k (by decide), ← hunit, Nat.mul_assoc, Nat.mul_div_cancel_left _ hsub]

theorem blocks_copied {sub side m off : Nat} {base : Nat → Nat} (hunit : sub * side = 16) (hin : off + side ≤ 16)
    (hw : 16 ∣ w) (hh : 16 ∣ h) (how : 16 ∣ ow) (hoh : 16 ∣ oh) (hx : 16 ∣ x) (hy : 16 ∣ y) :
    (blocks sub side m off base).Copied w h ow oh x y a a' ↔
      ∃ i < ow / 16, ∃ j < oh / 16, x / 16 + i < w / 16 ∧ y / 16 + j < h / 16 ∧
        ∃ d < side * 16, (off ≤ d % 16 ∧ d % 16 < off + side) ∧
          a = base (w * h) + ((y / 16 + j) * (w / 16) + (x / 16 + i)) * m + d ∧
          a' = base (ow * oh) + (j * (ow / 16) + i) * m + d := by
  have hside : 0 < side := Nat.pos_of_ne_zero fun h0 => by simp [h0] at hunit
  have hlt : ∀ n i, i < side * n ↔ i / side < n := fun n i => by rw [Nat.div_lt_iff_lt_mul hside, Nat.mul_comm]
  simp only [Component.Copied, blocks, div_sub hunit hw, div_sub hunit hh, div_sub hunit how, div_sub hunit hoh,
    div_sub hunit hx, div_sub hunit hy, hlt (ow / 16), hlt (oh / 16), hlt (w / 16), hlt (h / 16), Nat.mul_add_div hside,
    Nat.mul_add_mod]
  constructor
  · rintro ⟨i, hi, j, hj, hcol, hrow, d, hd, rfl, rfl⟩
    have hcoli := Nat.mod_lt i hside
    have hrowj := Nat.mod_lt j hside
    exact ⟨i / side, hi, j / side, hj, hcol, hrow, j % side * 16 + i % side + off, by omega, by omega, by omega, by omega⟩
  · rintro ⟨i, hi, j, hj, hcol, hrow, d, hd, hoff, rfl, rfl⟩
    have hcoli : d % 16 - off < side := by omega
    have hrowj : d / 16 < side := by omega
    refine ⟨side * i + (d % 16 - off), ?_, side * j + d / 16, ?_, ?_, ?_, 0, by decide, ?_, ?_⟩
    all_goals simp only [Nat.mul_add_div hside, Nat.mul_add_mod, Nat.div_eq_of_lt hcoli, Nat.div_eq_of_lt hrowj,
      Nat.mod_eq_of_lt hcoli, Nat.mod_eq_of_lt hrowj, Nat.add_zero]
    · exact hi
    · exact hj
    · exact hcol
    · exact hrow
    · omega
    · omega

theorem two_dvd_unit (bgColor : ColorFormat) : 2 ∣ unit bgColor := by cases bgColor <;> decide

theorem components_dvd (hwhole : Whole bgColor w h ow oh x y) : ∀ c ∈ components bgColor, c.sx ∣ x ∧ c.sy ∣ y := by
  have hcol : 2 ∣ x := Nat.dvd_trans (two_dvd_unit bgColor) hwhole.col
  have hrow := hwhole.row
  cases bgColor <;> simp [components, linear, blocks, hcol, lineUnit, unit] at hrow ⊢ <;> omega

theorem copied_iff (hwhole : Whole bgColor w h ow oh x y) :
    Copied w h ow oh x y a a' bgColor ↔ ∃ p ∈ planes w h ow oh x y bgColor, p.Moves a a' := by
  have hdvd : ∀ c ∈ components bgColor, (c.sx ∣ x ∧ c.sy ∣ y) ∧ c.Copied w h ow oh x y a a' ↔ c.Copied w h ow oh x y a a' :=
    fun c hc => and_iff_right (components_dvd hwhole c hc)
  obtain ⟨hw, hh, how, hoh, hx, hy, -, -⟩ := hwhole
  rw [Copied, exists_congr fun c => and_congr_right (hdvd c)]
  cases bgColor <;> simp [components, planes, linear_copied]
  case yuv420PMb =>
    simp only [Nat.mul_comm 256, Nat.mul_comm 128, Plane.moves_samples]
    rw [blocks_copied rfl (by decide) hw hh how hoh hx hy, blocks_copied rfl (by decide) hw hh how hoh hx hy,
      blocks_copied rfl (by decide) hw hh how hoh hx hy]
    refine or_congr ?_ ⟨?_, ?_⟩
    · refine exists_congr fun i => and_congr_right fun _ => exists_congr fun j => and_congr_right fun _ =>
        and_congr_right fun _ => and_congr_right fun _ => exists_congr fun d => and_congr_right fun _ => ?_
      exact and_iff_right (by omega)
    · rintro (⟨i, hi, j, hj, hcol, hrow, d, hd, -, heq⟩ | ⟨i, hi, j, hj, hcol, hrow, d, hd, -, heq⟩)
      · exact ⟨i, hi, j, hj, hcol, hrow, d, hd, heq⟩
      · exact ⟨i, hi, j, hj, hcol, hrow, d, hd, heq⟩
    · -- the left half of a row of a block is U, the right half V
      rintro ⟨i, hi, j, hj, hcol, hrow, d, hd, heq⟩
      rcases Nat.lt_or_ge (d % 16) 8 with hU | hV
      · exact .inl ⟨i, hi, j, hj, hcol, hrow, d, hd, by omega, heq⟩
      · exact .inr ⟨i, hi, j, hj, hcol, hrow, d, hd, by omega, heq⟩

theorem meets_of_copied (hcopied : Copied w h ow oh x y a a' bgColor) : x < w ∧ y < h ∧ 0 < ow ∧ 0 < oh := by
  obtain ⟨c, -, -, i, hi, j, hj, hcol, hrow, -⟩ := hcopied
  exact ⟨Nat.lt_of_div_lt_div (Nat.lt_of_le_of_lt (Nat.le_add_right _ i) hcol),
    Nat.lt_of_div_lt_div (Nat.lt_of_le_of_lt (Nat.le_add_right _ j) hrow),
    Nat.lt_of_lt_of_le (Nat.zero_lt_of_lt hi) (Nat.div_le_self _ _),
    Nat.lt_of_lt_of_le (Nat.zero_lt_of_lt hj) (Nat.div_le_self _ _)⟩

theorem rows_eq {W X Y : Nat} (hW : 0 < W) (hy : y ≤ Y) (hx : x ≤ X) (hle : Y * W + X ≤ y * W + x) : X = x ∧ Y = y := by
  have hmul : y * W ≤ Y * W := Nat.mul_le_mul_right W hy
  exact ⟨by omega, Nat.le_antisymm (Nat.le_of_mul_le_mul_right (by omega) hW) hy⟩

/-- The first sample of the overlay is at this place, and it is also that of the position `posX posY`. -/
structure Component.Anchored (c : Component) (w h ow oh x y posX posY : Nat) : Prop where
  left : x ≤ posX
  top : y ≤ posY
  dvd : c.sx ∣ x ∧ c.sy ∣ y
  dvd_pos : c.sx ∣ posX ∧ c.sy ∣ posY
  wide : x / c.sx < w / c.sx
  copied : ∃ a', c.Copied w h ow oh posX posY (c.addr w h (x / c.sx) (y / c.sy)) a'

variable {posX posY : Nat}

theorem linear_anchored {sx sy bytes : Nat} {base : Nat → Nat} (hbytes : 0 < bytes)
    (h : (linear sx sy bytes base).Anchored w h ow oh x y posX posY) : posX = x ∧ posY = y := by
  obtain ⟨hleft, htop, ⟨hx, hy⟩, ⟨hposX, hposY⟩, hwide, a', i, -, j, -, -, -, d, -, ha, -⟩ := h
  simp only [linear] at hx hy hposX hposY hwide ha
  have hcol : x / sx ≤ posX / sx := Nat.div_le_div_right hleft
  have hrow : y / sy ≤ posY / sy := Nat.div_le_div_right htop
  obtain ⟨hcols, hrows⟩ := rows_eq (Nat.zero_lt_of_lt hwide) (Nat.le_trans hrow (Nat.le_add_right _ j))
    (Nat.le_trans hcol (Nat.le_add_right _ i)) (Nat.le_of_mul_le_mul_right (by omega) hbytes)
  exact ⟨by rw [← Nat.div_mul_cancel hposX, ← Nat.div_mul_cancel hx]; congr 1; omega,
    by rw [← Nat.div_mul_cancel hposY, ← Nat.div_mul_cancel hy]; congr 1; omega⟩

theorem blocks_anchored {m : Nat} {base : Nat → Nat} (hm : 0 < m) (hw : 16 ∣ w) (hx : 16 ∣ x) (hy : 16 ∣ y)
    (h : (blocks 1 16 m 0 base).Anchored w h ow oh x y posX posY) : posX = x ∧ posY = y := by
  obtain ⟨hleft, htop, -, -, hwide, a', i, -, j, -, -, -, d, -, ha, -⟩ := h
  simp only [blocks, Nat.div_one] at hwide ha
  rw [show x % 16 = 0 by omega, show y % 16 = 0 by omega] at ha
  obtain ⟨hcols, hrows⟩ := rows_eq (W := w / 16) (y := y / 16) (Y := (posY + j) / 16) (x := x / 16) (X := (posX + i) / 16)
    (by omega) (by omega) (by omega) (Nat.le_of_mul_le_mul_right (c := m) (by omega) (by omega))
  rw [hcols, hrows] at ha
  omega

theorem components_head (hsupp : Supported bgColor) (hsize : 0 < ow * oh) : ∃ c cs, components bgColor = c :: cs ∧
    (c.sx = 1 ∨ c.sx = 2) ∧ c.sy = 1 ∧ 0 < c.bytes ∧ c.addr ow oh 0 0 = 0 ∧ ∀ c' ∈ cs, ∀ i j, 0 < c'.addr ow oh i j := by
  cases bgColor <;> first | exact absurd hsupp (by decide) | refine ⟨_, _, rfl, by decide, rfl, by decide, by simp [linear, blocks], ?_⟩
  all_goals simp only [List.forall_mem_cons, List.not_mem_nil, false_imp_iff, implies_true, and_true, linear, blocks]
  all_goals exact ⟨fun _ _ => by omega, fun _ _ => by omega⟩

/-- The place of the first sample says where the position is. -/
theorem place_eq (hsupp : Supported bgColor) (hwhole : Whole bgColor w h ow oh x y) (hin : x < w ∧ y < h ∧ 0 < ow ∧ 0 < oh)
    (hleft : x ≤ posX) (htop : y ≤ posY)
    (hcopied : ∀ a, Copied w h ow oh x y a 0 bgColor → Copied w h ow oh posX posY a 0 bgColor) : posX = x ∧ posY = y := by
  obtain ⟨hx, hy, how, hoh⟩ := hin
  have hw2 : 2 ∣ w := Nat.dvd_trans (two_dvd_unit bgColor) hwhole.width
  have how2 : 2 ∣ ow := Nat.dvd_trans (two_dvd_unit bgColor) hwhole.opWidth
  obtain ⟨c, cs, hcs, hsx, hsy, hbytes, hzero, hothers⟩ := components_head hsupp (Nat.mul_pos how hoh)
  have hmem : c ∈ components bgColor := hcs ▸ List.mem_cons_self
  have hdvd := components_dvd hwhole c hmem
  have hwide : x / c.sx < w / c.sx ∧ 0 < ow / c.sx := by
    rcases hsx with hsx | hsx <;> rw [hsx] <;> omega
  have hhigh : y / c.sy < h / c.sy ∧ 0 < oh / c.sy := by
    rw [hsy]
    omega
  have hanchored : c.Anchored w h ow oh x y posX posY := by
    obtain ⟨c', hc', hdvd', hplace⟩ := hcopied (c.addr w h (x / c.sx) (y / c.sy))
      ⟨c, hmem, hdvd, 0, hwide.2, 0, hhigh.2, hwide.1, hhigh.1, 0, hbytes, rfl, hzero.symm⟩
    rw [hcs] at hc'
    rcases List.mem_cons.mp hc' with rfl | hc'
    · exact ⟨hleft, htop, hdvd, hdvd', hwide.1, 0, hplace⟩
    · -- no byte of another component is the first one
      obtain ⟨i, -, j, -, -, -, d, -, -, ha'⟩ := hplace
      have hpos := hothers c' hc' i j
      omega
  cases bgColor <;> first | exact absurd hsupp (by decide) | cases hcs
  case yuv420PMb => exact blocks_anchored (by decide) hwhole.width hwhole.col hwhole.row hanchored
  all_goals exact linear_anchored (by decide) hanchored

end

/-! ## The routine -/

/-- A call with images that can be in memory: their sizes are `uint32_t`, even, and multiples of 16 for the macroblock
format. -/
structure Request where
  bgColor : ColorFormat
  w : Nat
  h : Nat
  ow : Nat
  oh : Nat
  posX : Nat
  posY : Nat
  supported : Supported bgColor
  width : unit bgColor ∣ w
  height : unit bgColor ∣ h
  opWidth : unit bgColor ∣ ow
  opHeight : unit bgColor ∣ oh
  size : imageSize bgColor w h < 2 ^ 32
  opSize : imageSize bgColor ow oh < 2 ^ 32
  uint32 : ∀ n ∈ [w, h, ow, oh, posX, posY], n < 2 ^ 32

/-- Nothing is left of a side of the overlay modulo `m`. -/
def Clear (m bg op pos : Nat) : Prop := if (pos + op) % 2 ^ 32 ≤ bg then op % m = 0 else pos % m = bg % m

instance (m bg op pos : Nat) : Decidable (Clear m bg op pos) := inferInstanceAs (Decidable (ite _ _ _))

theorem copySize_clear {m bg op pos : Nat} (hm : m = 2 ^ 29 ∨ m = 2 ^ 31 ∨ m = 2 ^ 32) (hpos : pos < 2 ^ 32) :
    copySize bg op pos % m = 0 ↔ Clear m bg op pos := by
  unfold copySize Clear
  by_cases hend : (pos + op) % 2 ^ 32 ≤ bg
  · rw [if_neg (show ¬ u32 (pos + op) > bg from Nat.not_lt.mpr hend), if_pos hend]
  · rw [if_pos (show u32 (pos + op) > bg from Nat.lt_of_not_le hend), if_neg hend, u32]
    rcases hm with rfl | rfl | rfl <;> omega

theorem roundX_le (posX : Nat) : roundX posX ≤ posX := by
  unfold roundX
  split <;> omega

theorem roundY_le (bgColor : ColorFormat) (posY : Nat) : roundY bgColor posY ≤ posY := by
  unfold roundY
  split <;> omega

theorem two_dvd_roundX (posX : Nat) : 2 ∣ roundX posX := by
  unfold roundX
  split <;> omega

theorem two_dvd_roundY {bgColor : ColorFormat} (hfmt : bgColor = .yuv420 ∨ bgColor = .yuv420P) (posY : Nat) :
    2 ∣ roundY bgColor posY := by
  unfold roundY
  by_cases hodd : posY % 2 = 1
  · rw [if_pos ⟨hfmt, hodd⟩]
    omega
  · rw [if_neg fun hround => hodd hround.2]
    omega

namespace Request

variable (r : Request)

def x : Nat := roundX r.posX

def y : Nat := roundY r.bgColor r.posY

def copies : List Copy := (imgOverlapOverlap r.w r.h r.ow r.oh r.posX r.posY r.bgColor).getD []

def InBounds : Prop := ∀ c ∈ r.copies, 0 < c.len →
  c.dst + c.len ≤ imageSize r.bgColor r.w r.h ∧ c.src + c.len ≤ imageSize r.bgColor r.ow r.oh

/-- **Clip, then copy**: each sample of the overlay inside of the background is at its place there, every other byte is as it
was, and nothing else is read or written. -/
def ClipsAndCopies : Prop := r.InBounds ∧ ∀ bg op : Image,
  (∀ a a', Copied r.w r.h r.ow r.oh r.posX r.posY a a' r.bgColor → runCopies op bg r.copies a = op a') ∧
    ∀ a, (∀ a', ¬ Copied r.w r.h r.ow r.oh r.posX r.posY a a' r.bgColor) → runCopies op bg r.copies a = bg a

def Meets : Prop := r.posX < r.w ∧ r.posY < r.h ∧ 0 < r.ow ∧ 0 < r.oh

instance : Decidable r.Meets := inferInstanceAs (Decidable (_ ∧ _))

def Misplaced : Prop := r.bgColor = .yuv420PMb ∧ (r.x % 16 ≠ 0 ∨ r.y % 16 ≠ 0)

instance : Decidable r.Misplaced := inferInstanceAs (Decidable (_ ∧ _))

/-- An even column, for 4:2:0 an even row, and the corner of a block in the macroblock format -/
def Aligned : Prop := unit r.bgColor ∣ r.posX ∧ lineUnit r.bgColor ∣ r.posY

instance : Decidable r.Aligned := inferInstanceAs (Decidable (_ ∧ _))

/-- **The calls that clip and copy**: an overlay that meets the background has an aligned position; any other is refused, or
one of the sides that remain wraps to nothing. -/
def Clips : Prop := if r.Meets then r.Aligned
  else r.Misplaced ∨ Clear (span r.bgColor) r.w r.ow r.x ∨ Clear (2 ^ 32) r.h r.oh r.y

instance : Decidable r.Clips := inferInstanceAs (Decidable (ite _ _ _))

variable {r}

theorem copies_misplaced (hmis : r.Misplaced) : r.copies = [] := by
  obtain ⟨hfmt, hpos⟩ := hmis
  rw [copies, imgOverlapOverlap, if_pos ⟨hfmt, .inr (.inr hpos)⟩, Option.getD_none]

theorem copies_placed (hpl : ¬ r.Misplaced) : r.copies = overlapCopies r.w r.h r.ow r.oh r.x r.y r.bgColor := by
  have haccepted : ¬ (r.bgColor = .yuv420PMb ∧
      (r.ow % 16 ≠ 0 ∨ r.oh % 16 ≠ 0 ∨ roundX r.posX % 16 ≠ 0 ∨ roundY r.bgColor r.posY % 16 ≠ 0)) := by
    rintro ⟨hfmt, hsides⟩
    have hwidth := r.opWidth
    have hheight := r.opHeight
    rw [hfmt, unit, if_pos rfl] at hwidth hheight
    rcases hsides with hside | hside | hplace
    · exact hside (by omega)
    · exact hside (by omega)
    · exact hpl ⟨hfmt, hplace⟩
  rw [copies, imgOverlapOverlap, if_neg haccepted, Option.getD_some]
  rfl

theorem whole (hpl : ¬ r.Misplaced) : Whole r.bgColor r.w r.h r.ow r.oh r.x r.y := by
  have hplace : unit r.bgColor ∣ r.x ∧ lineUnit r.bgColor ∣ r.y := by
    have hsupp := r.supported
    have hround := two_dvd_roundX r.posX
    simp only [Misplaced, x, y] at hpl ⊢
    cases hfmt : r.bgColor <;> rw [hfmt] at hsupp hpl <;> first | exact absurd hsupp (by decide) | skip
    case yuv422 => exact ⟨hround, Nat.one_dvd _⟩
    case yuv422P => exact ⟨hround, Nat.one_dvd _⟩
    case yuv420 => exact ⟨hround, two_dvd_roundY (.inl rfl) r.posY⟩
    case yuv420P => exact ⟨hround, two_dvd_roundY (.inr rfl) r.posY⟩
    case yuv420PMb =>
      simp only [true_and, not_or, Decidable.not_not] at hpl
      exact ⟨Nat.dvd_of_mod_eq_zero hpl.1, Nat.dvd_of_mod_eq_zero hpl.2⟩
  exact ⟨r.width, r.height, r.opWidth, r.opHeight, hplace.1, hplace.2, r.size, r.opSize⟩

theorem clips_iff_empty (hmeets : ¬ r.Meets) : r.ClipsAndCopies ↔ ∀ c ∈ r.copies, c.len = 0 := by
  have hnone : ∀ a a', ¬ Copied r.w r.h r.ow r.oh r.posX r.posY a a' r.bgColor :=
    fun a a' h => hmeets (meets_of_copied h)
  rw [← not_moves_iff]
  constructor
  · rintro ⟨-, hclip⟩ a a' hmoves
    have hkept := (hclip (fun _ => 0) (fun _ => 1)).2 a (hnone a)
    rw [runCopies_const _ hmoves] at hkept
    exact absurd hkept (by decide)
  · intro hempty
    refine ⟨fun c hc hlen => absurd (not_moves_iff.mp hempty c hc) (Nat.pos_iff_ne_zero.mp hlen), fun bg op => ⟨?_, ?_⟩⟩
    · exact fun a a' h => absurd h (hnone a a')
    · exact fun a _ => (runCopies_spec op bg fun a a' _ h => absurd h (hempty a a')).2 a (hempty a)

theorem copies_empty_iff (hpl : ¬ r.Misplaced) : (∀ c ∈ r.copies, c.len = 0) ↔
    Clear (span r.bgColor) r.w r.ow r.x ∨ Clear (2 ^ 32) r.h r.oh r.y := by
  have huint := r.uint32
  simp only [List.forall_mem_cons, List.not_mem_nil, false_imp_iff, implies_true, and_true] at huint
  obtain ⟨-, -, how, hoh, hposX, hposY⟩ := huint
  have hx : r.x < 2 ^ 32 := Nat.lt_of_le_of_lt (roundX_le r.posX) hposX
  have hy : r.y < 2 ^ 32 := Nat.lt_of_le_of_lt (roundY_le r.bgColor r.posY) hposY
  have hspan : span r.bgColor = 2 ^ 29 ∨ span r.bgColor = 2 ^ 31 ∨ span r.bgColor = 2 ^ 32 := by
    cases r.bgColor <;> decide
  rw [copies_placed hpl, overlapCopies_empty_iff r.supported (whole hpl) how, copySize_clear hspan hx,
    ← copySize_clear (.inr (.inr rfl)) hy, Nat.mod_eq_of_lt (copySize_lt hoh), or_comm]

/-! ## An overlay that meets the background -/

section

variable (hpl : ¬ r.Misplaced) (hmeets : r.Meets)

include hpl hmeets

theorem inside : Inside r.w r.h r.ow r.oh r.x r.y :=
  (whole hpl).inside r.supported (Nat.lt_of_le_of_lt (roundX_le r.posX) hmeets.1)
    (Nat.lt_of_le_of_lt (roundY_le r.bgColor r.posY) hmeets.2.1) hmeets.2.2.1 hmeets.2.2.2

theorem mem_copies (c : Copy) : c ∈ r.copies ↔ ∃ p ∈ planes r.w r.h r.ow r.oh r.x r.y r.bgColor, ∃ q < p.lines, c = p.row q := by
  rw [copies_placed hpl]
  exact mem_overlapCopies (inside hpl hmeets) (whole hpl)

theorem moves_copies_iff {a a' : Nat} : Moves r.copies a a' ↔ Copied r.w r.h r.ow r.oh r.x r.y a a' r.bgColor :=
  (Plane.moves_planes (mem_copies hpl hmeets)).trans (copied_iff (whole hpl)).symm

theorem runCopies_copies (bg op : Image) : (∀ a a', Moves r.copies a a' → runCopies op bg r.copies a = op a') ∧
    ∀ a, (∀ a', ¬ Moves r.copies a a') → runCopies op bg r.copies a = bg a := by
  refine runCopies_spec op bg fun a a' a'' h h' => ?_
  obtain ⟨p, hp, hpa⟩ := (Plane.moves_planes (mem_copies hpl hmeets)).mp h
  obtain ⟨q, hq, hqa⟩ := (Plane.moves_planes (mem_copies hpl hmeets)).mp h'
  exact (planes_apart (whole hpl)).unique hp hq hpa hqa

theorem copies_inBounds : r.InBounds := by
  intro c hc hlen
  -- the last byte of the row is in its plane
  obtain ⟨p, hp, q, hq, rfl⟩ := (mem_copies hpl hmeets c).mp hc
  have hfit := planes_fit (inside hpl hmeets) (whole hpl) p hp
  have hlast : p.Moves ((p.row q).dst + (p.cols - 1)) ((p.row q).src + (p.cols - 1)) := by
    refine ⟨q, hq, p.cols - 1, Nat.sub_lt hlen Nat.zero_lt_one, ?_, ?_⟩ <;> simp only [Plane.row] <;> omega
  have hb := hlast.bounds
  have h₁ := hfit.size
  have h₂ := hfit.opSize
  change (p.row q).dst + p.cols ≤ _ ∧ (p.row q).src + p.cols ≤ _
  omega

theorem copied_of_moves (hclip : r.ClipsAndCopies) {a a' : Nat} (h : Moves r.copies a a') :
    Copied r.w r.h r.ow r.oh r.posX r.posY a a' r.bgColor := by
  -- only this byte of the overlay is `0`
  let op : Image := fun b => if b = a' then 0 else 1
  have hwritten : runCopies op (fun _ => 1) r.copies a = 0 := by
    rw [(runCopies_copies hpl hmeets _ op).1 a a' h]
    exact if_pos rfl
  obtain ⟨hcopied, hkept⟩ := hclip.2 (fun _ => 1) op
  by_cases hplace : ∃ b, Copied r.w r.h r.ow r.oh r.posX r.posY a b r.bgColor
  · obtain ⟨b, hb⟩ := hplace
    have hop := hcopied a b hb
    rw [hwritten] at hop
    by_cases heq : b = a'
    · rwa [← heq]
    · rw [show op b = 1 from if_neg heq] at hop
      exact absurd hop (by decide)
  · have hbg := hkept a fun b hb => hplace ⟨b, hb⟩
    rw [hwritten] at hbg
    exact absurd hbg (by decide)

theorem aligned_of_clips (hclip : r.ClipsAndCopies) : r.Aligned := by
  have hwhole := whole hpl
  have hin := inside hpl hmeets
  obtain ⟨hposX, hposY⟩ := place_eq r.supported hwhole ⟨hin.left, hin.top, hin.wide, hin.high⟩ (roundX_le r.posX)
    (roundY_le r.bgColor r.posY) fun a h => copied_of_moves hpl hmeets hclip ((moves_copies_iff hpl hmeets).mpr h)
  rw [Aligned, hposX, hposY]
  exact ⟨hwhole.col, hwhole.row⟩

end

theorem Aligned.rounds (h : r.Aligned) : r.x = r.posX ∧ r.y = r.posY := by
  obtain ⟨hx, hy⟩ := h
  have hx2 : 2 ∣ r.posX := Nat.dvd_trans (two_dvd_unit r.bgColor) hx
  refine ⟨if_neg (by omega), if_neg ?_⟩
  rintro ⟨hfmt, hodd⟩
  rcases hfmt with hfmt | hfmt <;> rw [hfmt] at hy <;> change 2 ∣ r.posY at hy <;> omega

theorem Aligned.placed (h : r.Aligned) : ¬ r.Misplaced := by
  rintro ⟨hfmt, hpos⟩
  rw [h.rounds.1, h.rounds.2] at hpos
  obtain ⟨hx, hy⟩ := h
  rw [hfmt] at hx hy
  change 16 ∣ r.posX at hx
  change 16 ∣ r.posY at hy
  omega

theorem clips_of_aligned (h : r.Aligned) (hmeets : r.Meets) : r.ClipsAndCopies := by
  have hpl := h.placed
  have hmoves : ∀ a a', Moves r.copies a a' ↔ Copied r.w r.h r.ow r.oh r.posX r.posY a a' r.bgColor := by
    intro a a'
    rw [moves_copies_iff hpl hmeets, h.rounds.1, h.rounds.2]
  refine ⟨copies_inBounds hpl hmeets, fun bg op => ?_⟩
  simp only [← hmoves]
  exact runCopies_copies hpl hmeets bg op

theorem not_clips_misplaced (hmis : r.Misplaced) (hmeets : r.Meets) : ¬ r.ClipsAndCopies := by
  -- the luma samples have a place, and nothing was copied
  intro hclip
  obtain ⟨a, a', hcopied⟩ : ∃ a a', Copied r.w r.h r.ow r.oh r.posX r.posY a a' r.bgColor := by
    obtain ⟨hx, hy, how, hoh⟩ := hmeets
    rw [hmis.1]
    refine ⟨_, _, _, List.mem_cons_self, ⟨Nat.one_dvd _, Nat.one_dvd _⟩, 0, ?_, 0, ?_, ?_, ?_, 0, Nat.zero_lt_one, rfl, rfl⟩ <;>
      simpa only [blocks, Nat.div_one]
  have hmoved := (hclip.2 (fun _ => 0) (fun _ => 1)).1 a a' hcopied
  rw [copies_misplaced hmis] at hmoved
  change (0 : UInt8) = 1 at hmoved
  exact absurd hmoved (by decide)

/-- **The routine clips, then copies** exactly for these calls. -/
theorem imgOverlap_clips_iff (r : Request) : r.ClipsAndCopies ↔ r.Clips := by
  unfold Clips
  by_cases hmeets : r.Meets
  · rw [if_pos hmeets]
    refine ⟨fun hclip => ?_, fun h => clips_of_aligned h hmeets⟩
    by_cases hmis : r.Misplaced
    · exact absurd hclip (not_clips_misplaced hmis hmeets)
    · exact aligned_of_clips hmis hmeets hclip
  · rw [if_neg hmeets, clips_iff_empty hmeets]
    by_cases hmis : r.Misplaced
    · rw [copies_misplaced hmis]
      exact iff_of_true (fun c hc => absurd hc List.not_mem_nil) (.inl hmis)
    · rw [copies_empty_iff hmis, or_iff_right hmis]

end Request

def beside : Request where
  bgColor := .yuv422
  w := 2
  h := 2
  ow := 2
  oh := 2
  posX := 4
  posY := 0
  supported := by decide
  width := by decide
  height := by decide
  opWidth := by decide
  opHeight := by decide
  size := by decide
  opSize := by decide
  uint32 := by decide

theorem imgOverlap_beside : ¬ beside.ClipsAndCopies := by
  rintro ⟨hbounds, -⟩
  have hcopy : (⟨8, 0, 4294967292⟩ : Copy) ∈ beside.copies := by decide
  exact absurd (hbounds _ hcopy (by decide)) (by decide)

end NuWicam.Media.ImgOverlap
