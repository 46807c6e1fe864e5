import NuWicam.Media.TextOverlap

/-!
# The text that is composed into a frame

What the three passes of `TextOverlap_Overlap` leave in their images, and the overlay that they are meant to compute: pixel by
pixel, the luma of the glyph where it is not the colour key, and its chroma where one of the luma samples that share it is
replaced (`text_compositing`).
-/

namespace NuWicam.Media

open Lib List

/-! ## The packed text -/

def TextOverlap.luma (o : TextOverlap) (glyph : Nat → Image) (x y : Nat) : UInt8 :=
  glyph (x / o.fontWidth) (2 * (y * o.fontWidth + x % o.fontWidth))

def TextOverlap.chroma (o : TextOverlap) (glyph : Nat → Image) (x y : Nat) : UInt8 :=
  glyph (x / o.fontWidth) (2 * (y * o.fontWidth + x % o.fontWidth) + 1)

section Pack

variable {o : TextOverlap} {glyph : Nat → Image} {num x y c : Nat}

theorem mem_packWrites {w : Nat × UInt8} : w ∈ packWrites o glyph num ↔ ∃ i < num, ∃ y < o.fontHeight,
    ∃ k < o.fontWidth * 2, w = ((y * o.textWidth num + i * o.fontWidth) * 2 + k, glyph i (y * (o.fontWidth * 2) + k)) := by
  simp [packWrites, eq_comm]

theorem packTextImg_eq (textImg : Image) (hx : x < o.textWidth num) (hy : y < o.fontHeight) (hc : c < 2) :
    packTextImg o glyph num textImg (2 * (y * o.textWidth num + x) + c) =
      glyph (x / o.fontWidth) (2 * (y * o.fontWidth + x % o.fontWidth) + c) := by
  have hpos : 0 < o.fontWidth := by
    refine Nat.pos_of_ne_zero fun h => ?_
    rw [TextOverlap.textWidth, h, Nat.zero_mul] at hx
    omega
  have hi : x / o.fontWidth < num := Nat.div_lt_of_lt_mul hx
  have hk : x % o.fontWidth < o.fontWidth := Nat.mod_lt x hpos
  have hdiv : x / o.fontWidth * o.fontWidth + x % o.fontWidth = x := Nat.div_add_mod' x o.fontWidth
  refine storeAll_of_written (P := fun v => v = _)
    (v := glyph (x / o.fontWidth) (y * (o.fontWidth * 2) + (2 * (x % o.fontWidth) + c)))
    (mem_packWrites.mpr ⟨_, hi, y, hy, 2 * (x % o.fontWidth) + c, by omega, ?_⟩) ?_
  · congr 1
    omega
  · intro w hw ha
    obtain ⟨i', hi', y', hy', k', hk', rfl⟩ := mem_packWrites.mp hw
    dsimp only at ha ⊢
    -- the glyph and the column in it are the coordinates of a column of the text
    have hx' : i' * o.fontWidth + k' / 2 < o.textWidth num := by
      rw [TextOverlap.textWidth, Nat.mul_comm o.fontWidth]
      exact rows_lt (by omega) hi'
    obtain ⟨hcol, rfl⟩ := rows_inj y y' hx hx' (by omega)
    obtain ⟨hcol, hglyph⟩ := rows_inj (x / o.fontWidth) i' hk (by omega) (hdiv.trans hcol)
    rw [hglyph, hcol]
    congr 1
    rw [← Nat.mul_assoc]
    omega

theorem packTextImg_luma (textImg : Image) (hx : x < o.textWidth num) (hy : y < o.fontHeight) :
    (packTextImg o glyph num textImg).luma (y * o.textWidth num + x) = o.luma glyph x y :=
  packTextImg_eq textImg hx hy Nat.zero_lt_two

theorem packTextImg_chroma (textImg : Image) (hx : x < o.textWidth num) (hy : y < o.fontHeight) :
    (packTextImg o glyph num textImg).chroma (y * o.textWidth num + x) = o.chroma glyph x y :=
  packTextImg_eq textImg hx hy Nat.one_lt_two

end Pack

/-! ## The converted text -/

theorem average_self (v : UInt8) : average v v = v := by
  rw [average, ← Nat.two_mul, Nat.mul_div_cancel_left _ Nat.zero_lt_two, UInt8.ofNat_toNat]

theorem average_comm (a b : UInt8) : average a b = average b a := by
  rw [average, average, Nat.add_comm]

section Planar

variable {src : Image} {w h a b j i d : Nat} {c : Nat × UInt8}

theorem mem_planarWrites (src : Image) (w h : Nat) : c ∈ planarWrites src w h ↔
    ∃ j < (h + 1) / 2, ∃ i < (w + 1) / 2, c ∈ planarTurn src w h j i := by
  simp [planarWrites]

theorem planarTurn_values (hc : c ∈ planarTurn src w h j i) : (c.1 ≤ (2 * j + 1) * w + (2 * i + 1) ∧ c.2 = src.luma c.1) ∨
    ∃ d < 2, c.1 = w * h + d * (w * h / 4) + (j * ((w + 1) / 2) + i) ∧
      c.2 = average (src.chroma (2 * j * w + (2 * i + d))) (src.chroma ((2 * j + 1) * w + (2 * i + d))) := by
  have hrow : 2 * j * w ≤ (2 * j + 1) * w := Nat.mul_le_mul_right w (Nat.le_succ _)
  simp only [planarTurn, mem_cons, not_mem_nil, or_false] at hc
  rcases hc with rfl | rfl | rfl | rfl | rfl | rfl
  · exact .inl ⟨by dsimp only; omega, rfl⟩
  · exact .inl ⟨by dsimp only; omega, rfl⟩
  · exact .inl ⟨by dsimp only; omega, rfl⟩
  · exact .inl ⟨by dsimp only; omega, rfl⟩
  · exact .inr ⟨0, by omega, by simp, rfl⟩
  · exact .inr ⟨1, by omega, by simp, rfl⟩

theorem mem_planarTurn_luma (src : Image) (w h j i : Nat) {dx dy : Nat} (hdx : dx < 2) (hdy : dy < 2) :
    ((2 * j + dy) * w + (2 * i + dx), src.luma ((2 * j + dy) * w + (2 * i + dx))) ∈ planarTurn src w h j i := by
  rcases Nat.le_one_iff_eq_zero_or_eq_one.mp (Nat.le_of_lt_succ hdx) with rfl | rfl <;>
    rcases Nat.le_one_iff_eq_zero_or_eq_one.mp (Nat.le_of_lt_succ hdy) with rfl | rfl <;> simp [planarTurn, Nat.add_assoc]

theorem mem_planarTurn_chroma (src : Image) (w h j i : Nat) (hd : d < 2) : (w * h + d * (w * h / 4) + (j * ((w + 1) / 2) + i),
      average (src.chroma (2 * j * w + (2 * i + d))) (src.chroma ((2 * j + 1) * w + (2 * i + d)))) ∈ planarTurn src w h j i := by
  rcases Nat.le_one_iff_eq_zero_or_eq_one.mp (Nat.le_of_lt_succ hd) with rfl | rfl <;> simp [planarTurn, Nat.add_assoc]

theorem even_quarter (a b : Nat) : 2 * a * (2 * b) / 4 = a * b := by
  rw [Nat.mul_mul_mul_comm]
  omega

theorem planarWrites_cases (hc : c ∈ planarWrites src (2 * a) (2 * b)) : (c.1 < 2 * a * (2 * b) ∧ c.2 = src.luma c.1) ∨
    ∃ j < b, ∃ i < a, ∃ d < 2, c.1 = 2 * a * (2 * b) + d * (a * b) + (j * a + i) ∧
      c.2 = average (src.chroma (2 * j * (2 * a) + (2 * i + d))) (src.chroma ((2 * j + 1) * (2 * a) + (2 * i + d))) := by
  obtain ⟨j, hj, i, hi, hc⟩ := (mem_planarWrites src _ _).mp hc
  rcases planarTurn_values hc with ⟨haddr, hv⟩ | ⟨d, hd, haddr, hv⟩
  · have hlt : (2 * j + 1) * (2 * a) + (2 * i + 1) < 2 * b * (2 * a) := rows_lt (by omega) (by omega)
    rw [Nat.mul_comm (2 * b)] at hlt
    exact .inl ⟨by omega, hv⟩
  · rw [even_quarter, show (2 * a + 1) / 2 = a by omega] at haddr
    exact .inr ⟨j, by omega, i, by omega, d, hd, haddr, hv⟩

theorem planar_luma (dst : Image) {x y : Nat} (hx : x < 2 * a) (hy : y < 2 * b) :
    storeAll dst (planarWrites src (2 * a) (2 * b)) (y * (2 * a) + x) = src.luma (y * (2 * a) + x) := by
  have hmem := mem_planarTurn_luma src (2 * a) (2 * b) (y / 2) (x / 2) (Nat.mod_lt x Nat.zero_lt_two)
    (Nat.mod_lt y Nat.zero_lt_two)
  rw [Nat.div_add_mod, Nat.div_add_mod] at hmem
  refine storeAll_of_written (P := fun v => v = _)
    ((mem_planarWrites src _ _).mpr ⟨y / 2, by omega, x / 2, by omega, hmem⟩) fun c hc ha => ?_
  have hlt : y * (2 * a) + x < 2 * b * (2 * a) := rows_lt hx hy
  rw [Nat.mul_comm (2 * b)] at hlt
  rcases planarWrites_cases hc with ⟨-, hv⟩ | ⟨j, -, i, -, d, -, haddr, -⟩
  · rw [hv, ha]
  · omega

theorem planar_chroma (dst : Image) (hd : d < 2) (hj : j < b) (hi : i < a) :
    storeAll dst (planarWrites src (2 * a) (2 * b)) (2 * a * (2 * b) + d * (a * b) + (j * a + i)) =
      average (src.chroma (2 * j * (2 * a) + (2 * i + d))) (src.chroma ((2 * j + 1) * (2 * a) + (2 * i + d))) := by
  have hmem := mem_planarTurn_chroma src (2 * a) (2 * b) j i hd
  rw [even_quarter, show (2 * a + 1) / 2 = a by omega] at hmem
  refine storeAll_of_written (P := fun v => v = _)
    ((mem_planarWrites src _ _).mpr ⟨j, by omega, i, by omega, hmem⟩) fun c hc ha => ?_
  have hlt : ∀ j' < b, ∀ i' < a, j' * a + i' < b * a := fun j' hj' i' hi' => rows_lt hi' hj'
  rcases planarWrites_cases hc with ⟨haddr, -⟩ | ⟨j', hj', i', hi', d', hd', haddr, hv⟩
  · omega
  · -- a plane and a place in it
    have hplane : d' * (b * a) + (j' * a + i') = d * (b * a) + (j * a + i) := by
      rw [Nat.mul_comm b a]
      omega
    obtain ⟨hplace, rfl⟩ := rows_inj d' d (hlt j' hj' i' hi') (hlt j hj i hi) hplane
    obtain ⟨rfl, rfl⟩ := rows_inj j' j hi' hi hplace
    exact hv

theorem colorTrans_yuv422 (tw th : Nat) (src dst : Image) :
    colorTrans .yuv422 tw th src dst = some fun a => if a < tw * th * 2 then src a else dst a := if_pos rfl

theorem colorTrans_yuv420P {tw th : Nat} (hw : tw < 65535) (hh : th < 65535) (src dst : Image) :
    colorTrans .yuv420P tw th src dst = some (storeAll dst (planarWrites src tw th)) := by
  rw [colorTrans, if_neg (by decide), imgProcCst, if_pos rfl, yuv422ToYuv420Planar, Nat.mod_eq_of_lt (by omega),
    Nat.mod_eq_of_lt (by omega), if_neg (by omega)]

end Planar

/-! ## The reference overlay -/

structure Overlay where
  x : Nat
  y : Nat
  width : Nat
  height : Nat
  key : UInt8
  luma : Nat → Nat → UInt8
  chroma : Nat → Nat → UInt8

namespace Overlay

def Replaces (v : Overlay) (px py : Nat) : Prop :=
  v.x ≤ px ∧ px < v.x + v.width ∧ v.y ≤ py ∧ py < v.y + v.height ∧ v.luma (px - v.x) (py - v.y) ≠ v.key

instance (v : Overlay) (px py : Nat) : Decidable (v.Replaces px py) := inferInstanceAs (Decidable (_ ∧ _))

/-- **The overlay in YUV422**: two pixels share their chroma. -/
def yuv422 (v : Overlay) (w : Nat) (bg : Image) : Image := fun a =>
  let px := a / 2 % w
  let py := a / 2 / w
  if a % 2 = 0 then if v.Replaces px py then v.luma (px - v.x) (py - v.y) else bg a
  else if v.Replaces (px / 2 * 2) py ∨ v.Replaces (px / 2 * 2 + 1) py then v.chroma (px - v.x) (py - v.y)
  else bg a

def ReplacesBlock (v : Overlay) (px py : Nat) : Prop :=
  v.Replaces px py ∨ v.Replaces (px + 1) py ∨ v.Replaces px (py + 1) ∨ v.Replaces (px + 1) (py + 1)

instance (v : Overlay) (px py : Nat) : Decidable (v.ReplacesBlock px py) := inferInstanceAs (Decidable (_ ∨ _))

/-- A chroma sample in YUV420: `c` is 0 for U and 1 for V -/
def shared (v : Overlay) (c px py : Nat) : UInt8 :=
  average (v.chroma (px + c - v.x) (py - v.y)) (v.chroma (px + c - v.x) (py + 1 - v.y))

/-- **The overlay in YUV420P**: a plane of luma, and a plane of a quarter of its size for U and one for V. -/
def yuv420P (v : Overlay) (w h : Nat) (bg : Image) : Image := fun a =>
  let plane (n c : Nat) :=
    let px := 2 * (n % (w / 2))
    let py := 2 * (n / (w / 2))
    if v.ReplacesBlock px py then v.shared c px py else bg a
  if a < w * h then if v.Replaces (a % w) (a / w) then v.luma (a % w - v.x) (a / w - v.y) else bg a
  else if a < w * h + w * h / 4 then plane (a - w * h) 0
  else if a < w * h + 2 * (w * h / 4) then plane (a - w * h - w * h / 4) 1
  else bg a

variable {v : Overlay} {w h px py : Nat} {bg : Image}

theorem yuv422_luma (hpx : px < w) : v.yuv422 w bg (2 * (py * w + px)) =
    if v.Replaces px py then v.luma (px - v.x) (py - v.y) else bg (2 * (py * w + px)) := by
  unfold yuv422
  rw [Nat.mul_div_cancel_left _ Nat.zero_lt_two, rows_mod hpx, rows_div hpx, if_pos (by omega)]

theorem yuv422_chroma (hpx : px < w) : v.yuv422 w bg (2 * (py * w + px) + 1) =
    if v.Replaces (px / 2 * 2) py ∨ v.Replaces (px / 2 * 2 + 1) py then v.chroma (px - v.x) (py - v.y)
    else bg (2 * (py * w + px) + 1) := by
  have hdiv : (2 * (py * w + px) + 1) / 2 = py * w + px := by omega
  unfold yuv422
  rw [hdiv, rows_mod hpx, rows_div hpx, if_neg (by omega)]

theorem replaces_iff {x y : Nat} (hx : x < v.width) (hy : y < v.height) :
    v.Replaces (v.x + x) (v.y + y) ↔ v.luma x y ≠ v.key := by
  simp [Replaces, hx, hy]

theorem Replaces.exists_text (h : v.Replaces px py) :
    ∃ x < v.width, ∃ y < v.height, px = v.x + x ∧ py = v.y + y ∧ v.luma x y ≠ v.key := by
  obtain ⟨hx, hx', hy, hy', hkey⟩ := h
  exact ⟨px - v.x, by omega, py - v.y, by omega, by omega, by omega, hkey⟩

end Overlay

/-! ## Blending -/

theorem mem_writes {key : UInt8} {t : Image} {b : TextBlock} {w : Nat × UInt8} : w ∈ b.writes key t ↔
    ∃ l ∈ b.luma, t l.2 ≠ key ∧ ∃ c ∈ l :: b.chroma, w = (c.1, t c.2) := by
  unfold TextBlock.writes
  rw [mem_flatMap]
  refine exists_congr fun l => and_congr_right fun _ => ?_
  by_cases hkey : t l.2 = key
  · simp [hkey]
  · simp [hkey, eq_comm]

theorem mem_grid {rows cols : Nat} {f : Nat → Nat → TextBlock} {b : TextBlock} :
    b ∈ grid rows cols f ↔ ∃ j < rows, ∃ i < cols, b = f j i := by
  simp [grid, eq_comm]

theorem u32_of_lt {n : Nat} (h : n < 2 ^ 32) : u32 n = n := Nat.mod_eq_of_lt h

/-- The text lies inside of an image that has its addresses below `2^32`, at an even column. -/
structure Overlay.Inside (v : Overlay) (w h : Nat) : Prop where
  evenX : v.x % 2 = 0
  evenWidth : v.width % 2 = 0
  right : v.x + v.width ≤ w
  bottom : v.y + v.height ≤ h
  small : 2 * (h * w) ≤ 2 ^ 32

def Overlay.pixel (v : Overlay) (w x y : Nat) : Nat := (v.y + y) * w + (v.x + x)

def Overlay.textPixel (v : Overlay) (x y : Nat) : Nat := y * v.width + x

section Yuv422

variable {v : Overlay} {t bg : Image} {w h : Nat}

def Overlay.Packed (v : Overlay) (t : Image) : Prop :=
  ∀ x < v.width, ∀ y < v.height, t (2 * v.textPixel x y) = v.luma x y ∧ t (2 * v.textPixel x y + 1) = v.chroma x y

theorem mem_overlapYuv422 (hin : v.Inside w h) {b : TextBlock} : b ∈ overlapYuv422 v.width v.height w v.x v.y ↔
    ∃ y < v.height, ∃ i < v.width / 2, b = ⟨[(2 * v.pixel w (2 * i) y, 2 * v.textPixel (2 * i) y),
        (2 * v.pixel w (2 * i + 1) y, 2 * v.textPixel (2 * i + 1) y)],
      [(2 * v.pixel w (2 * i) y + 1, 2 * v.textPixel (2 * i) y + 1),
        (2 * v.pixel w (2 * i + 1) y + 1, 2 * v.textPixel (2 * i + 1) y + 1)]⟩ := by
  obtain ⟨-, heven, hright, hbottom, hsmall⟩ := hin
  rw [overlapYuv422, mem_grid, show (v.width + 1) / 2 = v.width / 2 by omega]
  refine exists_congr fun y => and_congr_right fun hy => exists_congr fun i => and_congr_right fun hi => ?_
  have hlt : (v.y + y) * w + (v.x + (2 * i + 1)) < h * w := rows_lt (by omega) (by omega)
  have hbg : (v.y * w + v.x) * 2 + y * (w * 2) + 4 * i = 2 * ((v.y + y) * w + (v.x + 2 * i)) := by
    rw [Nat.add_mul v.y y w, ← Nat.mul_assoc]
    omega
  have ho : y * (v.width * 2) + 4 * i = 2 * (y * v.width + 2 * i) := by
    rw [← Nat.mul_assoc]
    omega
  dsimp only
  rw [hbg, ho, u32_of_lt (by omega), u32_of_lt (by omega), u32_of_lt (by omega), u32_of_lt (by omega)]
  rfl

theorem yuv422_writes (hin : v.Inside w h) (ht : v.Packed t) :
    ∀ b ∈ overlapYuv422 v.width v.height w v.x v.y, ∀ c ∈ b.writes v.key t, c.2 = v.yuv422 w bg c.1 := by
  intro b hb c hc
  obtain ⟨y, hy, i, hi, rfl⟩ := (mem_overlapYuv422 hin).mp hb
  obtain ⟨heven, -, hright, -, -⟩ := hin
  obtain ⟨l, hl, hkey, c', hc', rfl⟩ := mem_writes.mp hc
  simp only [mem_cons, not_mem_nil, or_false] at hl hc'
  have ht₀ := ht (2 * i) (by omega) y hy
  have ht₁ := ht (2 * i + 1) (by omega) y hy
  -- one of the two pixels is replaced, and so both chroma bytes are
  have hreplaced : v.Replaces (v.x + 2 * i) (v.y + y) ∨ v.Replaces (v.x + 2 * i + 1) (v.y + y) := by
    rw [Nat.add_assoc, Overlay.replaces_iff (by omega) hy, Overlay.replaces_iff (by omega) hy, ← ht₀.1, ← ht₁.1]
    rcases hl with rfl | rfl
    · exact .inl hkey
    · exact .inr hkey
  have hluma : ∀ x < v.width, v.luma x y ≠ v.key → v.luma x y = v.yuv422 w bg (2 * v.pixel w x y) := by
    intro x hx hne
    rw [Overlay.pixel, Overlay.yuv422_luma (by omega), if_pos ((Overlay.replaces_iff hx hy).mpr hne)]
    simp
  have hchroma : ∀ x < v.width, x / 2 * 2 = 2 * i → v.chroma x y = v.yuv422 w bg (2 * v.pixel w x y + 1) := by
    intro x hx hpair
    rw [Overlay.pixel, Overlay.yuv422_chroma (by omega), show (v.x + x) / 2 * 2 = v.x + 2 * i by omega, if_pos hreplaced]
    simp
  rcases hc' with rfl | rfl | rfl
  · rcases hl with rfl | rfl
    · exact ht₀.1.trans (hluma _ (by omega) (ht₀.1 ▸ hkey))
    · exact ht₁.1.trans (hluma _ (by omega) (ht₁.1 ▸ hkey))
  · exact ht₀.2.trans (hchroma _ (by omega) (by omega))
  · exact ht₁.2.trans (hchroma _ (by omega) (by omega))

theorem yuv422_written (hin : v.Inside w h) (ht : v.Packed t) {x y : Nat} (hx : x < v.width) (hy : y < v.height)
    (hne : v.luma x y ≠ v.key) {a : Nat} (ha : a = 2 * v.pixel w x y ∨ a = 2 * v.pixel w (x / 2 * 2) y + 1 ∨
      a = 2 * v.pixel w (x / 2 * 2 + 1) y + 1) :
    ∃ b ∈ overlapYuv422 v.width v.height w v.x v.y, ∃ c ∈ b.writes v.key t, c.1 = a := by
  have heven := hin.evenWidth
  refine ⟨_, (mem_overlapYuv422 hin).mpr ⟨y, hy, x / 2, by omega, rfl⟩, ?_⟩
  obtain ⟨l, hl, hl₁, hl₂⟩ : ∃ l ∈ [(2 * v.pixel w (2 * (x / 2)) y, 2 * v.textPixel (2 * (x / 2)) y),
      (2 * v.pixel w (2 * (x / 2) + 1) y, 2 * v.textPixel (2 * (x / 2) + 1) y)],
      l.1 = 2 * v.pixel w x y ∧ l.2 = 2 * v.textPixel x y := by
    rcases Nat.mod_two_eq_zero_or_one x with hpar | hpar
    · exact ⟨_, mem_cons_self, by rw [show 2 * (x / 2) = x by omega], by rw [show 2 * (x / 2) = x by omega]⟩
    · exact ⟨_, mem_cons_of_mem _ mem_cons_self, by rw [show 2 * (x / 2) + 1 = x by omega],
        by rw [show 2 * (x / 2) + 1 = x by omega]⟩
  have hkey : t l.2 ≠ v.key := by
    rw [hl₂, (ht x hx y hy).1]
    exact hne
  rcases ha with rfl | rfl | rfl
  · exact ⟨_, mem_writes.mpr ⟨l, hl, hkey, l, by simp, rfl⟩, hl₁⟩
  · exact ⟨_, mem_writes.mpr ⟨l, hl, hkey, _, mem_cons_of_mem _ mem_cons_self, rfl⟩, by rw [Nat.mul_comm (x / 2) 2]⟩
  · exact ⟨_, mem_writes.mpr ⟨l, hl, hkey, _, mem_cons_of_mem _ (mem_cons_of_mem _ mem_cons_self), rfl⟩,
      by rw [Nat.mul_comm (x / 2) 2]⟩

theorem yuv422_rest (hin : v.Inside w h) (ht : v.Packed t) {a : Nat}
    (ha : ∀ b ∈ overlapYuv422 v.width v.height w v.x v.y, ∀ c ∈ b.writes v.key t, c.1 ≠ a) : bg a = v.yuv422 w bg a := by
  have hnot : ∀ x < v.width, ∀ y < v.height, v.luma x y ≠ v.key → ¬ (a = 2 * v.pixel w x y ∨
      a = 2 * v.pixel w (x / 2 * 2) y + 1 ∨ a = 2 * v.pixel w (x / 2 * 2 + 1) y + 1) := by
    intro x hx y hy hne haddr
    obtain ⟨b, hb, c, hc, hca⟩ := yuv422_written hin ht hx hy hne haddr
    exact ha b hb c hc hca
  have hdiv : a / 2 = a / 2 / w * w + a / 2 % w := (Nat.div_add_mod' (a / 2) w).symm
  have heven := hin.evenX
  unfold Overlay.yuv422
  rcases Nat.mod_two_eq_zero_or_one a with hpar | hpar
  · rw [if_pos hpar, if_neg]
    intro hrep
    obtain ⟨x, hx, y, hy, hpx, hpy, hne⟩ := hrep.exists_text
    refine hnot x hx y hy hne (.inl ?_)
    rw [Overlay.pixel, ← hpx, ← hpy]
    omega
  · rw [if_neg (by omega), if_neg]
    intro hrep
    obtain ⟨x, hx, y, hy, hpx, hpy, hne⟩ : ∃ x < v.width, ∃ y < v.height, v.x + x / 2 * 2 = a / 2 % w / 2 * 2 ∧
        a / 2 / w = v.y + y ∧ v.luma x y ≠ v.key := by
      rcases hrep with hrep | hrep <;> obtain ⟨x, hx, y, hy, hpx, hpy, hne⟩ := hrep.exists_text <;>
        exact ⟨x, hx, y, hy, by omega, hpy, hne⟩
    refine hnot x hx y hy hne (.inr ?_)
    rw [Overlay.pixel, Overlay.pixel, ← hpy]
    omega

/-- **Blending in YUV422** computes the overlay. -/
theorem storeAll_yuv422 (hin : v.Inside w h) (ht : v.Packed t) :
    storeAll bg ((overlapYuv422 v.width v.height w v.x v.y).flatMap (TextBlock.writes v.key t)) = v.yuv422 w bg :=
  storeAll_flatMap_eq (yuv422_writes hin ht) fun _ => yuv422_rest hin ht

end Yuv422

section Yuv420P

variable {v : Overlay} {t bg : Image} {w h : Nat}

structure Overlay.InsideEven (v : Overlay) (w h : Nat) : Prop extends v.Inside w h where
  evenY : v.y % 2 = 0
  evenHeight : v.height % 2 = 0
  evenW : w % 2 = 0
  evenH : h % 2 = 0

def Overlay.sample (v : Overlay) (w h c i j : Nat) : Nat :=
  w * h + c * (w * h / 4) + ((v.y / 2 + j) * (w / 2) + (v.x / 2 + i))

def Overlay.textSample (v : Overlay) (c i j : Nat) : Nat :=
  v.width * v.height + c * (v.width * v.height / 4) + (j * (v.width / 2) + i)

structure Overlay.Planar (v : Overlay) (t : Image) : Prop where
  luma : ∀ x < v.width, ∀ y < v.height, t (v.textPixel x y) = v.luma x y
  chroma : ∀ c < 2, ∀ i < v.width / 2, ∀ j < v.height / 2, t (v.textSample c i j) =
    average (v.chroma (2 * i + c) (2 * j)) (v.chroma (2 * i + c) (2 * j + 1))

def Overlay.block (v : Overlay) (w h i j : Nat) : TextBlock where
  luma := [(0, 0), (1, 0), (0, 1), (1, 1)].map fun d =>
    (v.pixel w (2 * i + d.1) (2 * j + d.2), v.textPixel (2 * i + d.1) (2 * j + d.2))
  chroma := [0, 1].map fun c => (v.sample w h c i j, v.textSample c i j)

theorem quarter_eq (hw : w % 2 = 0) (hh : h % 2 = 0) : w * h / 4 = h / 2 * (w / 2) := by
  obtain ⟨a, rfl⟩ := Nat.dvd_of_mod_eq_zero hw
  obtain ⟨b, rfl⟩ := Nat.dvd_of_mod_eq_zero hh
  rw [even_quarter, Nat.mul_div_cancel_left b Nat.zero_lt_two, Nat.mul_div_cancel_left a Nat.zero_lt_two, Nat.mul_comm]

theorem Overlay.mem_block_luma {i j : Nat} {l : Nat × Nat} : l ∈ (v.block w h i j).luma ↔
    ∃ x y, x / 2 = i ∧ y / 2 = j ∧ l = (v.pixel w x y, v.textPixel x y) := by
  simp only [block, map_cons, map_nil, mem_cons, not_mem_nil, or_false]
  refine ⟨?_, ?_⟩
  · rintro (rfl | rfl | rfl | rfl)
    all_goals exact ⟨_, _, by omega, by omega, rfl⟩
  · rintro ⟨x, y, rfl, rfl, rfl⟩
    rcases Nat.mod_two_eq_zero_or_one x with hx | hx <;> rcases Nat.mod_two_eq_zero_or_one y with hy | hy
    · exact .inl (by rw [show 2 * (x / 2) + 0 = x by omega, show 2 * (y / 2) + 0 = y by omega])
    · exact .inr (.inr (.inl (by rw [show 2 * (x / 2) + 0 = x by omega, show 2 * (y / 2) + 1 = y by omega])))
    · exact .inr (.inl (by rw [show 2 * (x / 2) + 1 = x by omega, show 2 * (y / 2) + 0 = y by omega]))
    · exact .inr (.inr (.inr (by rw [show 2 * (x / 2) + 1 = x by omega, show 2 * (y / 2) + 1 = y by omega])))

theorem Overlay.mem_block_chroma {i j : Nat} {l : Nat × Nat} : l ∈ (v.block w h i j).chroma ↔
    ∃ c < 2, l = (v.sample w h c i j, v.textSample c i j) := by
  rw [Nat.exists_lt_succ_left, Nat.exists_lt_succ_left]
  simp [block]

theorem Overlay.pixel_right (x y : Nat) : v.pixel w (x + 1) y = v.pixel w x y + 1 := rfl

theorem Overlay.pixel_below (x y : Nat) : v.pixel w x (y + 1) = v.pixel w x y + w := by
  rw [pixel, pixel, ← Nat.add_assoc v.y, Nat.succ_mul (v.y + y)]
  omega

theorem Overlay.textPixel_right (x y : Nat) : v.textPixel (x + 1) y = v.textPixel x y + 1 := rfl

theorem Overlay.textPixel_below (x y : Nat) : v.textPixel x (y + 1) = v.textPixel x y + v.width := by
  rw [textPixel, textPixel, Nat.succ_mul]
  omega

theorem mem_overlapYuv420P (hin : v.InsideEven w h) {b : TextBlock} : b ∈ overlapYuv420P v.width v.height w h v.x v.y ↔
      ∃ j < v.height / 2, ∃ i < v.width / 2, b = v.block w h i j := by
  obtain ⟨⟨hevenX, hevenWidth, hright, hbottom, hsmall⟩, hevenY, hevenHeight, hevenW, hevenH⟩ := hin
  rw [overlapYuv420P, mem_grid, show (v.width + 1) / 2 = v.width / 2 by omega,
    show (v.height + 1) / 2 = v.height / 2 by omega]
  refine exists_congr fun j => and_congr_right fun hj => exists_congr fun i => and_congr_right fun hi => ?_
  have hlt : v.pixel w (2 * i + 1) (2 * j + 1) < h * w := rows_lt (by omega) (by omega)
  have hlt' : (v.y / 2 + j) * (w / 2) + (v.x / 2 + i) < h / 2 * (w / 2) := rows_lt (by omega) (by omega)
  have hquarter := quarter_eq hevenW hevenH
  have hcomm := Nat.mul_comm w h
  have hY : v.y * w + v.x + j * (w * 2) + 2 * i = v.pixel w (2 * i) (2 * j) := by
    rw [Overlay.pixel, Nat.add_mul v.y, Nat.mul_comm 2 j, Nat.mul_assoc j, Nat.mul_comm 2 w]
    omega
  have hU : w * h + (v.y / 2 * (w / 2) + v.x / 2) + j * (w / 2) + i =
      w * h + ((v.y / 2 + j) * (w / 2) + (v.x / 2 + i)) := by
    rw [Nat.add_mul (v.y / 2)]
    omega
  have hoY : j * (v.width * 2) + 2 * i = v.textPixel (2 * i) (2 * j) := by
    rw [Overlay.textPixel, Nat.mul_comm 2 j, Nat.mul_assoc j, Nat.mul_comm 2 v.width]
  rw [Overlay.pixel_below, Overlay.pixel_right] at hlt
  dsimp only
  rw [hY, hU, hoY, u32_of_lt (n := w * h) (by omega), u32_of_lt (by omega), u32_of_lt (by omega), u32_of_lt (by omega),
    u32_of_lt (by omega), u32_of_lt (by omega), u32_of_lt (by omega)]
  refine iff_of_eq (congrArg (b = ·) ?_)
  simp [Overlay.block, Overlay.pixel_right, Overlay.pixel_below, Overlay.textPixel_below, Overlay.textPixel_right,
    Overlay.sample, Overlay.textSample]
  omega

variable {c i j x y : Nat}

theorem Overlay.yuv420P_luma {px py : Nat} (hpx : px < w) (hpy : py < h) : v.yuv420P w h bg (py * w + px) =
    if v.Replaces px py then v.luma (px - v.x) (py - v.y) else bg (py * w + px) := by
  have hlt : py * w + px < w * h := Nat.mul_comm h w ▸ rows_lt hpx hpy
  unfold yuv420P
  rw [if_pos hlt, rows_mod hpx, rows_div hpx]

theorem Overlay.yuv420P_chroma (hin : v.InsideEven w h) (hc : c < 2) (hi : i < v.width / 2) (hj : j < v.height / 2) :
    v.yuv420P w h bg (v.sample w h c i j) = if v.ReplacesBlock (v.x + 2 * i) (v.y + 2 * j)
      then v.shared c (v.x + 2 * i) (v.y + 2 * j) else bg (v.sample w h c i j) := by
  obtain ⟨⟨hevenX, hevenWidth, hright, hbottom, hsmall⟩, hevenY, hevenHeight, hevenW, hevenH⟩ := hin
  have hx : v.x / 2 + i < w / 2 := by omega
  have hlt : (v.y / 2 + j) * (w / 2) + (v.x / 2 + i) < w * h / 4 := by
    rw [quarter_eq hevenW hevenH]
    exact rows_lt hx (by omega)
  have hpx : 2 * (v.x / 2 + i) = v.x + 2 * i := by omega
  have hpy : 2 * (v.y / 2 + j) = v.y + 2 * j := by omega
  unfold yuv420P
  dsimp only
  rw [sample]
  rcases Nat.le_one_iff_eq_zero_or_eq_one.mp (Nat.le_of_lt_succ hc) with rfl | rfl
  · rw [Nat.zero_mul, Nat.add_zero, if_neg (by omega), if_pos (by omega), Nat.add_sub_cancel_left, rows_mod hx, rows_div hx,
      hpx, hpy]
  · rw [Nat.one_mul, if_neg (by omega), if_neg (by omega), if_pos (by omega), Nat.sub_sub, Nat.add_sub_cancel_left,
      rows_mod hx, rows_div hx, hpx, hpy]

theorem Overlay.replacesBlock_iff {px py : Nat} :
    v.ReplacesBlock px py ↔ ∃ dx < 2, ∃ dy < 2, v.Replaces (px + dx) (py + dy) := by
  simp only [ReplacesBlock, Nat.exists_lt_succ_left, Nat.not_lt_zero, false_and, exists_false, or_false, Nat.add_zero,
    Nat.zero_add, or_assoc]
  tauto

theorem Overlay.shared_eq : v.shared c (v.x + 2 * i) (v.y + 2 * j) =
    average (v.chroma (2 * i + c) (2 * j)) (v.chroma (2 * i + c) (2 * j + 1)) := by
  simp [shared, Nat.add_assoc]

theorem yuv420P_writes (hin : v.InsideEven w h) (ht : v.Planar t) :
    ∀ b ∈ overlapYuv420P v.width v.height w h v.x v.y, ∀ c ∈ b.writes v.key t, c.2 = v.yuv420P w h bg c.1 := by
  intro b hb c hc
  obtain ⟨j, hj, i, hi, rfl⟩ := (mem_overlapYuv420P hin).mp hb
  obtain ⟨l, hl, hkey, c', hc', rfl⟩ := mem_writes.mp hc
  obtain ⟨x, y, rfl, rfl, rfl⟩ := Overlay.mem_block_luma.mp hl
  have hright := hin.right
  have hbottom := hin.bottom
  have hrep : v.Replaces (v.x + x) (v.y + y) := by
    rw [Overlay.replaces_iff (by omega) (by omega), ← ht.luma x (by omega) y (by omega)]
    exact hkey
  rcases mem_cons.mp hc' with rfl | hc'
  · rw [ht.luma x (by omega) y (by omega), Overlay.pixel, Overlay.yuv420P_luma (by omega) (by omega), if_pos hrep]
    simp
  · obtain ⟨p, hp, rfl⟩ := Overlay.mem_block_chroma.mp hc'
    have hblock : v.ReplacesBlock (v.x + 2 * (x / 2)) (v.y + 2 * (y / 2)) := by
      refine Overlay.replacesBlock_iff.mpr ⟨x % 2, by omega, y % 2, by omega, ?_⟩
      rwa [Nat.add_assoc, Nat.div_add_mod, Nat.add_assoc, Nat.div_add_mod]
    rw [Overlay.yuv420P_chroma hin hp hi hj, if_pos hblock, Overlay.shared_eq]
    exact ht.chroma p hp _ hi _ hj

theorem yuv420P_written (hin : v.InsideEven w h) (ht : v.Planar t) (hx : x < v.width) (hy : y < v.height)
    (hne : v.luma x y ≠ v.key) {a : Nat} (ha : a = v.pixel w x y ∨ ∃ c < 2, a = v.sample w h c (x / 2) (y / 2)) :
    ∃ b ∈ overlapYuv420P v.width v.height w h v.x v.y, ∃ c ∈ b.writes v.key t, c.1 = a := by
  have hwidth := hin.evenWidth
  have hheight := hin.evenHeight
  refine ⟨_, (mem_overlapYuv420P hin).mpr ⟨y / 2, by omega, x / 2, by omega, rfl⟩, ?_⟩
  have hl : (v.pixel w x y, v.textPixel x y) ∈ (v.block w h (x / 2) (y / 2)).luma :=
    Overlay.mem_block_luma.mpr ⟨x, y, rfl, rfl, rfl⟩
  have hkey : t (v.textPixel x y) ≠ v.key := by
    rw [ht.luma x hx y hy]
    exact hne
  rcases ha with rfl | ⟨c, hc, rfl⟩
  · exact ⟨_, mem_writes.mpr ⟨_, hl, hkey, _, mem_cons_self, rfl⟩, rfl⟩
  · exact ⟨_, mem_writes.mpr ⟨_, hl, hkey, _,
      mem_cons_of_mem _ (Overlay.mem_block_chroma.mpr ⟨c, hc, rfl⟩), rfl⟩, rfl⟩

theorem yuv420P_rest (hin : v.InsideEven w h) (ht : v.Planar t) {a : Nat}
    (ha : ∀ b ∈ overlapYuv420P v.width v.height w h v.x v.y, ∀ c ∈ b.writes v.key t, c.1 ≠ a) : bg a = v.yuv420P w h bg a := by
  have hnot : ∀ x < v.width, ∀ y < v.height, v.luma x y ≠ v.key →
      ¬ (a = v.pixel w x y ∨ ∃ c < 2, a = v.sample w h c (x / 2) (y / 2)) := by
    intro x hx y hy hne haddr
    obtain ⟨b, hb, c, hc, hca⟩ := yuv420P_written hin ht hx hy hne haddr
    exact ha b hb c hc hca
  -- a sample of the plane `c` whose block is replaced
  have hplane : ∀ c < 2, ∀ n, a = w * h + c * (w * h / 4) + n →
      ¬ v.ReplacesBlock (2 * (n % (w / 2))) (2 * (n / (w / 2))) := by
    intro c hc n hn hrep
    obtain ⟨dx, hdx, dy, hdy, hrep⟩ := Overlay.replacesBlock_iff.mp hrep
    obtain ⟨x, hx, y, hy, hpx, hpy, hne⟩ := hrep.exists_text
    have hevenX := hin.evenX
    have hevenY := hin.evenY
    refine hnot x hx y hy hne (.inr ⟨c, hc, ?_⟩)
    rw [hn, Overlay.sample, show v.y / 2 + y / 2 = n / (w / 2) by omega, show v.x / 2 + x / 2 = n % (w / 2) by omega,
      Nat.div_add_mod']
  unfold Overlay.yuv420P
  split
  · rw [if_neg]
    intro hrep
    obtain ⟨x, hx, y, hy, hpx, hpy, hne⟩ := hrep.exists_text
    refine hnot x hx y hy hne (.inl ?_)
    rw [Overlay.pixel, ← hpx, ← hpy, Nat.div_add_mod']
  · split
    · exact (if_neg (hplane 0 Nat.zero_lt_two _ (by omega))).symm
    · split
      · exact (if_neg (hplane 1 Nat.one_lt_two _ (by omega))).symm
      · rfl

/-- **Blending in YUV420P** computes the overlay. -/
theorem storeAll_yuv420P (hin : v.InsideEven w h) (ht : v.Planar t) :
    storeAll bg ((overlapYuv420P v.width v.height w h v.x v.y).flatMap (TextBlock.writes v.key t)) = v.yuv420P w h bg :=
  storeAll_flatMap_eq (yuv420P_writes hin ht) fun _ => yuv420P_rest hin ht

end Yuv420P

/-! ## `TextOverlap_Overlap` -/

def TextOverlap.overlay (o : TextOverlap) (glyph : Nat → Image) (num x y : Nat) : Overlay where
  x := x
  y := y
  width := o.textWidth num
  height := o.fontHeight
  key := o.key
  luma := o.luma glyph
  chroma := o.chroma glyph

section Overlap

variable {o : TextOverlap} {glyph : Nat → Image} {num : Nat}

theorem roundX_eq (posX : Nat) : roundX posX = posX / 2 * 2 := by
  unfold roundX
  split <;> omega

theorem roundY_eq (posY : Nat) : roundY .yuv420P posY = posY / 2 * 2 :=
  Eq.trans (by simp [roundY, roundX]) (roundX_eq posY)

theorem colorTrans_packed (o : TextOverlap) (glyph : Nat → Image) (num : Nat) (textImg textBGImg : Image) (x y : Nat) :
    ∃ t, colorTrans .yuv422 (o.textWidth num) o.fontHeight (packTextImg o glyph num textImg) textBGImg = some t ∧
      (o.overlay glyph num x y).Packed t := by
  refine ⟨_, colorTrans_yuv422 _ _ _ _, fun px hpx py hpy => ?_⟩
  have hlt : py * o.textWidth num + px < o.textWidth num * o.fontHeight := Nat.mul_comm o.fontHeight _ ▸ rows_lt hpx hpy
  have hlt₀ : 2 * (py * o.textWidth num + px) < o.textWidth num * o.fontHeight * 2 := by omega
  have hlt₁ : 2 * (py * o.textWidth num + px) + 1 < o.textWidth num * o.fontHeight * 2 := by omega
  exact ⟨(if_pos hlt₀).trans (packTextImg_luma textImg hpx hpy), (if_pos hlt₁).trans (packTextImg_chroma textImg hpx hpy)⟩

theorem colorTrans_planar (glyph : Nat → Image) (textImg textBGImg : Image) (x y : Nat) (hw : o.textWidth num % 2 = 0)
    (hw' : o.textWidth num < 65535) (hh : o.fontHeight % 2 = 0) (hh' : o.fontHeight < 65535) :
    ∃ t, colorTrans .yuv420P (o.textWidth num) o.fontHeight (packTextImg o glyph num textImg) textBGImg = some t ∧
      (o.overlay glyph num x y).Planar t := by
  obtain ⟨a, ha⟩ := Nat.dvd_of_mod_eq_zero hw
  obtain ⟨b, hb⟩ := Nat.dvd_of_mod_eq_zero hh
  refine ⟨_, colorTrans_yuv420P hw' hh' _ _, ?_, ?_⟩
  · intro px hpx py hpy
    have hpx' : px < o.textWidth num := hpx
    have hluma : (packTextImg o glyph num textImg).luma (py * o.textWidth num + px) = o.luma glyph px py :=
      packTextImg_luma textImg hpx' hpy
    rw [ha] at hpx' hluma
    dsimp only [TextOverlap.overlay]
    rw [ha, hb]
    exact (planar_luma textBGImg hpx' (hb ▸ hpy)).trans hluma
  · intro c hc i hi j hj
    have hi' : i < o.textWidth num / 2 := hi
    have hj' : j < o.fontHeight / 2 := hj
    have hchroma : ∀ y < o.fontHeight, (packTextImg o glyph num textImg).chroma (y * o.textWidth num + (2 * i + c)) =
        o.chroma glyph (2 * i + c) y := fun y hy => packTextImg_chroma textImg (by omega) hy
    rw [Overlay.textSample]
    dsimp only [TextOverlap.overlay]
    rw [← hchroma (2 * j) (by omega), ← hchroma (2 * j + 1) (by omega), ha, hb, even_quarter,
      Nat.mul_div_cancel_left a Nat.zero_lt_two]
    exact planar_chroma textBGImg hc (by omega) (by omega)

theorem overlapError_none {bgColor : ColorFormat} {h posX posY : Nat} (hcolor : bgColor ≠ .yuv420PMb)
    (hnum : num ≤ o.maxTexts) (hy : posY + o.fontHeight ≤ h) (hh : h < 2 ^ 32) :
    overlapError o num bgColor h posX posY = none := by
  have hwrap : u32 (posY + o.fontHeight) = posY + o.fontHeight := u32_of_lt (by omega)
  simp [overlapError, hwrap, Nat.not_lt.mpr hnum, Nat.not_lt.mpr hy, hcolor]

theorem textWidth_even (hwidth : o.fontWidth % 2 = 0) (num : Nat) : o.textWidth num % 2 = 0 := by
  rw [TextOverlap.textWidth, Nat.mul_mod, hwidth, Nat.zero_mul]

theorem textOverlapOverlap_yuv422 (glyph : Nat → Image) (bg : Image) (temp : TextImages) {w h posX posY : Nat}
    (hsmall : 2 * (h * w) ≤ 2 ^ 32) (hh : h < 2 ^ 32) (hwidth : o.fontWidth % 2 = 0) (hnum : num ≤ o.maxTexts)
    (hx : posX / 2 * 2 + o.textWidth num ≤ w) (hy : posY + o.fontHeight ≤ h) :
    ∃ temp', textOverlapOverlap (some o) glyph num bg .yuv422 w h posX posY temp =
      some (.ok ((o.overlay glyph num (posX / 2 * 2) posY).yuv422 w bg, temp')) := by
  obtain ⟨t, hconv, ht⟩ := colorTrans_packed o glyph num temp.textImg temp.textBGImg (posX / 2 * 2) posY
  have hin : (o.overlay glyph num (posX / 2 * 2) posY).Inside w h :=
    ⟨by simp [TextOverlap.overlay], textWidth_even hwidth num, hx, hy, hsmall⟩
  refine ⟨⟨packTextImg o glyph num temp.textImg, t⟩, ?_⟩
  rw [textOverlapOverlap, overlapError_none (by decide) hnum hy hh, drawText, hconv, roundX_eq, ← storeAll_yuv422 hin ht]
  rfl

theorem textOverlapOverlap_yuv420P (glyph : Nat → Image) (bg : Image) (temp : TextImages) {w h posX posY : Nat}
    (hw : w % 2 = 0 ∧ w < 2 ^ 14) (hh : h % 2 = 0 ∧ h < 2 ^ 14) (hfont : o.fontWidth % 2 = 0 ∧ o.fontHeight % 2 = 0)
    (hnum : num ≤ o.maxTexts) (hx : posX / 2 * 2 + o.textWidth num ≤ w) (hy : posY + o.fontHeight ≤ h) :
    ∃ temp', textOverlapOverlap (some o) glyph num bg .yuv420P w h posX posY temp =
      some (.ok ((o.overlay glyph num (posX / 2 * 2) (posY / 2 * 2)).yuv420P w h bg, temp')) := by
  have heven := textWidth_even hfont.1 num
  have hsmall := Nat.mul_le_mul hh.2.le hw.2.le
  obtain ⟨t, hconv, ht⟩ := colorTrans_planar glyph temp.textImg temp.textBGImg (posX / 2 * 2) (posY / 2 * 2) heven
    (by omega) hfont.2 (by omega)
  have hin : (o.overlay glyph num (posX / 2 * 2) (posY / 2 * 2)).InsideEven w h :=
    ⟨⟨by simp [TextOverlap.overlay], heven, hx, by dsimp only [TextOverlap.overlay]; omega, by omega⟩,
      by simp [TextOverlap.overlay], hfont.2, hw.1, hh.1⟩
  refine ⟨⟨packTextImg o glyph num temp.textImg, t⟩, ?_⟩
  rw [textOverlapOverlap, overlapError_none (by decide) hnum hy (by omega), drawText, hconv, roundX_eq, roundY_eq,
    ← storeAll_yuv420P hin ht]
  rfl

/-- **Compositing**: a text inside an image of an even size comes out as the reference overlay. -/
theorem text_compositing (o : TextOverlap) (glyph : Nat → Image) {num w h posX posY : Nat} (bg : Image) (temp : TextImages)
    (hw : w % 2 = 0 ∧ w < 2 ^ 14) (hh : h % 2 = 0 ∧ h < 2 ^ 14) (hfont : o.fontWidth % 2 = 0 ∧ o.fontHeight % 2 = 0)
    (hnum : num ≤ o.maxTexts) (hx : posX / 2 * 2 + o.textWidth num ≤ w) (hy : posY + o.fontHeight ≤ h) :
    (∃ temp', textOverlapOverlap (some o) glyph num bg .yuv422 w h posX posY temp =
      some (.ok ((o.overlay glyph num (posX / 2 * 2) posY).yuv422 w bg, temp'))) ∧
    (∃ temp', textOverlapOverlap (some o) glyph num bg .yuv420P w h posX posY temp =
      some (.ok ((o.overlay glyph num (posX / 2 * 2) (posY / 2 * 2)).yuv420P w h bg, temp'))) := by
  have hsmall := Nat.mul_le_mul hh.2.le hw.2.le
  exact ⟨textOverlapOverlap_yuv422 glyph bg temp (by omega) (by omega) hfont.1 hnum hx hy,
    textOverlapOverlap_yuv420P glyph bg temp hw hh hfont hnum hx hy⟩

theorem text_compositing_clock : (640 % 2 = 0 ∧ 480 % 2 = 0 ∧ 8 ≤ hTextOverlap.maxTexts) ∧ ∀ bg temp,
    (∃ temp', textOverlapOverlap (some hTextOverlap) (fun _ _ => 0) 8 bg .yuv422 640 480 289 33 temp =
      some (.ok ((hTextOverlap.overlay (fun _ _ => 0) 8 288 33).yuv422 640 bg, temp'))) ∧
    (∃ temp', textOverlapOverlap (some hTextOverlap) (fun _ _ => 0) 8 bg .yuv420P 640 480 289 33 temp =
      some (.ok ((hTextOverlap.overlay (fun _ _ => 0) 8 288 32).yuv420P 640 480 bg, temp'))) :=
  ⟨by decide, fun bg temp => text_compositing hTextOverlap (fun _ _ => 0) bg temp (by decide) (by decide) (by decide)
    (by decide) (by decide) (by decide)⟩

end Overlap

end NuWicam.Media
