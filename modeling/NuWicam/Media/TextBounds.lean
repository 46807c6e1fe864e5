import NuWicam.Media.Compositing

/-!
# Which bytes of a frame the text can overwrite

`TextOverlap_Overlap` checks the bottom of the text and not its right end, and computes its offsets with `uint32_t`. Its rows
are runs of consecutive bytes in each plane of the background (`RunInside`, `text_bounds_iff`).
-/

namespace NuWicam.Media

open Lib Option

/-! ## Runs of bytes -/

def imageSize (bgColor : ColorFormat) (w h : Nat) : Nat :=
  match bgColor with
  | .yuv422 => 2 * (w * h)
  | .yuv422P => w * h + 2 * (w * h / 2)
  | .yuv420 => w * h / 2 * 3
  | .yuv420P => w * h + 2 * (w * h / 4)
  | .yuv420PMb => w * h + w * h / 2
  | _ => 0

def RunInside (size s n : Nat) : Prop := n = 0 ∨ 2 ^ 32 ≤ size ∨ u32 s + n ≤ size

instance (size s n : Nat) : Decidable (RunInside size s n) := inferInstanceAs (Decidable (_ ∨ _))

theorem runInside_iff {size s n : Nat} : RunInside size s n ↔ ∀ k < n, u32 (s + k) < size := by
  unfold RunInside u32
  refine ⟨fun hrun k hk => ?_, fun hall => ?_⟩
  · rcases hrun with hn | hsize | hend <;> omega
  · by_contra hno
    -- the first byte that is outside of the image
    have hfirst := hall (size - s % 2 ^ 32) (by omega)
    omega

/-- **Every run of the text is in the image**: a run for each row and plane, as wide as the pairs of pixels of the text. -/
def TextInside (bgColor : ColorFormat) (tw th w h posX posY : Nat) : Prop :=
  let pairs := (tw + 1) / 2
  let inside := RunInside (imageSize bgColor w h)
  match bgColor with
  | .yuv422 => ∀ y < th, inside ((posY * w + posX) * 2 + y * (w * 2)) (4 * pairs)
  | .yuv422P => ∀ y < th, inside (posY * w + posX + y * w) (2 * pairs) ∧
      inside (w * h + u32 (posY * w + posX) / 2 + y * (w / 2)) pairs ∧
      inside (w * h + u32 (posY * w + posX) / 2 + y * (w / 2) + u32 (w * h) / 2) pairs
  | .yuv420 => ∀ j < (th + 1) / 2, inside (u32 (posY * w + posX) / 2 * 3 + j * (w * 3)) (3 * pairs) ∧
      inside (u32 (posY * w + posX) / 2 * 3 + j * (w * 3) + w / 2 * 3) (3 * pairs)
  | .yuv420P => ∀ j < (th + 1) / 2, inside (posY * w + posX + j * (w * 2)) (2 * pairs) ∧
      inside (posY * w + posX + j * (w * 2) + w) (2 * pairs) ∧
      inside (w * h + (posY / 2 * (w / 2) + posX / 2) + j * (w / 2)) pairs ∧
      inside (w * h + (posY / 2 * (w / 2) + posX / 2) + j * (w / 2) + u32 (w * h) / 4) pairs
  | .yuv420PMb => ∀ j < th / 16,
      inside ((u32 (posY + 16 * j) / 16 * (u32 (w + 15) / 16) + posX / 16) * 256) (256 * (tw / 16)) ∧
      inside (w * h + (u32 (posY + 16 * j) / 16 * ((w / 2 + 7) / 8) + posX / 16) * 128) (128 * (tw / 16))
  | _ => True

instance (bgColor : ColorFormat) (tw th w h posX posY : Nat) : Decidable (TextInside bgColor tw th w h posX posY) := by
  unfold TextInside
  cases bgColor <;> infer_instance

def TextBlock.Inside (size : Nat) (b : TextBlock) : Prop := ∀ l ∈ b.luma, ∀ c ∈ l :: b.chroma, c.1 < size

section Runs

variable {tw th w h posX posY size : Nat}

theorem forall_mem_grid {rows cols : Nat} {f : Nat → Nat → TextBlock} {P : TextBlock → Prop} :
    (∀ b ∈ grid rows cols f, P b) ↔ ∀ j < rows, ∀ i < cols, P (f j i) := by
  simp only [mem_grid]
  refine ⟨fun hall j hj i hi => hall _ ⟨j, hj, i, hi, rfl⟩, ?_⟩
  rintro hall b ⟨j, hj, i, hi, rfl⟩
  exact hall j hj i hi

theorem forall_pairs {m n s : Nat} : RunInside size s (m * n) ↔ ∀ i < n, ∀ d < m, u32 (s + (m * i + d)) < size :=
  runInside_iff.trans (forall_rows (P := fun a => u32 (s + a) < size)).symm

theorem forall_lt_two {P : Nat → Prop} : (∀ d < 2, P d) ↔ P 0 ∧ P 1 := by
  simp only [Nat.forall_lt_succ_right, Nat.not_lt_zero, false_imp_iff, implies_true, true_and]

theorem forall_lt_three {P : Nat → Prop} : (∀ d < 3, P d) ↔ P 0 ∧ P 1 ∧ P 2 := by
  rw [Nat.forall_lt_succ_right, forall_lt_two, and_assoc]

theorem forall_lt_four {P : Nat → Prop} : (∀ d < 4, P d) ↔ P 0 ∧ P 1 ∧ P 2 ∧ P 3 := by
  rw [Nat.forall_lt_succ_right, forall_lt_three, and_assoc, and_assoc]

theorem overlapYuv422_inside : (∀ b ∈ overlapYuv422 tw th w posX posY, b.Inside size) ↔
    ∀ y < th, RunInside size ((posY * w + posX) * 2 + y * (w * 2)) (4 * ((tw + 1) / 2)) := by
  rw [overlapYuv422, forall_mem_grid]
  refine forall₂_congr fun y _ => ?_
  rw [forall_pairs]
  refine forall₂_congr fun i _ => ?_
  rw [forall_lt_four]
  simp [TextBlock.Inside, Nat.add_assoc]
  tauto

theorem overlapYuv422P_inside : (∀ b ∈ overlapYuv422P tw th w h posX posY, b.Inside size) ↔
    ∀ y < th, RunInside size (posY * w + posX + y * w) (2 * ((tw + 1) / 2)) ∧
      RunInside size (w * h + u32 (posY * w + posX) / 2 + y * (w / 2)) ((tw + 1) / 2) ∧
      RunInside size (w * h + u32 (posY * w + posX) / 2 + y * (w / 2) + u32 (w * h) / 2) ((tw + 1) / 2) := by
  rw [overlapYuv422P, forall_mem_grid]
  refine forall₂_congr fun y _ => ?_
  rw [forall_pairs, runInside_iff, runInside_iff, ← forall₂_and, ← forall₂_and]
  refine forall₂_congr fun i _ => ?_
  rw [forall_lt_two]
  simp [TextBlock.Inside, Nat.add_assoc, Nat.add_comm i]
  tauto

theorem overlapYuv420_inside : (∀ b ∈ overlapYuv420 tw th w posX posY, b.Inside size) ↔
    ∀ j < (th + 1) / 2, RunInside size (u32 (posY * w + posX) / 2 * 3 + j * (w * 3)) (3 * ((tw + 1) / 2)) ∧
      RunInside size (u32 (posY * w + posX) / 2 * 3 + j * (w * 3) + w / 2 * 3) (3 * ((tw + 1) / 2)) := by
  rw [overlapYuv420, forall_mem_grid]
  refine forall₂_congr fun j _ => ?_
  rw [forall_pairs, forall_pairs, ← forall₂_and]
  refine forall₂_congr fun i _ => ?_
  rw [forall_lt_three, forall_lt_three]
  simp only [Nat.add_right_comm _ (3 * i) (w / 2 * 3)]
  simp [TextBlock.Inside, Nat.add_assoc]
  tauto

theorem overlapYuv420P_inside : (∀ b ∈ overlapYuv420P tw th w h posX posY, b.Inside size) ↔
    ∀ j < (th + 1) / 2, RunInside size (posY * w + posX + j * (w * 2)) (2 * ((tw + 1) / 2)) ∧
      RunInside size (posY * w + posX + j * (w * 2) + w) (2 * ((tw + 1) / 2)) ∧
      RunInside size (w * h + (posY / 2 * (w / 2) + posX / 2) + j * (w / 2)) ((tw + 1) / 2) ∧
      RunInside size (w * h + (posY / 2 * (w / 2) + posX / 2) + j * (w / 2) + u32 (w * h) / 4) ((tw + 1) / 2) := by
  rw [overlapYuv420P, forall_mem_grid]
  refine forall₂_congr fun j _ => ?_
  rw [forall_pairs, forall_pairs, runInside_iff, runInside_iff, ← forall₂_and, ← forall₂_and, ← forall₂_and]
  refine forall₂_congr fun i _ => ?_
  rw [forall_lt_two, forall_lt_two]
  simp only [Nat.add_right_comm _ (2 * i) w]
  simp [TextBlock.Inside, Nat.add_assoc, Nat.add_comm i]
  tauto

theorem forall_macroblock {P Q : Nat → Prop} :
    (∀ j < 8, ∀ i < 8, (P (32 * j + 2 * i) ∧ P (32 * j + 2 * i + 1) ∧ P (32 * j + 2 * i + 16) ∧ P (32 * j + 2 * i + 17)) ∧
      Q (16 * j + i) ∧ Q (16 * j + i + 8)) ↔ (∀ a < 256, P a) ∧ ∀ a < 128, Q a := by
  refine ⟨fun hall => ⟨fun a ha => ?_, fun a ha => ?_⟩, fun hall j hj i hi => ?_⟩
  · obtain ⟨⟨h₀, h₁, h₂, h₃⟩, -⟩ := hall (a / 32) (by omega) (a % 16 / 2) (by omega)
    rcases Nat.mod_two_eq_zero_or_one a with hpar | hpar <;> rcases Nat.mod_two_eq_zero_or_one (a / 16) with hrow | hrow
    · rwa [show 32 * (a / 32) + 2 * (a % 16 / 2) = a by omega] at h₀
    · rwa [show 32 * (a / 32) + 2 * (a % 16 / 2) + 16 = a by omega] at h₂
    · rwa [show 32 * (a / 32) + 2 * (a % 16 / 2) + 1 = a by omega] at h₁
    · rwa [show 32 * (a / 32) + 2 * (a % 16 / 2) + 17 = a by omega] at h₃
  · obtain ⟨-, h₀, h₁⟩ := hall (a / 16) (by omega) (a % 8) (by omega)
    rcases Nat.mod_two_eq_zero_or_one (a / 8) with hcol | hcol
    · rwa [show 16 * (a / 16) + a % 8 = a by omega] at h₀
    · rwa [show 16 * (a / 16) + a % 8 + 8 = a by omega] at h₁
  · exact ⟨⟨hall.1 _ (by omega), hall.1 _ (by omega), hall.1 _ (by omega), hall.1 _ (by omega)⟩,
      hall.2 _ (by omega), hall.2 _ (by omega)⟩

theorem overlapYuv420MB_inside (hx : posX % 16 = 0) (hy : posY % 16 = 0) :
    (∀ b ∈ overlapYuv420MB tw th w h posX posY, b.Inside size) ↔ ∀ j < th / 16,
      RunInside size ((u32 (posY + 16 * j) / 16 * (u32 (w + 15) / 16) + posX / 16) * 256) (256 * (tw / 16)) ∧
      RunInside size (w * h + (u32 (posY + 16 * j) / 16 * ((w / 2 + 7) / 8) + posX / 16) * 128) (128 * (tw / 16)) := by
  have hcol : posX / 2 / 8 = posX / 16 := by omega
  have hcol' : posX / 2 % 8 = 0 := by omega
  simp only [overlapYuv420MB, List.forall_mem_flatMap, List.mem_range, forall_mem_grid]
  refine forall₂_congr fun mbY _ => ?_
  have hrow : u32 (posY + 16 * mbY) % 16 = 0 := by
    unfold u32
    omega
  rw [forall_pairs, forall_pairs, ← forall₂_and]
  refine forall₂_congr fun mbX _ => ?_
  rw [← forall_macroblock]
  refine forall₂_congr fun j _ => forall₂_congr fun i _ => ?_
  rw [hcol, hcol', hrow, hx]
  simp [TextBlock.Inside, Nat.add_assoc]
  tauto

theorem textInside_iff {bgColor : ColorFormat} (hmb : bgColor = .yuv420PMb → posX % 16 = 0 ∧ posY % 16 = 0) :
    TextInside bgColor tw th w h posX posY ↔
      ∀ b ∈ overlapBlocks bgColor tw th w h posX posY, b.Inside (imageSize bgColor w h) := by
  cases bgColor with
  | yuv422 => exact overlapYuv422_inside.symm
  | yuv422P => exact overlapYuv422P_inside.symm
  | yuv420 => exact overlapYuv420_inside.symm
  | yuv420P => exact overlapYuv420P_inside.symm
  | yuv420PMb =>
    obtain ⟨hx, hy⟩ := hmb rfl
    exact (overlapYuv420MB_inside hx hy).symm
  | rgb888 | rgb555 | rgb565 => simp [TextInside, overlapBlocks]

end Runs

/-! ## `TextOverlap_Overlap` -/

def NeverEnds (bgColor : ColorFormat) (tw th : Nat) : Prop :=
  bgColor = .yuv420P ∧ (th % 65536 = 65535 ∨ (tw % 65536 = 65535 ∧ th % 65536 ≠ 0))

instance (bgColor : ColorFormat) (tw th : Nat) : Decidable (NeverEnds bgColor tw th) := inferInstanceAs (Decidable (_ ∧ _))

/-- Too many glyphs, a text that ends below the image, or one that is not aligned to macroblocks. -/
def Refused (o : TextOverlap) (num : Nat) (bgColor : ColorFormat) (h posX posY : Nat) : Prop :=
  o.maxTexts < num ∨ h < u32 (posY + o.fontHeight) ∨ (bgColor = .yuv420PMb ∧
    (u32 (o.textWidth num) % 16 ≠ 0 ∨ posX / 2 * 2 % 16 ≠ 0 ∨ posY % 16 ≠ 0))

instance (o : TextOverlap) (num : Nat) (bgColor : ColorFormat) (h posX posY : Nat) :
    Decidable (Refused o num bgColor h posX posY) := inferInstanceAs (Decidable (_ ∨ _))

/-- **Writes stay in the background**, whatever the glyphs and the temporary images hold. -/
def StaysInside (o : TextOverlap) (num : Nat) (bgColor : ColorFormat) (w h posX posY : Nat) : Prop :=
  ∀ glyph bg temp r, textOverlapOverlap (some o) glyph num bg bgColor w h posX posY temp = some (.ok r) →
    ∀ a ≥ imageSize bgColor w h, r.1 a = bg a

section Call

variable {o : TextOverlap} {glyph : Nat → Image} {num w h posX posY tw th : Nat} {bgColor : ColorFormat} {bg : Image}
  {temp : TextImages}

theorem colorTrans_eq_none_iff {textImg textBGImg : Image} :
    colorTrans bgColor tw th textImg textBGImg = none ↔ NeverEnds bgColor tw th := by
  unfold colorTrans imgProcCst yuv422ToYuv420Planar NeverEnds
  by_cases h422 : bgColor = .yuv422
  · simp [h422]
  · by_cases h420P : bgColor = .yuv420P
    · simp [h420P, or_iff_not_imp_left]
    · simp [h422, h420P]

theorem overlapError_eq_none_iff : overlapError o num bgColor h posX posY = none ↔ ¬ Refused o num bgColor h posX posY := by
  have hrow : bgColor = .yuv420PMb → roundY bgColor posY = posY := by
    rintro rfl
    simp [roundY]
  have hmb : (bgColor = .yuv420PMb ∧ (u32 (o.textWidth num) % 16 ≠ 0 ∨ roundX posX % 16 ≠ 0 ∨ roundY bgColor posY % 16 ≠ 0)) ↔
      bgColor = .yuv420PMb ∧ (u32 (o.textWidth num) % 16 ≠ 0 ∨ posX / 2 * 2 % 16 ≠ 0 ∨ posY % 16 ≠ 0) := by
    refine and_congr_right fun hcolor => ?_
    rw [hrow hcolor, roundX_eq]
  unfold overlapError Refused
  rw [← hmb]
  split
  case isTrue hnum => exact iff_of_false (by simp) (not_not_intro (.inl hnum))
  case isFalse hnum =>
    split
    case isTrue hend => exact iff_of_false (by simp) (not_not_intro (.inr (.inl hend)))
    case isFalse hend =>
      split
      case isTrue hmb' => exact iff_of_false (by simp) (not_not_intro (.inr (.inr hmb')))
      case isFalse hmb' => exact iff_of_true rfl (by simp only [not_or]; exact ⟨hnum, hend, hmb'⟩)

variable {r : Image × TextImages}

theorem textOverlapOverlap_eq_ok : textOverlapOverlap (some o) glyph num bg bgColor w h posX posY temp = some (.ok r) ↔
      ¬ Refused o num bgColor h posX posY ∧ drawText o glyph num bg bgColor w h posX posY temp = some r := by
  rw [← overlapError_eq_none_iff]
  unfold textOverlapOverlap
  dsimp only
  split
  · simp [*]
  · simp [*]

theorem textOverlapOverlap_eq_error (hrefused : Refused o num bgColor h posX posY) :
    ∃ e, textOverlapOverlap (some o) glyph num bg bgColor w h posX posY temp = some (.error e) := by
  obtain ⟨e, he⟩ := ne_none_iff_exists'.mp (mt overlapError_eq_none_iff.mp (not_not_intro hrefused))
  refine ⟨e, ?_⟩
  rw [textOverlapOverlap, he]

theorem drawText_eq_none_iff : drawText o glyph num bg bgColor w h posX posY temp = none ↔
    NeverEnds bgColor (o.textWidth num) o.fontHeight :=
  map_eq_none_iff.trans colorTrans_eq_none_iff

theorem textOverlapOverlap_returns (hrefused : ¬ Refused o num bgColor h posX posY)
    (hends : ¬ NeverEnds bgColor (o.textWidth num) o.fontHeight) (w : Nat) (glyph : Nat → Image) (bg : Image)
    (temp : TextImages) : ∃ r, textOverlapOverlap (some o) glyph num bg bgColor w h posX posY temp = some (.ok r) := by
  obtain ⟨r, hr⟩ := ne_none_iff_exists'.mp (mt drawText_eq_none_iff.mp hends)
  exact ⟨r, textOverlapOverlap_eq_ok.mpr ⟨hrefused, hr⟩⟩

theorem mb_aligned (h : ¬ Refused o num bgColor h posX posY) :
    bgColor = .yuv420PMb → roundX posX % 16 = 0 ∧ roundY bgColor posY % 16 = 0 := by
  rintro rfl
  simp only [Refused, not_or, not_and, not_not] at h
  obtain ⟨-, hx, hy⟩ := h.2.2 trivial
  rw [roundX_eq]
  exact ⟨hx, by simpa [roundY] using hy⟩

theorem drawText_eq_of_not_mem {a : Nat} (hr : drawText o glyph num bg bgColor w h posX posY temp = some r)
    (ha : ∀ b ∈ overlapBlocks bgColor (o.textWidth num) o.fontHeight w h (roundX posX) (roundY bgColor posY),
      ∀ l ∈ b.luma, ∀ c ∈ l :: b.chroma, c.1 ≠ a) : r.1 a = bg a := by
  obtain ⟨t, -, rfl⟩ := map_eq_some_iff.mp hr
  refine storeAll_of_not_written fun c hc => ?_
  obtain ⟨b, hb, hc⟩ := List.mem_flatMap.mp hc
  obtain ⟨l, hl, -, c', hc', rfl⟩ := mem_writes.mp hc
  exact ha b hb l hl c' hc'

theorem colorTrans_forall {S P : UInt8 → Prop} {src dst t : Image} (hsrc : ∀ a, S (src a)) (hdst : ∀ a, P (dst a))
    (himp : ∀ x, S x → P x) (haverage : ∀ x y, S x → S y → P (average x y))
    (ht : colorTrans bgColor tw th src dst = some t) (a : Nat) : P (t a) := by
  unfold colorTrans imgProcCst yuv422ToYuv420Planar at ht
  split at ht
  · obtain rfl := some.inj ht
    dsimp only
    split
    · exact himp _ (hsrc a)
    · exact hdst a
  · split at ht
    · dsimp only at ht
      split at ht
      · cases ht
      · obtain rfl := some.inj ht
        refine storeAll_induct (hdst a) fun c hc _ => ?_
        obtain ⟨j, -, i, -, hc⟩ := (mem_planarWrites _ _ _).mp hc
        rcases planarTurn_values hc with ⟨-, hv⟩ | ⟨d, -, -, hv⟩
        · exact hv ▸ himp _ (hsrc _)
        · exact hv ▸ haverage _ _ (hsrc _) (hsrc _)
    · obtain rfl := some.inj ht
      exact hdst a

theorem colorTrans_const {v : UInt8} {t : Image} (ht : colorTrans bgColor tw th (fun _ => v) (fun _ => v) = some t) :
    t = fun _ => v := by
  funext a
  refine colorTrans_forall (S := fun x => x = v) (P := fun x => x = v) (fun _ => rfl) (fun _ => rfl) (fun _ hx => hx) ?_ ht a
  rintro x y rfl rfl
  exact average_self _

theorem packTextImg_const {v : UInt8} : packTextImg o (fun _ _ => v) num (fun _ => v) = fun _ => v := by
  refine storeAll_const fun c hc => ?_
  obtain ⟨i, -, y, -, k, -, rfl⟩ := mem_packWrites.mp hc
  rfl

theorem drawText_const {v : UInt8} (hv : v ≠ o.key)
    (hr : drawText o (fun _ _ => v) num bg bgColor w h posX posY ⟨fun _ => v, fun _ => v⟩ = some r) {b : TextBlock}
    (hb : b ∈ overlapBlocks bgColor (o.textWidth num) o.fontHeight w h (roundX posX) (roundY bgColor posY))
    {l c : Nat × Nat} (hl : l ∈ b.luma) (hc : c ∈ l :: b.chroma) : r.1 c.1 = v := by
  obtain ⟨t, ht, rfl⟩ := map_eq_some_iff.mp hr
  rw [packTextImg_const] at ht
  obtain rfl := colorTrans_const ht
  refine storeAll_of_written (P := fun v' => v' = v) (v := v)
    (List.mem_flatMap.mpr ⟨b, hb, mem_writes.mpr ⟨l, hl, hv, c, hc, rfl⟩⟩) fun c' hc' _ => ?_
  obtain ⟨b', -, hc'⟩ := List.mem_flatMap.mp hc'
  obtain ⟨l', -, -, c'', -, rfl⟩ := mem_writes.mp hc'
  rfl

theorem staysInside_iff (o : TextOverlap) (num : Nat) (bgColor : ColorFormat) (w h posX posY : Nat) :
    StaysInside o num bgColor w h posX posY ↔ Refused o num bgColor h posX posY ∨
      NeverEnds bgColor (o.textWidth num) o.fontHeight ∨
      TextInside bgColor (o.textWidth num) o.fontHeight w h (roundX posX) (roundY bgColor posY) := by
  by_cases hrefused : Refused o num bgColor h posX posY
  · refine iff_of_true (fun glyph bg temp r hr => ?_) (.inl hrefused)
    exact absurd hrefused (textOverlapOverlap_eq_ok.mp hr).1
  rw [or_iff_right hrefused, textInside_iff (mb_aligned hrefused)]
  refine ⟨fun hstays => or_iff_not_imp_left.mpr fun hends b hb l hl c hc => ?_, ?_⟩
  · -- a text of a value that is not the key, on a background of the key
    have hv : o.key + 1 ≠ o.key := by simp
    obtain ⟨r, hr⟩ := textOverlapOverlap_returns hrefused hends w (fun _ _ => o.key + 1) (fun _ => o.key)
      ⟨fun _ => o.key + 1, fun _ => o.key + 1⟩
    by_contra hout
    have hkept := hstays _ _ _ r hr c.1 (by omega)
    rw [drawText_const hv (textOverlapOverlap_eq_ok.mp hr).2 hb hl hc] at hkept
    exact hv hkept
  · rintro (hends | hin) glyph bg temp r hr a ha
    · obtain ⟨-, hdraw⟩ := textOverlapOverlap_eq_ok.mp hr
      rw [drawText_eq_none_iff.mpr hends] at hdraw
      cases hdraw
    · refine drawText_eq_of_not_mem (textOverlapOverlap_eq_ok.mp hr).2 fun b hb l hl c hc => ?_
      have hlt := hin b hb l hl c hc
      omega

end Call

/-! ## `OverlapText` -/

theorem overlapPosX_inside_iff (width : UInt32) {len : Nat} (hlen : len ≤ maxOverlapText) :
    overlapPosX width.toNat len + hTextOverlap.textWidth len ≤ width.toNat ↔ 8 * len ≤ width.toNat := by
  have hmax : len ≤ 32 := hlen
  have htext : hTextOverlap.textWidth len = 8 * len := rfl
  unfold overlapPosX u32
  omega

/-- **The rectangle is in the frame**, or the call gets an error, if there is one. -/
def OverlapTextSafe (handle : Option TextOverlap) (color : NmColorType) (width height : UInt32) (str : List Char) : Prop :=
  ∀ pic bg temp r, overlapText pic handle color width.toNat height.toNat bg str temp = some r →
    (∃ e, r = some (.error e)) ∨
    overlapPosX width.toNat str.length + hTextOverlap.textWidth str.length ≤ width.toNat ∧
      2 * 16 + hTextOverlap.fontHeight ≤ height.toNat

theorem overlapText_call {color : NmColorType} {bgColor : ColorFormat} {len : Nat}
    (hcolor : overlapFormat color = some bgColor) (hlen : len ≤ maxOverlapText) (height posX : Nat) :
    (Refused hTextOverlap len bgColor height posX (2 * 16) ↔ height < 48) ∧
      ¬ NeverEnds bgColor (hTextOverlap.textWidth len) hTextOverlap.fontHeight := by
  have hmax : len ≤ hTextOverlap.maxTexts := hlen
  have hend : u32 (2 * 16 + hTextOverlap.fontHeight) = 48 := rfl
  have htext : hTextOverlap.textWidth len = 8 * len := rfl
  have hformat : bgColor ≠ .yuv420PMb := by
    rintro rfl
    cases color <;> simp [overlapFormat] at hcolor
  refine ⟨?_, ?_⟩
  · simp [Refused, hend, hformat, Nat.not_lt.mpr hmax]
  · rintro ⟨-, hends | ⟨hends, -⟩⟩
    · exact absurd hends (by decide)
    · omega

theorem overlapText_iff {handle : Option TextOverlap} (hhandle : ∀ o ∈ handle, o = hTextOverlap) (color : NmColorType)
    (width height : UInt32) {str : List Char} (hlen : str.length ≤ maxOverlapText) :
    OverlapTextSafe handle color width height str ↔
      handle = none ∨ overlapFormat color = none ∨ height.toNat < 48 ∨ 8 * str.length ≤ width.toNat := by
  cases handle with
  | none =>
    refine iff_of_true (fun pic bg temp r hr => ?_) (.inl rfl)
    obtain ⟨bgColor, -, rfl⟩ := map_eq_some_iff.mp hr
    exact .inl ⟨_, rfl⟩
  | some o =>
    obtain rfl := hhandle o rfl
    cases hcolor : overlapFormat color with
    | none =>
      refine iff_of_true (fun pic bg temp r hr => ?_) (.inr (.inl rfl))
      rw [overlapText, hcolor] at hr
      cases hr
    | some bgColor =>
      obtain ⟨hrefused, hends⟩ := overlapText_call hcolor hlen height.toNat (overlapPosX width.toNat str.length)
      by_cases hheight : height.toNat < 48
      · refine iff_of_true (fun pic bg temp r hr => .inl ?_) (.inr (.inr (.inl hheight)))
        rw [overlapText, hcolor] at hr
        obtain rfl := some.inj hr
        exact textOverlapOverlap_eq_error (hrefused.mpr hheight)
      · rw [or_iff_right (by simp), or_iff_right (by simp), or_iff_right hheight, ← overlapPosX_inside_iff width hlen]
        refine ⟨fun hsafe => ?_, fun hwidth pic bg temp r hr => .inr ⟨hwidth, Nat.le_of_not_lt hheight⟩⟩
        obtain ⟨r, hr⟩ := textOverlapOverlap_returns (mt hrefused.mp hheight) hends width.toNat (fun _ _ => 0) (fun _ => 0)
          ⟨fun _ => 0, fun _ => 0⟩
        have hcall : overlapText (fun _ _ => 0) (some hTextOverlap) color width.toNat height.toNat (fun _ => 0) str
            ⟨fun _ => 0, fun _ => 0⟩ = some (some (.ok r)) := by
          rw [overlapText, hcolor]
          exact congrArg some hr
        rcases hsafe _ _ _ _ hcall with ⟨e, he⟩ | ⟨hwidth, -⟩
        · cases he
        · exact hwidth

end NuWicam.Media
