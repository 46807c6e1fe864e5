import NuWicam.Media.TextBounds

/-!
# What earlier texts leave behind

The temporary images of a handle are never cleared. Two calls with the same glyphs, background and position draw the same if
and only if blending reads nothing but what packing and conversion have written in the same call (`text_leftovers_iff`).
-/

namespace NuWicam.Media

open Lib List Option

/-- **A call depends on its arguments alone**: whatever the temporary images held, it comes back with the same background or
error. -/
def Independent (o : TextOverlap) (num : Nat) (bgColor : ColorFormat) : Prop :=
  ∀ glyph bg w h posX posY temp temp', ∃ r r',
    textOverlapOverlap (some o) glyph num bg bgColor w h posX posY temp = some r ∧
    textOverlapOverlap (some o) glyph num bg bgColor w h posX posY temp' = some r' ∧ r.map Prod.fst = r'.map Prod.fst

def TextDetermined (bgColor : ColorFormat) (tw th : Nat) : Prop :=
  match bgColor with
  | .yuv422 => th = 0 ∨ tw % 2 = 0
  | .yuv420P => th = 0 ∨ (tw = 0 ∧ th % 65536 ≠ 65535) ∨ (tw % 2 = 0 ∧ th % 2 = 0 ∧ tw < 65536 ∧ th < 65536)
  | .yuv420PMb => tw % 16 ≠ 0 ∨ tw = 0 ∨ th = 0
  | _ => tw = 0 ∨ th = 0

/-! ## Calls that draw the same -/

section Same

variable {o : TextOverlap} {glyph : Nat → Image} {num tw th w h posX posY : Nat} {bgColor : ColorFormat} {key : UInt8}
  {t t' : Image}

def TextOverlap.text (o : TextOverlap) (glyph : Nat → Image) (num : Nat) (bgColor : ColorFormat) (temp : TextImages) :
    Option Image :=
  colorTrans bgColor (o.textWidth num) o.fontHeight (packTextImg o glyph num temp.textImg) temp.textBGImg

theorem textOverlapOverlap_of_text {temp : TextImages} (hrefused : ¬ Refused o num bgColor h posX posY)
    (ht : o.text glyph num bgColor temp = some t) (bg : Image) (w : Nat) : ∃ temp',
      textOverlapOverlap (some o) glyph num bg bgColor w h posX posY temp = some (.ok (storeAll bg ((overlapBlocks bgColor
        (o.textWidth num) o.fontHeight w h (roundX posX) (roundY bgColor posY)).flatMap (TextBlock.writes o.key t)), temp')) := by
  refine ⟨⟨packTextImg o glyph num temp.textImg, t⟩, textOverlapOverlap_eq_ok.mpr ⟨hrefused, ?_⟩⟩
  rw [TextOverlap.text] at ht
  rw [drawText, ht]
  rfl

theorem independent_of_writes (hsame : ∀ h posX posY, ¬ Refused o num bgColor h posX posY → ∀ glyph temp temp', ∃ t t',
      o.text glyph num bgColor temp = some t ∧ o.text glyph num bgColor temp' = some t' ∧
      ∀ w x y, ∀ b ∈ overlapBlocks bgColor (o.textWidth num) o.fontHeight w h x y, b.writes o.key t = b.writes o.key t') :
    Independent o num bgColor := by
  intro glyph bg w h posX posY temp temp'
  by_cases hrefused : Refused o num bgColor h posX posY
  · obtain ⟨e, he⟩ := ne_none_iff_exists'.mp (mt overlapError_eq_none_iff.mp (not_not_intro hrefused))
    refine ⟨.error e, .error e, ?_, ?_, rfl⟩ <;> rw [textOverlapOverlap, he]
  · obtain ⟨t, t', ht, ht', hwrites⟩ := hsame h posX posY hrefused glyph temp temp'
    obtain ⟨after, hcall⟩ := textOverlapOverlap_of_text hrefused ht bg w
    obtain ⟨after', hcall'⟩ := textOverlapOverlap_of_text hrefused ht' bg w
    refine ⟨_, _, hcall, hcall', ?_⟩
    rw [flatMap_congr fun b hb => hwrites w _ _ b hb]
    rfl

theorem writes_congr {b : TextBlock} {n : Nat} (hread : ∀ l ∈ b.luma ++ b.chroma, l.2 < n) (h : ∀ a < n, t a = t' a) :
    b.writes key t = b.writes key t' := by
  refine flatMap_congr fun l hl => ?_
  have hluma : t l.2 = t' l.2 := h _ (hread l (mem_append_left _ hl))
  have hmap : (l :: b.chroma).map (fun c => (c.1, t c.2)) = (l :: b.chroma).map fun c => (c.1, t' c.2) := by
    refine map_congr_left fun c hc => ?_
    rcases mem_cons.mp hc with rfl | hc
    · rw [hluma]
    · rw [h _ (hread c (mem_append_right _ hc))]
  rw [hluma, hmap]

theorem packTextImg_congr (m m' : Image) {a : Nat} (ha : a < o.textWidth num * o.fontHeight * 2) :
    packTextImg o glyph num m a = packTextImg o glyph num m' a := by
  have hpos : 0 < o.textWidth num := Nat.pos_of_ne_zero fun h0 => by simp [h0] at ha
  have hx := Nat.mod_lt (a / 2) hpos
  have hy : a / 2 / o.textWidth num < o.fontHeight := Nat.div_lt_of_lt_mul (by omega)
  have ha' : a = 2 * (a / 2 / o.textWidth num * o.textWidth num + a / 2 % o.textWidth num) + a % 2 := by
    rw [Nat.div_add_mod', Nat.div_add_mod]
  rw [ha', packTextImg_eq m hx hy (Nat.mod_lt a Nat.zero_lt_two), packTextImg_eq m' hx hy (Nat.mod_lt a Nat.zero_lt_two)]

theorem yuv422_reads (heven : tw % 2 = 0) :
    ∀ b ∈ overlapYuv422 tw th w posX posY, ∀ l ∈ b.luma ++ b.chroma, l.2 < tw * th * 2 := by
  rw [overlapYuv422, forall_mem_grid]
  intro y hy i hi l hl
  have hlt : y * (tw * 2) + (4 * i + 3) < th * (tw * 2) := rows_lt (by omega) hy
  rw [← Nat.mul_assoc th, Nat.mul_comm th tw] at hlt
  simp only [cons_append, nil_append, mem_cons, not_mem_nil, or_false] at hl
  rcases hl with rfl | rfl | rfl | rfl <;> dsimp only <;> omega

theorem yuv420P_reads (heven : tw % 2 = 0) (heven' : th % 2 = 0) :
    ∀ b ∈ overlapYuv420P tw th w h posX posY, ∀ l ∈ b.luma ++ b.chroma, l.2 < tw * th + 2 * (tw * th / 4) := by
  rw [overlapYuv420P, forall_mem_grid]
  intro j hj i hi l hl
  have hrow : (2 * j + 1) * tw + (2 * i + 1) < th * tw := rows_lt (by omega) (by omega)
  have hsample : j * (tw / 2) + i < th / 2 * (tw / 2) := rows_lt (by omega) (by omega)
  rw [← quarter_eq heven heven'] at hsample
  rw [Nat.add_mul, Nat.mul_comm 2 j, Nat.mul_assoc j, Nat.mul_comm 2 tw, Nat.mul_comm th tw] at hrow
  simp only [cons_append, nil_append, mem_cons, not_mem_nil, or_false] at hl
  rcases hl with rfl | rfl | rfl | rfl | rfl | rfl <;> dsimp only <;> omega

theorem planar_congr {src src' : Image} {a b : Nat} (hsrc : ∀ n < 2 * a * (2 * b) * 2, src n = src' n) (dst dst' : Image)
    {n : Nat} (hn : n < 2 * a * (2 * b) + 2 * (a * b)) :
    storeAll dst (planarWrites src (2 * a) (2 * b)) n = storeAll dst' (planarWrites src' (2 * a) (2 * b)) n := by
  have hpos : 0 < a := Nat.pos_of_ne_zero fun h0 => by simp [h0] at hn
  have hluma : ∀ p < 2 * a * (2 * b), src.luma p = src'.luma p := fun p hp => hsrc _ (by omega)
  have hchroma : ∀ p < 2 * a * (2 * b), src.chroma p = src'.chroma p := fun p hp => hsrc _ (by omega)
  by_cases hplane : n < 2 * a * (2 * b)
  · have hx : n % (2 * a) < 2 * a := Nat.mod_lt n (by omega)
    have hy : n / (2 * a) < 2 * b := Nat.div_lt_of_lt_mul hplane
    rw [← Nat.div_add_mod' n (2 * a), planar_luma dst hx hy, planar_luma dst' hx hy]
    exact hluma _ (by rwa [Nat.div_add_mod'])
  · -- the sample of a chroma plane
    obtain ⟨c, k, hc, hk, rfl⟩ : ∃ c k, c < 2 ∧ k < a * b ∧ n = 2 * a * (2 * b) + c * (a * b) + k := by
      rcases Nat.lt_or_ge n (2 * a * (2 * b) + a * b) with hlt | hge
      · exact ⟨0, n - 2 * a * (2 * b), by omega, by omega, by omega⟩
      · exact ⟨1, n - 2 * a * (2 * b) - a * b, by omega, by omega, by omega⟩
    have hi : k % a < a := Nat.mod_lt k hpos
    have hj : k / a < b := Nat.div_lt_of_lt_mul hk
    rw [← Nat.div_add_mod' k a, planar_chroma dst hc hj hi, planar_chroma dst' hc hj hi]
    have hlt : ∀ y < 2 * b, y * (2 * a) + (2 * (k % a) + c) < 2 * a * (2 * b) := fun y hy =>
      Nat.mul_comm (2 * b) (2 * a) ▸ rows_lt (by omega) hy
    rw [hchroma _ (hlt _ (by omega)), hchroma _ (hlt _ (by omega))]

theorem overlapBlocks_eq_nil (hempty : tw = 0 ∨ th = 0) : overlapBlocks bgColor tw th w h posX posY = [] := by
  cases bgColor <;> rcases hempty with rfl | rfl <;> simp [overlapBlocks, overlapYuv422, overlapYuv422P, overlapYuv420,
    overlapYuv420P, overlapYuv420MB, grid]

theorem exists_text (hends : ¬ NeverEnds bgColor (o.textWidth num) o.fontHeight) (glyph : Nat → Image) (temp : TextImages) :
    ∃ t, o.text glyph num bgColor temp = some t :=
  ne_none_iff_exists'.mp (mt colorTrans_eq_none_iff.mp hends)

theorem independent_of_empty (hends : ¬ NeverEnds bgColor (o.textWidth num) o.fontHeight)
    (hempty : o.textWidth num = 0 ∨ o.fontHeight = 0) : Independent o num bgColor := by
  refine independent_of_writes fun h posX posY _ glyph temp temp' => ?_
  obtain ⟨t, ht⟩ := exists_text hends glyph temp
  obtain ⟨t', ht'⟩ := exists_text hends glyph temp'
  refine ⟨t, t', ht, ht', fun w x y b hb => ?_⟩
  rw [overlapBlocks_eq_nil hempty] at hb
  cases hb

theorem independent_of_reads (n : Nat) (hread : ∀ w h x y, ∀ b ∈ overlapBlocks bgColor (o.textWidth num) o.fontHeight w h x y,
      ∀ l ∈ b.luma ++ b.chroma, l.2 < n)
    (htext : ∀ glyph temp temp', ∃ t t', o.text glyph num bgColor temp = some t ∧ o.text glyph num bgColor temp' = some t' ∧
      ∀ a < n, t a = t' a) : Independent o num bgColor := by
  refine independent_of_writes fun h posX posY _ glyph temp temp' => ?_
  obtain ⟨t, t', ht, ht', hagree⟩ := htext glyph temp temp'
  exact ⟨t, t', ht, ht', fun w x y b hb => writes_congr (hread w h x y b hb) hagree⟩

theorem independent_yuv422 (heven : o.textWidth num % 2 = 0) : Independent o num .yuv422 := by
  refine independent_of_reads (o.textWidth num * o.fontHeight * 2) (fun w h x y => yuv422_reads heven) fun glyph temp temp' => ?_
  refine ⟨_, _, colorTrans_yuv422 _ _ _ _, colorTrans_yuv422 _ _ _ _, fun a ha => ?_⟩
  rw [if_pos ha, if_pos ha]
  exact packTextImg_congr _ _ ha

theorem independent_yuv420P (heven : o.textWidth num % 2 = 0) (heven' : o.fontHeight % 2 = 0)
    (hsmall : o.textWidth num < 65536) (hsmall' : o.fontHeight < 65536) : Independent o num .yuv420P := by
  refine independent_of_reads (o.textWidth num * o.fontHeight + 2 * (o.textWidth num * o.fontHeight / 4))
    (fun w h x y => yuv420P_reads heven heven') fun glyph temp temp' =>
      ⟨_, _, colorTrans_yuv420P (by omega) (by omega) _ _, colorTrans_yuv420P (by omega) (by omega) _ _, ?_⟩
  intro n hn
  have hpack : ∀ a < o.textWidth num * o.fontHeight * 2,
      packTextImg o glyph num temp.textImg a = packTextImg o glyph num temp'.textImg a := fun a ha => packTextImg_congr _ _ ha
  rw [quarter_eq heven heven', Nat.mul_comm (o.fontHeight / 2)] at hn
  obtain ⟨a, ha⟩ := Nat.dvd_of_mod_eq_zero heven
  obtain ⟨b, hb⟩ := Nat.dvd_of_mod_eq_zero heven'
  rw [ha, hb] at hpack hn ⊢
  rw [Nat.mul_div_cancel_left a Nat.zero_lt_two, Nat.mul_div_cancel_left b Nat.zero_lt_two] at hn
  exact planar_congr hpack _ _ hn

theorem independent_of_determined (hdet : o.maxTexts < num ∨ TextDetermined bgColor (o.textWidth num) o.fontHeight) :
    Independent o num bgColor := by
  rcases hdet with hnum | hdet
  · exact independent_of_writes fun h posX posY hrefused => absurd (.inl hnum) hrefused
  cases bgColor with
  | yuv422 =>
    rcases hdet with hempty | heven
    · exact independent_of_empty (fun hends => by simp [NeverEnds] at hends) (.inr hempty)
    · exact independent_yuv422 heven
  | yuv420P =>
    rcases hdet with hempty | ⟨hempty, hends⟩ | ⟨heven, heven', hsmall, hsmall'⟩
    · exact independent_of_empty (fun hends => by simp [NeverEnds, hempty] at hends) (.inr hempty)
    · exact independent_of_empty (fun hends' => by simp [NeverEnds, hempty, hends] at hends') (.inl hempty)
    · exact independent_yuv420P heven heven' hsmall hsmall'
  | yuv420PMb =>
    rcases hdet with hmb | hempty
    · refine independent_of_writes fun h posX posY hrefused => absurd (.inr (.inr ⟨rfl, .inl ?_⟩)) hrefused
      unfold u32
      omega
    · exact independent_of_empty (fun hends => by simp [NeverEnds] at hends) hempty
  | yuv422P | yuv420 | rgb888 | rgb555 | rgb565 =>
    exact independent_of_empty (fun hends => by simp [NeverEnds] at hends) hdet

end Same

/-! ## Calls that draw something else -/

section Leak

variable {o : TextOverlap} {num : Nat} {bgColor : ColorFormat}

theorem exists_bytes (key : UInt8) : ∃ v b : UInt8, v ≠ key ∧ average key v ≠ key ∧ b ≠ key ∧ b ≠ v ∧ b ≠ average key v := by
  simp only [average, ne_eq, ← UInt8.toNat_inj]
  rcases Nat.lt_or_ge key.toNat 128 with hlow | hhigh
  · refine ⟨UInt8.ofNat (key.toNat + 2), UInt8.ofNat (key.toNat + 5), ?_⟩
    simp only [UInt8.toNat_ofNat']
    omega
  · refine ⟨UInt8.ofNat (key.toNat - 2), UInt8.ofNat (key.toNat - 5), ?_⟩
    simp only [UInt8.toNat_ofNat']
    omega

theorem not_refused_origin (hnum : num ≤ o.maxTexts) (hmb : bgColor = .yuv420PMb → o.textWidth num % 16 = 0) :
    ¬ Refused o num bgColor o.fontHeight 0 0 := by
  rintro (hnum' | hend | ⟨hcolor, hwidth | hcol | hrow⟩)
  · omega
  · have hle : u32 (0 + o.fontHeight) ≤ 0 + o.fontHeight := Nat.mod_le _ _
    omega
  · have haligned := hmb hcolor
    unfold u32 at hwidth
    omega
  · exact hcol rfl
  · exact hrow rfl

theorem not_independent_of_neverEnds (hnum : num ≤ o.maxTexts) (hends : NeverEnds bgColor (o.textWidth num) o.fontHeight) :
    ¬ Independent o num bgColor := by
  intro hind
  have hrefused : ¬ Refused o num bgColor o.fontHeight 0 0 :=
    not_refused_origin hnum fun hcolor => by cases hcolor.symm.trans hends.1
  obtain ⟨r, -, hr, -⟩ := hind (fun _ _ => 0) (fun _ => 0) 0 o.fontHeight 0 0 ⟨fun _ => 0, fun _ => 0⟩ ⟨fun _ => 0, fun _ => 0⟩
  rw [textOverlapOverlap, overlapError_eq_none_iff.mpr hrefused] at hr
  rw [drawText_eq_none_iff.mpr hends] at hr
  cases hr

theorem not_independent (hnum : num ≤ o.maxTexts) (hmb : bgColor = .yuv420PMb → o.textWidth num % 16 = 0) {v b : UInt8}
    {t : Image} (ht : o.text (fun _ _ => o.key) num bgColor ⟨fun _ => v, fun _ => v⟩ = some t) (hb : ∀ a, t a ≠ b)
    {block : TextBlock} (hblock : block ∈ overlapBlocks bgColor (o.textWidth num) o.fontHeight (o.textWidth num) o.fontHeight 0 0)
    {l : Nat × Nat} (hl : l ∈ block.luma) (hleft : t l.2 ≠ o.key) : ¬ Independent o num bgColor := by
  intro hind
  have hrefused := not_refused_origin hnum hmb
  have hends : ¬ NeverEnds bgColor (o.textWidth num) o.fontHeight := by
    intro hends
    rw [TextOverlap.text, colorTrans_eq_none_iff.mpr hends] at ht
    cases ht
  -- the first call: a text of the key
  obtain ⟨t₀, ht₀⟩ := exists_text hends (fun _ _ => o.key) ⟨fun _ => o.key, fun _ => o.key⟩
  obtain rfl : t₀ = fun _ => o.key := by
    rw [TextOverlap.text, packTextImg_const] at ht₀
    exact colorTrans_const ht₀
  obtain ⟨after, hcall⟩ := textOverlapOverlap_of_text hrefused ht₀ (fun _ => b) (o.textWidth num)
  obtain ⟨after', hcall'⟩ := textOverlapOverlap_of_text hrefused ht (fun _ => b) (o.textWidth num)
  obtain ⟨r, r', hr, hr', hsame⟩ := hind (fun _ _ => o.key) (fun _ => b) (o.textWidth num) o.fontHeight 0 0
    ⟨fun _ => o.key, fun _ => o.key⟩ ⟨fun _ => v, fun _ => v⟩
  obtain rfl := some.inj (hcall.symm.trans hr)
  obtain rfl := some.inj (hcall'.symm.trans hr')
  have hbyte := congrFun (Except.ok.inj hsame) l.1
  rw [roundX_eq, show roundY bgColor 0 = 0 by simp [roundY]] at hbyte
  dsimp only at hbyte
  rw [storeAll_of_not_written] at hbyte
  · refine storeAll_of_written (P := fun x => x ≠ b) (mem_flatMap.mpr ⟨block, hblock,
      mem_writes.mpr ⟨l, hl, hleft, l, by simp, rfl⟩⟩) (fun c hc _ => ?_) hbyte.symm
    obtain ⟨b', -, hc⟩ := mem_flatMap.mp hc
    obtain ⟨l', -, -, c', -, rfl⟩ := mem_writes.mp hc
    exact hb _
  · intro c hc
    obtain ⟨b', -, hc⟩ := mem_flatMap.mp hc
    obtain ⟨l', -, hkey, -⟩ := mem_writes.mp hc
    exact absurd rfl hkey

theorem packTextImg_cases (v : UInt8) (a : Nat) :
    packTextImg o (fun _ _ => o.key) num (fun _ => v) a = o.key ∨ packTextImg o (fun _ _ => o.key) num (fun _ => v) a = v := by
  refine storeAll_induct (P := fun x => x = o.key ∨ x = v) (.inr rfl) fun c hc _ => ?_
  obtain ⟨i, -, y, -, k, -, rfl⟩ := mem_packWrites.mp hc
  exact .inl rfl

theorem text_cases {v : UInt8} {t : Image} (ht : o.text (fun _ _ => o.key) num bgColor ⟨fun _ => v, fun _ => v⟩ = some t)
    (a : Nat) : t a = o.key ∨ t a = v ∨ t a = average o.key v := by
  refine colorTrans_forall (S := fun x => x = o.key ∨ x = v) (P := fun x => x = o.key ∨ x = v ∨ x = average o.key v)
    (packTextImg_cases v) (fun _ => .inr (.inl rfl)) (fun x hx => hx.imp_right .inl) ?_ ht a
  rintro x y (rfl | rfl) (rfl | rfl)
  · exact .inl (average_self _)
  · exact .inr (.inr rfl)
  · exact .inr (.inr (average_comm _ _))
  · exact .inr (.inl (average_self _))

theorem not_independent_of_luma (hnum : num ≤ o.maxTexts) (hmb : bgColor = .yuv420PMb → o.textWidth num % 16 = 0)
    (hends : ¬ NeverEnds bgColor (o.textWidth num) o.fontHeight) (hleft : ∀ v t, v ≠ o.key → average o.key v ≠ o.key →
      o.text (fun _ _ => o.key) num bgColor ⟨fun _ => v, fun _ => v⟩ = some t →
      ∃ block ∈ overlapBlocks bgColor (o.textWidth num) o.fontHeight (o.textWidth num) o.fontHeight 0 0,
        ∃ l ∈ block.luma, t l.2 ≠ o.key) : ¬ Independent o num bgColor := by
  obtain ⟨v, b, hv, haverage, hb, hb', hb''⟩ := exists_bytes o.key
  obtain ⟨t, ht⟩ := exists_text hends (fun _ _ => o.key) ⟨fun _ => v, fun _ => v⟩
  obtain ⟨block, hblock, l, hl, hne⟩ := hleft v t hv haverage ht
  refine not_independent hnum hmb ht (b := b) (fun a => ?_) hblock hl hne
  rcases text_cases ht a with ha | ha | ha
  · exact ha ▸ hb.symm
  · exact ha ▸ hb'.symm
  · exact ha ▸ hb''.symm

theorem not_independent_unconverted (hnum : num ≤ o.maxTexts) (hcolor : bgColor ≠ .yuv422 ∧ bgColor ≠ .yuv420P)
    (hmb : bgColor = .yuv420PMb → o.textWidth num % 16 = 0)
    (hblock : ∃ block ∈ overlapBlocks bgColor (o.textWidth num) o.fontHeight (o.textWidth num) o.fontHeight 0 0,
      block.luma ≠ []) : ¬ Independent o num bgColor := by
  refine not_independent_of_luma hnum hmb (fun hends => hcolor.2 hends.1) fun v t hv _ ht => ?_
  obtain ⟨block, hblock, hluma⟩ := hblock
  obtain ⟨l, hl⟩ := exists_mem_of_ne_nil _ hluma
  refine ⟨block, hblock, l, hl, ?_⟩
  rw [TextOverlap.text, colorTrans, if_neg hcolor.1, imgProcCst, if_neg hcolor.2] at ht
  obtain rfl := some.inj ht
  exact hv

theorem not_independent_yuv422 (hnum : num ≤ o.maxTexts) (hodd : o.textWidth num % 2 = 1) (hheight : 0 < o.fontHeight) :
    ¬ Independent o num .yuv422 := by
  refine not_independent_of_luma hnum nofun (fun hends => by cases hends.1) fun v t hv _ ht => ?_
  obtain rfl := some.inj ht
  refine ⟨_, mem_grid.mpr ⟨o.fontHeight - 1, by omega, o.textWidth num / 2, by omega, rfl⟩, _,
    mem_cons_of_mem _ mem_cons_self, ?_⟩
  have hoffset : (o.fontHeight - 1) * (o.textWidth num * 2) + 4 * (o.textWidth num / 2) + 2 =
      o.textWidth num * o.fontHeight * 2 := by
    obtain ⟨n, hn⟩ : ∃ n, o.fontHeight = n + 1 := ⟨o.fontHeight - 1, by omega⟩
    rw [hn, Nat.add_sub_cancel, Nat.mul_succ (o.textWidth num) n, ← Nat.mul_assoc, Nat.mul_comm n]
    omega
  dsimp only
  rw [hoffset, if_neg (by omega)]
  exact hv

end Leak

/-! ### YUV420P -/

section Planar

variable {src dst : Image} {w h tw th x y : Nat} {key v : UInt8}

theorem exists_luma_yuv420P {j i dx dy : Nat} (hj : j < (th + 1) / 2) (hi : i < (tw + 1) / 2) (hdx : dx < 2) (hdy : dy < 2)
    (w h posX posY : Nat) :
    ∃ block ∈ overlapYuv420P tw th w h posX posY, ∃ l ∈ block.luma, l.2 = (2 * j + dy) * tw + (2 * i + dx) := by
  refine ⟨_, mem_grid.mpr ⟨j, hj, i, hi, rfl⟩, ?_⟩
  have hrow : (2 * j + dy) * tw + (2 * i + dx) = j * (tw * 2) + 2 * i + dy * tw + dx := by
    rw [Nat.add_mul, Nat.mul_comm tw 2, ← Nat.mul_assoc, Nat.mul_comm j 2]
    omega
  rw [hrow]
  rcases Nat.le_one_iff_eq_zero_or_eq_one.mp (Nat.le_of_lt_succ hdx) with rfl | rfl <;>
    rcases Nat.le_one_iff_eq_zero_or_eq_one.mp (Nat.le_of_lt_succ hdy) with rfl | rfl <;> simp

theorem planarWrites_split (src : Image) (hw : 0 < w) (hh : 0 < h) : ∃ rest,
    planarWrites src w h = planarTurn src w h 0 0 ++ rest ∧ ∀ c, c ∈ rest ↔
      ∃ j < (h + 1) / 2, ∃ i < (w + 1) / 2, (j ≠ 0 ∨ i ≠ 0) ∧ c ∈ planarTurn src w h j i := by
  obtain ⟨n, hn⟩ : ∃ n, (h + 1) / 2 = n + 1 := ⟨(h + 1) / 2 - 1, by omega⟩
  obtain ⟨m, hm⟩ : ∃ m, (w + 1) / 2 = m + 1 := ⟨(w + 1) / 2 - 1, by omega⟩
  have hsplit : planarWrites src w h = planarTurn src w h 0 0 ++ ((List.range m).flatMap (fun i => planarTurn src w h 0 (i + 1)) ++
      (List.range n).flatMap fun j => (List.range (m + 1)).flatMap fun i => planarTurn src w h (j + 1) i) := by
    unfold planarWrites
    rw [hn, hm, range_succ_eq_map (n := n), flatMap_cons, flatMap_map, range_succ_eq_map (n := m),
      flatMap_cons, flatMap_map, append_assoc]
  refine ⟨_, hsplit, fun c => ?_⟩
  simp only [mem_append, mem_flatMap, mem_range, hn, hm]
  refine ⟨?_, ?_⟩
  · rintro (⟨i, hi, hc⟩ | ⟨j, hj, i, hi, hc⟩)
    · exact ⟨0, by omega, i + 1, by omega, .inr (by omega), hc⟩
    · exact ⟨j + 1, by omega, i, hi, .inl (by omega), hc⟩
  · rintro ⟨j, hj, i, hi, hne, hc⟩
    cases j with
    | zero =>
      obtain ⟨i, rfl⟩ := Nat.exists_eq_succ_of_ne_zero (hne.resolve_left (not_not_intro rfl))
      exact .inl ⟨i, by omega, hc⟩
    | succ j => exact .inr ⟨j, by omega, i, hi, hc⟩

theorem exists_odd (hw : 0 < w) (hh : 0 < h) (hodd : w % 2 = 1 ∨ h % 2 = 1) : ∃ j < (h + 1) / 2, ∃ i < (w + 1) / 2, ∃ dx < 2,
    (2 * j + 1) * w + (2 * i + dx) = w * h ∧ (h = 1 ∨ (w = 1 ∧ h = 2) ∨ j ≠ 0 ∨ i ≠ 0) := by
  rcases Nat.mod_two_eq_zero_or_one h with hpar | hpar
  · obtain ⟨n, rfl⟩ : ∃ n, h = n + 1 := ⟨h - 1, by omega⟩
    refine ⟨n / 2, by omega, w / 2, by omega, 1, by omega, ?_, by omega⟩
    rw [show 2 * (n / 2) + 1 = n by omega, Nat.mul_succ w n, Nat.mul_comm n]
    omega
  · refine ⟨h / 2, by omega, 0, by omega, 0, by omega, ?_, by omega⟩
    rw [show 2 * (h / 2) + 1 = h by omega, Nat.mul_comm]
    rfl

theorem planar_odd (hv : v ≠ key) (haverage : average key v ≠ key) (hw : 0 < w) (hh : 0 < h) (hodd : w % 2 = 1 ∨ h % 2 = 1)
    (hsrc : ∀ a, src a = key ∨ src a = v) (hover : ∀ p ≥ w * h, src.luma p = v ∧ src.chroma p = v) :
    storeAll dst (planarWrites src w h) (w * h) ≠ key := by
  obtain ⟨j, hj, i, hi, dx, hdx, haddr, hfirst⟩ := exists_odd hw hh hodd
  have hmem := mem_planarTurn_luma src w h j i hdx Nat.one_lt_two
  rw [haddr] at hmem
  -- an average with a byte from behind the text is not the key
  have hmixed : ∀ p q, q ≥ w * h → average (src.chroma p) (src.chroma q) ≠ key := by
    intro p q hq
    rw [(hover q hq).2]
    rcases hsrc (2 * p + 1) with hp | hp <;> rw [Image.chroma, hp]
    · exact haverage
    · rw [average_self]
      exact hv
  rcases hfirst with rfl | ⟨rfl, rfl⟩ | hne
  · refine storeAll_of_written (P := fun x => x ≠ key) ((mem_planarWrites src _ _).mpr ⟨j, hj, i, hi, hmem⟩) fun c hc hca => ?_
    obtain ⟨j', hj', i', -, hc⟩ := (mem_planarWrites src _ _).mp hc
    rcases planarTurn_values hc with ⟨-, hluma⟩ | ⟨d, hd, -, hchroma⟩
    · rw [hluma, hca, (hover _ (by omega)).1]
      exact hv
    · rw [hchroma]
      refine hmixed _ _ ?_
      rw [show j' = 0 by omega]
      omega
  · exact hmixed 1 2 (by omega)
  · obtain ⟨rest, hsplit, hrest⟩ := planarWrites_split src hw hh
    rw [hsplit, storeAll_append]
    refine storeAll_of_written (P := fun x => x ≠ key) ((hrest _).mpr ⟨j, hj, i, hi, hne, hmem⟩) fun c hc hca => ?_
    obtain ⟨j', -, i', hi', hne', hc⟩ := (hrest c).mp hc
    rcases planarTurn_values hc with ⟨-, hluma⟩ | ⟨d, -, haddr', -⟩
    · rw [hluma, hca, (hover _ (by omega)).1]
      exact hv
    · -- the chroma of the other turns is behind this byte
      have hi₀ : i' = 0 := by omega
      have hj₀ : j' = 0 := (Nat.mul_eq_zero.mp (show j' * ((w + 1) / 2) = 0 by omega)).resolve_right (by omega)
      exact absurd hne' (by simp [hi₀, hj₀])

theorem planarWrites_address {c : Nat × UInt8} (hc : c ∈ planarWrites src w h) :
    c.1 ≤ w * h + w ∨ c.1 < w * h + w * h / 4 + (h + 1) / 2 * ((w + 1) / 2) := by
  obtain ⟨j, hj, i, hi, hc⟩ := (mem_planarWrites src _ _).mp hc
  have hrow : (2 * j + 1) * w ≤ w * h := Nat.mul_comm h w ▸ Nat.mul_le_mul_right w (by omega)
  have hsample : j * ((w + 1) / 2) + i < (h + 1) / 2 * ((w + 1) / 2) := rows_lt hi hj
  rcases planarTurn_values hc with ⟨haddr, -⟩ | ⟨d, hd, haddr, -⟩
  · omega
  · have hplane : d * (w * h / 4) ≤ 1 * (w * h / 4) := Nat.mul_le_mul_right _ (by omega)
    omega

theorem planar_large (htw : 0 < tw) (hth : 0 < th) (hfits : tw * th * 2 < 2 ^ 32) (hlarge : 65536 ≤ tw ∨ 65536 ≤ th)
    (hends : ¬ NeverEnds .yuv420P tw th) :
    storeAll dst (planarWrites src (tw % 65536) (th % 65536)) (tw * th - 1) = dst (tw * th - 1) := by
  refine storeAll_of_not_written fun c hc hca => ?_
  have haddr := planarWrites_address hc
  rcases hlarge with hlarge | hlarge
  · have hle : 65536 * th ≤ tw * th := Nat.mul_le_mul_right th hlarge
    have hmod : th % 65536 = th := Nat.mod_eq_of_lt (by omega)
    rw [hmod] at haddr
    -- the width that is converted is too small by 65536 pixels or more
    have hrow : (65536 + tw % 65536) * th ≤ tw * th := Nat.mul_le_mul_right th (by omega)
    have hwidth : tw % 65536 ≠ 65535 := fun hw => hends ⟨rfl, .inr ⟨hw, by omega⟩⟩
    have hplane : tw % 65536 * th ≤ 65535 * th := Nat.mul_le_mul_right th (by omega)
    have hsample : (th + 1) / 2 * ((tw % 65536 + 1) / 2) ≤ th * 32768 := Nat.mul_le_mul (by omega) (by omega)
    rw [Nat.add_mul] at hrow
    omega
  · have hle : tw * 65536 ≤ tw * th := Nat.mul_le_mul_left tw hlarge
    have hmod : tw % 65536 = tw := Nat.mod_eq_of_lt (by omega)
    rw [hmod] at haddr
    have hrow : tw * (65536 + th % 65536) ≤ tw * th := Nat.mul_le_mul_left tw (by omega)
    have hplane : tw * (th % 65536) ≤ tw * 65535 := Nat.mul_le_mul_left tw (by omega)
    have hsample : (th % 65536 + 1) / 2 * ((tw + 1) / 2) ≤ 32768 * tw := Nat.mul_le_mul (by omega) (by omega)
    rw [Nat.mul_add] at hrow
    omega

end Planar

section Leak

variable {o : TextOverlap} {num : Nat} {bgColor : ColorFormat}

theorem packTextImg_of_ge {glyph : Nat → Image} (m : Image) {a : Nat} (ha : o.textWidth num * o.fontHeight * 2 ≤ a) :
    packTextImg o glyph num m a = m a := by
  refine storeAll_of_not_written fun c hc hca => ?_
  obtain ⟨i, hi, y, hy, k, hk, rfl⟩ := mem_packWrites.mp hc
  have hx : i * o.fontWidth + k / 2 < o.textWidth num := by
    rw [TextOverlap.textWidth, Nat.mul_comm o.fontWidth]
    exact rows_lt (by omega) hi
  have hlt : y * o.textWidth num + (i * o.fontWidth + k / 2) < o.fontHeight * o.textWidth num := rows_lt hx hy
  rw [Nat.mul_comm o.fontHeight] at hlt
  omega

theorem TextOverlap.text_fits (o : TextOverlap) (hnum : num ≤ o.maxTexts) : o.textWidth num * o.fontHeight * 2 < 2 ^ 32 := by
  refine Nat.lt_of_le_of_lt (Nat.mul_le_mul_right 2 ?_) o.fits
  rw [textWidth, Nat.mul_right_comm]
  exact Nat.mul_le_mul_left _ hnum

theorem not_independent_odd (hnum : num ≤ o.maxTexts) (htw : 0 < o.textWidth num) (hth : 0 < o.fontHeight)
    (hsmall : o.textWidth num < 65535) (hsmall' : o.fontHeight < 65535)
    (hodd : o.textWidth num % 2 = 1 ∨ o.fontHeight % 2 = 1) : ¬ Independent o num .yuv420P := by
  have hends : ¬ NeverEnds .yuv420P (o.textWidth num) o.fontHeight := by
    rintro ⟨-, hends⟩
    omega
  refine not_independent_of_luma hnum nofun hends fun v t hv haverage ht => ?_
  rw [TextOverlap.text, colorTrans_yuv420P hsmall hsmall'] at ht
  obtain rfl := some.inj ht
  obtain ⟨j, hj, i, hi, dx, hdx, haddr, -⟩ := exists_odd htw hth hodd
  obtain ⟨block, hblock, l, hl, hread⟩ := exists_luma_yuv420P hj hi hdx Nat.one_lt_two (o.textWidth num) o.fontHeight 0 0
  refine ⟨block, hblock, l, hl, ?_⟩
  rw [hread, haddr]
  refine planar_odd hv haverage htw hth hodd (packTextImg_cases v) fun p hp => ⟨?_, ?_⟩
  · exact packTextImg_of_ge _ (by omega)
  · exact packTextImg_of_ge _ (by omega)

theorem not_independent_large (hnum : num ≤ o.maxTexts) (htw : 0 < o.textWidth num) (hth : 0 < o.fontHeight)
    (hends : ¬ NeverEnds .yuv420P (o.textWidth num) o.fontHeight) (hlarge : 65536 ≤ o.textWidth num ∨ 65536 ≤ o.fontHeight) :
    ¬ Independent o num .yuv420P := by
  refine not_independent_of_luma hnum nofun hends fun v t hv _ ht => ?_
  rw [TextOverlap.text, colorTrans, if_neg (by decide), imgProcCst, if_pos rfl, yuv422ToYuv420Planar,
    if_neg fun hends' => hends ⟨rfl, hends'⟩] at ht
  obtain rfl := some.inj ht
  -- the last pixel of the text
  have hj : (o.fontHeight - 1) / 2 < (o.fontHeight + 1) / 2 := by omega
  have hi : (o.textWidth num - 1) / 2 < (o.textWidth num + 1) / 2 := by omega
  obtain ⟨block, hblock, l, hl, hread⟩ := exists_luma_yuv420P hj hi (Nat.mod_lt (o.textWidth num - 1) Nat.zero_lt_two)
    (Nat.mod_lt (o.fontHeight - 1) Nat.zero_lt_two) (o.textWidth num) o.fontHeight 0 0
  have hlast : (o.fontHeight - 1) * o.textWidth num + (o.textWidth num - 1) = o.textWidth num * o.fontHeight - 1 := by
    obtain ⟨n, hn⟩ : ∃ n, o.fontHeight = n + 1 := ⟨o.fontHeight - 1, by omega⟩
    rw [hn, Nat.add_sub_cancel, Nat.mul_succ (o.textWidth num) n, Nat.mul_comm n]
    omega
  refine ⟨block, hblock, l, hl, ?_⟩
  rw [hread, Nat.div_add_mod, Nat.div_add_mod, hlast, planar_large htw hth (o.text_fits hnum) hlarge hends]
  exact hv

end Leak

/-! ## The formats and sizes -/

/-- **A call depends on its arguments alone** exactly if it is refused or the glyphs determine its text. -/
theorem text_leftovers_iff {o : TextOverlap} {fontWidth fontHeight maxTexts : Nat} {bgColor : ColorFormat} {colorKeyY : UInt32}
    {fits : fontWidth * fontHeight * maxTexts * 2 < 2 ^ 32}
    (hinit : textOverlapInit fontWidth fontHeight bgColor maxTexts colorKeyY fits = some o) (num : Nat) :
    Independent o num bgColor ↔ o.maxTexts < num ∨ TextDetermined bgColor (o.textWidth num) o.fontHeight := by
  refine ⟨fun hind => ?_, independent_of_determined⟩
  by_contra hdet
  obtain ⟨hnum, hdet⟩ := not_or.mp hdet
  have hnum : num ≤ o.maxTexts := by omega
  refine absurd hind ?_
  cases bgColor with
  | rgb888 | rgb555 | rgb565 => cases hinit
  | yuv422 =>
    have hdet : ¬ (o.fontHeight = 0 ∨ o.textWidth num % 2 = 0) := hdet
    exact not_independent_yuv422 hnum (by omega) (by omega)
  | yuv422P =>
    have hdet : ¬ (o.textWidth num = 0 ∨ o.fontHeight = 0) := hdet
    refine not_independent_unconverted hnum (by decide) nofun ?_
    exact ⟨_, mem_grid.mpr ⟨0, by omega, 0, by omega, rfl⟩, by simp⟩
  | yuv420 =>
    have hdet : ¬ (o.textWidth num = 0 ∨ o.fontHeight = 0) := hdet
    refine not_independent_unconverted hnum (by decide) nofun ?_
    exact ⟨_, mem_grid.mpr ⟨0, by omega, 0, by omega, rfl⟩, by simp⟩
  | yuv420PMb =>
    have hdet : ¬ (o.textWidth num % 16 ≠ 0 ∨ o.textWidth num = 0 ∨ o.fontHeight = 0) := hdet
    have hrows : o.fontHeight % 16 = 0 := by
      obtain ⟨hfont, heq⟩ := ite_none_right_eq_some.mp hinit
      exact some.inj heq ▸ hfont.2
    refine not_independent_unconverted hnum (by decide) (fun _ => by omega) ?_
    refine ⟨_, mem_flatMap.mpr ⟨0, mem_range.mpr (by omega), mem_flatMap.mpr ⟨0, mem_range.mpr (by omega),
      mem_grid.mpr ⟨0, by omega, 0, by omega, rfl⟩⟩⟩, by simp⟩
  | yuv420P =>
    have hdet : ¬ (o.fontHeight = 0 ∨ (o.textWidth num = 0 ∧ o.fontHeight % 65536 ≠ 65535) ∨
      (o.textWidth num % 2 = 0 ∧ o.fontHeight % 2 = 0 ∧ o.textWidth num < 65536 ∧ o.fontHeight < 65536)) := hdet
    by_cases hends : NeverEnds .yuv420P (o.textWidth num) o.fontHeight
    · exact not_independent_of_neverEnds hnum hends
    have hends' : ¬ (o.fontHeight % 65536 = 65535 ∨ (o.textWidth num % 65536 = 65535 ∧ o.fontHeight % 65536 ≠ 0)) :=
      fun h => hends ⟨rfl, h⟩
    by_cases hlarge : 65536 ≤ o.textWidth num ∨ 65536 ≤ o.fontHeight
    · exact not_independent_large hnum (by omega) (by omega) hends hlarge
    · exact not_independent_odd hnum (by omega) (by omega) (by omega) (by omega) (by omega)

theorem text_leftovers_clock : textOverlapInit 8 16 .yuv420P maxOverlapText 0xFF (by decide) = some hTextOverlap ∧
    Independent hTextOverlap 8 .yuv420P := by
  have hinit : textOverlapInit 8 16 .yuv420P maxOverlapText 0xFF (by decide) = some hTextOverlap := rfl
  exact ⟨hinit, (text_leftovers_iff hinit 8).mpr (.inr (.inr (.inr (by decide))))⟩

theorem text_leftovers_planar : textOverlapInit 8 16 .yuv422P maxOverlapText 0xFF (by decide) = some hTextOverlap ∧
    ¬ Independent hTextOverlap 8 .yuv422P := by
  refine ⟨rfl, not_independent_unconverted (by decide) (by decide) nofun ?_⟩
  exact ⟨_, mem_grid.mpr ⟨0, by decide, 0, by decide, rfl⟩, by simp⟩

end NuWicam.Media
