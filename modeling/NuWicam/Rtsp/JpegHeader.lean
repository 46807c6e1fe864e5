import NuWicam.Lib.Fields
import NuWicam.Rtsp.Jpeg

/-!
# Which frames `jpeg_process_frame` accepts

`JFrame.fields` lists the fields of a frame's header in their order, each with the rule for its value, and
`jpegProcessFrame_checked` says that the verdict of the code is the verdict on this list (`acceptance_iff`).
-/

namespace NuWicam.Rtsp

open Lib List Option

/-! ## The fields of a header -/

namespace JFrame

def whole (b : Str) : JFrame := ⟨b, b.length, Nat.le_refl _⟩

def octet (f : JFrame) (p : Nat) : UInt8 := f.d.getD p 0

def word (f : JFrame) (p : Nat) : Nat := (f.octet p).toNat * 256 + (f.octet (p + 1)).toNat

def part (f : JFrame) (p : Nat) : Component := ⟨f.octet p, f.octet (p + 1), f.octet (p + 2)⟩

end JFrame

def Seg.tableCount (s : Seg) : Nat := ((s.len + 64) / 65).toNat

/-- Its table is known, and the chrominance has one table. -/
def Component.valid (known : Nat → Bool) (earlier : List Component) (c : Component) : Bool :=
  decide (c.table.toNat < 16) && known c.table.toNat &&
    (c.id == 1 && (c.sampling == 0x11 || c.sampling == 0x21 || c.sampling == 0x22) ||
      (c.id == 2 || c.id == 3) && c.sampling == 0x11 &&
        (decide (chromaOf earlier < 0) || chromaOf earlier == c.table.toNat))

def JFrame.parts (f : JFrame) (known : Nat → Bool) : List Component → List Nat → List Field
  | _, [] => []
  | earlier, p :: ps => ⟨p + 3, (f.part p).valid known earlier⟩ :: f.parts known (earlier ++ [f.part p]) ps

/-- Precision, size, number of the components, components. -/
def JFrame.sofFields (f : JFrame) (known : Nat → Bool) (d : Nat) : List Field :=
  ⟨d + 1, f.octet d == 8⟩ :: ⟨d + 5, f.word (d + 1) % 8 == 0 && f.word (d + 3) % 8 == 0⟩ ::
    ⟨d + 6, f.octet (d + 5) == 3⟩ :: f.parts known [] [d + 6, d + 9, d + 12]

def JFrame.known (f : JFrame) (segs : List Seg) (t : Nat) : Bool := (segs.flatMap (Seg.tables f)).any fun e => e.1 == t

/-- Of the other segments no field is read. -/
def Seg.fields (f : JFrame) (before : List Seg) (s : Seg) : List Field :=
  if s.marker = 0xDB then
    (List.range s.tableCount).map fun k => ⟨s.pos + 65 * k + 1, f.octet (s.pos + 65 * k) &&& 0xF0 == 0⟩
  else if s.marker = 0xC0 then f.sofFields (f.known before) s.pos
  else if s.marker = 0xDD then [⟨s.pos + 2, true⟩]
  else []

def JFrame.lengthAt (f : JFrame) (i : Nat) : Nat := if f.octet (i + 1) = 0xD8 then 0 else f.word (i + 2)

/-- A frame without a scan has an end that is not accepted. -/
def JFrame.fieldsFrom (f : JFrame) : Nat → Nat → List Seg → List Field
  | 0, _, _ => [⟨0, false⟩]
  | fuel + 1, i, before =>
    if i < f.length then
      ⟨i + 1, f.octet i == 0xFF⟩ :: ⟨i + 2, true⟩ :: ⟨if f.octet (i + 1) = 0xD8 then i + 2 else i + 4, true⟩ ::
        if f.octet (i + 1) = 0xDA then []
        else
          let s : Seg := ⟨f.octet (i + 1), i + 4, (f.lengthAt i : Int) - 2⟩
          s.fields f before ++ f.fieldsFrom fuel (i + f.lengthAt i + 2) (before ++ [s])
    else [⟨0, false⟩]

def JFrame.fields (f : JFrame) : List Field := f.fieldsFrom (f.length + 1) 0 []

/-! ## The code reads these fields -/

section

variable {f : JFrame}

theorem JFrame.byte_eq (f : JFrame) (p : Nat) : f.byte p = if p + 1 ≤ f.d.length then some (f.octet p) else none := by
  unfold JFrame.byte JFrame.octet
  split
  · rw [List.getD_eq_getElem?_getD, List.getElem?_eq_getElem ‹_›]
    rfl
  · exact List.getElem?_eq_none (Nat.not_lt.mp ‹_›)

theorem JFrame.get16_eq (f : JFrame) (p : Nat) : f.get16 p = if p + 2 ≤ f.d.length then some (f.word p) else none := by
  unfold JFrame.get16 JFrame.word
  rw [f.byte_eq, f.byte_eq]
  by_cases h : p + 2 ≤ f.d.length
  · rw [if_pos h, if_pos (by omega), if_pos h]
    rfl
  · split <;> rfl

theorem JFrame.component_eq (f : JFrame) (p : Nat) : f.component p = if p + 3 ≤ f.d.length then some (f.part p) else none := by
  unfold JFrame.component JFrame.part
  rw [f.byte_eq, f.byte_eq, f.byte_eq]
  by_cases h : p + 3 ≤ f.d.length
  · rw [if_pos h, if_pos (by omega), if_pos (by omega), if_pos h]
    rfl
  · split
    · split <;> rfl
    · rfl

theorem blen_eq {i : Nat} (h : i + 2 ≤ f.d.length) : f.blen (f.octet (i + 1)) i =
    if (if f.octet (i + 1) = 0xD8 then i + 2 else i + 4) ≤ f.d.length then some (f.lengthAt i) else none := by
  unfold JFrame.blen JFrame.lengthAt
  by_cases hSOI : f.octet (i + 1) = 0xD8
  · rw [if_pos hSOI, if_pos hSOI, if_pos hSOI, if_pos h]
  · rw [if_neg hSOI, if_neg hSOI, if_neg hSOI]
    exact f.get16_eq (i + 2)

end

section

variable {f : JFrame} {out out' : RtpJpeg}

theorem checked_cons {α : Type} {n stop : Nat} {a : α} {ok : Bool} {xs : List Field} {k : α → Option (Bool × RtpJpeg)}
    (hrefused : stop ≤ n → ok = false → (k a).map Prod.fst = some false)
    (hgoes : stop ≤ n → ok → (k a).map Prod.fst = checkFields n xs) :
    ((if stop ≤ n then some a else none).bind k).map Prod.fst = checkFields n (⟨stop, ok⟩ :: xs) := by
  by_cases hle : stop ≤ n
  · rw [if_pos hle, checkFields_cons_of_le hle]
    cases ok with
    | false => exact hrefused hle rfl
    | true => exact hgoes hle rfl
  · rw [if_neg hle, checkFields_cons_of_lt (Nat.not_le.mp hle)]
    rfl

theorem checked_byte {n stop : Nat} {b v : UInt8} {g : UInt8 → UInt8} {xs : List Field} {refused : RtpJpeg}
    {k : UInt8 → Option (Bool × RtpJpeg)} (hgoes : stop ≤ n → (k b).map Prod.fst = checkFields n xs) :
    ((if stop ≤ n then some b else none).bind fun b => if g b ≠ v then some (false, refused) else k b).map Prod.fst =
      checkFields n (⟨stop, g b == v⟩ :: xs) := by
  apply checked_cons
  · intro _ hbad
    rw [if_pos (beq_eq_false_iff_ne.mp hbad)]
    rfl
  · intro hle hok
    rw [if_neg (not_not.mpr (beq_iff_eq.mp hok))]
    exact hgoes hle

theorem parseDQT_checked {d : Nat} {len : Int} (fuel k : Nat) (hfuel : ((len + 64) / 65).toNat - k ≤ fuel) :
    (parseDQT f d len fuel (65 * k) out).map Prod.fst = checkFields f.d.length
      ((List.range' k (((len + 64) / 65).toNat - k)).map fun k => ⟨d + 65 * k + 1, f.octet (d + 65 * k) &&& 0xF0 == 0⟩) := by
  induction fuel generalizing k out with
  | zero =>
    rw [Nat.le_zero.mp hfuel]
    rfl
  | succ fuel ih =>
    unfold parseDQT
    by_cases hlt : ((65 * k : Nat) : Int) < len
    · have hn : ((len + 64) / 65).toNat - k = (((len + 64) / 65).toNat - (k + 1)) + 1 := by omega
      rw [if_pos hlt, hn, range'_succ, map_cons, f.byte_eq]
      exact checked_byte (g := (· &&& 0xF0)) fun _ => ih (k + 1) (by omega)
    · have hn : ((len + 64) / 65).toNat - k = 0 := by omega
      rw [if_neg hlt, hn]
      rfl

theorem chromaOf_snoc (cs : List Component) (c : Component) : chromaOf (cs ++ [c]) =
    if chromaOf cs < 0 ∧ (c.id = 2 ∨ c.id = 3) then (c.table.toNat : Int) else chromaOf cs := by
  unfold chromaOf
  rw [List.find?_append]
  cases cs.find? fun c => c.id == 2 || c.id == 3 with
  | some c' =>
    have hpos : ¬ (c'.table.toNat : Int) < 0 := by omega
    exact (if_neg fun h => hpos h.1).symm
  | none =>
    by_cases hC : c.id = 2 ∨ c.id = 3
    · have hfound : (c.id == 2 || c.id == 3) := by simpa using hC
      rw [none_or, List.find?_cons, hfound, if_pos ⟨by decide, hC⟩]
      rfl
    · have hmiss : (c.id == 2 || c.id == 3) = false := by simpa using hC
      rw [none_or, List.find?_cons, hmiss, if_neg fun h => hC h.2]
      rfl

theorem parseComponent_fst {known : Nat → Bool} {earlier : List Component} (hquant : ∀ t, (out.quant t).isSome = known t)
    (hchroma : out.chromaTable = chromaOf earlier) (c : Component) : (parseComponent c out).1 = c.valid known earlier := by
  have hnone : out.quant c.table.toNat = none ↔ known c.table.toNat = false := by
    rw [← hquant, isSome_eq_false_iff, isNone_iff_eq_none]
  unfold parseComponent Component.valid
  grind

theorem parseComponents_checked {known : Nat → Bool} (ps : List Nat) (earlier : List Component)
    (hquant : ∀ t, (out.quant t).isSome = known t) (hchroma : out.chromaTable = chromaOf earlier) :
    (parseComponents f ps out).map Prod.fst = checkFields f.d.length (f.parts known earlier ps) := by
  induction ps generalizing out earlier with
  | nil => rfl
  | cons p ps ih =>
    have hfst := parseComponent_fst hquant hchroma (f.part p)
    unfold parseComponents
    rw [f.component_eq]
    apply checked_cons
    · intro _ hbad
      rw [hbad] at hfst
      rw [hfst, if_neg Bool.false_ne_true, map_some, hfst]
    · intro _ hok
      rw [hok] at hfst
      obtain ⟨hquant', -, -, hchroma'⟩ := parseComponent_spec hfst
      rw [if_pos hfst]
      apply ih
      · rw [hquant']
        exact hquant
      · rw [hchroma', hchroma, chromaOf_snoc]

theorem and_seven (n : Nat) : n &&& 7 = n % 8 := Nat.and_two_pow_sub_one_eq_mod n 3

theorem JFrame.get16_twice {α : Type} (f : JFrame) (p : Nat) (k : Nat → Nat → Option α) :
    ((f.get16 p).bind fun h => (f.get16 (p + 2)).bind fun w => k h w) =
      (if p + 4 ≤ f.d.length then some (f.word p, f.word (p + 2)) else none).bind fun x => k x.1 x.2 := by
  rw [f.get16_eq, f.get16_eq]
  by_cases h : p + 4 ≤ f.d.length
  · rw [if_pos h, if_pos (by omega), if_pos h]
    rfl
  · split <;> rfl

theorem parseSOF_checked {known : Nat → Bool} (d : Nat) (hquant : ∀ t, (out.quant t).isSome = known t) :
    (parseSOF f d out).map Prod.fst = checkFields f.d.length (f.sofFields known d) := by
  unfold parseSOF JFrame.sofFields
  rw [f.byte_eq]
  apply checked_byte (g := id)
  intro _
  rw [f.get16_twice]
  apply checked_cons
  · intro _ hbad
    rw [and_seven, and_seven, if_pos (by grind)]
    rfl
  intro _ hsize
  rw [and_seven, and_seven, if_neg (by grind), f.byte_eq]
  exact checked_byte (g := id) fun _ => parseComponents_checked _ [] hquant rfl

theorem quantOf_isSome (q : Nat → Option Nat) (l : List (Nat × Nat)) (t : Nat) :
    (quantOf q l t).isSome = ((q t).isSome || l.any fun e => e.1 == t) := by
  induction l generalizing q with
  | nil => exact (Bool.or_false _).symm
  | cons e l ih =>
    rw [quantOf, foldl_cons, ← quantOf, ih, any_cons, ← Bool.or_assoc]
    congr 1
    rw [Function.update_apply]
    by_cases he : t = e.1
    · rw [if_pos he, he, beq_self_eq_true, Bool.or_true]
      rfl
    · rw [if_neg he, beq_eq_false_iff_ne.mpr (Ne.symm he), Bool.or_false]

/-- **The verdict on one segment.** -/
theorem parseSegment_checked {before : List Seg} (hquant : out.quant = quantOf (fun _ => none) (before.flatMap (Seg.tables f)))
    (s : Seg) : (parseSegment f s.marker s.pos s.len out).map Prod.fst = checkFields f.d.length (s.fields f before) := by
  unfold parseSegment Seg.fields
  split
  · rw [range_eq_range']
    exact parseDQT_checked s.len.toNat 0 (by omega)
  split
  · apply parseSOF_checked
    intro t
    rw [hquant, quantOf_isSome]
    rfl
  split
  · unfold parseDRI
    rw [f.get16_eq]
    by_cases hle : s.pos + 2 ≤ f.d.length
    · rw [if_pos hle, checkFields_cons_of_le hle]
      rfl
    · rw [if_neg hle, checkFields_cons_of_lt (Nat.not_le.mp hle)]
      rfl
  · rfl

/-- **The verdict on all segments.** -/
theorem processLoop_checked {now : Nat} (fuel i : Nat) {before : List Seg}
    (hquant : out.quant = quantOf (fun _ => none) (before.flatMap (Seg.tables f))) :
    (processLoop f now fuel i out).map Prod.fst = checkFields f.d.length (f.fieldsFrom fuel i before) := by
  induction fuel generalizing i out before with
  | zero => rfl
  | succ fuel ih =>
    unfold processLoop JFrame.fieldsFrom
    by_cases hlt : i < f.length
    · rw [if_pos hlt, if_pos hlt, f.byte_eq]
      apply checked_byte (g := id)
      intro _
      rw [f.byte_eq]
      apply checked_cons
      · exact fun _ h => absurd h Bool.noConfusion
      intro hle _
      rw [blen_eq hle]
      apply checked_cons
      · exact fun _ h => absurd h Bool.noConfusion
      intro _ _
      by_cases hDA : f.octet (i + 1) = 0xDA
      · rw [if_pos hDA, if_pos hDA]
        rfl
      · rw [if_neg hDA, if_neg hDA]
        rw [checkFields_append, ← parseSegment_checked hquant]
        cases hseg : parseSegment f (f.octet (i + 1)) (i + 4) ((f.lengthAt i : Int) - 2) out with
        | none => rfl
        | some r =>
          obtain ⟨ok, out₁⟩ := r
          cases ok with
          | false => rfl
          | true =>
            have hout₁ := (parseSegment_effect hseg).quant
            apply ih
            rw [hout₁, hquant, flatMap_append, flatMap_singleton, quantOf, quantOf, quantOf, foldl_append]
    · rw [if_neg hlt, if_neg hlt]
      rfl

end

/-! ## The picture of an accepted frame -/

def JFrame.sof (f : JFrame) : Option Seg := f.header.bind fun h => h.1.reverse.find? fun s => s.marker == 0xC0

/-- That of the last component with the id 1, or else what an earlier frame left. -/
def typeOf (t : Int) (cs : List Component) : Int :=
  cs.foldl (fun t c => if c.id = 1 then if c.sampling = 0x22 then 1 else 0 else t) t

section

variable {f : JFrame} {out out' : RtpJpeg} {s : Seg} {segs : List Seg}

theorem parseComponent_size (c : Component) (out : RtpJpeg) :
    (parseComponent c out).2.width = out.width ∧ (parseComponent c out).2.height = out.height := by
  unfold parseComponent
  split_ifs <;> exact ⟨rfl, rfl⟩

theorem parseComponent_type {c : Component} (h : (parseComponent c out).1) :
    (parseComponent c out).2.type = if c.id = 1 then if c.sampling = 0x22 then 1 else 0 else out.type := by
  unfold parseComponent at h ⊢
  grind

theorem parseComponents_picture (ps : List Nat) (h : parseComponents f ps out = some (true, out')) :
    out'.width = out.width ∧ out'.height = out.height ∧ out'.type = typeOf out.type (ps.filterMap f.component) := by
  induction ps generalizing out with
  | nil =>
    cases h
    exact ⟨rfl, rfl, rfl⟩
  | cons p ps ih =>
    obtain ⟨c, hc, h⟩ := bind_eq_some_iff.mp h
    split at h
    · rename_i hok
      obtain ⟨hwidth, hheight⟩ := parseComponent_size c out
      obtain ⟨hwidth', hheight', htype⟩ := ih h
      refine ⟨hwidth'.trans hwidth, hheight'.trans hheight, ?_⟩
      rw [htype, parseComponent_type hok, filterMap_cons, hc]
      rfl
    · rename_i hok
      rw [Option.some.inj h] at hok
      exact absurd rfl hok

/-- What a `SOF` segment says of the picture. -/
structure PictureOf (f : JFrame) (s : Seg) (out : RtpJpeg) : Prop where
  width : out.width * 8 = f.word (s.pos + 3)
  height : out.height * 8 = f.word (s.pos + 1)
  type : ∃ t, out.type = typeOf t (s.components f)

theorem parseSOF_picture {d : Nat} {len : Int} (h : parseSOF f d out = some (true, out')) :
    PictureOf f ⟨0xC0, d, len⟩ out' := by
  obtain ⟨precision, _, h⟩ := bind_eq_some_iff.mp h
  split at h
  · cases h
  rw [f.get16_twice] at h
  obtain ⟨x, hx, h⟩ := bind_eq_some_iff.mp h
  obtain ⟨_, hx⟩ := ite_none_right_eq_some.mp hx
  cases hx
  rw [and_seven, and_seven] at h
  by_cases hodd : f.word (d + 1) % 8 ≠ 0 ∨ f.word (d + 1 + 2) % 8 ≠ 0
  · rw [if_pos hodd] at h
    cases h
  rw [if_neg hodd] at h
  obtain ⟨n, _, h⟩ := bind_eq_some_iff.mp h
  split at h
  · cases h
  obtain ⟨hwidth, hheight, htype⟩ := parseComponents_picture _ h
  rw [not_or, not_not, not_not] at hodd
  refine ⟨?_, ?_, _, htype⟩
  · rw [hwidth]
    rw [Nat.shiftRight_eq_div_pow]
    exact Nat.div_mul_cancel (Nat.dvd_of_mod_eq_zero hodd.2)
  · rw [hheight]
    dsimp only
    omega

theorem parseSegment_picture (h : parseSegment f s.marker s.pos s.len out = some (true, out')) (hs : s.marker ≠ 0xC0) :
    out'.width = out.width ∧ out'.height = out.height ∧ out'.type = out.type := by
  unfold parseSegment at h
  by_cases hDQT : s.marker = 0xDB
  · rw [if_pos hDQT] at h
    rw [parseDQT_tables s.len.toNat 0 (by omega) h]
    exact ⟨rfl, rfl, rfl⟩
  rw [if_neg hDQT, if_neg hs] at h
  by_cases hDRI : s.marker = 0xDD
  · rw [if_pos hDRI] at h
    obtain ⟨n, _, hout⟩ := map_eq_some_iff.mp h
    cases hout
    exact ⟨rfl, rfl, rfl⟩
  · rw [if_neg hDRI] at h
    cases h
    exact ⟨rfl, rfl, rfl⟩

variable {before after : List Seg}

theorem Parsed.append (h : Parsed f (before ++ after) out out') :
    ∃ out₁, Parsed f before out out₁ ∧ Parsed f after out₁ out' := by
  induction before generalizing out with
  | nil => exact ⟨out, .nil out, h⟩
  | cons s before ih =>
    cases h with
    | cons hs h =>
      obtain ⟨out₁, hbefore, hafter⟩ := ih h
      exact ⟨out₁, .cons hs hbefore, hafter⟩

theorem Parsed.keeps_picture (h : Parsed f segs out out') (hsegs : ∀ s ∈ segs, s.marker ≠ 0xC0) :
    out'.width = out.width ∧ out'.height = out.height ∧ out'.type = out.type := by
  induction h with
  | nil => exact ⟨rfl, rfl, rfl⟩
  | cons hs _ ih =>
    obtain ⟨hs', hsegs⟩ := forall_mem_cons.mp hsegs
    obtain ⟨hwidth, hheight, htype⟩ := parseSegment_picture hs hs'
    obtain ⟨hwidth', hheight', htype'⟩ := ih hsegs
    exact ⟨hwidth'.trans hwidth, hheight'.trans hheight, htype'.trans htype⟩

theorem Parsed.picture (h : Parsed f (before ++ s :: after) out out') (hs : s.marker = 0xC0)
    (hafter : ∀ x ∈ after, x.marker ≠ 0xC0) : PictureOf f s out' := by
  obtain ⟨out₁, -, h⟩ := h.append
  obtain ⟨marker, d, len⟩ := s
  cases hs
  cases h with
  | @cons _ _ _ out₂ _ hs h =>
    obtain ⟨hwidth, hheight, t, htype⟩ : PictureOf f ⟨0xC0, d, len⟩ out₂ := parseSOF_picture hs
    obtain ⟨hwidth', hheight', htype'⟩ := h.keeps_picture hafter
    exact ⟨hwidth' ▸ hwidth, hheight' ▸ hheight, t, htype'.trans htype⟩

theorem Parsed.valid (hquant : out.quant = fun _ => none)
    (h : Parsed f (before ++ s :: after) out out') : ∀ x ∈ s.fields f before, x.valid = true := by
  obtain ⟨out₁, hbefore, h⟩ := h.append
  cases h with
  | cons hs _ =>
    have hquant₁ : out₁.quant = quantOf (fun _ => none) (before.flatMap (Seg.tables f)) := by
      rw [← hquant]
      exact (hbefore.leaves 0 0).quant
    have hchecked := parseSegment_checked hquant₁ s
    rw [hs] at hchecked
    intro x hx
    exact (checkFields_eq_true_iff.mp hchecked.symm x hx).2

theorem JFrame.sof_eq_some {scan : Nat} (hheader : f.header = some (segs, scan)) (h : f.sof = some s) :
    s.marker = 0xC0 ∧ ∃ before after, segs = before ++ s :: after ∧ ∀ x ∈ after, x.marker ≠ 0xC0 := by
  rw [JFrame.sof, hheader] at h
  obtain ⟨hs, after, before, hsegs, hafter⟩ := List.find?_eq_some_iff_append.mp h
  refine ⟨beq_iff_eq.mp hs, before.reverse, after.reverse, ?_, ?_⟩
  · rw [← segs.reverse_reverse, hsegs]
    simp
  · intro x hx hC0
    have hno := hafter x (mem_reverse.mp hx)
    rw [hC0] at hno
    exact absurd hno (by decide)

end

/-! ## What `jpeg_send` uses -/

def TableInFrame (f : JFrame) (out : RtpJpeg) (t : Int) : Prop :=
  0 ≤ t ∧ t < 16 ∧ ∃ p, out.quant t.toNat = some p ∧ p + 64 ≤ f.length

/-- **All that `jpeg_send` uses comes from the frame**: the size from a valid `SOF` segment, the tables and the scan data. -/
structure FromFrame (f : JFrame) (out : RtpJpeg) : Prop where
  sof : ∃ before s after scan, f.header = some (before ++ s :: after, scan) ∧ s.marker = 0xC0 ∧
    (∀ x ∈ s.fields f before, x.valid = true) ∧ out.width * 8 = f.word (s.pos + 3) ∧ out.height * 8 = f.word (s.pos + 1)
  luma : TableInFrame f out out.lumaTable
  chroma : TableInFrame f out out.chromaTable
  scan : 0 ≤ out.scanDataLen ∧ out.scanData + out.scanDataLen ≤ f.length

/-- The header has a `SOF` segment and the tables that its components name, and does not end after the frame. -/
structure SoundHeader (old : RtpJpeg) (f : JFrame) : Prop where
  sof : f.sof.isSome
  tables : HasTables old f
  scan : ∀ h ∈ f.header, h.2 ≤ f.length

section

variable {f : JFrame} {old out : RtpJpeg} {now : Nat}

theorem jpegProcessFrame_checked (old : RtpJpeg) (f : JFrame) (now : Nat) :
    (jpegProcessFrame old f now).map Prod.fst = checkFields f.d.length f.fields := processLoop_checked _ _ rfl

theorem table_isSome_iff {t : Int} (hall : f.d.length = f.length) :
    (RtpJpeg.table f out.quant t).isSome ↔ TableInFrame f out t := by
  unfold RtpJpeg.table TableInFrame
  rw [hall]
  by_cases ht : 0 ≤ t ∧ t < 16
  · cases out.quant t.toNat with
    | none => simp
    | some p => by_cases hp : p + 64 ≤ f.length <;> simp [hp, ht.1, ht.2]
  · rw [if_neg ht]
    exact ⟨fun h => absurd h Bool.false_ne_true, fun h => absurd ⟨h.1, h.2.1⟩ ht⟩

theorem fromFrame_iff (hall : f.d.length = f.length) (h : jpegProcessFrame old f now = some (true, out)) :
    FromFrame f out ↔ SoundHeader old f := by
  have htables := accepted_hasTables h
  rw [table_isSome_iff hall, table_isSome_iff hall] at htables
  obtain ⟨segs, scan, out₁, hheader, hparsed, rfl⟩ := accepted_parsed h
  have hscan : (0 ≤ (f.length : Int) - scan ∧ (scan : Int) + (f.length - scan) ≤ f.length) ↔ scan ≤ f.length := by omega
  constructor
  · rintro ⟨⟨before, s, after, scan', hsegs, hs, -, -⟩, hluma, hchroma, hend⟩
    refine ⟨?_, htables.mpr ⟨hluma, hchroma⟩, ?_⟩
    · rw [JFrame.sof, hsegs, bind_some, List.find?_isSome]
      exact ⟨s, by simp, beq_iff_eq.mpr hs⟩
    · intro h hh
      cases hheader.symm.trans hh
      exact hscan.mp hend
  · rintro ⟨hsof, hhas, hend⟩
    obtain ⟨s, hs⟩ := isSome_iff_exists.mp hsof
    obtain ⟨hmarker, before, after, hsegs, hafter⟩ := JFrame.sof_eq_some hheader hs
    subst hsegs
    have hpicture := hparsed.picture hmarker hafter
    refine ⟨⟨before, s, after, scan, hheader, hmarker, hparsed.valid rfl, hpicture.width, hpicture.height⟩,
      (htables.mp hhas).1, (htables.mp hhas).2, hscan.mpr (hend _ hheader)⟩

end

/-- **Which frames are handled well**: those with no field cut off, and a sound header if they are accepted. -/
theorem acceptance_iff (b : Str) (old : RtpJpeg) (now : Nat) :
    (∃ ok out, jpegProcessFrame old (.whole b) now = some (ok, out) ∧ (ok = true → FromFrame (.whole b) out)) ↔
      Covered b.length (JFrame.whole b).fields ∧
        ((∀ x ∈ (JFrame.whole b).fields, x.valid = true) → SoundHeader old (.whole b)) := by
  have hchecked : _ = checkFields b.length _ := jpegProcessFrame_checked old (.whole b) now
  constructor
  · rintro ⟨ok, out, hres, hgood⟩
    rw [hres, map_some] at hchecked
    have hcovered : Covered b.length (JFrame.whole b).fields := by
      rw [← checkFields_isSome_iff, ← hchecked]
      rfl
    refine ⟨hcovered, fun hvalid => ?_⟩
    rw [hcovered.checkFields_eq_true hvalid] at hchecked
    cases hchecked
    exact (fromFrame_iff rfl hres).mp (hgood rfl)
  · rintro ⟨hcovered, hsound⟩
    have hsome := checkFields_isSome_iff.mpr hcovered
    rw [← hchecked, isSome_map] at hsome
    obtain ⟨⟨ok, out⟩, hres⟩ := isSome_iff_exists.mp hsome
    refine ⟨ok, out, hres, ?_⟩
    rintro rfl
    rw [hres, map_some] at hchecked
    refine (fromFrame_iff rfl hres).mpr (hsound fun x hx => ?_)
    exact (checkFields_eq_true_iff.mp hchecked.symm x hx).2

theorem cut_and_bare_frames :
    (¬ ∃ ok out, jpegProcessFrame .fresh (.whole [0xFF]) 1 = some (ok, out) ∧ (ok = true → FromFrame (.whole [0xFF]) out)) ∧
    ¬ ∃ ok out, jpegProcessFrame .fresh (.whole [0xFF, 0xD8, 0xFF, 0xDA, 0, 2, 7]) 1 = some (ok, out) ∧
      (ok = true → FromFrame (.whole [0xFF, 0xD8, 0xFF, 0xDA, 0, 2, 7]) out) := by
  constructor
  · rintro ⟨ok, out, hres, -⟩
    have hnone : jpegProcessFrame .fresh (.whole [0xFF]) 1 = none := rfl
    cases hnone.symm.trans hres
  · rintro ⟨ok, out, hres, hgood⟩
    have hok := congrArg (fun r => r.map Prod.fst) hres
    have htrue : (jpegProcessFrame .fresh (.whole [0xFF, 0xD8, 0xFF, 0xDA, 0, 2, 7]) 1).map Prod.fst = some true := by decide
    cases htrue.symm.trans hok
    have hsof := ((fromFrame_iff rfl hres).mp (hgood rfl)).sof
    exact absurd hsof (by decide)

end NuWicam.Rtsp
