import Mathlib.Data.List.Basic
import Mathlib.Tactic.Common

/-!
# JSON objects of strings, as bytes

An object whose members are strings is read from left to right: every reader gives what it has read and what is left of the
text. `isObject_raw_iff`: an object printed without escapes is JSON with its values if and only if no value needs one.
-/

namespace NuWicam.Lib.Json

open List Option

/-! ## UTF-8 -/

abbrev Owed := List (UInt8 × UInt8)

def utf8First (b : UInt8) : Option Owed :=
  if b < 0x80 then some []
  else if 0xC2 ≤ b ∧ b ≤ 0xDF then some [(0x80, 0xBF)]
  else if b = 0xE0 then some [(0xA0, 0xBF), (0x80, 0xBF)]
  else if b = 0xED then some [(0x80, 0x9F), (0x80, 0xBF)]
  else if 0xE1 ≤ b ∧ b ≤ 0xEF then some [(0x80, 0xBF), (0x80, 0xBF)]
  else if b = 0xF0 then some [(0x90, 0xBF), (0x80, 0xBF), (0x80, 0xBF)]
  else if b = 0xF4 then some [(0x80, 0x8F), (0x80, 0xBF), (0x80, 0xBF)]
  else if 0xF1 ≤ b ∧ b ≤ 0xF3 then some [(0x80, 0xBF), (0x80, 0xBF), (0x80, 0xBF)]
  else none

def utf8Step : Owed → UInt8 → Option Owed
  | [], b => utf8First b
  | (lo, hi) :: q, b => if lo ≤ b ∧ b ≤ hi then some q else none

def utf8Run : Owed → List UInt8 → Option Owed
  | q, [] => some q
  | q, b :: s => (utf8Step q b).bind fun q => utf8Run q s

def Utf8 (s : List UInt8) : Prop := utf8Run [] s = some []

instance (s : List UInt8) : Decidable (Utf8 s) := inferInstanceAs (Decidable (_ = _))

theorem utf8Run_append (q : Owed) (a b : List UInt8) : utf8Run q (a ++ b) = (utf8Run q a).bind fun q => utf8Run q b := by
  induction a generalizing q with
  | nil => rfl
  | cons c a ih =>
    rw [cons_append, utf8Run, utf8Run]
    cases utf8Step q c with
    | none => rfl
    | some q' => exact ih q'

def HighOwed (q : Owed) : Prop := ∀ p ∈ q, (0x80 : UInt8) ≤ p.1

instance (q : Owed) : Decidable (HighOwed q) := List.decidableBAll _ q

theorem highOwed_step {q q' : Owed} {b : UInt8} (hq : HighOwed q) (h : utf8Step q b = some q') : HighOwed q' := by
  cases q with
  | nil =>
    rw [utf8Step] at h
    unfold utf8First at h
    repeat' split at h
    all_goals cases h
    all_goals decide
  | cons p q =>
    rw [utf8Step] at h
    split at h
    · cases h
      exact fun p hp => hq p (mem_cons_of_mem _ hp)
    · cases h

variable {s : List UInt8} {c : UInt8} {r x k : List UInt8} {m : List UInt8 × List UInt8}

theorem highOwed_run {q q' : Owed} (hq : HighOwed q) (h : utf8Run q s = some q') : HighOwed q' := by
  induction s generalizing q with
  | nil =>
    cases h
    exact hq
  | cons b s ih =>
    rw [utf8Run, bind_eq_some_iff] at h
    obtain ⟨q₁, hstep, hrun⟩ := h
    exact ih (highOwed_step hq hstep) hrun

theorem utf8Step_ascii {q : Owed} (hq : HighOwed q) (hc : c < 0x80) : utf8Step q c = if q = [] then some [] else none := by
  cases q with
  | nil => exact if_pos hc
  | cons p q =>
    refine if_neg fun h => ?_
    exact absurd (UInt8.lt_of_lt_of_le hc (hq p mem_cons_self)) (by simpa using h.1)

theorem utf8_sep (hc : c < 0x80) (a b : List UInt8) : Utf8 (a ++ c :: b) ↔ Utf8 a ∧ Utf8 b := by
  unfold Utf8
  rw [utf8Run_append]
  cases h : utf8Run [] a with
  | none => simp
  | some q =>
    have hq : HighOwed q := highOwed_run (fun p hp => absurd hp not_mem_nil) h
    rw [bind_some, utf8Run, utf8Step_ascii hq hc]
    by_cases hnil : q = []
    · simp [hnil]
    · simp [hnil]

theorem utf8_cons (hc : c < 0x80) (s : List UInt8) : Utf8 (c :: s) ↔ Utf8 s :=
  (utf8_sep hc [] s).trans (and_iff_right rfl)

/-! ## Strings -/

def simpleEscape (c : UInt8) : Option UInt8 :=
  if c = 34 ∨ c = 92 ∨ c = 47 then some c
  else if c = 98 then some 8
  else if c = 102 then some 12
  else if c = 110 then some 10
  else if c = 114 then some 13
  else if c = 116 then some 9
  else none

def hexVal (c : UInt8) : Option Nat :=
  if 48 ≤ c ∧ c ≤ 57 then some (c.toNat - 48)
  else if 97 ≤ c ∧ c ≤ 102 then some (c.toNat - 87)
  else if 65 ≤ c ∧ c ≤ 70 then some (c.toNat - 55)
  else none

def hex4 : List UInt8 → Option (Nat × List UInt8)
  | a :: b :: c :: d :: s => do
    let a ← hexVal a
    let b ← hexVal b
    let c ← hexVal c
    let d ← hexVal d
    some (((a * 16 + b) * 16 + c) * 16 + d, s)
  | _ => none

def utf8Encode (n : Nat) : List UInt8 :=
  if n < 0x80 then [n.toUInt8]
  else if n < 0x800 then [(0xC0 + n / 64).toUInt8, (0x80 + n % 64).toUInt8]
  else if n < 0x10000 then [(0xE0 + n / 4096).toUInt8, (0x80 + n / 64 % 64).toUInt8, (0x80 + n % 64).toUInt8]
  else [(0xF0 + n / 262144).toUInt8, (0x80 + n / 4096 % 64).toUInt8, (0x80 + n / 64 % 64).toUInt8,
    (0x80 + n % 64).toUInt8]

def lowSurrogate (u : Nat) : List UInt8 → Option (List UInt8 × List UInt8)
  | x :: y :: s =>
    if x = 92 ∧ y = 117 then (hex4 s).bind fun (v, s) =>
      if 0xDC00 ≤ v ∧ v < 0xE000 then some (utf8Encode (0x10000 + (u - 0xD800) * 0x400 + (v - 0xDC00)), s) else none
    else none
  | _ => none

def escape : List UInt8 → Option (List UInt8 × List UInt8)
  | [] => none
  | c :: s =>
    if c = 117 then (hex4 s).bind fun (u, s) =>
      if u < 0xD800 ∨ 0xE000 ≤ u then some (utf8Encode u, s) else if u < 0xDC00 then lowSurrogate u s else none
    else (simpleEscape c).map fun x => ([x], s)

def readChars : Nat → List UInt8 → Option (List UInt8 × List UInt8)
  | 0, _ => none
  | _ + 1, [] => none
  | fuel + 1, c :: s =>
    if c = 34 then some ([], s)
    else if c = 92 then do
      let (x, s) ← escape s
      let (z, s) ← readChars fuel s
      some (x ++ z, s)
    else if c < 32 then none
    else (readChars fuel s).map fun (z, s) => (c :: z, s)

def Unescaped (s : List UInt8) : Prop := ∀ c ∈ s, 32 ≤ c ∧ c ≠ 34 ∧ c ≠ 92

instance (s : List UInt8) : Decidable (Unescaped s) := List.decidableBAll _ s

theorem hexVal_ne {n : Nat} (h : hexVal c = some n) : c ≠ 34 := by
  rintro rfl
  cases h

theorem hex4_spec {n : Nat} (h : hex4 s = some (n, r)) : ∃ e, s = e ++ r ∧ e.length = 4 ∧ (34 : UInt8) ∉ e := by
  unfold hex4 at h
  split at h
  · rename_i a b c d s
    simp only [bind_eq_bind, bind_eq_some_iff] at h
    obtain ⟨_, ha, _, hb, _, hc, _, hd, h⟩ := h
    cases h
    refine ⟨[a, b, c, d], rfl, rfl, ?_⟩
    simp only [mem_cons, not_mem_nil, or_false, not_or]
    exact ⟨(hexVal_ne ha).symm, (hexVal_ne hb).symm, (hexVal_ne hc).symm, (hexVal_ne hd).symm⟩
  · cases h

theorem length_utf8Encode (n : Nat) : (utf8Encode n).length ≤ 4 := by
  unfold utf8Encode
  repeat' split
  all_goals simp

theorem lowSurrogate_spec {u : Nat} (h : lowSurrogate u s = some (x, r)) :
    ∃ e, s = e ++ r ∧ x.length ≤ e.length ∧ (34 : UInt8) ∉ e := by
  unfold lowSurrogate at h
  split at h
  · rename_i a b s
    split at h
    · rename_i hab
      obtain ⟨rfl, rfl⟩ := hab
      rw [bind_eq_some_iff] at h
      obtain ⟨⟨v, s'⟩, hhex, h⟩ := h
      obtain ⟨e, rfl, hlen, hnot⟩ := hex4_spec hhex
      dsimp only at h
      split at h
      · rw [some.injEq, Prod.mk.injEq] at h
        obtain ⟨rfl, rfl⟩ := h
        refine ⟨92 :: 117 :: e, rfl, Nat.le_trans (length_utf8Encode _) ?_, ?_⟩
        · simp only [length_cons]
          omega
        · simpa using hnot
      · cases h
    · cases h
  · cases h

theorem escape_spec (h : escape s = some (x, r)) :
    ∃ e, s = e ++ r ∧ x.length ≤ e.length ∧ ((34 : UInt8) ∈ e → e = [34] ∧ x = [34]) := by
  cases s with
  | nil => cases h
  | cons c s =>
    rw [escape] at h
    split at h
    · rename_i hc
      rw [bind_eq_some_iff] at h
      obtain ⟨⟨u, s'⟩, hhex, h⟩ := h
      obtain ⟨e, rfl, hlen, hnot⟩ := hex4_spec hhex
      dsimp only at h
      split at h
      · obtain ⟨rfl, rfl⟩ := h
        refine ⟨c :: e, rfl, Nat.le_trans (length_utf8Encode u) ?_, fun hmem => ?_⟩
        · rw [length_cons]
          omega
        · rcases mem_cons.mp hmem with heq | hmem
          · rw [hc] at heq
            cases heq
          · exact absurd hmem hnot
      · split at h
        · obtain ⟨e', hs', hx, hnot'⟩ := lowSurrogate_spec h
          refine ⟨c :: (e ++ e'), by simp [hs'], ?_, fun hmem => ?_⟩
          · simp only [length_cons, length_append]
            omega
          · rcases mem_cons.mp hmem with heq | hmem
            · rw [hc] at heq
              cases heq
            · rcases mem_append.mp hmem with hmem | hmem
              · exact absurd hmem hnot
              · exact absurd hmem hnot'
        · cases h
    · rw [map_eq_some_iff] at h
      obtain ⟨y, hy, h⟩ := h
      cases h
      refine ⟨[c], rfl, Nat.le_refl _, fun hmem => ?_⟩
      cases mem_singleton.mp hmem
      cases hy
      exact ⟨rfl, rfl⟩

/-! ## Texts that stand in a string as they are -/

theorem unescaped_cons : Unescaped (c :: s) ↔ (32 ≤ c ∧ c ≠ 34 ∧ c ≠ 92) ∧ Unescaped s := forall_mem_cons

theorem readChars_plain (h : 32 ≤ c ∧ c ≠ 34 ∧ c ≠ 92) (fuel : Nat) (s : List UInt8) :
    readChars (fuel + 1) (c :: s) = (readChars fuel s).map fun (z, r) => (c :: z, r) := by
  rw [readChars, if_neg h.2.1, if_neg h.2.2, if_neg (UInt8.not_lt.mpr h.1)]

theorem readChars_unescaped (hx : Unescaped x) (rest : List UInt8) {fuel : Nat}
    (hfuel : x.length < fuel) : readChars fuel (x ++ 34 :: rest) = some (x, rest) := by
  induction x generalizing fuel with
  | nil =>
    obtain ⟨fuel, rfl⟩ := Nat.exists_eq_succ_of_ne_zero (Nat.ne_of_gt hfuel)
    rfl
  | cons c x ih =>
    obtain ⟨fuel, rfl⟩ := Nat.exists_eq_succ_of_ne_zero (Nat.ne_of_gt (Nat.lt_of_le_of_lt (Nat.zero_le _) hfuel))
    rw [unescaped_cons] at hx
    rw [cons_append, readChars_plain hx.1, ih hx.2 (Nat.lt_of_succ_lt_succ hfuel)]
    rfl

def Closed (rest : List UInt8) : Prop := ∀ fuel z r, readChars fuel rest = some (z, r) → z.getLast? ≠ some 92

theorem closed_of_unescaped {p : List UInt8} (hp : Unescaped p) (hc : c = 34 ∨ c < 32) (r : List UInt8) :
    Closed (p ++ c :: r) := by
  -- a string that goes on there ends with the text `p`
  have hread : ∀ {fuel z r'}, readChars fuel (p ++ c :: r) = some (z, r') → z = p := by
    induction p with
    | nil =>
      intro fuel z r' h
      cases fuel with
      | zero => cases h
      | succ fuel =>
        rw [nil_append, readChars] at h
        rcases hc with rfl | hlt
        · cases h
          rfl
        · rw [if_neg fun h34 => absurd (h34 ▸ hlt) (by decide), if_neg fun h92 => absurd (h92 ▸ hlt) (by decide),
            if_pos hlt] at h
          cases h
    | cons d p ih =>
      intro fuel z r' h
      rw [unescaped_cons] at hp
      cases fuel with
      | zero => cases h
      | succ fuel =>
        rw [cons_append, readChars_plain hp.1, map_eq_some_iff] at h
        obtain ⟨⟨z', r''⟩, hrest, h⟩ := h
        cases h
        rw [ih hp.2 hrest]
  intro fuel z r' h hlast
  rw [hread h] at hlast
  exact (hp 92 (List.mem_of_getLast? hlast)).2.2 rfl

theorem readChars_raw {rest : List UInt8} (hrest : Closed rest) : ∀ (fuel : Nat) {x y z r : List UInt8},
    readChars fuel (x ++ 34 :: rest) = some (z, r) → z = y ++ x → y = [] ∧ Unescaped x ∧ r = rest
  | 0, _, _, _, _, h, _ => by cases h
  | fuel + 1, [], y, z, r, h, hz => by
    cases h
    exact ⟨(List.append_eq_nil_iff.mp hz.symm).1, fun c hc => absurd hc List.not_mem_nil, rfl⟩
  | fuel + 1, c :: x, y, z, r, h, hz => by
    rw [List.cons_append, readChars] at h
    split at h
    · -- a quote ends the string here
      cases h
      exact absurd (List.append_eq_nil_iff.mp hz.symm).2 (by simp)
    split at h
    · simp only [bind_eq_bind, bind_eq_some_iff] at h
      obtain ⟨⟨d, r₁⟩, hesc, ⟨z₁, r₂⟩, hread, h⟩ := h
      cases h
      obtain ⟨e, he, hlen, hquote⟩ := escape_spec hesc
      -- an escape inside the text: what is read behind it would be longer than what stands there
      have hinside : ∀ w, x = e ++ w → r₁ = w ++ 34 :: rest → False := by
        rintro w rfl rfl
        rw [← cons_append, ← append_assoc] at hz
        rcases append_eq_append_iff.mp hz with ⟨v, hv, hw⟩ | ⟨v, hv, -⟩
        · obtain ⟨rfl, -, -⟩ := readChars_raw hrest fuel hread hw
          have hlong := congrArg List.length hv
          simp only [length_append, length_cons, length_nil] at hlong
          omega
        · have hlong := congrArg List.length hv
          simp only [length_append, length_cons] at hlong
          omega
      rcases append_eq_append_iff.mp he with ⟨w, hw, hr⟩ | ⟨w, hw, hr⟩
      · cases w with
        | nil => exact (hinside [] (by rw [hw, append_nil, append_nil]) hr.symm).elim
        | cons q w =>
          -- the escape is that of the closing quote, and the string goes on behind it
          obtain ⟨rfl, rfl⟩ := hr
          obtain ⟨he34, rfl⟩ := hquote (hw ▸ mem_append_right x mem_cons_self)
          obtain ⟨rfl, rfl⟩ : x = [] ∧ w = [] := by
            have hlong := congrArg List.length (hw.symm.trans he34)
            simp only [length_append, length_cons, length_nil] at hlong
            exact ⟨eq_nil_of_length_eq_zero (by omega), eq_nil_of_length_eq_zero (by omega)⟩
          rename_i hc92
          have hlast := congrArg List.getLast? hz
          rw [hc92, List.getLast?_concat] at hlast
          cases z₁ with
          | nil => cases hlast
          | cons a z₁ =>
            rw [List.getLast?_append_of_ne_nil _ (by simp)] at hlast
            exact absurd hlast (hrest fuel _ _ hread)
      · exact (hinside w hw hr).elim
    split at h
    · cases h
    · rename_i h34 h92 hlow
      rw [map_eq_some_iff] at h
      obtain ⟨⟨z₁, r₁⟩, hread, h⟩ := h
      cases h
      cases y with
      | nil =>
        rw [nil_append, List.cons.injEq] at hz
        obtain ⟨-, hx, hr⟩ := readChars_raw hrest fuel hread (hz.2.trans (nil_append x).symm)
        exact ⟨rfl, unescaped_cons.mpr ⟨⟨UInt8.not_lt.mp hlow, h34, h92⟩, hx⟩, hr⟩
      | cons a y =>
        rw [cons_append, List.cons.injEq, append_cons] at hz
        obtain ⟨hnil, -, -⟩ := readChars_raw hrest fuel hread hz.2
        exact absurd hnil (by simp)

/-! ## Objects -/

def isBlank (c : UInt8) : Bool := c == 32 || c == 9 || c == 10 || c == 13

def skipBlanks (s : List UInt8) : List UInt8 := s.dropWhile isBlank

def expect (c : UInt8) : List UInt8 → Option (List UInt8)
  | [] => none
  | d :: s => if d = c then some s else none

def readString (s : List UInt8) : Option (List UInt8 × List UInt8) := (expect 34 s).bind fun s => readChars s.length s

def readMember (s : List UInt8) : Option ((List UInt8 × List UInt8) × List UInt8) := do
  let (k, s) ← readString s
  let s ← expect 58 (skipBlanks s)
  let (v, s) ← readString (skipBlanks s)
  some ((k, v), skipBlanks s)

def readMembers : Nat → List UInt8 → Option (List (List UInt8 × List UInt8) × List UInt8)
  | 0, _ => none
  | fuel + 1, s => do
    let (m, s) ← readMember s
    match expect 44 s with
    | some s => do
      let (ms, s) ← readMembers fuel (skipBlanks s)
      some (m :: ms, s)
    | none => (expect 125 s).map fun s => ([m], s)

def readObject (s : List UInt8) : Option (List (List UInt8 × List UInt8)) := do
  let s ← expect 123 (skipBlanks s)
  match expect 125 (skipBlanks s) with
  | some s => if skipBlanks s = [] then some [] else none
  | none => do
    let (ms, s) ← readMembers s.length (skipBlanks s)
    if skipBlanks s = [] then some ms else none

def IsObject (s : List UInt8) (ms : List (List UInt8 × List UInt8)) : Prop := Utf8 s ∧ readObject s = some ms

instance (s : List UInt8) (ms : List (List UInt8 × List UInt8)) : Decidable (IsObject s ms) :=
  inferInstanceAs (Decidable (_ ∧ _))

/-! ## Objects printed without escapes -/

/-- `"k": "v"` -/
def rawMember (k v : List UInt8) : List UInt8 := 34 :: (k ++ 34 :: 58 :: 32 :: 34 :: (v ++ [34]))

/-- The members with `, ` between them. -/
def rawMembers : List (List UInt8 × List UInt8) → List UInt8
  | [] => []
  | [m] => rawMember m.1 m.2
  | m :: ms => rawMember m.1 m.2 ++ 44 :: 32 :: rawMembers ms

theorem expect_self (c : UInt8) (s : List UInt8) : expect c (c :: s) = some s := if_pos rfl

theorem readMember_key (hk : Unescaped k) (t : List UInt8) : readMember (34 :: (k ++ 34 :: 58 :: 32 :: 34 :: t)) =
      (readChars t.length t).map fun (v, s) => ((k, v), skipBlanks s) := by
  have hkey : readString (34 :: (k ++ 34 :: 58 :: 32 :: 34 :: t)) = some (k, 58 :: 32 :: 34 :: t) := by
    refine readChars_unescaped hk _ ?_
    simp
  have hcolon : expect 58 (skipBlanks (58 :: 32 :: 34 :: t)) = some (32 :: 34 :: t) := rfl
  have hvalue : readString (skipBlanks (32 :: 34 :: t)) = readChars t.length t := rfl
  simp only [readMember, hkey, hcolon, hvalue, bind_eq_bind, bind_some]
  cases readChars t.length t <;> rfl

theorem rawMember_append (k v rest : List UInt8) :
    rawMember k v ++ rest = 34 :: (k ++ 34 :: 58 :: 32 :: 34 :: (v ++ 34 :: rest)) := by simp [rawMember]

theorem readMember_unescaped {v : List UInt8} (hk : Unescaped k) (hv : Unescaped v) (rest : List UInt8) :
    readMember (rawMember k v ++ rest) = some ((k, v), skipBlanks rest) := by
  rw [rawMember_append, readMember_key hk, readChars_unescaped hv]
  · rfl
  · simp

theorem readMember_raw {v rest : List UInt8} (hk : Unescaped k) (hrest : Closed rest)
    (h : readMember (rawMember k v ++ rest) = some ((k, v), r)) : Unescaped v ∧ r = skipBlanks rest := by
  rw [rawMember_append, readMember_key hk, map_eq_some_iff] at h
  obtain ⟨⟨v', s⟩, hread, h⟩ := h
  cases h
  obtain ⟨-, hv, rfl⟩ := readChars_raw hrest _ hread (nil_append v).symm
  exact ⟨hv, rfl⟩

theorem readMembers_next {s' : List UInt8} (h : readMember s = some (m, 44 :: s')) (fuel : Nat) :
    readMembers (fuel + 1) s = (readMembers fuel (skipBlanks s')).map fun (ms, s) => (m :: ms, s) := by
  simp only [readMembers, h, expect_self, bind_eq_bind, bind_some]
  cases readMembers fuel (skipBlanks s') <;> rfl

theorem readMembers_first {fuel : Nat} {ms : List (List UInt8 × List UInt8)} (h : readMembers fuel s = some (m :: ms, r)) :
    ∃ s', readMember s = some (m, s') := by
  cases fuel with
  | zero => cases h
  | succ fuel =>
    simp only [readMembers, bind_eq_bind, bind_eq_some_iff] at h
    obtain ⟨⟨m₁, s₁⟩, hm, h⟩ := h
    split at h
    · rw [bind_eq_some_iff] at h
      obtain ⟨⟨ms₁, s₂⟩, -, h⟩ := h
      cases h
      exact ⟨s₁, hm⟩
    · rw [map_eq_some_iff] at h
      obtain ⟨s₂, -, h⟩ := h
      cases h
      exact ⟨s₁, hm⟩

theorem rawMembers_cons (m m' : List UInt8 × List UInt8) (ms : List (List UInt8 × List UInt8)) (t : List UInt8) :
    rawMembers (m :: m' :: ms) ++ t = rawMember m.1 m.2 ++ 44 :: 32 :: (rawMembers (m' :: ms) ++ t) := by
  simp [rawMembers]

theorem rawMembers_head (m : List UInt8 × List UInt8) (ms : List (List UInt8 × List UInt8)) (t : List UInt8) :
    skipBlanks (32 :: (rawMembers (m :: ms) ++ t)) = rawMembers (m :: ms) ++ t ∧
      Closed (44 :: 32 :: (rawMembers (m :: ms) ++ t)) := by
  obtain ⟨t', ht'⟩ : ∃ t', rawMembers (m :: ms) ++ t = 34 :: t' := by cases ms <;> exact ⟨_, rfl⟩
  rw [ht']
  exact ⟨rfl, closed_of_unescaped (p := [44, 32]) (by decide) (.inl rfl) t'⟩

section

variable {tail : List UInt8}

variable {ms : List (List UInt8 × List UInt8)}

theorem readMembers_unescaped (hne : ms ≠ [])
    (h : ∀ m ∈ ms, Unescaped m.1 ∧ Unescaped m.2) {fuel : Nat} (hfuel : ms.length ≤ fuel) :
    readMembers fuel (rawMembers ms ++ 125 :: tail) = some (ms, tail) := by
  induction ms generalizing fuel with
  | nil => exact absurd rfl hne
  | cons m ms ih =>
    rw [length_cons] at hfuel
    rw [forall_mem_cons] at h
    obtain ⟨fuel, rfl⟩ := Nat.exists_eq_succ_of_ne_zero (show fuel ≠ 0 by omega)
    have hread := readMember_unescaped h.1.1 h.1.2
    cases ms with
    | nil =>
      simp only [rawMembers, readMembers, hread (125 :: tail), bind_eq_bind, bind_some]
      rfl
    | cons m' ms =>
      rw [rawMembers_cons, readMembers_next (hread _) fuel, (rawMembers_head m' ms _).1,
        ih (cons_ne_nil m' ms) h.2 (by omega)]
      rfl

theorem readMembers_raw (htail : Closed (125 :: tail)) (hkeys : ∀ m ∈ ms, Unescaped m.1) {fuel : Nat} {r : List UInt8}
    (h : readMembers fuel (rawMembers ms ++ 125 :: tail) = some (ms, r)) : ∀ m ∈ ms, Unescaped m.2 := by
  induction ms generalizing fuel with
  | nil => exact fun m hm => absurd hm not_mem_nil
  | cons m ms ih =>
    rw [forall_mem_cons] at hkeys ⊢
    obtain ⟨s', hm⟩ := readMembers_first h
    cases ms with
    | nil => exact ⟨(readMember_raw hkeys.1 htail hm).1, fun m hm => absurd hm not_mem_nil⟩
    | cons m' ms =>
      rw [rawMembers_cons] at h hm
      obtain ⟨hv, rfl⟩ := readMember_raw hkeys.1 (rawMembers_head m' ms _).2 hm
      refine ⟨hv, ?_⟩
      cases fuel with
      | zero => cases h
      | succ fuel =>
        rw [readMembers_next hm fuel, (rawMembers_head m' ms _).1, map_eq_some_iff] at h
        obtain ⟨⟨ms', s'⟩, hms, h⟩ := h
        cases h
        exact ih hkeys.2 hms

theorem length_rawMembers : ∀ ms : List (List UInt8 × List UInt8), ms.length ≤ (rawMembers ms).length
  | [] => Nat.le_refl 0
  | [m] => by simp [rawMembers, rawMember]
  | m :: m' :: ms => by
    have ih := length_rawMembers (m' :: ms)
    rw [← append_nil (rawMembers (m :: m' :: ms)), rawMembers_cons]
    simp only [length_append, length_cons] at ih ⊢
    omega

theorem readObject_raw_iff (htail : Closed (125 :: tail)) (hblank : skipBlanks tail = []) (hne : ms ≠ [])
    (hkeys : ∀ m ∈ ms, Unescaped m.1) :
    readObject (123 :: (rawMembers ms ++ 125 :: tail)) = some ms ↔ ∀ m ∈ ms, Unescaped m.2 := by
  have hopen : expect 123 (skipBlanks (123 :: (rawMembers ms ++ 125 :: tail))) =
      some (rawMembers ms ++ 125 :: tail) := rfl
  obtain ⟨m, ms, rfl⟩ := exists_cons_of_ne_nil hne
  have hskip : skipBlanks (rawMembers (m :: ms) ++ 125 :: tail) = rawMembers (m :: ms) ++ 125 :: tail :=
    (rawMembers_head m ms (125 :: tail)).1
  have hmore : expect 125 (rawMembers (m :: ms) ++ 125 :: tail) = none := by cases ms <;> rfl
  have hfuel : (m :: ms).length ≤ (rawMembers (m :: ms) ++ 125 :: tail).length := by
    rw [length_append]
    exact Nat.le_trans (length_rawMembers _) (Nat.le_add_right _ _)
  simp only [readObject, hopen, hskip, hmore, bind_eq_bind, bind_some]
  constructor
  · intro h
    rw [bind_eq_some_iff] at h
    obtain ⟨⟨ms', s⟩, hms, h⟩ := h
    split at h
    · cases h
      exact readMembers_raw htail hkeys hms
    · cases h
  · intro h
    rw [readMembers_unescaped hne (fun m hm => ⟨hkeys m hm, h m hm⟩) hfuel, bind_some]
    exact if_pos hblank

theorem utf8_rawMember (k v rest : List UInt8) : Utf8 (rawMember k v ++ rest) ↔ Utf8 k ∧ Utf8 v ∧ Utf8 rest := by
  rw [rawMember_append, utf8_cons (by decide), utf8_sep (by decide), utf8_cons (by decide), utf8_cons (by decide),
    utf8_cons (by decide), utf8_sep (by decide)]

theorem utf8_rawMembers : ∀ (ms : List (List UInt8 × List UInt8)) (t : List UInt8),
    Utf8 (rawMembers ms ++ t) ↔ (∀ m ∈ ms, Utf8 m.1 ∧ Utf8 m.2) ∧ Utf8 t
  | [], t => by simp [rawMembers]
  | [m], t => by simp [rawMembers, utf8_rawMember, and_assoc]
  | m :: m' :: ms, t => by
    rw [rawMembers_cons, utf8_rawMember, utf8_cons (by decide), utf8_cons (by decide), utf8_rawMembers (m' :: ms) t]
    simp only [List.forall_mem_cons, and_assoc]

theorem isObject_raw_iff (htail : Closed (125 :: tail)) (hblank : skipBlanks tail = []) (hutf8 : Utf8 tail)
    (hne : ms ≠ []) (hkeys : ∀ m ∈ ms, Unescaped m.1 ∧ Utf8 m.1) :
    IsObject (123 :: (rawMembers ms ++ 125 :: tail)) ms ↔ ∀ m ∈ ms, Unescaped m.2 ∧ Utf8 m.2 := by
  rw [IsObject, readObject_raw_iff htail hblank hne fun m hm => (hkeys m hm).1, utf8_cons (by decide),
    utf8_rawMembers, utf8_cons (by decide)]
  constructor
  · rintro ⟨⟨hutf, -⟩, hv⟩ m hm
    exact ⟨hv m hm, (hutf m hm).2⟩
  · intro h
    exact ⟨⟨fun m hm => ⟨(hkeys m hm).2, (h m hm).2⟩, hutf8⟩, fun m hm => (h m hm).1⟩

end

end NuWicam.Lib.Json
