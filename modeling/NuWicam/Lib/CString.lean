import Mathlib.Data.List.Basic
import Mathlib.Data.List.TakeWhile

/-!
# C strings

A C string is the list of its bytes before the terminating `NUL`. The functions are those of the C library in the C locale,
each by what it returns: a comparison is the test of its result against `0`, a search is the suffix it points at.
-/

namespace NuWicam.Lib

open List

abbrev Str := List UInt8

def bytes (s : String) : Str := s.toList.map fun c => c.toNat.toUInt8

/-- The bytes before the first `NUL`. -/
def cstr (mem : Str) : Str := mem.takeWhile (· != 0)

/-! ## Comparisons -/

/-- `tolower` -/
def lower (c : UInt8) : UInt8 := if 65 ≤ c ∧ c ≤ 90 then c + 32 else c

/-- `strcasecmp(a, b) == 0` -/
def caseEq (a b : Str) : Bool := a.map lower == b.map lower

/-- `strncmp(s, lit, strlen(lit)) == 0` -/
def hasPfx (lit s : Str) : Bool := lit.isPrefixOf s

/-- `strncasecmp(s, lit, strlen(lit)) == 0` -/
def hasPfxCase (lit s : Str) : Bool := (lit.map lower).isPrefixOf (s.map lower)

variable {a b lit : Str} {c : UInt8} (n : Nat)

theorem caseEq_iff : caseEq a b ↔ a.map lower = b.map lower := by simp [caseEq]

theorem caseEq_trans {c : Str} (h : caseEq a b) (h' : caseEq b c) : caseEq a c = true := by
  rw [caseEq_iff] at *
  exact h.trans h'

theorem caseEq_symm (h : caseEq a b) : caseEq b a = true := by
  rw [caseEq_iff] at *
  exact h.symm

/-! ## Searches -/

/-- `strchr`: the suffix that starts at the first `c`. -/
def strchr (c : UInt8) : Str → Option Str
  | [] => none
  | x :: xs => if x = c then some (x :: xs) else strchr c xs

/-- `strrchr`: the suffix that starts at the last `c`. -/
def strrchr (c : UInt8) : Str → Option Str
  | [] => none
  | x :: xs => (strrchr c xs).orElse fun _ => if x = c then some (x :: xs) else none

/-- `strstr`: the suffix that starts at the first occurrence of `lit`. -/
def strstr (lit : Str) : Str → Option Str
  | [] => if lit = [] then some [] else none
  | x :: xs => if lit.isPrefixOf (x :: xs) then some (x :: xs) else strstr lit xs

theorem strstr_starts : ∀ {s r : Str}, strstr lit s = some r → lit <+: r
  | [], r, h => by
    unfold strstr at h
    split at h
    · rename_i hl
      cases h
      exact hl ▸ List.prefix_rfl
    · cases h
  | x :: xs, r, h => by
    unfold strstr at h
    split at h
    · rename_i hp
      cases h
      exact List.isPrefixOf_iff_prefix.mp hp
    · exact strstr_starts h

theorem strstr_start {s : Str} (h : lit <+: s) : strstr lit s = some s := by
  cases s with
  | nil => rw [strstr, if_pos (prefix_nil.mp h)]
  | cons c s => rw [strstr, if_pos (List.isPrefixOf_iff_prefix.mpr h)]

theorem strstr_isSome_iff : ∀ {s : Str}, (strstr lit s).isSome ↔ lit <:+: s
  | [] => by
    rw [strstr, List.infix_nil]
    split <;> simp_all
  | x :: xs => by
    rw [strstr, List.infix_cons_iff, ← strstr_isSome_iff, ← List.isPrefixOf_iff_prefix]
    by_cases h : lit.isPrefixOf (x :: xs)
    · simp [h]
    · simp [h]

theorem infix_sep (hc : c ∉ lit) : lit <:+: a ++ c :: b ↔ lit <:+: a ∨ lit <:+: b := by
  constructor
  · rintro ⟨p, q, h⟩
    rw [append_assoc, append_eq_append_iff] at h
    rcases h with ⟨r, rfl, h⟩ | ⟨r, hr, h⟩
    · -- the text starts in `a`: it ends there, since it has no `c`
      rw [append_eq_append_iff] at h
      rcases h with ⟨r', rfl, -⟩ | ⟨r', hr', h⟩
      · exact .inl ⟨p, r', by simp⟩
      · cases r' with
        | nil => exact .inl ⟨p, [], by simp [hr']⟩
        | cons d r' =>
          cases h
          exact absurd (hr' ▸ mem_append_right r mem_cons_self) hc
    · cases r with
      | nil =>
        cases lit with
        | nil => exact .inr nil_infix
        | cons d lit =>
          cases h
          exact absurd mem_cons_self hc
      | cons d r =>
        cases h
        exact .inr ⟨r, q, by simp⟩
  · rintro (⟨p, q, rfl⟩ | ⟨p, q, rfl⟩)
    · exact ⟨p, q ++ c :: b, by simp⟩
    · exact ⟨a ++ c :: p, q, by simp⟩

theorem strstr_suffix_length : ∀ {s r : Str}, strstr lit s = some r → r.length ≤ s.length
  | [], r, h => by
    unfold strstr at h
    split at h
    · cases h
      omega
    · cases h
  | x :: xs, r, h => by
    unfold strstr at h
    split at h
    · cases h
      omega
    · exact Nat.le_succ_of_le (strstr_suffix_length h)

theorem strstr_append (t : Str) : ∀ {s r : Str}, strstr lit s = some r → strstr lit (s ++ t) = some (r ++ t)
  | [], r, h => by
    unfold strstr at h
    split at h
    · rename_i hl
      cases h
      subst hl
      cases t <;> simp [strstr]
    · cases h
  | x :: xs, r, h => by
    unfold strstr at h
    simp only [List.cons_append]
    unfold strstr
    split at h
    · rename_i hp
      cases h
      have hp' : lit <+: x :: (xs ++ t) := (List.isPrefixOf_iff_prefix.mp hp).trans (prefix_append (x :: xs) t)
      rw [if_pos (List.isPrefixOf_iff_prefix.mpr hp')]
      rfl
    · rename_i hp
      -- the text was found later, so it is too short to reach into `t` from here
      have hlen := (strstr_starts h).length_le
      have hsuf := strstr_suffix_length h
      rw [if_neg, strstr_append t h]
      intro hp'
      apply hp
      rw [List.isPrefixOf_iff_prefix] at hp' ⊢
      exact prefix_of_prefix_length_le hp' (prefix_append (x :: xs) t) (by simp; omega)

theorem strchr_append (t : Str) : ∀ {s r : Str}, strchr c s = some r → strchr c (s ++ t) = some (r ++ t)
  | [], r, h => by cases h
  | x :: xs, r, h => by
    simp only [strchr, List.cons_append] at h ⊢
    split at h
    · rename_i hx
      cases h
      rw [if_pos hx]
      rfl
    · rename_i hx
      rw [if_neg hx, strchr_append t h]

theorem strchr_length : ∀ {s r : Str}, strchr c s = some r → r.length ≤ s.length
  | [], r, h => by cases h
  | x :: xs, r, h => by
    simp only [strchr] at h
    split at h
    · cases h
      omega
    · exact Nat.le_succ_of_le (strchr_length h)

theorem strchr_of_mem (b : Str) : ∀ a : Str, ∃ a', strchr c (a ++ c :: b) = some (a' ++ c :: b)
  | [] => ⟨[], by simp [strchr]⟩
  | x :: a => by
    by_cases hx : x = c
    · exact ⟨x :: a, by simp [strchr, hx]⟩
    · obtain ⟨a', ha'⟩ := strchr_of_mem b a
      exact ⟨a', by simpa [strchr, hx] using ha'⟩

theorem strchr_eq_none : ∀ {s : Str}, c ∉ s → strchr c s = none
  | [], _ => rfl
  | x :: xs, h => by
    rw [List.mem_cons, not_or] at h
    simp [strchr, strchr_eq_none h.2, Ne.symm h.1]

theorem strchr_first (b : Str) : ∀ {a : Str}, c ∉ a → strchr c (a ++ c :: b) = some (c :: b)
  | [], _ => by simp [strchr]
  | x :: a, h => by
    rw [List.mem_cons, not_or] at h
    simp [strchr, Ne.symm h.1, strchr_first b h.2]

theorem strrchr_eq_none : ∀ {s : Str}, c ∉ s → strrchr c s = none
  | [], _ => rfl
  | x :: xs, h => by
    rw [List.mem_cons, not_or] at h
    simp [strrchr, strrchr_eq_none h.2, Ne.symm h.1]

theorem strrchr_last (h : c ∉ b) : ∀ a : Str, strrchr c (a ++ c :: b) = some (c :: b)
  | [] => by simp [strrchr, strrchr_eq_none h]
  | x :: a => by simp [strrchr, strrchr_last h a]

theorem not_mem_of_strrchr : ∀ {s : Str}, strrchr c s = none → c ∉ s
  | [], _ => by simp
  | x :: xs, h => by
    cases hr : strrchr c xs with
    | some r =>
      rw [strrchr, hr] at h
      cases h
    | none =>
      rw [strrchr, hr] at h
      have hx : x ≠ c := by simpa using h
      rw [mem_cons, not_or]
      exact ⟨hx.symm, not_mem_of_strrchr hr⟩

theorem strrchr_eq_some : ∀ {s r : Str}, strrchr c s = some r → ∃ a b, s = a ++ r ∧ r = c :: b ∧ c ∉ b
  | [], _, h => by cases h
  | x :: xs, r, h => by
    cases hr : strrchr c xs with
    | some r' =>
      rw [strrchr, hr] at h
      cases h
      obtain ⟨a, b, ha, hb⟩ := strrchr_eq_some hr
      exact ⟨x :: a, b, congrArg (x :: ·) ha, hb⟩
    | none =>
      rw [strrchr, hr] at h
      obtain ⟨rfl, rfl⟩ : x = c ∧ x :: xs = r := by simpa using h
      exact ⟨[], xs, rfl, rfl, not_mem_of_strrchr hr⟩

theorem cstr_append (h : (0 : UInt8) ∉ a) (b : Str) : cstr (a ++ b) = a ++ cstr b := by
  unfold cstr
  rw [takeWhile_append_of_pos]
  intro c hc
  simp only [bne_iff_ne, ne_eq]
  exact fun h0 => h (h0 ▸ hc)

theorem cstr_eq (h : (0 : UInt8) ∉ a) : cstr a = a := by simpa [cstr] using cstr_append h []

/-! ## Numbers -/

def isSpace (c : UInt8) : Bool := c == 32 || (9 ≤ c && c ≤ 13)

def isDigit (c : UInt8) : Bool := 48 ≤ c && c ≤ 57

def digitsVal (ds : Str) : Nat := ds.foldl (fun n c => 10 * n + (c.toNat - 48)) 0

/-- As `strtol` returns it where `long` has 32 bits. -/
def clampLong (n : Int) : Int := max (-2147483648) (min 2147483647 n)

/-- `strtol(s, &end, 10)`: the value and the suffix at `end`; without digits `end` is `s`. -/
def strtol (s : Str) : Int × Str :=
  let t := s.dropWhile isSpace
  let neg := t.head? == some 45
  let u := if t.head? == some 45 ∨ t.head? == some 43 then t.tail else t
  let ds := u.takeWhile isDigit
  if ds = [] then (0, s) else (clampLong (if neg then -(digitsVal ds : Int) else digitsVal ds), u.dropWhile isDigit)

theorem sign_of_isDigit (h : isDigit c) : isSpace c = false ∧ c ≠ 45 ∧ c ≠ 43 := by
  simp only [isDigit, Bool.and_eq_true, decide_eq_true_eq, UInt8.le_iff_toNat_le, UInt8.reduceToNat] at h
  refine ⟨?_, ?_, ?_⟩
  · simp only [isSpace, Bool.or_eq_false_iff, Bool.and_eq_false_iff, beq_eq_false_iff_ne, decide_eq_false_iff_not,
      UInt8.le_iff_toNat_le, UInt8.reduceToNat]
    refine ⟨?_, .inr (by omega)⟩
    rintro rfl
    exact absurd h.1 (by decide)
  · rintro rfl
    exact absurd h.1 (by decide)
  · rintro rfl
    exact absurd h.1 (by decide)

theorem strtol_digits {ds : Str} (hne : ds ≠ []) (hd : ∀ c ∈ ds, isDigit c) : strtol ds = (clampLong (digitsVal ds), []) := by
  obtain ⟨d, ds', rfl⟩ := exists_cons_of_ne_nil hne
  obtain ⟨hspace, hminus, hplus⟩ := sign_of_isDigit (hd d mem_cons_self)
  have htake : (d :: ds').takeWhile isDigit = d :: ds' := takeWhile_eq_self_iff.mpr hd
  have hdrop : (d :: ds').dropWhile isDigit = [] := dropWhile_eq_nil_iff.mpr hd
  simp [strtol, hspace, hminus, hplus, htake, hdrop]

/-- `"%d"` -/
def decimal (n : Int) : Str := bytes (toString n)

theorem decimal_natCast : decimal n = (Nat.toDigits 10 n).map fun c => c.toNat.toUInt8 := by
  show ((n.repr).toList.map fun c => c.toNat.toUInt8) = _
  rw [Nat.repr_eq_ofList_toDigits, String.toList_ofList]

theorem byte_of_isDigit {c : Char} (h : c.isDigit) : isDigit c.toNat.toUInt8 ∧ c.toNat.toUInt8.toNat = c.toNat := by
  have hc : 48 ≤ c.toNat ∧ c.toNat ≤ 57 := by
    simpa [Char.isDigit, UInt32.le_iff_toNat_le] using h
  have hn : c.toNat.toUInt8.toNat = c.toNat := by
    rw [Nat.toUInt8, UInt8.toNat_ofNat']
    omega
  refine ⟨?_, hn⟩
  simp only [isDigit, Bool.and_eq_true, decide_eq_true_eq, UInt8.le_iff_toNat_le, hn]
  exact hc

theorem isDigit_decimal : ∀ b ∈ decimal n, isDigit b = true := by
  rw [decimal_natCast]
  intro b hb
  obtain ⟨c, hc, rfl⟩ := List.mem_map.mp hb
  exact (byte_of_isDigit (Nat.isDigit_of_mem_toDigits (by decide) (by decide) hc)).1

theorem decimal_ne_nil : decimal n ≠ [] := by
  rw [decimal_natCast]
  exact fun h => Nat.toDigits_ne_nil (map_eq_nil_iff.mp h)

theorem digitsVal_decimal : digitsVal (decimal n) = n := by
  have hfold : ∀ (cs : List Char) (k : Nat), (∀ c ∈ cs, c.isDigit) →
      (cs.map fun c => c.toNat.toUInt8).foldl (fun n b => 10 * n + (b.toNat - 48)) k = Nat.ofDigitChars 10 cs k := by
    intro cs
    induction cs with
    | nil => intro k _; rfl
    | cons c cs ih =>
      intro k hcs
      rw [forall_mem_cons] at hcs
      rw [map_cons, foldl_cons, Nat.ofDigitChars_cons, (byte_of_isDigit hcs.1).2]
      exact ih _ hcs.2
  rw [decimal_natCast, digitsVal, hfold _ _ fun c hc => Nat.isDigit_of_mem_toDigits (by decide) (by decide) hc]
  exact Nat.ofDigitChars_ten_toDigits

def hexDigit (n : Nat) : UInt8 := if n < 10 then UInt8.ofNat (48 + n) else UInt8.ofNat (87 + n)

def hexDigitUpper (n : Nat) : UInt8 := if n < 10 then UInt8.ofNat (48 + n) else UInt8.ofNat (55 + n)

/-- `"%02x"` of each byte in turn. -/
def hexBytes (bs : List UInt8) : Str := bs.flatMap fun b => [hexDigit (b.toNat / 16), hexDigit (b.toNat % 16)]

/-- `"%02X"` of each byte in turn. -/
def hexBytesUpper (bs : List UInt8) : Str :=
  bs.flatMap fun b => [hexDigitUpper (b.toNat / 16), hexDigitUpper (b.toNat % 16)]

@[simp] theorem length_hexBytes (bs : List UInt8) : (hexBytes bs).length = 2 * bs.length := by
  induction bs with
  | nil => rfl
  | cons b bs ih =>
    simp only [hexBytes, flatMap_cons, length_append, length_cons, length_nil] at ih ⊢
    omega

theorem hexBytes_append (as bs : List UInt8) : hexBytes (as ++ bs) = hexBytes as ++ hexBytes bs := by
  simp [hexBytes]

theorem lower_hexDigit : ∀ n < 16, lower (hexDigit n) = hexDigit n := by decide

theorem hexDigit_inj : ∀ m < 16, ∀ n < 16, hexDigit m = hexDigit n → m = n := by decide

theorem map_lower_hexBytes (bs : Str) : (hexBytes bs).map lower = hexBytes bs := by
  induction bs with
  | nil => rfl
  | cons b bs ih =>
    have hb : b.toNat < 256 := b.toNat_lt
    simp only [hexBytes, flatMap_cons, map_append, map_cons, map_nil] at ih ⊢
    rw [ih, lower_hexDigit _ (by omega), lower_hexDigit _ (by omega)]

theorem hexBytes_inj : ∀ {as bs : Str}, hexBytes as = hexBytes bs → as = bs
  | [], [], _ => rfl
  | [], b :: bs, h => by simp [hexBytes] at h
  | a :: as, [], h => by simp [hexBytes] at h
  | a :: as, b :: bs, h => by
    have ha : a.toNat < 256 := a.toNat_lt
    have hb : b.toNat < 256 := b.toNat_lt
    simp only [hexBytes, flatMap_cons, cons_append, nil_append, List.cons.injEq] at h
    obtain ⟨hhigh, hlow, hrest⟩ := h
    have h1 := hexDigit_inj _ (by omega) _ (by omega) hhigh
    have h2 := hexDigit_inj _ (by omega) _ (by omega) hlow
    rw [hexBytes_inj hrest, UInt8.toNat_inj.mp (by omega : a.toNat = b.toNat)]

end NuWicam.Lib
