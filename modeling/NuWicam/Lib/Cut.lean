import NuWicam.Lib.CString

/-!
# Strings cut in place

A program takes a text apart in the memory that holds it: it writes a `NUL` behind each piece and keeps where the piece starts
(`StrAt`). `Alike` relates such a program, over the memory, to the one over the bytes that are still ahead.
-/

namespace NuWicam.Lib

open List

/-! ## Computations that end alike -/

section

variable {ε ε' α β α' β' : Type} {stop : ε → ε'}

/-- Both fail, for reasons that `stop` relates, or both end with values that `R` relates. -/
def Alike (stop : ε → ε') (R : α → β → Prop) : Except ε α → Except ε' β → Prop
  | .ok a, .ok b => R a b
  | .error e, .error e' => stop e = e'
  | _, _ => False

variable {R : α → β → Prop} {x : Except ε α} {y : Except ε' β}

/-- Sequences of steps that end alike end alike. -/
theorem Alike.bind {S : α' → β' → Prop} {f : α → Except ε α'} {g : β → Except ε' β'} (h : Alike stop R x y)
    (hfg : ∀ a b, R a b → Alike stop S (f a) (g b)) : Alike stop S (x >>= f) (y >>= g) := by
  cases x with
  | error e =>
    cases y with
    | error e' => exact h
    | ok b => exact h.elim
  | ok a =>
    cases y with
    | error e' => exact h.elim
    | ok b => exact hfg a b h

theorem Alike.mono {S : α → β → Prop} (h : Alike stop R x y) (hrs : ∀ a b, R a b → S a b) : Alike stop S x y := by
  cases x with
  | error e =>
    cases y with
    | error e' => exact h
    | ok b => exact h.elim
  | ok a =>
    cases y with
    | error e' => exact h.elim
    | ok b => exact hrs a b h

theorem Alike.of_ok (h : Alike stop R x y) {a : α} (hx : x = .ok a) : ∃ b, y = .ok b ∧ R a b := by
  subst hx
  cases y with
  | error e => exact h.elim
  | ok b => exact ⟨b, rfl, h⟩

theorem Alike.of_error (h : Alike stop R x y) {e : ε} (hx : x = .error e) : y = .error (stop e) := by
  subst hx
  cases y with
  | error e' => exact congrArg _ h.symm
  | ok b => exact h.elim

theorem ok_bind (a : α) (f : α → Except ε β) : (.ok a >>= f : Except ε β) = f a := rfl

end

/-! ## Strings in memory -/

/-- The string `s` stands at `p`, and it ends with its `NUL` before `i`. -/
structure StrAt (d : Str) (i p : Nat) (s : Str) : Prop where
  plain : (0 : UInt8) ∉ s
  text : (d.drop p).take (s.length + 1) = s ++ [0]
  inside : p + s.length < i

namespace StrAt

variable {d s : Str} {i p : Nat}

theorem set (h : StrAt d i p s) {j : Nat} (hj : i ≤ j) (x : UInt8) : StrAt (d.set j x) i p s := by
  refine ⟨h.plain, ?_, h.inside⟩
  have hin := h.inside
  rw [drop_set, if_neg (by omega), take_set_of_le (by omega)]
  exact h.text

theorem mono (h : StrAt d i p s) {j : Nat} (hj : i ≤ j) : StrAt d j p s :=
  ⟨h.plain, h.text, Nat.lt_of_lt_of_le h.inside hj⟩

end StrAt

theorem strAt_of_drop {d s rest : Str} {p : Nat} (hs : (0 : UInt8) ∉ s) (hd : d.drop p = s ++ 0 :: rest) :
    StrAt d (p + s.length + 1) p s := by
  refine ⟨hs, ?_, by omega⟩
  rw [hd, append_cons, take_left' (by simp)]

theorem eq_cstr_append {m : Str} (h : (0 : UInt8) ∈ m) : ∃ rest, m = cstr m ++ 0 :: rest := by
  induction m with
  | nil => cases h
  | cons c m ih =>
    by_cases hc : c = 0
    · exact ⟨m, by simp [cstr, hc]⟩
    · obtain ⟨rest, hrest⟩ := ih ((mem_cons.mp h).resolve_left (Ne.symm hc))
      refine ⟨rest, ?_⟩
      have hstep : cstr (c :: m) = c :: cstr m := takeWhile_cons_of_pos (by simpa using hc)
      rw [hstep, cons_append, ← hrest]

theorem zero_notMem_cstr (m : Str) : (0 : UInt8) ∉ cstr m := fun h => by
  have := mem_takeWhile_imp h
  exact absurd this (by decide)

theorem strAt_cut {d s rest : Str} {p : Nat} {x : UInt8} (hd : d.drop p = s ++ x :: rest) :
    StrAt (d.set (p + s.length) 0) (p + s.length + 1) p (cstr s) := by
  have hset : (d.set (p + s.length) 0).drop p = s ++ 0 :: rest := by
    rw [drop_set, if_neg (by omega), hd, Nat.add_sub_cancel_left, set_append_right _ _ (by omega)]
    simp
  by_cases hs : (0 : UInt8) ∈ s
  · obtain ⟨r, hr⟩ := eq_cstr_append hs
    have hlen : (cstr s).length < s.length := by
      have := congrArg List.length hr
      simp only [length_append, length_cons] at this
      omega
    rw [hr, append_assoc] at hset
    rw [← hr] at hset
    exact (strAt_of_drop (zero_notMem_cstr s) hset).mono (by omega)
  · rw [cstr_eq hs]
    exact strAt_of_drop hs hset

end NuWicam.Lib
