import Mathlib.Data.List.Basic

/-!
# Fields read in order

A reader takes the fields of a text in turn, stops at the first one whose value it refuses, and must not look past the end of
the text. `checkFields` is its verdict, `none` if it does.
-/

namespace NuWicam.Lib

structure Field where
  stop : Nat
  valid : Bool

/-- The verdict on the fields of a text of `n` bytes. -/
def checkFields (n : Nat) : List Field → Option Bool
  | [] => some true
  | x :: xs => if x.stop ≤ n then if x.valid then checkFields n xs else some false else none

def Covered (n : Nat) (xs : List Field) : Prop :=
  ∀ before x after, xs = before ++ x :: after → (∀ y ∈ before, y.valid = true) → x.stop ≤ n

section

variable {n : Nat} {x : Field} {xs : List Field}

theorem checkFields_cons_of_lt (h : n < x.stop) : checkFields n (x :: xs) = none := if_neg (Nat.not_le.mpr h)

theorem checkFields_cons_of_le (h : x.stop ≤ n) :
    checkFields n (x :: xs) = if x.valid then checkFields n xs else some false := if_pos h

theorem checkFields_append (xs ys : List Field) : checkFields n (xs ++ ys) =
    (checkFields n xs).bind fun ok => if ok then checkFields n ys else some false := by
  induction xs with
  | nil => rfl
  | cons x xs ih =>
    rw [List.cons_append]
    by_cases hle : x.stop ≤ n
    · rw [checkFields_cons_of_le hle, checkFields_cons_of_le hle]
      cases x.valid with
      | true => exact ih
      | false => rfl
    · rw [checkFields_cons_of_lt (Nat.not_le.mp hle), checkFields_cons_of_lt (Nat.not_le.mp hle)]
      rfl

theorem checkFields_eq_true_iff : checkFields n xs = some true ↔ ∀ x ∈ xs, x.stop ≤ n ∧ x.valid = true := by
  induction xs with
  | nil => exact ⟨fun _ x hx => absurd hx List.not_mem_nil, fun _ => rfl⟩
  | cons x xs ih =>
    rw [List.forall_mem_cons, ← ih]
    by_cases hle : x.stop ≤ n
    · rw [checkFields_cons_of_le hle]
      cases x.valid <;> simp [hle]
    · rw [checkFields_cons_of_lt (Nat.not_le.mp hle)]
      simp [hle]

theorem covered_cons_iff : Covered n (x :: xs) ↔ x.stop ≤ n ∧ (x.valid → Covered n xs) := by
  constructor
  · intro h
    refine ⟨h [] x xs rfl fun y hy => absurd hy List.not_mem_nil, fun hx before y after heq hbefore => ?_⟩
    refine h (x :: before) y after (by rw [heq]; rfl) ?_
    exact List.forall_mem_cons.mpr ⟨hx, hbefore⟩
  · rintro ⟨hx, h⟩ before y after heq hbefore
    cases before with
    | nil =>
      cases heq
      exact hx
    | cons z before =>
      cases heq
      obtain ⟨hz, hbefore⟩ := List.forall_mem_cons.mp hbefore
      exact h hz before y after rfl hbefore

theorem checkFields_isSome_iff : (checkFields n xs).isSome ↔ Covered n xs := by
  induction xs with
  | nil => exact ⟨fun _ before x after heq => absurd heq.symm (by simp), fun _ => rfl⟩
  | cons x xs ih =>
    rw [covered_cons_iff, ← ih]
    by_cases hle : x.stop ≤ n
    · rw [checkFields_cons_of_le hle]
      cases x.valid <;> simp [hle]
    · rw [checkFields_cons_of_lt (Nat.not_le.mp hle)]
      simp [hle]

theorem Covered.checkFields_eq_true (h : Covered n xs) (hvalid : ∀ x ∈ xs, x.valid) : checkFields n xs = some true := by
  rw [checkFields_eq_true_iff]
  intro x hx
  obtain ⟨before, after, heq⟩ := List.append_of_mem hx
  refine ⟨h before x after heq fun y hy => hvalid y ?_, hvalid x hx⟩
  rw [heq]
  exact List.mem_append_left _ hy

end

end NuWicam.Lib
