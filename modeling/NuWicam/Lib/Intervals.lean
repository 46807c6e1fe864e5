import Mathlib.Data.List.Basic
import Mathlib.Data.Set.Lattice
import Mathlib.Order.CompletePartialOrder
import Mathlib.Order.Interval.Set.Basic

/-!
# Intervals one behind the other

`EndToEnd lo hi a xs b`: the pieces `xs` start at `a`, each begins behind the one before it, and the last one ends before `b`.
-/

namespace NuWicam.Lib

variable {α : Type*} {lo hi : α → Nat} {a b : Nat} {x : α} {xs : List α}

def EndToEnd (lo hi : α → Nat) : Nat → List α → Nat → Prop
  | a, [], b => a = b
  | a, x :: xs, b => lo x = a ∧ lo x ≤ hi x ∧ EndToEnd lo hi (hi x + 1) xs b

namespace EndToEnd

theorem le (h : EndToEnd lo hi a xs b) : a ≤ b := by
  induction xs generalizing a with
  | nil => exact Nat.le_of_eq h
  | cons x xs ih =>
    obtain ⟨rfl, hx, hxs⟩ := h
    have := ih hxs
    omega

theorem snoc (h : EndToEnd lo hi a xs b) (hlo : lo x = b) (hx : lo x ≤ hi x) : EndToEnd lo hi a (xs ++ [x]) (hi x + 1) := by
  induction xs generalizing a with
  | nil => exact ⟨hlo.trans h.symm, hx, rfl⟩
  | cons y ys ih =>
    obtain ⟨hy, hle, hys⟩ := h
    exact ⟨hy, hle, ih hys⟩

theorem lo_le_hi (h : EndToEnd lo hi a xs b) : ∀ x ∈ xs, lo x ≤ hi x := by
  induction xs generalizing a with
  | nil => simp
  | cons y ys ih =>
    obtain ⟨-, hle, hys⟩ := h
    intro x hx
    rcases List.mem_cons.mp hx with rfl | hx
    · exact hle
    · exact ih hys x hx

theorem isChain (h : EndToEnd lo hi a xs b) : xs.IsChain fun x y => lo y = hi x + 1 := by
  induction xs generalizing a with
  | nil => exact .nil
  | cons x xs ih =>
    obtain ⟨-, -, hxs⟩ := h
    cases xs with
    | nil => exact .singleton x
    | cons y ys => exact .cons_cons hxs.1 (ih hxs)

theorem exists_mem_iff (h : EndToEnd lo hi a xs b) (r : Nat) : (∃ x ∈ xs, r ∈ Set.Icc (lo x) (hi x)) ↔ a ≤ r ∧ r < b := by
  induction xs generalizing a with
  | nil =>
    cases h
    simp only [List.not_mem_nil, false_and, exists_false, false_iff]
    omega
  | cons y ys ih =>
    obtain ⟨rfl, hle, hys⟩ := h
    have hb := hys.le
    rw [List.exists_mem_cons_iff, ih hys, Set.mem_Icc]
    omega

theorem pairwise_disjoint (h : EndToEnd lo hi a xs b) :
    xs.Pairwise fun x y => Disjoint (Set.Icc (lo x) (hi x)) (Set.Icc (lo y) (hi y)) := by
  induction xs generalizing a with
  | nil => exact .nil
  | cons x xs ih =>
    obtain ⟨-, -, hxs⟩ := h
    refine .cons (fun y hy => Set.disjoint_left.mpr fun r hr hry => ?_) (ih hxs)
    -- the rows of a later piece are behind the first one
    have := ((hxs.exists_mem_iff r).mp ⟨y, hy, hry⟩).1
    exact absurd hr.2 (by omega)

end EndToEnd

end NuWicam.Lib
