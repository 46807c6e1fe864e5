import Mathlib.Algebra.Ring.Nat
import Mathlib.Data.List.Basic
import Mathlib.Logic.Function.Basic

/-!
# Writes to a memory

A memory is a function from addresses to values, and a pass over it is the list of its writes in their order (`storeAll`). What
an address then holds follows from the writes to it alone.
-/

namespace NuWicam.Lib

open Function

variable {A V : Type*} [DecidableEq A]

def storeAll (m : A → V) (ws : List (A × V)) : A → V := ws.foldl (fun m w => update m w.1 w.2) m

variable {m : A → V} {ws : List (A × V)} {a : A}

@[simp] theorem storeAll_cons (m : A → V) (w : A × V) (ws : List (A × V)) :
    storeAll m (w :: ws) = storeAll (update m w.1 w.2) ws := rfl

theorem storeAll_append (m : A → V) (ws ws' : List (A × V)) : storeAll m (ws ++ ws') = storeAll (storeAll m ws) ws' :=
  List.foldl_append

/-- **Rule for one address** in a pass of writes. -/
theorem storeAll_induct {P : V → Prop} (hm : P (m a)) (h : ∀ w ∈ ws, w.1 = a → P w.2) : P (storeAll m ws a) := by
  induction ws generalizing m with
  | nil => exact hm
  | cons w ws ih =>
    obtain ⟨hw, h⟩ := List.forall_mem_cons.mp h
    rw [storeAll_cons]
    refine ih ?_ h
    by_cases ha : w.1 = a
    · rw [← ha, update_self]
      exact hw ha
    · rw [update_of_ne (Ne.symm ha)]
      exact hm

theorem storeAll_of_not_written (h : ∀ w ∈ ws, w.1 ≠ a) : storeAll m ws a = m a :=
  storeAll_induct (P := fun v => v = m a) rfl fun w hw ha => absurd ha (h w hw)

theorem storeAll_of_written {P : V → Prop} {v : V} (hv : (a, v) ∈ ws) (h : ∀ w ∈ ws, w.1 = a → P w.2) :
    P (storeAll m ws a) := by
  obtain ⟨ws₁, ws₂, rfl⟩ := List.append_of_mem hv
  rw [storeAll_append, storeAll_cons]
  refine storeAll_induct ?_ fun w hw => h w (List.mem_append_right _ (List.mem_cons_of_mem _ hw))
  rw [update_self]
  exact h (a, v) hv rfl

/-- **A pass computes a memory** if all it writes is right, and the rest was. -/
theorem storeAll_eq {f : A → V} (hwrites : ∀ w ∈ ws, w.2 = f w.1) (hrest : ∀ a, (∀ w ∈ ws, w.1 ≠ a) → m a = f a) :
    storeAll m ws = f := by
  funext a
  by_cases h : ∃ w ∈ ws, w.1 = a
  · obtain ⟨⟨_, v⟩, hw, rfl⟩ := h
    exact storeAll_of_written (P := fun v => v = f _) hw fun w' hw' ha => (hwrites w' hw').trans (congrArg f ha)
  · have h' : ∀ w ∈ ws, w.1 ≠ a := fun w hw ha => h ⟨w, hw, ha⟩
    rw [storeAll_of_not_written h']
    exact hrest a h'

theorem storeAll_flatMap_eq {B : Type*} {bs : List B} {writes : B → List (A × V)} {f : A → V}
    (hwrites : ∀ b ∈ bs, ∀ w ∈ writes b, w.2 = f w.1)
    (hrest : ∀ a, (∀ b ∈ bs, ∀ w ∈ writes b, w.1 ≠ a) → m a = f a) : storeAll m (bs.flatMap writes) = f := by
  refine storeAll_eq ?_ fun a ha => hrest a fun b hb w hw => ha w (List.mem_flatMap.mpr ⟨b, hb, hw⟩)
  intro w hw
  obtain ⟨b, hb, hw⟩ := List.mem_flatMap.mp hw
  exact hwrites b hb w hw

theorem storeAll_const {v : V} (h : ∀ w ∈ ws, w.2 = v) : storeAll (fun _ => v) ws = fun _ => v :=
  storeAll_eq h fun _ _ => rfl

/-! ## Rows of equal length -/

section Rows

variable {w x y x' h : Nat}

@[simp] theorem rows_div (hx : x < w) : (y * w + x) / w = y := by
  rw [Nat.add_comm, Nat.add_mul_div_right _ _ (by omega), Nat.div_eq_of_lt hx, Nat.zero_add]

@[simp] theorem rows_mod (hx : x < w) : (y * w + x) % w = x := by
  rw [Nat.add_comm, Nat.add_mul_mod_self_right, Nat.mod_eq_of_lt hx]

theorem rows_inj (y y' : Nat) (hx : x < w) (hx' : x' < w) (heq : y * w + x = y' * w + x') : x = x' ∧ y = y' := by
  have hmod := congrArg (· % w) heq
  have hdiv := congrArg (· / w) heq
  simp only [rows_mod hx, rows_mod hx', rows_div hx, rows_div hx'] at hmod hdiv
  exact ⟨hmod, hdiv⟩

theorem rows_lt (hx : x < w) (hy : y < h) : y * w + x < h * w := by
  have := Nat.mul_le_mul_right w (Nat.succ_le_of_lt hy)
  rw [Nat.succ_mul] at this
  omega

theorem forall_rows {P : Nat → Prop} : (∀ y < h, ∀ x < w, P (w * y + x)) ↔ ∀ a < w * h, P a := by
  refine ⟨fun hall a ha => ?_, fun hall y hy x hx => hall _ ?_⟩
  · have hw : 0 < w := Nat.pos_of_ne_zero fun h0 => by simp [h0] at ha
    rw [← Nat.div_add_mod a w]
    exact hall _ (Nat.div_lt_of_lt_mul ha) _ (Nat.mod_lt a hw)
  · rw [Nat.mul_comm w y, Nat.mul_comm w h]
    exact rows_lt hx hy

end Rows

end NuWicam.Lib
