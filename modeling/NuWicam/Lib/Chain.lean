import Mathlib.Data.List.Basic
import Mathlib.Data.List.Nodup

/-!
# Doubly linked lists

`Chain nx pv p h xs`: from the pointer `h` on the nodes are `xs`, the first one points back to `p`, every other one to the
node before it, and the last one to nothing.
-/

namespace NuWicam.Lib

open List

variable {α : Type*}

/-- The nodes `xs` are linked, from the pointer `h` on, behind the node `p`. -/
def Chain (nx pv : α → Option α) : Option α → Option α → List α → Prop
  | _, h, [] => h = none
  | p, h, a :: xs => h = some a ∧ pv a = p ∧ Chain nx pv (some a) (nx a) xs

namespace Chain

variable {nx pv nx' pv' : α → Option α} {p h : Option α} {a : α} {xs ys : List α}

theorem head_eq (hc : Chain nx pv p h xs) : h = xs.head? := by
  cases xs with
  | nil => exact hc
  | cons a xs => exact hc.1

theorem congr (hc : Chain nx pv p h xs) (hnx : ∀ a ∈ xs, nx' a = nx a) (hpv : ∀ a ∈ xs, pv' a = pv a) :
    Chain nx' pv' p h xs := by
  induction xs generalizing p h with
  | nil => exact hc
  | cons a xs ih =>
    rw [forall_mem_cons] at hnx hpv
    obtain ⟨hh, hp, hrest⟩ := hc
    refine ⟨hh, hpv.1.trans hp, ?_⟩
    rw [hnx.1]
    exact ih hrest hnx.2 hpv.2

theorem drop (hc : Chain nx pv p h (xs ++ ys)) : ∃ p' h', Chain nx pv p' h' ys := by
  induction xs generalizing p h with
  | nil => exact ⟨p, h, hc⟩
  | cons a xs ih => exact ih hc.2.2

theorem next_eq (hc : Chain nx pv p h (xs ++ a :: ys)) : nx a = ys.head? := by
  obtain ⟨p', h', hrest⟩ := hc.drop
  exact hrest.2.2.head_eq

theorem prev_mem (hc : Chain nx pv p h (xs ++ a :: ys)) (hxs : xs ≠ []) : ∃ b ∈ xs, pv a = some b := by
  induction xs generalizing p h with
  | nil => exact absurd rfl hxs
  | cons b xs ih =>
    cases xs with
    | nil => exact ⟨b, by simp, hc.2.2.2.1⟩
    | cons c xs =>
      obtain ⟨d, hd, hpd⟩ := ih hc.2.2 (by simp)
      exact ⟨d, mem_cons_of_mem b hd, hpd⟩

theorem push (hc : Chain nx pv none h xs) (hnodup : xs.Nodup) (ha : a ∉ xs) (hnxa : nx' a = h) (hpva : pv' a = none)
    (hnx : ∀ b ∈ xs, nx' b = nx b) (hhead : ∀ b, h = some b → pv' b = some a)
    (hpv : ∀ b ∈ xs, h ≠ some b → pv' b = pv b) : Chain nx' pv' none (some a) (a :: xs) := by
  refine ⟨rfl, hpva, ?_⟩
  rw [hnxa]
  cases xs with
  | nil => exact hc
  | cons b xs =>
    obtain ⟨rfl, -, hrest⟩ := hc
    rw [nodup_cons] at hnodup
    rw [forall_mem_cons] at hnx
    refine ⟨rfl, hhead b rfl, ?_⟩
    rw [hnx.1]
    refine hrest.congr hnx.2 fun c hc => hpv c (mem_cons_of_mem b hc) fun hbc => ?_
    cases hbc
    exact hnodup.1 hc

theorem unlink_first [DecidableEq α] (hc : Chain nx pv p h (a :: ys)) (hnodup : ys.Nodup) (hp : ∀ b ∈ ys, p ≠ some b)
    (hnx : ∀ b ∈ ys, nx' b = if pv a = some b then nx a else nx b)
    (hpv : ∀ b ∈ ys, pv' b = if nx a = some b then pv a else pv b) : Chain nx' pv' p (nx a) ys := by
  obtain ⟨-, hpa, hrest⟩ := hc
  cases ys with
  | nil => exact hrest
  | cons b ys =>
    obtain ⟨hb, -, hys⟩ := hrest
    have hsame : ∀ c ∈ b :: ys, nx' c = nx c := by
      intro c hc
      rw [hnx c hc, hpa, if_neg (hp c hc)]
    refine ⟨hb, ?_, ?_⟩
    · rw [hpv b mem_cons_self, if_pos hb, hpa]
    · rw [hsame b mem_cons_self]
      refine hys.congr (fun c hc => hsame c (mem_cons_of_mem b hc)) fun c hc => ?_
      rw [hpv c (mem_cons_of_mem b hc), if_neg]
      rw [hb]
      intro hbc
      cases hbc
      exact (nodup_cons.mp hnodup).1 hc

theorem unlink [DecidableEq α] (hc : Chain nx pv p h (xs ++ a :: ys)) (hnodup : (xs ++ a :: ys).Nodup)
    (hp : ∀ b ∈ xs ++ a :: ys, p ≠ some b) (hnx : ∀ b ∈ xs ++ ys, nx' b = if pv a = some b then nx a else nx b)
    (hpv : ∀ b ∈ xs ++ ys, pv' b = if nx a = some b then pv a else pv b) :
    Chain nx' pv' p (if xs = [] then nx a else h) (xs ++ ys) := by
  induction xs generalizing p h with
  | nil =>
    rw [if_pos rfl]
    exact hc.unlink_first (nodup_cons.mp hnodup).2 (fun b hb => hp b (mem_cons_of_mem a hb)) hnx hpv
  | cons q xs ih =>
    obtain ⟨rfl, hpq, hrest⟩ := hc
    rw [cons_append, nodup_cons] at hnodup
    rw [cons_append, forall_mem_cons] at hnx hpv
    rw [if_neg (by simp)]
    have hq : ∀ b ∈ xs ++ a :: ys, some q ≠ some b := by
      rintro b hb hqb
      cases hqb
      exact hnodup.1 hb
    have htail := ih hrest hnodup.2 hq hnx.2 hpv.2
    refine ⟨rfl, ?_, ?_⟩
    · -- the node behind `a` is not `q`
      rw [hpv.1, if_neg, hpq]
      rw [hrest.next_eq]
      intro hy
      exact hnodup.1 (mem_append_right _ (mem_cons_of_mem a (List.mem_of_head? hy)))
    · have hnext : nx' q = if xs = [] then nx a else nx q := by
        rw [hnx.1]
        by_cases hxs : xs = []
        · subst hxs
          rw [if_pos rfl, if_pos hrest.2.1]
        · rw [if_neg hxs, if_neg]
          obtain ⟨b, hb, hpb⟩ := hrest.prev_mem hxs
          rw [hpb]
          intro hbq
          cases hbq
          exact hnodup.1 (mem_append_left _ hb)
      rw [hnext]
      exact htail

end Chain

end NuWicam.Lib
