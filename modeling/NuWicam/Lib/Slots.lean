import Mathlib.Data.List.Basic
import Mathlib.Logic.Function.Basic

/-!
# Rings of slots

`Slots n slot r l`: a ring of `n` slots holds the list `l`, the oldest element at the cursor `r`, and nothing else; the other
cursor is then at `(r + l.length) % n`. All slots may be in use: full and empty are told apart by the slots.
-/

namespace NuWicam.Lib

open List Function

/-- The ring holds the elements `l`, from the slot `r` on. -/
structure Slots {α : Type*} (n : Nat) (slot : Nat → Option α) (r : Nat) (l : List α) : Prop where
  lt : r < n
  length_le : l.length ≤ n
  slot_eq : ∀ k < n, slot ((r + k) % n) = l[k]?

namespace Slots

variable {α : Type*} {n r : Nat} {slot : Nat → Option α} {l : List α} {x : α}

theorem empty (h : 0 < n) : Slots n (fun _ => (none : Option α)) 0 [] := ⟨h, Nat.zero_le n, fun _ _ => rfl⟩

theorem full (hlen : l.length = n) (hpos : 0 < n) : Slots n (fun k => l[k]?) 0 l where
  lt := hpos
  length_le := by omega
  slot_eq k hk := by rw [Nat.zero_add, Nat.mod_eq_of_lt hk]

theorem head (h : Slots n slot r l) : slot r = l.head? := by
  have hzero := h.slot_eq 0 (Nat.zero_lt_of_lt h.lt)
  rwa [Nat.add_zero, Nat.mod_eq_of_lt h.lt, ← List.head?_eq_getElem?] at hzero

theorem ne_of_ne (hr : r < n) {j k : Nat} (hj : j < n) (hk : k < n) (hne : j ≠ k) : (r + j) % n ≠ (r + k) % n := by
  have hwrap : ∀ i < n, (r + i) % n = if r + i < n then r + i else r + i - n := by
    intro i hi
    split
    · exact Nat.mod_eq_of_lt ‹_›
    · rw [Nat.mod_eq_sub_mod (by omega), Nat.mod_eq_of_lt (by omega)]
  rw [hwrap j hj, hwrap k hk]
  split <;> split <;> omega

theorem ne_cursor (hr : r < n) {k : Nat} (hk : k < n) (hne : k ≠ 0) : (r + k) % n ≠ r := by
  have hslot := ne_of_ne hr hk (by omega) hne
  rwa [Nat.add_zero, Nat.mod_eq_of_lt hr] at hslot

theorem cursor_pop (r n k : Nat) : ((r + 1) % n + k) % n = (r + (k + 1)) % n := by
  rw [Nat.mod_add_mod, Nat.add_assoc, Nat.add_comm 1]

theorem cursor_push (r n k : Nat) : ((r + k) % n + 1) % n = (r + (k + 1)) % n := by
  rw [Nat.mod_add_mod, Nat.add_assoc]

theorem push (h : Slots n slot r l) (hlt : l.length < n) (x : α) :
    Slots n (update slot ((r + l.length) % n) (some x)) r (l ++ [x]) where
  lt := h.lt
  length_le := by
    rw [length_append]
    exact hlt
  slot_eq k hk := by
    by_cases hkl : k = l.length
    · rw [hkl, update_self, List.getElem?_concat_length]
    · rw [update_of_ne (ne_of_ne h.lt hk hlt hkl), h.slot_eq k hk]
      by_cases hin : k < l.length
      · rw [List.getElem?_append_left hin]
      · have hlen : (l ++ [x]).length = l.length + 1 := by rw [length_append, length_singleton]
        rw [List.getElem?_eq_none (by omega), List.getElem?_eq_none (by omega)]

theorem pop (h : Slots n slot r (x :: l)) : Slots n (update slot r none) ((r + 1) % n) l where
  lt := Nat.mod_lt _ (Nat.zero_lt_of_lt h.lt)
  length_le := Nat.le_of_succ_le h.length_le
  slot_eq k hk := by
    have hlen : l.length + 1 ≤ n := h.length_le
    rw [cursor_pop]
    by_cases hlast : k + 1 < n
    · rw [update_of_ne (ne_cursor h.lt hlast (by omega)), h.slot_eq (k + 1) hlast,
        List.getElem?_cons_succ]
    · -- once around: the slot that was emptied
      have hround : (r + (k + 1)) % n = r := by
        rw [show k + 1 = n by omega, Nat.add_mod_right, Nat.mod_eq_of_lt h.lt]
      rw [hround, update_self, List.getElem?_eq_none (by omega)]

theorem slot_cursor (h : Slots n slot r l) (hlt : l.length < n) : slot ((r + l.length) % n) = none := by
  rw [h.slot_eq _ hlt, List.getElem?_eq_none (by omega)]

theorem next_eq_iff (h : Slots n slot r l) (hlt : l.length < n) : ((r + l.length) % n + 1) % n = r ↔ l.length + 1 = n := by
  rw [cursor_push]
  constructor
  · intro heq
    by_contra hne
    exact ne_cursor h.lt (by omega) (by omega) heq
  · intro heq
    rw [heq, Nat.add_mod_right, Nat.mod_eq_of_lt h.lt]

end Slots

def slotsBetween {α : Type*} (n : Nat) (slot : Nat → Option α) (r w : Nat) : List (Option α) :=
  (List.range ((w + n - r) % n)).map fun k => slot ((r + k) % n)

theorem Slots.slotsBetween_eq {α : Type*} {n r : Nat} {slot : Nat → Option α} {l l' : List α}
    (h : Slots n slot r (l ++ l')) (hlt : l.length < n) : slotsBetween n slot r ((r + l.length) % n) = l.map some := by
  have hr := h.lt
  have hcount : ((r + l.length) % n + n - r) % n = l.length := by
    rcases Nat.lt_or_ge (r + l.length) n with hin | hout
    · rw [Nat.mod_eq_of_lt hin, show r + l.length + n - r = l.length + n by omega, Nat.add_mod_right,
        Nat.mod_eq_of_lt hlt]
    · rw [Nat.mod_eq_sub_mod hout, Nat.mod_eq_of_lt (show r + l.length - n < n by omega),
        show r + l.length - n + n - r = l.length by omega, Nat.mod_eq_of_lt hlt]
  rw [slotsBetween, hcount]
  refine ext_getElem (by simp) fun k hk hk' => ?_
  rw [length_map] at hk'
  rw [getElem_map, getElem_map, getElem_range, h.slot_eq k (by omega), List.getElem?_append_left hk',
    List.getElem?_eq_getElem hk']

def slotsFrom {α : Type*} (n : Nat) (slot : Nat → Option α) (r : Nat) : List α :=
  (List.range n).filterMap fun k => slot ((r + k) % n)

theorem filterMap_range_getElem? {α : Type*} : ∀ (l : List α) {n : Nat}, l.length ≤ n →
    (List.range n).filterMap (fun k => l[k]?) = l
  | [], n, _ => List.filterMap_eq_nil_iff.2 fun _ _ => rfl
  | x :: l, n + 1, h => by
    rw [List.range_succ_eq_map, List.filterMap_cons, List.filterMap_map]
    exact congrArg (x :: ·) (filterMap_range_getElem? l (Nat.le_of_succ_le_succ h))

theorem Slots.slotsFrom_eq {α : Type*} {n r : Nat} {slot : Nat → Option α} {l : List α} (h : Slots n slot r l) :
    slotsFrom n slot r = l := by
  rw [slotsFrom, filterMap_congr fun k hk => h.slot_eq k (mem_range.1 hk)]
  exact filterMap_range_getElem? l h.length_le

end NuWicam.Lib
