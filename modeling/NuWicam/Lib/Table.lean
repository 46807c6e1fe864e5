import Mathlib.Data.List.Count
import Mathlib.Data.List.Nodup
import Mathlib.Data.UInt
import Mathlib.Order.Interval.Finset.Nat
import Mathlib.Logic.Function.Basic

/-!
# Tables of memory blocks

The blocks of one type by their addresses; looking up a pointer that does not lead to a block gives `none`. Two structures that
point at each other are two fields of tables that are `Inverse`.
-/

namespace NuWicam.Lib

open Function Option

/-- An address; `0` is the null pointer. -/
abbrev Addr := UInt32

abbrev Table (α : Type*) := Addr → Option α

namespace Table

variable {α β : Type*} (t : Table α) (a : Addr)

def set (o : Option α) : Table α := Function.update t a o

abbrev put (x : α) : Table α := t.set a (some x)

/-- Free the block at `a`. -/
abbrev del : Table α := t.set a none

def modify (f : α → α) : Table α := t.set a ((t a).map f)

/-- `malloc` may return `a` for a new block. -/
def fresh : Bool := a != 0 && (t a).isNone

def field (f : α → Option β) : Table β := fun a => (t a).bind f

variable {t a}

theorem fresh_iff : t.fresh a ↔ a ≠ 0 ∧ t a = none := by simp [fresh]

variable (o : Option α) (b : Addr) (f : α → Option β)

theorem set_apply : t.set a o b = if b = a then o else t b := update_apply ..

theorem put_apply (x : α) (b : Addr) : t.put a x b = if b = a then some x else t b := set_apply ..

theorem del_apply : t.del a b = if b = a then none else t b := set_apply ..

@[simp] theorem set_self : t.set a o a = o := update_self ..

theorem modify_apply (f : α → α) (b : Addr) : t.modify a f b = if b = a then (t b).map f else t b := by
  rw [modify, set_apply]
  split
  · rename_i hb
    rw [hb]
  · rfl

theorem put_ne {b : Addr} (h : b ≠ a) (x : α) : t.put a x b = t b := update_of_ne h ..

theorem del_ne {b : Addr} (h : b ≠ a) : t.del a b = t b := update_of_ne h ..

theorem del_of_none {b : Addr} (h : t b = none) : t.del a b = none := by
  simp [set_apply, h]

theorem set_eq_self {o : Option α} (h : t a = o) : t.set a o = t := by
  subst h
  exact update_eq_self ..

theorem field_eq_some {f : α → Option β} {y : β} : t.field f a = some y ↔ ∃ x, t a = some x ∧ f x = some y :=
  bind_eq_some_iff

theorem field_of_none (h : t a = none) : t.field f a = none := by rw [field, h]; rfl

theorem field_of_some {x : α} (h : t a = some x) : t.field f a = f x := by rw [field, h]; rfl

theorem field_set (o : Option α) : (t.set a o).field f = (t.field f).set a (o.bind f) := by
  funext b
  rw [field, set_apply, set_apply]
  split <;> rfl

theorem field_put_same {f : α → Option β} {x x' : α} (h : t a = some x) (hf : f x' = f x) :
    (t.put a x').field f = t.field f := by
  rw [field_set]
  exact set_eq_self ((field_of_some f h).trans hf.symm)

end Table

/-! ## Changes at one place -/

theorem update_same {α β γ : Type*} [DecidableEq α] {f : α → β} {a : α} {y : β} (g : β → γ) (h : g y = g (f a))
    (x : α) : g (update f a y x) = g (f x) := by
  rw [update_apply]
  split
  · rename_i hx
    rw [h, hx]
  · rfl

/-! ## Distinct addresses -/

theorem length_lt_of_nodup {l : List Addr} (hn : l.Nodup) (h0 : (0 : Addr) ∉ l) : l.length < 2 ^ 32 := by
  have hsub : (l.map UInt32.toNat).toFinset ⊆ Finset.Ico 1 (2 ^ 32) := by
    intro n hmem
    rw [List.mem_toFinset, List.mem_map] at hmem
    obtain ⟨a, ha, rfl⟩ := hmem
    have hpos : a.toNat ≠ 0 := fun h => by
      have hzero : a = 0 := UInt32.toNat_inj.mp h
      exact h0 (hzero ▸ ha)
    have hlt := a.toNat_lt
    rw [Finset.mem_Ico]
    omega
  have hcard := Finset.card_le_card hsub
  rw [List.toFinset_card_of_nodup (hn.map fun _ _ h => UInt32.toNat_inj.mp h), List.length_map, Nat.card_Ico] at hcard
  omega

theorem countP_change {p q : Addr → Bool} {a : Addr} (hpq : ∀ x ≠ a, p x = q x) (hp : p a) (hq : q a = false) :
    ∀ {l : List Addr}, l.Nodup → a ∈ l → l.countP p = l.countP q + 1
  | x :: xs, hn, ha => by
    rw [List.nodup_cons] at hn
    by_cases hx : x = a
    · subst hx
      have hrest : xs.countP p = xs.countP q :=
        List.countP_congr fun y hy => by rw [hpq y fun h => hn.1 (h ▸ hy)]
      simp [hp, hq, hrest]
    · have ih := countP_change hpq hp hq hn.2 ((List.mem_cons.mp ha).resolve_left (Ne.symm hx))
      simp only [List.countP_cons, hpq x hx, ih]
      omega

/-! ## Pairs of pointers -/

def Inverse (f g : Table Addr) : Prop := ∀ a b, f a = some b ↔ g b = some a

namespace Inverse

variable {f g : Table Addr} {a b : Addr}

theorem put (h : Inverse f g) (ha : f a = none) (hb : g b = none) : Inverse (f.put a b) (g.put b a) := by
  intro x y
  simp only [Table.set_apply]
  by_cases hx : x = a <;> by_cases hy : y = b
  · simp [hx, hy]
  · have hne : g y ≠ some a := fun hg => by simp [(h a y).mpr hg] at ha
    simp [hx, hy, hne, Ne.symm hy]
  · have hne : f x ≠ some b := fun hf => by simp [(h x b).mp hf] at hb
    simp [hx, hy, hne, Ne.symm hx]
  · simp [hx, hy, h x y]

theorem del (h : Inverse f g) (ha : f a = some b) : Inverse (f.del a) (g.del b) := by
  intro x y
  have hb := (h a b).mp ha
  simp only [Table.set_apply]
  by_cases hx : x = a <;> by_cases hy : y = b
  · simp [hx, hy]
  · have hne : g y ≠ some a := fun hg => hy (some.inj (((h a y).mpr hg).symm.trans ha))
    simp [hx, hy, hne]
  · have hne : f x ≠ some b := fun hf => hx (some.inj (((h x b).mp hf).symm.trans hb))
    simp [hx, hy, hne]
  · simp [hx, hy, h x y]

end Inverse

/-! ## Lists of blocks -/

structure Lists {α : Type*} (l : List Addr) (t : Table α) : Prop where
  mem_iff : ∀ a, a ∈ l ↔ (t a).isSome
  nodup : l.Nodup

namespace Lists

variable {α : Type*} {l : List Addr} {t : Table α} {a : Addr}

theorem put (h : Lists l t) (ha : t a = none) (x : α) : Lists (a :: l) (t.put a x) := by
  have hna : a ∉ l := by rw [h.mem_iff, ha]; simp
  refine ⟨fun b => ?_, List.nodup_cons.mpr ⟨hna, h.nodup⟩⟩
  simp only [List.mem_cons, Table.set_apply, h.mem_iff]
  by_cases hb : b = a <;> simp [hb]

theorem write (h : Lists l t) {x : α} (ha : t a = some x) (x' : α) : Lists l (t.put a x') := by
  refine ⟨fun b => ?_, h.nodup⟩
  simp only [Table.set_apply, h.mem_iff]
  split
  · rename_i hb
    simp [hb, ha]
  · rfl

theorem del (h : Lists l t) : Lists (l.erase a) (t.del a) := by
  refine ⟨fun b => ?_, h.nodup.erase a⟩
  simp only [h.nodup.mem_erase_iff, Table.set_apply, h.mem_iff]
  by_cases hb : b = a <;> simp [hb]

end Lists

structure Buckets {ι : Type*} (l : ι → List Addr) (f : Table ι) : Prop where
  mem_iff : ∀ i a, a ∈ l i ↔ f a = some i
  nodup : ∀ i, (l i).Nodup

namespace Buckets

variable {ι : Type*} [DecidableEq ι] {l : ι → List Addr} {f : Table ι} {a : Addr} {i : ι}

theorem put (h : Buckets l f) (ha : f a = none) (i : ι) : Buckets (update l i (a :: l i)) (f.put a i) := by
  have hna : ∀ j, a ∉ l j := fun j => by rw [h.mem_iff, ha]; exact nofun
  constructor
  · intro j b
    simp only [Table.set_apply]
    by_cases hj : j = i
    · subst hj
      rw [update_self, List.mem_cons, h.mem_iff]
      by_cases hb : b = a <;> simp [hb]
    · rw [update_of_ne hj, h.mem_iff]
      by_cases hb : b = a
      · simp [hb, ha, Ne.symm hj]
      · simp [hb]
  · intro j
    by_cases hj : j = i
    · subst hj
      rw [update_self, List.nodup_cons]
      exact ⟨hna j, h.nodup j⟩
    · rw [update_of_ne hj]
      exact h.nodup j

theorem del (h : Buckets l f) (ha : f a = some i) : Buckets (update l i ((l i).erase a)) (f.del a) := by
  constructor
  · intro j b
    simp only [Table.set_apply]
    by_cases hj : j = i
    · subst hj
      rw [update_self, (h.nodup j).mem_erase_iff, h.mem_iff]
      by_cases hb : b = a <;> simp [hb]
    · rw [update_of_ne hj, h.mem_iff]
      by_cases hb : b = a
      · simp [hb, ha, Ne.symm hj]
      · simp [hb]
  · intro j
    by_cases hj : j = i
    · subst hj
      rw [update_self]
      exact (h.nodup j).erase a
    · rw [update_of_ne hj]
      exact h.nodup j

end Buckets

end NuWicam.Lib
