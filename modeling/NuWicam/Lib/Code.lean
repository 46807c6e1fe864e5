import Mathlib.Data.List.Basic

/-!
# Streams of self-delimiting units

A unit is written as a list of symbols by `enc`, and `read` takes one unit from the front of a stream, whatever follows it.
-/

namespace NuWicam.Lib

variable {α β : Type*}

/-- Units meeting `P` are not empty, and are read back whatever follows them. -/
structure SelfDelimiting (P : α → Prop) (enc : α → List β) (read : List β → Option (α × List β)) : Prop where
  ne_nil : ∀ a, P a → enc a ≠ []
  read_enc : ∀ a, P a → ∀ rest, read (enc a ++ rest) = some (a, rest)

/-- `none` where no unit can be read. -/
def readUnits (read : List β → Option (α × List β)) : Nat → List β → Option (List α)
  | _, [] => some []
  | 0, _ :: _ => none
  | fuel + 1, s => (read s).bind fun x => (readUnits read fuel x.2).map (x.1 :: ·)

def readAll (read : List β → Option (α × List β)) (s : List β) : Option (List α) := readUnits read s.length s

namespace SelfDelimiting

variable {P : α → Prop} {enc : α → List β} {read : List β → Option (α × List β)}

theorem readUnits_flatMap (h : SelfDelimiting P enc read) : ∀ (as : List α) {fuel : Nat}, (∀ a ∈ as, P a) →
    (as.flatMap enc).length ≤ fuel → readUnits read fuel (as.flatMap enc) = some as
  | [], fuel, _, _ => by cases fuel <;> rfl
  | a :: as, fuel, hp, hfuel => by
    rw [List.forall_mem_cons] at hp
    obtain ⟨b, bs, hb⟩ := List.exists_cons_of_ne_nil (h.ne_nil a hp.1)
    rw [List.flatMap_cons, List.length_append, hb, List.length_cons] at hfuel
    obtain ⟨fuel, rfl⟩ : ∃ n, fuel = n + 1 := ⟨fuel - 1, by omega⟩
    have ih := h.readUnits_flatMap as hp.2 (show (as.flatMap enc).length ≤ fuel by omega)
    have hread := h.read_enc a hp.1 (as.flatMap enc)
    rw [hb] at hread
    rw [List.flatMap_cons, hb, List.cons_append, readUnits, ← List.cons_append, hread, Option.bind_some, ih]
    · rfl
    · intro hnil
      cases hnil

/-- **A stream is read back** as the units it was written from. -/
theorem readAll_flatMap (h : SelfDelimiting P enc read) {as : List α} (hp : ∀ a ∈ as, P a) :
    readAll read (as.flatMap enc) = some as := h.readUnits_flatMap as hp (by omega)

theorem unique (h : SelfDelimiting P enc read) {as bs : List α} (ha : ∀ a ∈ as, P a) (hb : ∀ b ∈ bs, P b)
    (he : as.flatMap enc = bs.flatMap enc) : as = bs := by
  have hr := h.readAll_flatMap ha
  rw [he, h.readAll_flatMap hb] at hr
  exact (Option.some.inj hr).symm

end SelfDelimiting

end NuWicam.Lib
