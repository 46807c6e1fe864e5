import NuWicam.Lib.Run
import Mathlib.Algebra.Order.Group.Multiset

/-!
# References that are taken and released

The references to objects that someone holds form a multiset. `Settles pre post calls`: the calls may be made by whoever holds
`pre`, whatever else is held, and leave `post` instead.
-/

namespace NuWicam.Lib

variable {α : Type} [DecidableEq α]

inductive RefCall (α : Type)
  | new (f : α)
  | ref (f : α)
  | unref (f : α)
deriving DecidableEq, Repr

/-- The references after a call, `none` if it is made without a reference. -/
def refCall (held : Multiset α) : RefCall α → Option (Multiset α)
  | .new f => some (f ::ₘ held)
  | .ref f => if f ∈ held then some (f ::ₘ held) else none
  | .unref f => if f ∈ held then some (held.erase f) else none

/-- The calls take `pre` and leave `post`, whatever else is held. -/
def Settles (pre post : Multiset α) (calls : List (RefCall α)) : Prop :=
  ∀ rest, run refCall (pre + rest) calls = some (post + rest)

section

variable {a b c : Multiset α} {l l' : List (RefCall α)} {f : α}

theorem Settles.nil : Settles a a [] := fun _ => rfl

theorem Settles.append (h : Settles a b l) (h' : Settles b c l') : Settles a c (l ++ l') := by
  intro rest
  rw [run_append, h rest]
  exact h' rest

/-- **Frame rule**: references that are not needed stay. -/
theorem Settles.frame (h : Settles a b l) (r : Multiset α) : Settles (a + r) (b + r) l := by
  intro rest
  rw [add_assoc, add_assoc]
  exact h (r + rest)

theorem Settles.cons (h : Settles a b l) (f : α) : Settles (f ::ₘ a) (f ::ₘ b) l := by
  rw [← Multiset.singleton_add, ← Multiset.singleton_add, add_comm _ a, add_comm _ b]
  exact h.frame {f}

theorem Settles.new (a : Multiset α) (f : α) : Settles a (f ::ₘ a) [.new f] := by
  intro rest
  rw [Multiset.cons_add]
  rfl

theorem Settles.ref (hf : f ∈ a) : Settles a (f ::ₘ a) [.ref f] := by
  intro rest
  rw [run, refCall, if_pos (Multiset.mem_add.mpr (.inl hf)), Multiset.cons_add]
  rfl

theorem Settles.unref (a : Multiset α) (f : α) : Settles (f ::ₘ a) a [.unref f] := by
  intro rest
  rw [run, refCall, if_pos (Multiset.mem_add.mpr (.inl (Multiset.mem_cons_self f a))), Multiset.cons_add,
    Multiset.erase_cons_head]
  rfl

theorem Settles.unique (h : Settles a b l) (h' : Settles a c l) : b = c := by
  have hsame := (h 0).symm.trans (h' 0)
  rw [Option.some.injEq, add_zero, add_zero] at hsame
  exact hsame

end

end NuWicam.Lib
