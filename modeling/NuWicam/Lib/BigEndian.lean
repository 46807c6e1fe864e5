import Mathlib.Algebra.Ring.Nat
import Mathlib.Data.List.Chain

/-!
# Numbers in network order, and data cut into fragments

`be w n` is the number `n` in `w` bytes, the most significant first. `Tiles off data fs`: the fragments `fs`, each with its
offset, cover `data` from the offset `off` on, without a gap and without an overlap.
-/

namespace NuWicam.Lib

/-- The low `w` bytes of `n`, the most significant first. -/
def be : Nat → Nat → List UInt8
  | 0, _ => []
  | w + 1, n => UInt8.ofNat (n / 256 ^ w) :: be w n

def ofBe : List UInt8 → Nat
  | [] => 0
  | b :: bs => b.toNat * 256 ^ bs.length + ofBe bs

@[simp] theorem length_be : ∀ w n : Nat, (be w n).length = w
  | 0, _ => rfl
  | w + 1, n => by rw [be, List.length_cons, length_be w n]

theorem ofBe_be : ∀ w n : Nat, ofBe (be w n) = n % 256 ^ w
  | 0, n => (Nat.mod_one n).symm
  | w + 1, n => by
    rw [be, ofBe, length_be, ofBe_be w n, Nat.mod_pow_succ, UInt8.toNat_ofNat', Nat.mul_comm (256 ^ w), Nat.add_comm]

section

variable {α : Type*}

inductive Tiles : Nat → List α → List (Nat × List α) → Prop
  | nil (off : Nat) : Tiles off [] []
  | cons {off : Nat} {piece rest : List α} {fs : List (Nat × List α)} :
      Tiles (off + piece.length) rest fs → Tiles off (piece ++ rest) ((off, piece) :: fs)

namespace Tiles

variable {off : Nat} {data : List α} {fs : List (Nat × List α)}

theorem flatMap_snd (h : Tiles off data fs) : fs.flatMap Prod.snd = data := by
  induction h with
  | nil => rfl
  | cons _ ih => rw [List.flatMap_cons, ih]

theorem head (h : Tiles off data fs) : ∀ f ∈ fs.head?, f.1 = off := by
  cases h with
  | nil => intro f hf; cases hf
  | cons _ => intro f hf; cases hf; rfl

theorem chain (h : Tiles off data fs) : fs.IsChain fun p q => q.1 = p.1 + p.2.length := by
  induction h with
  | nil => exact .nil
  | cons h ih => exact ih.cons h.head

end Tiles

end

end NuWicam.Lib
