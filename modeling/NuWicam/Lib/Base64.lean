import Mathlib.Data.List.Basic

/-!
# Base64, and streams read in groups of four

A reader of a stream takes four symbols at a time and keeps what is left over until more arrives: `whole` is what it has read,
`leftover` what it keeps. Both depend on the stream alone and not on how it was cut.
-/

namespace NuWicam.Lib

open List

/-! ## Groups of four -/

section

variable {α β : Type*} (f : α → α → α → α → List β)

/-- The whole groups of four, each read by `f`. -/
def whole : List α → List β
  | a :: b :: c :: d :: rest => f a b c d ++ whole rest
  | _ => []

def leftover : List α → List α
  | _ :: _ :: _ :: _ :: rest => leftover rest
  | rest => rest

theorem length_leftover : ∀ w : List α, (leftover w).length = w.length % 4
  | [] => rfl
  | [_] => rfl
  | [_, _] => rfl
  | [_, _, _] => rfl
  | _ :: _ :: _ :: _ :: rest => by
    rw [leftover, length_leftover rest]
    simp only [List.length_cons]
    omega

theorem leftover_of_short {w : List α} (h : w.length < 4) : leftover w = w := by
  match w, h with
  | [], _ => rfl
  | [_], _ => rfl
  | [_, _], _ => rfl
  | [_, _, _], _ => rfl

theorem whole_of_short {w : List α} (h : w.length < 4) : whole f w = [] := by
  match w, h with
  | [], _ => rfl
  | [_], _ => rfl
  | [_, _], _ => rfl
  | [_, _, _], _ => rfl

theorem mem_of_mem_leftover : ∀ {w : List α} {x : α}, x ∈ leftover w → x ∈ w
  | [], _, h => h
  | [_], _, h => h
  | [_, _], _, h => h
  | [_, _, _], _, h => h
  | _ :: _ :: _ :: _ :: rest, x, h => by
    have hrest : x ∈ rest := mem_of_mem_leftover (w := rest) h
    simp [hrest]

theorem leftover_append : ∀ w v : List α, leftover (w ++ v) = leftover (leftover w ++ v)
  | [], _ => rfl
  | [_], _ => rfl
  | [_, _], _ => rfl
  | [_, _, _], _ => rfl
  | _ :: _ :: _ :: _ :: rest, v => leftover_append rest v

theorem whole_append : ∀ w v : List α, whole f (w ++ v) = whole f w ++ whole f (leftover w ++ v)
  | [], _ => rfl
  | [_], _ => rfl
  | [_, _], _ => rfl
  | [_, _, _], _ => rfl
  | a :: b :: c :: d :: rest, v => by
    show f a b c d ++ whole f (rest ++ v) = f a b c d ++ whole f rest ++ whole f (leftover rest ++ v)
    rw [whole_append rest v, List.append_assoc]

/-- The code of a group has four symbols, which `f` reads as the group. -/
def Reads (enc : List β → List α) (g : List β) : Prop := ∃ a b c d, enc g = [a, b, c, d] ∧ f a b c d = g

variable {f}

theorem length_flatMap_of_reads {enc : List β → List α} : ∀ {gs : List (List β)}, (∀ g ∈ gs, Reads f enc g) →
    (gs.flatMap enc).length = 4 * gs.length
  | [], _ => rfl
  | g :: gs, hgs => by
    rw [List.forall_mem_cons] at hgs
    obtain ⟨a, b, c, d, henc, _⟩ := hgs.1
    rw [flatMap_cons, length_append, henc, length_flatMap_of_reads hgs.2, length_cons]
    simp only [length_cons, length_nil]
    omega

theorem whole_of_part {enc : List β → List α} : ∀ {gs : List (List β)} {w : List α}, (∀ g ∈ gs, Reads f enc g) →
    w <+: gs.flatMap enc → whole f w = (gs.take (w.length / 4)).flatten
  | [], w, _, hw => by
    rw [List.prefix_nil.mp hw, List.take_nil]
    rfl
  | g :: gs, w, hgs, hw => by
    rw [List.forall_mem_cons] at hgs
    obtain ⟨a, b, c, d, henc, hread⟩ := hgs.1
    rw [flatMap_cons, henc] at hw
    by_cases hshort : w.length < 4
    · rw [whole_of_short f hshort, Nat.div_eq_of_lt hshort]
      rfl
    · have hfirst : [a, b, c, d] <+: w :=
        prefix_of_prefix_length_le (prefix_append ..) hw (Nat.not_lt.mp hshort)
      obtain ⟨rest, rfl⟩ := hfirst
      have ih := whole_of_part hgs.2 ((prefix_append_right_inj _).mp hw)
      have hlen : ([a, b, c, d] ++ rest).length / 4 = rest.length / 4 + 1 := by
        simp only [length_append, length_cons, length_nil]
        omega
      rw [hlen, take_succ_cons, flatten_cons, ← ih]
      show f a b c d ++ whole f rest = g ++ whole f rest
      rw [hread]

end

/-! ## The encoding -/

namespace Base64

def char (v : Nat) : UInt8 :=
  if v < 26 then .ofNat (65 + v)
  else if v < 52 then .ofNat (71 + v)
  else if v < 62 then .ofNat (v - 4)
  else if v = 62 then 43 else 47

/-- The padding, `'='` -/
def pad : UInt8 := 61

def encodeGroup : List UInt8 → List UInt8
  | [a] => [char (a.toNat / 4), char (a.toNat % 4 * 16), pad, pad]
  | [a, b] => [char (a.toNat / 4), char (a.toNat % 4 * 16 + b.toNat / 16), char (b.toNat % 16 * 4), pad]
  | [a, b, c] => [char (a.toNat / 4), char (a.toNat % 4 * 16 + b.toNat / 16), char (b.toNat % 16 * 4 + c.toNat / 64),
      char (c.toNat % 64)]
  | _ => []

def groups : List UInt8 → List (List UInt8)
  | [] => []
  | [a] => [[a]]
  | [a, b] => [[a, b]]
  | a :: b :: c :: rest => [a, b, c] :: groups rest

def encode (s : List UInt8) : List UInt8 := (groups s).flatMap encodeGroup

theorem flatten_groups : ∀ s : List UInt8, (groups s).flatten = s
  | [] => rfl
  | [_] => rfl
  | [_, _] => rfl
  | a :: b :: c :: rest => by
    rw [groups, List.flatten_cons, flatten_groups rest]
    rfl

theorem of_mem_groups {P : List UInt8 → Prop} (h₁ : ∀ a, P [a]) (h₂ : ∀ a b, P [a, b]) (h₃ : ∀ a b c, P [a, b, c]) :
    ∀ {s g : List UInt8}, g ∈ groups s → P g
  | [], _, hg => (List.not_mem_nil hg).elim
  | [a], _, hg => by
    rw [List.mem_singleton.mp hg]
    exact h₁ a
  | [a, b], _, hg => by
    rw [List.mem_singleton.mp hg]
    exact h₂ a b
  | a :: b :: c :: rest, _, hg => by
    rcases List.mem_cons.mp hg with rfl | hg
    · exact h₃ a b c
    · exact of_mem_groups h₁ h₂ h₃ hg

theorem flatMap_encode (ss : List (List UInt8)) : ss.flatMap encode = (ss.flatMap groups).flatMap encodeGroup := by
  rw [flatMap_assoc]
  rfl

theorem flatten_flatMap_groups (ss : List (List UInt8)) : (ss.flatMap groups).flatten = ss.flatten := by
  induction ss with
  | nil => rfl
  | cons s ss ih => rw [flatMap_cons, flatten_append, flatten_groups, ih, flatten_cons]

end Base64

end NuWicam.Lib
