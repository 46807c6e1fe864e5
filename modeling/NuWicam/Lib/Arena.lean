import NuWicam.Lib.Cut
import Mathlib.Data.List.Perm.Basic

/-!
# Strings in a memory

A memory of fixed size that holds `NUL`-terminated strings; `storeAt` and `strAt` are `none` where C would leave it. `Laid mem
top strs`: every string of `strs` stands at its place, below `top`, and no two of them overlap.
-/

namespace NuWicam.Lib

open List

/-- A string without a `NUL`, as a `char *` of C leads to. -/
abbrev CStr := { s : Str // (0 : UInt8) ∉ s }

def storeAt (mem : Str) (off : Nat) (bs : Str) : Option Str :=
  if off + bs.length ≤ mem.length then some (mem.take off ++ bs ++ mem.drop (off + bs.length)) else none

def strAt (mem : Str) (off : Nat) : Option Str :=
  if 0 ∈ mem.drop off then some (cstr (mem.drop off)) else none

/-! ## Reading and writing -/

section

variable {mem mem' s t bs : Str} {o off : Nat}

theorem cstr_eq_iff {l : Str} (hl : 0 ∈ l) : cstr l = t ↔ 0 ∉ t ∧ t ++ [0] <+: l := by
  constructor
  · rintro rfl
    obtain ⟨rest, h⟩ := eq_cstr_append hl
    refine ⟨zero_notMem_cstr l, rest, ?_⟩
    rw [append_assoc]
    exact h.symm
  · rintro ⟨ht, rest, rfl⟩
    rw [append_assoc, cstr_append ht]
    exact append_nil t

theorem strAt_eq_some_iff : strAt mem off = some t ↔ 0 ∉ t ∧ t ++ [0] <+: mem.drop off := by
  unfold strAt
  split
  · rename_i hmem
    rw [Option.some.injEq, cstr_eq_iff hmem]
  · rename_i hmem
    constructor
    · intro h
      cases h
    · rintro ⟨-, hp⟩
      exact absurd (hp.subset (by simp)) hmem

theorem storeAt_eq (h : off + bs.length ≤ mem.length) :
    storeAt mem off bs = some (mem.take off ++ bs ++ mem.drop (off + bs.length)) := if_pos h

theorem storeAt_cases (h : storeAt mem off bs = some mem') :
    off + bs.length ≤ mem.length ∧ mem'.length = mem.length ∧ mem'.take off = mem.take off ∧
      bs <+: mem'.drop off ∧ mem'.drop (off + bs.length) = mem.drop (off + bs.length) := by
  unfold storeAt at h
  split at h
  · rename_i hfit
    cases h
    have htake : (mem.take off).length = off := length_take_of_le (by omega)
    refine ⟨hfit, ?_, ?_, ?_, ?_⟩
    · simp only [length_append, length_drop, htake]
      omega
    · rw [append_assoc, take_left' htake]
    · rw [append_assoc, drop_left' htake]
      exact prefix_append _ _
    · rw [drop_left' (by rw [length_append, htake])]
  · cases h

theorem strAt_of_copied (hs : 0 ∉ s) (h : storeAt mem off (s ++ [0]) = some mem') : strAt mem' off = some s :=
  strAt_eq_some_iff.mpr ⟨hs, (storeAt_cases h).2.2.2.1⟩

theorem strAt_of_beside (ht : strAt mem o = some t) (h : storeAt mem off bs = some mem')
    (hapart : o + t.length < off ∨ off + bs.length ≤ o) : strAt mem' o = some t := by
  rw [strAt_eq_some_iff] at *
  obtain ⟨-, -, hbefore, -, hbehind⟩ := storeAt_cases h
  refine ⟨ht.1, ?_⟩
  rcases hapart with hlt | hge
  · -- the string ends before `off`, so it is a part of the bytes before the write
    have hlen : (t ++ [0]).length ≤ off - o := by
      rw [length_append, length_singleton]
      omega
    have htake : t ++ [0] <+: (mem.take off).drop o := by
      rw [drop_take]
      exact prefix_take_iff.mpr ⟨ht.2, hlen⟩
    rw [← hbefore, drop_take] at htake
    exact (prefix_take_iff.mp htake).1
  · have hdrop : ∀ m : Str, m.drop o = (m.drop (off + bs.length)).drop (o - (off + bs.length)) := by
      intro m
      rw [drop_drop]
      congr 1
      omega
    rw [hdrop mem', hbehind, ← hdrop mem]
    exact ht.2

end

/-! ## Strings side by side -/

def Apart (a b : Nat × Str) : Prop := a.1 + a.2.length < b.1 ∨ b.1 + b.2.length < a.1

theorem Apart.symm {a b : Nat × Str} (h : Apart a b) : Apart b a := Or.symm h

/-- The strings stand at their places, below `top` and apart from one another. -/
structure Laid (mem : Str) (top : Nat) (strs : List (Nat × Str)) : Prop where
  str : ∀ x ∈ strs, strAt mem x.1 = some x.2
  below : ∀ x ∈ strs, x.1 + x.2.length < top
  apart : strs.Pairwise Apart

namespace Laid

variable {mem mem' s t bs : Str} {o top top' off : Nat} {strs strs' : List (Nat × Str)}

theorem nil : Laid mem top [] := ⟨by simp, by simp, .nil⟩

theorem mono (h : Laid mem top strs) (hle : top ≤ top') : Laid mem top' strs :=
  ⟨h.str, fun x hx => Nat.lt_of_lt_of_le (h.below x hx) hle, h.apart⟩

theorem perm (h : Laid mem top strs) (hp : strs.Perm strs') : Laid mem top strs' :=
  ⟨fun x hx => h.str x (hp.mem_iff.mpr hx), fun x hx => h.below x (hp.mem_iff.mpr hx),
    (hp.pairwise_iff fun h => Apart.symm h).mp h.apart⟩

theorem forget {x : Nat × Str} (h : Laid mem top (x :: strs)) : Laid mem top strs :=
  ⟨fun y hy => h.str y (.tail _ hy), fun y hy => h.below y (.tail _ hy), (pairwise_cons.mp h.apart).2⟩

theorem above (h : Laid mem top strs) (hoff : top ≤ off) (hm : storeAt mem off bs = some mem') : Laid mem' top strs :=
  ⟨fun x hx => strAt_of_beside (h.str x hx) hm (.inl (Nat.lt_of_lt_of_le (h.below x hx) hoff)), h.below, h.apart⟩

theorem push (h : Laid mem top strs) (hs : 0 ∉ s) (hm : storeAt mem top (s ++ [0]) = some mem') :
    Laid mem' (top + (s.length + 1)) ((top, s) :: strs) := by
  have hold := (h.above (by omega) hm).mono (Nat.le_add_right top (s.length + 1))
  refine ⟨?_, ?_, ?_⟩
  · rw [forall_mem_cons]
    exact ⟨strAt_of_copied hs hm, hold.str⟩
  · rw [forall_mem_cons]
    refine ⟨?_, hold.below⟩
    dsimp only
    omega
  · exact pairwise_cons.mpr ⟨fun x hx => .inr (h.below x hx), h.apart⟩

theorem overwrite (h : Laid mem top ((o, t) :: strs)) (hs : 0 ∉ s) (hlen : s.length ≤ t.length)
    (hm : storeAt mem o (s ++ [0]) = some mem') : Laid mem' top ((o, s) :: strs) := by
  obtain ⟨happ, hrest⟩ := pairwise_cons.mp h.apart
  refine ⟨?_, ?_, ?_⟩
  · rw [forall_mem_cons]
    refine ⟨strAt_of_copied hs hm, fun x hx => strAt_of_beside (h.str x (.tail _ hx)) hm ?_⟩
    rw [length_append, length_singleton]
    rcases happ x hx with hlt | hlt
    · dsimp only at hlt
      exact .inr (by omega)
    · exact .inl hlt
  · rw [forall_mem_cons]
    refine ⟨?_, fun x hx => h.below x (.tail _ hx)⟩
    have := h.below _ mem_cons_self
    dsimp only at *
    omega
  · refine pairwise_cons.mpr ⟨fun x hx => ?_, hrest⟩
    rcases happ x hx with hlt | hlt
    · dsimp only at hlt
      exact .inl (by dsimp only; omega)
    · exact .inr hlt

end Laid

end NuWicam.Lib
