import Mathlib.Data.List.Basic
import Mathlib.Logic.Function.Basic

/-!
# Circular buffers

A buffer of `N` cells with a read index `r` and a write index `w`; it is empty when they meet, so it holds at most `N - 1`
elements. `contents` lists them from the oldest to the newest.
-/

namespace NuWicam.Lib

open List

structure CircBuf (α : Type*) where
  cell : Nat → α
  r : Nat
  w : Nat

namespace CircBuf

variable {α : Type*} (N : Nat)

structure Ok (q : CircBuf α) : Prop where
  r_lt : q.r < N
  w_lt : q.w < N

def count (q : CircBuf α) : Nat := if q.r ≤ q.w then q.w - q.r else N - q.r + q.w

def contents (q : CircBuf α) : List α := (List.range (q.count N)).map fun k => q.cell ((q.r + k) % N)

def stretch (q : CircBuf α) : Nat := if q.w < q.r then N - q.r else q.w - q.r

def front (q : CircBuf α) (n : Nat) : List α := (List.range n).map fun k => q.cell (q.r + k)

def push (q : CircBuf α) (x : α) : CircBuf α :=
  { q with cell := Function.update q.cell q.w x, w := if q.w + 1 = N then 0 else q.w + 1 }

def advance (q : CircBuf α) (n : Nat) : CircBuf α := { q with r := if q.r + n = N then 0 else q.r + n }

variable {N} {q : CircBuf α}

theorem length_contents : (q.contents N).length = q.count N := by simp [contents]

theorem Ok.push (h : q.Ok N) (x : α) : (q.push N x).Ok N := by
  have := h.w_lt
  refine ⟨h.r_lt, ?_⟩
  simp only [CircBuf.push]
  split <;> omega

theorem Ok.advance (h : q.Ok N) {n : Nat} (hn : n ≤ q.stretch N) : (q.advance N n).Ok N := by
  have := h.r_lt
  have := h.w_lt
  refine ⟨?_, h.w_lt⟩
  unfold stretch at hn
  simp only [CircBuf.advance]
  split <;> split at hn <;> omega

theorem Ok.w_eq (h : q.Ok N) : q.w = (q.r + q.count N) % N := by
  have := h.r_lt
  have := h.w_lt
  unfold count
  split
  · rw [Nat.mod_eq_of_lt] <;> omega
  · have : q.r + (N - q.r + q.w) = q.w + N := by omega
    rw [this, Nat.add_mod_right, Nat.mod_eq_of_lt h.w_lt]

theorem Ok.count_push (h : q.Ok N) (x : α) (hc : q.count N + 1 < N) : (q.push N x).count N = q.count N + 1 := by
  have := h.r_lt
  have := h.w_lt
  unfold count at hc ⊢
  simp only [CircBuf.push]
  split at hc <;> split <;> split <;> omega

theorem Ok.cell_ne_w (h : q.Ok N) {k : Nat} (hk : k < q.count N) : (q.r + k) % N ≠ q.w := by
  have := h.r_lt
  have := h.w_lt
  unfold count at hk
  by_cases hw : q.r + k < N
  · rw [Nat.mod_eq_of_lt hw]
    split at hk <;> omega
  · rw [Nat.mod_eq_sub_mod (by omega), Nat.mod_eq_of_lt (by split at hk <;> omega)]
    split at hk <;> omega

theorem Ok.contents_push (h : q.Ok N) (x : α) (hc : q.count N + 1 < N) : (q.push N x).contents N = q.contents N ++ [x] := by
  unfold contents
  rw [h.count_push x hc, range_succ, map_append, map_singleton]
  congr 1
  · apply map_congr_left
    intro k hk
    have hne := h.cell_ne_w (mem_range.mp hk)
    simp only [CircBuf.push]
    exact Function.update_of_ne hne _ _
  · have hw : (q.r + q.count N) % N = q.w := h.w_eq.symm
    simp [CircBuf.push, hw]

theorem Ok.contents_pushAll : ∀ (xs : List α) {q : CircBuf α}, q.Ok N → q.count N + xs.length < N →
    (xs.foldl (CircBuf.push N) q).Ok N ∧ (xs.foldl (CircBuf.push N) q).contents N = q.contents N ++ xs
  | [], _, h, _ => ⟨h, by simp⟩
  | x :: xs, q, h, hc => by
    simp only [List.length_cons] at hc
    have hx : q.count N + 1 < N := by omega
    have hcount := h.count_push x hx
    obtain ⟨hok, hcont⟩ := Ok.contents_pushAll xs (h.push x) (by omega)
    refine ⟨hok, ?_⟩
    rw [foldl_cons, hcont, h.contents_push x hx, append_assoc, singleton_append]

theorem Ok.count_eq_zero (h : q.Ok N) : q.count N = 0 ↔ q.r = q.w := by
  have := h.r_lt
  unfold count
  split <;> omega

theorem Ok.stretch_pos (h : q.Ok N) (hne : q.r ≠ q.w) : 0 < q.stretch N := by
  have := h.r_lt
  unfold stretch
  split <;> omega

theorem Ok.stretch_le_count (h : q.Ok N) : q.stretch N ≤ q.count N := by
  have := h.r_lt
  have := h.w_lt
  unfold stretch count
  split <;> split <;> omega

theorem Ok.count_advance (h : q.Ok N) {n : Nat} (hn : n ≤ q.stretch N) : (q.advance N n).count N = q.count N - n := by
  have := h.r_lt
  have := h.w_lt
  unfold stretch at hn
  unfold count
  simp only [CircBuf.advance]
  split at hn <;> split <;> split <;> split <;> omega

theorem index_advance (n k : Nat) : ((q.advance N n).r + k) % N = (q.r + (n + k)) % N := by
  simp only [CircBuf.advance]
  split
  · rename_i he
    rw [← Nat.add_assoc, he, Nat.add_mod_left, Nat.zero_add]
  · rw [Nat.add_assoc]

theorem Ok.front_append_contents (h : q.Ok N) {n : Nat} (hn : n ≤ q.stretch N) :
    q.front n ++ (q.advance N n).contents N = q.contents N := by
  have hle : n ≤ q.count N := Nat.le_trans hn h.stretch_le_count
  have hr := h.r_lt
  have hstretch : ∀ k, k < n → q.r + k < N := by
    have := h.w_lt
    intro k hk
    unfold stretch at hn
    split at hn <;> omega
  unfold contents front
  rw [h.count_advance hn]
  obtain ⟨m, hm⟩ := Nat.exists_eq_add_of_le hle
  rw [hm, Nat.add_sub_cancel_left, range_add, map_append, List.map_map]
  congr 1
  · apply map_congr_left
    intro k hk
    rw [Nat.mod_eq_of_lt (hstretch k (mem_range.mp hk))]
  · apply map_congr_left
    intro k _
    rw [index_advance n k]
    rfl

end CircBuf

end NuWicam.Lib
