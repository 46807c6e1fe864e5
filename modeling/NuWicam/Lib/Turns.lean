import Mathlib.Data.Sum.Basic

/-!
# Loops turn by turn

The body of a loop goes from a state to the next state (`inl`) or leaves the loop with a result (`inr`). `turns turn n s` is
the loop after at most `n` turns, so that a loop that never ends is an ordinary object.
-/

namespace NuWicam.Lib

variable {σ ρ : Type*} {turn : σ → σ ⊕ ρ} {s s' : σ} {r r' : ρ} {n : Nat}

/-- The loop after `n` turns, or its result if it has ended before. -/
def turns (turn : σ → σ ⊕ ρ) : Nat → σ → σ ⊕ ρ
  | 0, s => .inl s
  | n + 1, s => (turn s).elim (turns turn n) .inr

def Returns (turn : σ → σ ⊕ ρ) (s : σ) (r : ρ) : Prop := ∃ n, turns turn n s = .inr r

theorem turns_succ_of_inl (h : turn s = .inl s') (n : Nat) : turns turn (n + 1) s = turns turn n s' := by
  rw [turns, h, Sum.elim_inl]

theorem turns_succ_of_inr (h : turn s = .inr r) (n : Nat) : turns turn (n + 1) s = .inr r := by
  rw [turns, h, Sum.elim_inr]

theorem Returns.of_inl (h : Returns turn s' r) (ht : turn s = .inl s') : Returns turn s r := by
  obtain ⟨n, hn⟩ := h
  exact ⟨n + 1, (turns_succ_of_inl ht n).trans hn⟩

variable {I : σ → Prop}

/-- **Invariant rule for loops.** -/
theorem turns_keeps (hI : ∀ s s', I s → turn s = .inl s' → I s') (hs : I s) (h : turns turn n s = .inl s') : I s' := by
  induction n generalizing s with
  | zero =>
    cases h
    exact hs
  | succ n ih =>
    cases ht : turn s with
    | inl s₁ =>
      rw [turns_succ_of_inl ht] at h
      exact ih (hI s s₁ hs ht) h
    | inr r =>
      rw [turns_succ_of_inr ht] at h
      cases h

theorem turns_result {Q : ρ → Prop} (hI : ∀ s s', I s → turn s = .inl s' → I s')
    (hQ : ∀ s r, I s → turn s = .inr r → Q r) (hs : I s) (h : turns turn n s = .inr r) : Q r := by
  induction n generalizing s with
  | zero => cases h
  | succ n ih =>
    cases ht : turn s with
    | inl s₁ =>
      rw [turns_succ_of_inl ht] at h
      exact ih (hI s s₁ hs ht) h
    | inr r₁ =>
      rw [turns_succ_of_inr ht] at h
      cases h
      exact hQ s _ hs ht

theorem turns_mono {m : Nat} (h : turns turn n s = .inr r) (hm : n ≤ m) : turns turn m s = .inr r := by
  induction n generalizing s m with
  | zero => cases h
  | succ n ih =>
    obtain ⟨m, rfl⟩ := Nat.exists_eq_add_of_lt (Nat.lt_of_lt_of_le (Nat.succ_pos n) hm)
    rw [Nat.zero_add] at hm ⊢
    cases ht : turn s with
    | inl s₁ =>
      rw [turns_succ_of_inl ht] at h ⊢
      exact ih h (by omega)
    | inr r₁ =>
      rw [turns_succ_of_inr ht] at h ⊢
      exact h

theorem Returns.unique (h : Returns turn s r) (h' : Returns turn s r') : r = r' := by
  obtain ⟨n, hn⟩ := h
  obtain ⟨m, hm⟩ := h'
  have hl := turns_mono hn (Nat.le_max_left n m)
  have hr := turns_mono hm (Nat.le_max_right n m)
  exact Sum.inr.inj (hl.symm.trans hr)

/-- **A loop whose variant goes down returns.** -/
theorem exists_returns_within (v : σ → Nat)
    (hI : ∀ s s', I s → turn s = .inl s' → I s' ∧ v s' < v s) (hs : I s) : ∃ r, turns turn (v s + 1) s = .inr r := by
  induction hv : v s using Nat.strongRecOn generalizing s with
  | ind n ih =>
    cases ht : turn s with
    | inr r => exact ⟨r, turns_succ_of_inr ht n⟩
    | inl s₁ =>
      obtain ⟨hs₁, hlt⟩ := hI s s₁ hs ht
      rw [hv] at hlt
      obtain ⟨r, hr⟩ := ih (v s₁) hlt hs₁ rfl
      refine ⟨r, ?_⟩
      rw [turns_succ_of_inl ht]
      exact turns_mono hr hlt

/-- **A loop in which every turn leads to another one does not return.** -/
theorem not_returns (hI : ∀ s, I s → ∃ s', turn s = .inl s' ∧ I s') (hs : I s) (r : ρ) : ¬ Returns turn s r := by
  rintro ⟨n, h⟩
  induction n generalizing s with
  | zero => cases h
  | succ n ih =>
    obtain ⟨s', ht, hs'⟩ := hI s hs
    rw [turns_succ_of_inl ht] at h
    exact ih hs' h

end NuWicam.Lib
