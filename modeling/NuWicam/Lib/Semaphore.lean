import NuWicam.Lib.Run
import Mathlib.Data.List.Count

/-!
# Calls that share a counting semaphore

Any number of calls run side by side over a shared state `D`, which may change at any time, and one semaphore. What a
position of their code does may depend on a choice `C`. `SemCode.step_accounts`: a move that is accounted for keeps the
number of permits, free or held.
-/

namespace NuWicam.Lib

open Option

inductive SemOp
  | skip
  | down
  | up
deriving DecidableEq, Repr

inductive CallState (P R : Type*)
  | running (p : P)
  | returned (r : R)

/-- Where a call may start, what a position does to the semaphore, and the shared state and the call after it. -/
structure SemCode (D P R C : Type*) where
  entry : P → Bool
  op : P → SemOp
  next : D → P → C → D × CallState P R

structure Sem (D P R : Type*) where
  count : Nat
  dev : D
  calls : List (CallState P R)

inductive SemEvent (D P C : Type*)
  | call (p : P)
  | move (t : Nat) (c : C)
  | change (d : D)

/-- The permits after an operation, `none` while the caller has to wait. -/
def SemOp.apply (n : Nat) : SemOp → Option Nat
  | .skip => some n
  | .down => if 0 < n then some (n - 1) else none
  | .up => some (n + 1)

variable {D P R C : Type*}

def CallState.position : CallState P R → Option P
  | .running p => some p
  | .returned _ => none

def CallState.holding (holds : P → Bool) (c : CallState P R) : Bool := c.position.any holds

def Sem.init (n : Nat) (d : D) : Sem D P R := ⟨n, d, []⟩

def Sem.Idle (s : Sem D P R) : Prop := ∀ c ∈ s.calls, c.position = none

def Sem.holders (holds : P → Bool) (s : Sem D P R) : Nat := s.calls.countP (·.holding holds)

/-- The permits that are there and those that are held make up `n`. -/
def Sem.Accounts (holds : P → Bool) (n : Nat) (s : Sem D P R) : Prop := s.count + s.holders holds = n

def OnMoves (Q : D → P → C → Prop) (s : Sem D P R) : SemEvent D P C → Prop
  | .move t c => ∀ p ∈ s.calls[t]?.bind CallState.position, Q s.dev p c
  | .call _ | .change _ => True

theorem OnMoves.mono {Q Q' : D → P → C → Prop} {s : Sem D P R} {e : SemEvent D P C} (h : OnMoves Q s e)
    (hq : ∀ d p c, Q d p c → Q' d p c) : OnMoves Q' s e := by
  cases e with
  | move t c => exact fun p hp => hq _ _ _ (h p hp)
  | call p => trivial
  | change d => trivial

instance {Q : D → P → C → Prop} [∀ d p c, Decidable (Q d p c)] (s : Sem D P R) :
    ∀ e : SemEvent D P C, Decidable (OnMoves Q s e)
  | .move t c => inferInstanceAs (Decidable (∀ p ∈ s.calls[t]?.bind CallState.position, Q s.dev p c))
  | .call _ | .change _ => isTrue trivial

namespace SemCode

variable (code : SemCode D P R C)

def step (s : Sem D P R) : SemEvent D P C → Option (Sem D P R)
  | .call p => if code.entry p then some { s with calls := s.calls ++ [.running p] } else none
  | .move t c =>
    (s.calls[t]?.bind CallState.position).bind fun p =>
      ((code.op p).apply s.count).map fun n =>
        ⟨n, (code.next s.dev p c).1, s.calls.set t (code.next s.dev p c).2⟩
  | .change d => some { s with dev := d }

def Accounted (holds : P → Bool) (d : D) (p : P) (c : C) : Prop :=
  match code.op p with
  | .skip => (code.next d p c).2.holding holds = holds p
  | .down => holds p = false ∧ (code.next d p c).2.holding holds = true
  | .up => holds p = true ∧ (code.next d p c).2.holding holds = false

end SemCode

/-! ## Permits are neither lost nor made -/

variable {code : SemCode D P R C} {holds : P → Bool} {n : Nat} {s s' : Sem D P R}

@[simp] theorem CallState.holding_running (p : P) : (.running p : CallState P R).holding holds = holds p := rfl

theorem CallState.position_eq_some {c : CallState P R} {p : P} : c.position = some p ↔ c = .running p := by
  cases c <;> simp [CallState.position]

theorem countP_set_add (q : CallState P R → Bool) {l : List (CallState P R)} {t : Nat} {c : CallState P R}
    (c' : CallState P R) (h : l[t]? = some c) :
    (l.set t c').countP q + (if q c then 1 else 0) = l.countP q + if q c' then 1 else 0 := by
  obtain ⟨ht, rfl⟩ := List.getElem?_eq_some_iff.mp h
  have hpos : (if q l[t] then 1 else 0) ≤ l.countP q := by
    split
    · exact List.countP_pos_iff.mpr ⟨_, List.getElem_mem ht, ‹_›⟩
    · omega
  rw [List.countP_set ht]
  omega

theorem SemCode.Accounted.apply {d : D} {p : P} {c : C} {m m' : Nat} (h : code.Accounted holds d p c)
    (hm : (code.op p).apply m = some m') :
    m' + (if (code.next d p c).2.holding holds then 1 else 0) = m + if holds p then 1 else 0 := by
  unfold SemCode.Accounted at h
  cases hop : code.op p with
  | skip =>
    rw [hop] at h hm
    cases hm
    rw [h]
  | down =>
    rw [hop] at h hm
    simp only [SemOp.apply, ite_none_right_eq_some, some.injEq] at hm
    simp only [h.1, h.2, if_true, Bool.false_eq_true, if_false]
    omega
  | up =>
    rw [hop] at h hm
    cases hm
    simp [h.1, h.2]

/-- **No permit is lost or made** by a step that is accounted. -/
theorem SemCode.step_accounts (hentry : ∀ p, code.entry p → holds p = false) {e : SemEvent D P C}
    (h : s.Accounts holds n) (he : OnMoves (code.Accounted holds) s e) (hs : code.step s e = some s') :
    s'.Accounts holds n := by
  cases e with
  | call p =>
    simp only [SemCode.step, ite_none_right_eq_some, some.injEq] at hs
    obtain ⟨hp, rfl⟩ := hs
    have hone : List.countP (·.holding holds) [(.running p : CallState P R)] = 0 := by
      rw [List.countP_singleton, CallState.holding_running, hentry p hp, if_neg Bool.false_ne_true]
    unfold Sem.Accounts Sem.holders at h ⊢
    rw [List.countP_append, hone]
    exact h
  | move t c =>
    simp only [SemCode.step, bind_eq_some_iff, map_eq_some_iff, CallState.position_eq_some] at hs
    obtain ⟨p, ⟨_, hp, rfl⟩, m, hm, rfl⟩ := hs
    have hcalls := countP_set_add (·.holding holds) (code.next s.dev p c).2 hp
    have hmove := (he p (by rw [hp]; rfl)).apply hm
    unfold Sem.Accounts Sem.holders at h ⊢
    rw [CallState.holding_running] at hcalls
    dsimp only at hcalls ⊢
    omega
  | change d => cases hs; exact h

theorem Sem.init_accounts (holds : P → Bool) (n : Nat) (d : D) : (Sem.init n d : Sem D P R).Accounts holds n := rfl

namespace Sem.Accounts

variable (h : s.Accounts holds n)
include h

theorem count_le : s.count ≤ n := by
  unfold Sem.Accounts at h
  omega

theorem holders_le : s.holders holds ≤ n := by
  unfold Sem.Accounts at h
  omega

theorem count_idle (hidle : s.Idle) : s.count = n := by
  have hzero : s.holders holds = 0 := List.countP_eq_zero.mpr fun c hc => by
    rw [CallState.holding, hidle c hc]
    exact Bool.false_ne_true
  unfold Sem.Accounts at h
  omega

end Sem.Accounts

end NuWicam.Lib
