import NuWicam.Event.Time
import NuWicam.Lib.Run
import Mathlib.Logic.Function.Basic

/-!
# The event loop (`event.c`)

The machine takes one visit of an event, one call of a function or one return of a callback a step. What a callback does and
when it returns, what `select` finds and what the clock says are inputs, so its runs are those of every program of callbacks,
which may change the lists while the loop goes through them.
-/

namespace NuWicam.Event

open Lib Option Bool

/-! ## The functions of the source -/

inductive Kind
  | time
  | fd
  | always
deriving DecidableEq, Repr

structure Flags where
  enabled : Bool
  remove : Bool
  oneshot : Bool
  running : Bool
deriving DecidableEq, Repr

/-- `struct event`, without the callback and its data. Pointers are numbers; events are never freed. -/
structure Ev where
  kind : Kind
  prev : Option Nat
  next : Option Nat
  flags : Flags
  /-- `ev.time.fire` and `ev.time.ival` -/
  fire : TimeRef
  ival : Int32
deriving DecidableEq, Repr

namespace Ev

/-- `resched_event` -/
def resched (x : Ev) (tr : Option TimeRef) (now : TimeRef) : Ev :=
  { x with
    fire := tr.getD (if x.flags.enabled then timeAdd x.fire x.ival else timeAdd now x.ival)
    flags := { x.flags with remove := false, enabled := true } }

def removeEvent (x : Ev) : Ev := { x with flags := { x.flags with remove := true, running := false, enabled := false } }

def setEventEnabled (x : Ev) (enabled : Bool) : Ev := { x with flags := { x.flags with enabled := enabled } }

def setEventInterval (x : Ev) (msec : Int32) (now : TimeRef) : Ev :=
  if x.flags.enabled then { x with ival := msec }.resched none now else { x with ival := msec }

def mark (x : Ev) : Ev := { x with flags := { x.flags with running := x.flags.enabled } }

/-- A timer gets its next deadline, and a `oneshot` event is flagged. -/
def fired (x : Ev) (k : Kind) (now : TimeRef) : Ev :=
  if x.flags.oneshot then { x with flags := { x.flags with remove := true } }
  else if k = .time then x.resched none now else x

end Ev

inductive Pc
  | idle
  | scan (k : Kind) (e : Option Nat)
  | calling (k : Kind) (e : Nat)
deriving DecidableEq, Repr

structure Loop where
  ev : Nat → Ev
  fresh : Nat
  head : Kind → Option Nat
  endLoop : Bool
  pc : Pc

namespace Loop

def modify (s : Loop) (e : Nat) (f : Ev → Ev) : Loop := { s with ev := Function.update s.ev e (f (s.ev e)) }

/-- `if (p) p->prev = v;` -/
def setPrev (s : Loop) (p v : Option Nat) : Loop :=
  { s with ev := fun b => if p = some b then { s.ev b with prev := v } else s.ev b }

/-- `if (p) p->next = v;` -/
def setNext (s : Loop) (p v : Option Nat) : Loop :=
  { s with ev := fun b => if p = some b then { s.ev b with next := v } else s.ev b }

def link (s : Loop) (k : Kind) (flags : Flags) (fire : TimeRef) (ival : Int32) : Loop :=
  let s' := { s with
    ev := Function.update s.ev s.fresh ⟨k, none, s.head k, flags, fire, ival⟩
    fresh := s.fresh + 1 }
  { s'.setPrev (s.head k) (some s.fresh) with head := Function.update s.head k (some s.fresh) }

/-- The body of `strip_events` for a flagged event. -/
def unlink (s : Loop) (k : Kind) (e : Nat) : Loop :=
  let x := s.ev e
  { (s.setPrev x.next x.prev).setNext x.prev x.next with
    head := if x.prev = none then Function.update s.head k x.next else s.head }

/-- The number of events is enough fuel. -/
def stripFrom (k : Kind) : Nat → Option Nat → Loop → Option Loop
  | _, none, s => some s
  | 0, some _, _ => none
  | fuel + 1, some e, s => stripFrom k fuel (s.ev e).next (if (s.ev e).flags.remove then s.unlink k e else s)

def stripEvents (s : Loop) (k : Kind) : Option Loop := stripFrom k s.fresh (s.head k) s

/-- A loop before `select`. -/
def markFrom : Nat → Option Nat → Loop → Option Loop
  | _, none, s => some s
  | 0, some _, _ => none
  | fuel + 1, some e, s => markFrom fuel (s.ev e).next (s.modify e Ev.mark)

def markAll (s : Loop) : Option Loop :=
  (markFrom s.fresh (s.head .time) s).bind fun s =>
    (markFrom s.fresh (s.head .always) s).bind fun s => markFrom s.fresh (s.head .fd) s

def finish (s : Loop) : Option Loop :=
  (s.stripEvents .time).bind fun s => (s.stripEvents .fd).bind fun s => s.stripEvents .always

end Loop

/-- The functions for the callbacks. In the flags they pass at most `EVENT_F_ONESHOT`, none of the loop's own bits. -/
inductive Op
  | addTimer (msec : Int32) (oneshot : Bool)
  | addAlarm (t : TimeRef) (left : Int32)
  | addFd (oneshot : Bool)
  | addAlways (oneshot : Bool)
  | resched (e : Nat) (t : Option TimeRef)
  | remove (e : Nat)
  | setInterval (e : Nat) (msec : Int32)
  | setEnabled (e : Nat) (enabled : Bool)
  | exitLoop
deriving DecidableEq, Repr

namespace Loop

def on (s : Loop) (e : Nat) (f : Ev → Ev) : Option Loop := if e < s.fresh then some (s.modify e f) else none

def call (s : Loop) (now : TimeRef) : Op → Option Loop
  | .addTimer msec oneshot =>
    some ((s.link .time ⟨false, false, oneshot, false⟩ now msec).modify s.fresh fun x => x.resched none now)
  | .addAlarm t left =>
    some ((s.link .time ⟨false, false, true, false⟩ t left).modify s.fresh fun x => x.resched (some t) now)
  | .addFd oneshot => some (s.link .fd ⟨true, false, oneshot, false⟩ now 0)
  | .addAlways oneshot => some (s.link .always ⟨true, false, oneshot, false⟩ now 0)
  | .resched e t => s.on e fun x => x.resched t now
  | .remove e => s.on e Ev.removeEvent
  | .setInterval e msec => s.on e fun x => x.setEventInterval msec now
  | .setEnabled e enabled => s.on e fun x => x.setEventEnabled enabled
  | .exitLoop => some { s with endLoop := true }

/-- A timer with less than 5 ms left, a descriptor that is set, any `always` event. -/
def due (s : Loop) (k : Kind) (e : Nat) (now : TimeRef) (isset : Bool) : Bool :=
  match k with
  | .time => decide (timeLeft (s.ev e).fire now < 5)
  | .fd => isset
  | .always => true

end Loop

inductive Move
  | startPass
  | visit (isset : Bool)
  | advance (found : Bool)
  | call (op : Op)
  | ret
deriving DecidableEq, Repr

abbrev Act := TimeRef × Move

namespace Loop

def invoked (s : Loop) (a : Act) : Option Nat :=
  match s.pc, a.2 with
  | .scan k (some e), .visit isset =>
    if (s.ev e).flags.running && !s.endLoop && s.due k e a.1 isset then some e else none
  | _, _ => none

def step (s : Loop) (a : Act) : Option Loop :=
  match a.2, s.pc with
  | .startPass, .idle => s.markAll.map fun s => { s with endLoop := false, pc := .scan .time (s.head .time) }
  | .visit isset, .scan k (some e) =>
    if (s.ev e).flags.running = false then some { s with pc := .scan k (s.ev e).next }
    else if s.endLoop then some { s with pc := .scan k none }
    else if s.due k e a.1 isset then some { s.modify e (·.fired k a.1) with pc := .calling k e }
    else some { s with pc := .scan k (s.ev e).next }
  | .advance _, .scan .time none => some { s with pc := .scan .always (s.head .always) }
  | .advance found, .scan .always none => some { s with pc := .scan .fd (if found then s.head .fd else none) }
  | .advance _, .scan .fd none => s.finish.map fun s => { s with pc := .idle }
  | .call op, .idle => s.call a.1 op
  | .call op, .calling _ _ => s.call a.1 op
  | .ret, .calling k e => some { s with pc := .scan k (s.ev e).next }
  | _, _ => none

def start : Loop := ⟨fun _ => ⟨.time, none, none, ⟨false, false, false, false⟩, ⟨0, 0⟩, 0⟩, 0, fun _ => none, false, .idle⟩

end Loop

/-! ## What a step can do -/

def Ev.core (x : Ev) : Ev := { x with prev := none, next := none }

theorem Ev.flags_of_core {x y : Ev} (h : x.core = y.core) : x.flags = y.flags :=
  show x.core.flags = y.core.flags by rw [h]

namespace Loop

variable {s s' : Loop} {a : Act} {k : Kind} {e : Nat}

theorem invoked_visit {isset : Bool} (hm : a.2 = .visit isset) (hpc : s.pc = .scan k (some e)) :
    s.invoked a = if (s.ev e).flags.running && !s.endLoop && s.due k e a.1 isset then some e else none := by
  unfold invoked
  rw [hm, hpc]

theorem invoked_eq_none (h : ∀ isset, a.2 ≠ .visit isset) : s.invoked a = none := by
  unfold invoked
  split
  · rename_i heq
    exact absurd heq (h _)
  · rfl

/-- Behind the event it is at, out of a list, or to another list. -/
def Goes (s : Loop) (p : Pc) : Prop :=
  (∃ k e, (s.pc = .scan k (some e) ∨ s.pc = .calling k e) ∧ p = .scan k (s.ev e).next) ∨
  (∃ k, p = .scan k none) ∨
  ∃ k, k ≠ .time ∧ p = .scan k (s.head k)

inductive Stepped (s : Loop) (a : Act) : Loop → Prop
  | go {p : Pc} (hinv : s.invoked a = none) (hm : a.2 ≠ .startPass) (hgoes : s.Goes p) : Stepped s a { s with pc := p }
  | begins {t : Loop} (hinv : s.invoked a = none) (hm : a.2 = .startPass) (hpc : s.pc = .idle)
      (hmark : s.markAll = some t) : Stepped s a { t with endLoop := false, pc := .scan .time (t.head .time) }
  | fires {k : Kind} {e : Nat} {isset : Bool} (hinv : s.invoked a = some e) (hm : a.2 = .visit isset)
      (hpc : s.pc = .scan k (some e)) (hrun : (s.ev e).flags.running = true) (hdue : s.due k e a.1 isset = true) :
      Stepped s a { s.modify e (·.fired k a.1) with pc := .calling k e }
  | ends {t : Loop} (hinv : s.invoked a = none) (hm : a.2 ≠ .startPass) (hfinish : s.finish = some t) :
      Stepped s a { t with pc := .idle }
  | calls {op : Op} {s' : Loop} (hinv : s.invoked a = none) (hm : a.2 = .call op) (hcall : s.call a.1 op = some s') :
      Stepped s a s'

theorem visit_cases {isset : Bool} (h : s.step a = some s') (hm : a.2 = .visit isset) (hpc : s.pc = .scan k (some e)) :
    Stepped s a s' := by
  have hinv := invoked_visit hm hpc
  have hno : a.2 ≠ .startPass := by
    rw [hm]
    exact Move.noConfusion
  have hnext : s.Goes (.scan k (s.ev e).next) := .inl ⟨k, e, .inl hpc, rfl⟩
  unfold step at h
  rw [hm, hpc] at h
  dsimp only at h
  by_cases hrun : (s.ev e).flags.running = false
  · rw [if_pos hrun] at h
    cases h
    exact .go (by rw [hinv, hrun]; rfl) hno hnext
  · rw [if_neg hrun] at h
    rw [not_eq_false] at hrun
    by_cases hend : s.endLoop
    · rw [if_pos hend] at h
      cases h
      exact .go (by rw [hinv, hrun, hend]; rfl) hno (.inr (.inl ⟨k, rfl⟩))
    · rw [if_neg hend] at h
      rw [not_eq_true] at hend
      by_cases hdue : s.due k e a.1 isset
      · rw [if_pos hdue] at h
        cases h
        exact .fires (by rw [hinv, hrun, hend, hdue]; rfl) hm hpc hrun hdue
      · rw [if_neg hdue] at h
        rw [not_eq_true] at hdue
        cases h
        exact .go (by rw [hinv, hrun, hend, hdue]; rfl) hno hnext

theorem advance_cases {found : Bool} (h : s.step a = some s') (hm : a.2 = .advance found) : Stepped s a s' := by
  have hinv : s.invoked a = none := invoked_eq_none fun isset => by
    rw [hm]
    exact Move.noConfusion
  have hno : a.2 ≠ .startPass := by
    rw [hm]
    exact Move.noConfusion
  unfold step at h
  rw [hm] at h
  cases hpc : s.pc with
  | idle => rw [hpc] at h; cases h
  | calling k e => rw [hpc] at h; cases h
  | scan k p =>
    rw [hpc] at h
    cases p with
    | some e => cases k <;> cases h
    | none =>
      cases k with
      | time =>
        cases h
        exact .go hinv hno (.inr (.inr ⟨.always, Kind.noConfusion, rfl⟩))
      | always =>
        cases h
        cases found with
        | true => exact .go hinv hno (.inr (.inr ⟨.fd, Kind.noConfusion, rfl⟩))
        | false => exact .go hinv hno (.inr (.inl ⟨.fd, rfl⟩))
      | fd =>
        obtain ⟨t, ht, rfl⟩ := map_eq_some_iff.mp h
        exact .ends hinv hno ht

/-- **A step does one of these things.** -/
theorem step_cases (h : s.step a = some s') : Stepped s a s' := by
  have hinv : (∀ isset, a.2 ≠ .visit isset) → s.invoked a = none := invoked_eq_none
  have hstep := h
  unfold step at h
  cases hm : a.2 with
  | startPass =>
    rw [hm] at h hinv
    cases hpc : s.pc with
    | idle =>
      rw [hpc] at h
      obtain ⟨t, ht, rfl⟩ := map_eq_some_iff.mp h
      exact .begins (hinv fun _ => Move.noConfusion) hm hpc ht
    | scan k p => rw [hpc] at h; cases h
    | calling k e => rw [hpc] at h; cases h
  | visit isset =>
    rw [hm] at h
    cases hpc : s.pc with
    | idle => rw [hpc] at h; cases h
    | calling k e => rw [hpc] at h; cases h
    | scan k p =>
      cases p with
      | none => rw [hpc] at h; cases h
      | some e => exact visit_cases hstep hm hpc
  | advance found => exact advance_cases hstep hm
  | call op =>
    rw [hm] at h hinv
    cases hpc : s.pc with
    | idle =>
      rw [hpc] at h
      exact .calls (hinv fun _ => Move.noConfusion) hm h
    | calling k e =>
      rw [hpc] at h
      exact .calls (hinv fun _ => Move.noConfusion) hm h
    | scan k p => rw [hpc] at h; cases h
  | ret =>
    have hno : a.2 ≠ .startPass := by
      rw [hm]
      exact Move.noConfusion
    rw [hm] at h hinv
    cases hpc : s.pc with
    | idle => rw [hpc] at h; cases h
    | scan k p => rw [hpc] at h; cases h
    | calling k e =>
      rw [hpc] at h
      cases h
      exact .go (hinv fun _ => Move.noConfusion) hno (.inl ⟨k, e, .inr hpc, rfl⟩)

/-! ## What becomes of one event -/

theorem ev_modify (s : Loop) (e : Nat) (f : Ev → Ev) (b : Nat) :
    (s.modify e f).ev b = if b = e then f (s.ev e) else s.ev b := by
  by_cases hb : b = e
  · subst hb
    rw [if_pos rfl]
    exact Function.update_self ..
  · rw [if_neg hb]
    exact Function.update_of_ne hb ..

theorem core_setPrev (s : Loop) (p v : Option Nat) (b : Nat) : ((s.setPrev p v).ev b).core = (s.ev b).core := by
  unfold setPrev
  dsimp only
  split
  · rfl
  · rfl

theorem core_setNext (s : Loop) (p v : Option Nat) (b : Nat) : ((s.setNext p v).ev b).core = (s.ev b).core := by
  unfold setNext
  dsimp only
  split
  · rfl
  · rfl

theorem core_link {flags : Flags} {fire : TimeRef} {ival : Int32} {b : Nat} (hb : b ≠ s.fresh) :
    ((s.link k flags fire ival).ev b).core = (s.ev b).core := by
  have hsame : (Function.update s.ev s.fresh ⟨k, none, s.head k, flags, fire, ival⟩) b = s.ev b :=
    Function.update_of_ne hb ..
  exact (core_setPrev _ _ _ b).trans (congrArg Ev.core hsame)

theorem core_unlink (s : Loop) (k : Kind) (e b : Nat) : ((s.unlink k e).ev b).core = (s.ev b).core :=
  (core_setNext _ _ _ b).trans (core_setPrev _ _ _ b)

theorem stripFrom_core {fuel : Nat} {p : Option Nat} {t : Loop} (h : stripFrom k fuel p s = some t) :
    t.fresh = s.fresh ∧ ∀ b, (t.ev b).core = (s.ev b).core := by
  induction fuel generalizing p s with
  | zero =>
    cases p with
    | none =>
      cases h
      exact ⟨rfl, fun _ => rfl⟩
    | some e => cases h
  | succ fuel ih =>
    cases p with
    | none =>
      cases h
      exact ⟨rfl, fun _ => rfl⟩
    | some e =>
      obtain ⟨hfresh, hcore⟩ := ih h
      by_cases hr : (s.ev e).flags.remove
      · rw [if_pos hr] at hfresh hcore
        exact ⟨hfresh, fun b => (hcore b).trans (core_unlink s k e b)⟩
      · rw [if_neg hr] at hfresh hcore
        exact ⟨hfresh, hcore⟩

theorem finish_core {t : Loop} (h : s.finish = some t) : t.fresh = s.fresh ∧ ∀ b, (t.ev b).core = (s.ev b).core := by
  obtain ⟨s₁, h₁, h⟩ := bind_eq_some_iff.mp h
  obtain ⟨s₂, h₂, h₃⟩ := bind_eq_some_iff.mp h
  obtain ⟨hf₁, hc₁⟩ := stripFrom_core h₁
  obtain ⟨hf₂, hc₂⟩ := stripFrom_core h₂
  obtain ⟨hf₃, hc₃⟩ := stripFrom_core h₃
  exact ⟨hf₃.trans (hf₂.trans hf₁), fun b => (hc₃ b).trans ((hc₂ b).trans (hc₁ b))⟩

theorem markFrom_ev {fuel : Nat} {p : Option Nat} {t : Loop} (h : markFrom fuel p s = some t) :
    t.fresh = s.fresh ∧ t.head = s.head ∧ ∀ b, t.ev b = s.ev b ∨ t.ev b = (s.ev b).mark := by
  induction fuel generalizing p s with
  | zero =>
    cases p with
    | none =>
      cases h
      exact ⟨rfl, rfl, fun _ => .inl rfl⟩
    | some e => cases h
  | succ fuel ih =>
    cases p with
    | none =>
      cases h
      exact ⟨rfl, rfl, fun _ => .inl rfl⟩
    | some e =>
      obtain ⟨hfresh, hhead, hev⟩ := ih h
      refine ⟨hfresh, hhead, fun b => ?_⟩
      have hb := hev b
      rw [ev_modify] at hb
      by_cases hbe : b = e
      · subst hbe
        rw [if_pos rfl] at hb
        rcases hb with hb | hb
        · exact .inr hb
        · exact .inr hb
      · rwa [if_neg hbe] at hb

theorem markAll_ev {t : Loop} (h : s.markAll = some t) :
    t.fresh = s.fresh ∧ t.head = s.head ∧ ∀ b, t.ev b = s.ev b ∨ t.ev b = (s.ev b).mark := by
  obtain ⟨s₁, h₁, h⟩ := bind_eq_some_iff.mp h
  obtain ⟨s₂, h₂, h₃⟩ := bind_eq_some_iff.mp h
  obtain ⟨hf₁, hh₁, he₁⟩ := markFrom_ev h₁
  obtain ⟨hf₂, hh₂, he₂⟩ := markFrom_ev h₂
  obtain ⟨hf₃, hh₃, he₃⟩ := markFrom_ev h₃
  refine ⟨hf₃.trans (hf₂.trans hf₁), hh₃.trans (hh₂.trans hh₁), fun b => ?_⟩
  -- marking twice is marking once
  rcases he₁ b with h₁ | h₁ <;> rcases he₂ b with h₂ | h₂ <;> rcases he₃ b with h₃ | h₃ <;> rw [h₃, h₂, h₁]
  · exact .inl rfl
  all_goals exact .inr rfl

end Loop

def Op.target : Op → Option Nat
  | .resched e _ | .remove e | .setInterval e _ | .setEnabled e _ => some e
  | _ => none

namespace Loop

variable {s s' : Loop} {now : TimeRef} {op : Op} {e : Nat}

theorem on_eq_some {f : Ev → Ev} (h : s.on e f = some s') : e < s.fresh ∧ s' = s.modify e f := by
  unfold on at h
  split at h
  · cases h
    exact ⟨‹_›, rfl⟩
  · cases h

theorem call_core (h : s.call now op = some s') (he : e < s.fresh) (ht : op.target ≠ some e) :
    e < s'.fresh ∧ (s'.ev e).core = (s.ev e).core := by
  have hne : e ≠ s.fresh := by omega
  have hon : ∀ {b : Nat} {f : Ev → Ev}, some b ≠ some e → s.on b f = some s' →
      e < s'.fresh ∧ (s'.ev e).core = (s.ev e).core := by
    intro b f hbe hb
    obtain ⟨-, rfl⟩ := on_eq_some hb
    refine ⟨he, ?_⟩
    rw [ev_modify, if_neg fun heb => hbe (by rw [heb])]
  have hnew : ∀ {t : Loop} {f : Ev → Ev}, (t.ev e).core = (s.ev e).core →
      ((t.modify s.fresh f).ev e).core = (s.ev e).core := by
    intro t f ht
    rw [ev_modify, if_neg hne]
    exact ht
  cases op with
  | addTimer msec oneshot =>
    cases h
    exact ⟨Nat.lt_succ_of_lt he, hnew (core_link hne)⟩
  | addAlarm t left =>
    cases h
    exact ⟨Nat.lt_succ_of_lt he, hnew (core_link hne)⟩
  | addFd oneshot =>
    cases h
    exact ⟨Nat.lt_succ_of_lt he, core_link hne⟩
  | addAlways oneshot =>
    cases h
    exact ⟨Nat.lt_succ_of_lt he, core_link hne⟩
  | resched b t => exact hon ht h
  | remove b => exact hon ht h
  | setInterval b msec => exact hon ht h
  | setEnabled b enabled => exact hon ht h
  | exitLoop =>
    cases h
    exact ⟨he, rfl⟩

/-! ## Events that are not running -/

def Waiting (s : Loop) (e : Nat) : Prop := e < s.fresh ∧ (s.ev e).flags.running = false

def Quiet (s : Loop) (e : Nat) : Prop := s.Waiting e ∧ (s.ev e).flags.enabled = false

theorem invoked_ne {a : Act} (h : (s.ev e).flags.running = false) : s.invoked a ≠ some e := by
  unfold invoked
  split
  · split
    · rename_i hrun
      rintro ⟨⟩
      rw [h] at hrun
      cases hrun
    · intro hnone
      cases hnone
  · intro hnone
    cases hnone

theorem flags_setEventInterval {x : Ev} {msec : Int32} : (x.setEventInterval msec now).flags.running = x.flags.running ∧
      (x.flags.enabled = false → (x.setEventInterval msec now).flags.enabled = false) := by
  unfold Ev.setEventInterval
  split
  · rename_i hen
    refine ⟨rfl, fun hno => ?_⟩
    rw [hen] at hno
    cases hno
  · exact ⟨rfl, fun hno => hno⟩

theorem call_waiting (h : s.call now op = some s') (he : s.Waiting e) : s'.Waiting e := by
  by_cases ht : op.target = some e
  · have hon : ∀ {f : Ev → Ev}, (∀ x : Ev, x.flags.running = false → (f x).flags.running = false) →
        s.on e f = some s' → s'.Waiting e := by
      intro f hf hb
      obtain ⟨hlt, rfl⟩ := on_eq_some hb
      refine ⟨hlt, ?_⟩
      rw [ev_modify, if_pos rfl]
      exact hf _ he.2
    cases op with
    | resched b t =>
      cases ht
      exact hon (f := fun x => x.resched t now) (fun _ hx => hx) h
    | remove b =>
      cases ht
      exact hon (fun _ _ => rfl) h
    | setInterval b msec =>
      cases ht
      exact hon (fun x hx => flags_setEventInterval.1.trans hx) h
    | setEnabled b enabled =>
      cases ht
      exact hon (f := fun x => x.setEventEnabled enabled) (fun _ hx => hx) h
    | addTimer | addAlarm | addFd | addAlways | exitLoop => cases ht
  · obtain ⟨hlt, hcore⟩ := call_core h he.1 ht
    refine ⟨hlt, ?_⟩
    rw [Ev.flags_of_core hcore]
    exact he.2

end Loop

/-- The step calls `resched_event` or `set_event_enabled` for the event. -/
def Move.Revives (e : Nat) (m : Move) : Prop := (∃ t, m = .call (.resched e t)) ∨ ∃ b, m = .call (.setEnabled e b)

namespace Loop

variable {s s' : Loop} {now : TimeRef} {op : Op} {a : Act} {e : Nat}

theorem call_quiet (h : s.call now op = some s') (he : s.Quiet e) (hrev : ¬ (Move.call op).Revives e) : s'.Quiet e := by
  refine ⟨call_waiting h he.1, ?_⟩
  by_cases ht : op.target = some e
  · have hon : ∀ {f : Ev → Ev}, (∀ x : Ev, x.flags.enabled = false → (f x).flags.enabled = false) →
        s.on e f = some s' → (s'.ev e).flags.enabled = false := by
      intro f hf hb
      obtain ⟨-, rfl⟩ := on_eq_some hb
      rw [ev_modify, if_pos rfl]
      exact hf _ he.2
    cases op with
    | resched b t =>
      cases ht
      exact absurd (.inl ⟨t, rfl⟩) hrev
    | remove b =>
      cases ht
      exact hon (fun _ _ => rfl) h
    | setInterval b msec =>
      cases ht
      exact hon (fun x hx => flags_setEventInterval.2 hx) h
    | setEnabled b enabled =>
      cases ht
      exact absurd (.inr ⟨enabled, rfl⟩) hrev
    | addTimer | addAlarm | addFd | addAlways | exitLoop => cases ht
  · rw [Ev.flags_of_core (call_core h he.1.1 ht).2]
    exact he.2

theorem ne_of_running {b : Nat} (he : s.Waiting e) (hb : (s.ev b).flags.running) : e ≠ b := by
  rintro rfl
  rw [he.2] at hb
  cases hb

theorem step_waiting (h : s.step a = some s') (ha : a.2 ≠ .startPass) (he : s.Waiting e) : s'.Waiting e := by
  cases step_cases h with
  | go => exact he
  | begins _ hm => exact absurd hm ha
  | @fires k b _ _ _ _ hrun =>
    refine ⟨he.1, ?_⟩
    rw [ev_modify, if_neg (ne_of_running he hrun)]
    exact he.2
  | ends _ _ hfinish =>
    obtain ⟨hfresh, hcore⟩ := finish_core hfinish
    exact ⟨Nat.lt_of_lt_of_eq he.1 hfresh.symm, (congrArg Flags.running (Ev.flags_of_core (hcore e))).trans he.2⟩
  | calls _ _ hcall => exact call_waiting hcall he

/-- **One step**: an event that is off stays off unless a call is for it. -/
theorem step_quiet (h : s.step a = some s') (hrev : ¬ a.2.Revives e) (he : s.Quiet e) : s'.Quiet e := by
  cases step_cases h with
  | go => exact he
  | @begins t _ _ _ hmark =>
    obtain ⟨hfresh, -, hev⟩ := markAll_ev hmark
    have hflags : (t.ev e).flags.running = false ∧ (t.ev e).flags.enabled = false := by
      rcases hev e with hb | hb
      · rw [hb]
        exact ⟨he.1.2, he.2⟩
      · rw [hb]
        exact ⟨he.2, he.2⟩
    exact ⟨⟨Nat.lt_of_lt_of_eq he.1.1 hfresh.symm, hflags.1⟩, hflags.2⟩
  | @fires k b _ _ _ _ hrun =>
    have hev : (s.modify b fun x => x.fired k a.1).ev e = s.ev e := by
      rw [ev_modify, if_neg (ne_of_running he.1 hrun)]
    refine ⟨⟨he.1.1, ?_⟩, ?_⟩
    · exact (congrArg (·.flags.running) hev).trans he.1.2
    · exact (congrArg (·.flags.enabled) hev).trans he.2
  | ends _ _ hfinish =>
    obtain ⟨hfresh, hcore⟩ := finish_core hfinish
    have hflags := Ev.flags_of_core (hcore e)
    exact ⟨⟨Nat.lt_of_lt_of_eq he.1.1 hfresh.symm, (congrArg Flags.running hflags).trans he.1.2⟩,
      (congrArg Flags.enabled hflags).trans he.2⟩
  | calls _ hm hcall =>
    rw [hm] at hrev
    exact call_quiet hcall he hrev

end Loop

end NuWicam.Event
