import NuWicam.Lib.Run
import NuWicam.Lib.Slots

/-!
# The frame exchanger

`deliver_frame` runs in the encoder thread (the slave) and `exchanger_read` in the event loop (the master). They share a ring
of slots under a mutex, and a pipe with one byte for each frame, which the master reads first. A step is what one thread does
up to the next point where the other could see it.
-/

namespace NuWicam.Rtsp

open Lib List Function

/-! ## The two threads -/

inductive Slave (F : Type*)
  | idle
  | lock (f : F)
  | test (f : F)
  | store (f : F)
  | write (f : F)
  | advance (f : F)
  | unlock
  | full (f : F)
  | unref (f : F)

inductive Master (F : Type*)
  | idle
  | lock
  | test
  | lost
  | unlock (f : F)
  | call (f : F)

/-- A `frame_exchanger` with its pipe and its two threads. -/
structure Exchanger (F : Type*) where
  slots : Nat
  slot : Nat → Option F
  masterRead : Nat
  slaveCur : Nat
  /-- the bytes in the pipe -/
  pipe : Nat
  mutex : Bool
  slave : Slave F
  master : Master F
  -- What has happened so far: the calls of `deliver_frame`, those past the test with the answer they return, the frames
  -- `unref_frame` was called on, those the callback got, and whether a frame was reported lost.
  calls : List F
  answers : List (F × Bool)
  released : List F
  delivered : List F
  lost : Bool

/-- Without a slot the cursors are not set, and the next line reads through one. -/
def newExchanger {F : Type*} (slots : Int) : Option (Exchanger F) :=
  if 0 < slots then
    some
      { slots := slots.toNat, slot := fun _ => none, masterRead := 0, slaveCur := 0, pipe := 0, mutex := false,
        slave := .idle, master := .idle, calls := [], answers := [], released := [], delivered := [], lost := false }
  else none

namespace Exchanger

variable {F : Type*}

/-- `slot->next` -/
def next (ex : Exchanger F) (k : Nat) : Nat := (k + 1) % ex.slots

/-- `deliver_frame`, one step of it. -/
def slaveStep (ex : Exchanger F) : Option (Exchanger F) :=
  match ex.slave with
  | .idle => none
  | .lock f => if ex.mutex then none else some { ex with mutex := true, slave := .test f }
  | .test f =>
    if ex.next ex.slaveCur = ex.masterRead then some { ex with slave := .full f, answers := ex.answers ++ [(f, false)] }
    else some { ex with slave := .store f, answers := ex.answers ++ [(f, true)] }
  | .store f => some { ex with slot := update ex.slot ex.slaveCur (some f), slave := .write f }
  | .write f => some { ex with pipe := ex.pipe + 1, slave := .advance f }
  | .advance _ => some { ex with slaveCur := ex.next ex.slaveCur, slave := .unlock }
  | .unlock => some { ex with mutex := false, slave := .idle }
  | .full f => some { ex with mutex := false, slave := .unref f }
  | .unref f => some { ex with released := ex.released ++ [f], slave := .idle }

/-- `exchanger_read`, one step of it. -/
def masterStep (ex : Exchanger F) : Option (Exchanger F) :=
  match ex.master with
  -- on an empty pipe the read fails with `EAGAIN`
  | .idle => if ex.pipe = 0 then some ex else some { ex with pipe := ex.pipe - 1, master := .lock }
  | .lock => if ex.mutex then none else some { ex with mutex := true, master := .test }
  | .test =>
    match ex.slot ex.masterRead with
    | none =>
      some { ex with
        slot := update ex.slot ex.masterRead none, masterRead := ex.slaveCur, lost := true, master := .lost }
    | some f =>
      some { ex with
        slot := update ex.slot ex.masterRead none, masterRead := ex.next ex.masterRead, master := .unlock f }
  | .lost => some { ex with mutex := false, master := .idle }
  | .unlock f => some { ex with mutex := false, master := .call f }
  | .call f => some { ex with delivered := ex.delivered ++ [f], master := .idle }

inductive Act (F : Type*)
  | deliverFrame (f : F)
  | slave
  | master

/-- `none` if the thread has to wait, or has nothing to go on with. -/
def step (ex : Exchanger F) : Act F → Option (Exchanger F)
  | .deliverFrame f =>
    match ex.slave with
    | .idle => some { ex with slave := .lock f, calls := ex.calls ++ [f] }
    | _ => none
  | .slave => ex.slaveStep
  | .master => ex.masterStep

/-- The slots from `master_read` up to `slave_cur`. -/
def queued (ex : Exchanger F) : List (Option F) := slotsBetween ex.slots ex.slot ex.masterRead ex.slaveCur

def answered (b : Bool) (answers : List (F × Bool)) : List F := (answers.filter (·.2 == b)).map (·.1)

def accepted (ex : Exchanger F) : List F := answered true ex.answers

def refused (ex : Exchanger F) : List F := answered false ex.answers

end Exchanger

/-! ## What each thread has in hand -/

namespace Slave

variable {F : Type*}

def inside : Slave F → Bool
  | .test _ | .store _ | .write _ | .advance _ | .unlock | .full _ => true
  | .idle | .lock _ | .unref _ => false

def deciding : Slave F → List F
  | .lock f | .test f => [f]
  | _ => []

def coming : Slave F → List F
  | .store f | .write f | .advance f => [f]
  | _ => []

def stored : Slave F → List F
  | .write f | .advance f => [f]
  | _ => []

def written : Slave F → Nat
  | .advance _ => 1
  | _ => 0

def releasing : Slave F → List F
  | .full f | .unref f => [f]
  | _ => []

def work : Slave F → Nat
  | .idle => 0
  | .lock _ => 11
  | .test _ => 10
  | .store _ => 9
  | .write _ => 8
  | .advance _ => 2
  | .unlock => 1
  | .full _ => 2
  | .unref _ => 1

theorem work_of_inside {sl : Slave F} (h : sl.inside) : 0 < sl.work := by
  cases sl <;> revert h <;> simp [inside, work]

end Slave

namespace Master

variable {F : Type*}

def inside : Master F → Bool
  | .test | .lost | .unlock _ => true
  | .idle | .lock | .call _ => false

def taken : Master F → Nat
  | .lock | .test => 1
  | _ => 0

def inHand : Master F → List F
  | .unlock f | .call f => [f]
  | _ => []

def work : Master F → Nat
  | .idle => 0
  | .lock => 4
  | .test => 3
  | .lost => 1
  | .unlock _ => 2
  | .call _ => 1

theorem work_of_inside {ma : Master F} (h : ma.inside) : 0 < ma.work := by
  cases ma <;> revert h <;> simp [inside, work]

end Master

namespace Exchanger

variable {F : Type*} {ex ex' : Exchanger F} {q : List F}

/-- **The hand-off**, with `q` the queued frames. -/
structure Inv (ex : Exchanger F) (q : List F) : Prop where
  ring : Slots ex.slots ex.slot ex.masterRead (q ++ ex.slave.stored)
  cur : ex.slaveCur = (ex.masterRead + q.length) % ex.slots
  room : q.length + ex.slave.coming.length < ex.slots
  mutex_eq : ex.mutex = (ex.slave.inside || ex.master.inside)
  apart : ex.slave.inside = false ∨ ex.master.inside = false
  bytes : q.length + ex.slave.written = ex.pipe + ex.master.taken
  order : ex.accepted = ex.delivered ++ ex.master.inHand ++ q ++ ex.slave.coming
  refused_eq : ex.refused = ex.released ++ ex.slave.releasing
  calls_eq : ex.calls = ex.answers.map (·.1) ++ ex.slave.deciding
  found : ex.lost = false

theorem inv_newExchanger {slots : Int} (hnew : newExchanger slots = some ex) : Inv ex [] := by
  unfold newExchanger at hnew
  split at hnew
  · next hpos =>
    cases hnew
    have hslots : 0 < slots.toNat := by omega
    exact ⟨Slots.empty hslots, (Nat.mod_eq_of_lt hslots).symm, hslots, rfl, .inl rfl, rfl, rfl, rfl, rfl, rfl⟩
  · cases hnew

theorem Inv.master_outside (h : Inv ex q) (hin : ex.slave.inside) : ex.master.inside = false :=
  h.apart.resolve_left (by simp [hin])

theorem Inv.slave_outside (h : Inv ex q) (hin : ex.master.inside) : ex.slave.inside = false :=
  h.apart.resolve_right (by simp [hin])

theorem Inv.both_outside (h : Inv ex q) (hfree : ex.mutex = false) : ex.slave.inside = false ∧ ex.master.inside = false := by
  rw [h.mutex_eq, Bool.or_eq_false_iff] at hfree
  exact hfree

theorem Inv.deliverFrame {f : F} (h : Inv ex q) (hs : ex.step (.deliverFrame f) = some ex') : Inv ex' q := by
  obtain ⟨n, slot, r, c, p, m, sl, ma, calls, answers, released, delivered, lost⟩ := ex
  cases sl with
  | idle =>
    cases hs
    have hcalls : calls = answers.map (·.1) ++ [] := h.calls_eq
    exact { h with calls_eq := by rw [hcalls, append_nil]; rfl }
  | _ => cases hs

theorem answered_snoc (b b' : Bool) (answers : List (F × Bool)) (f : F) :
    answered b (answers ++ [(f, b')]) = answered b answers ++ if b' == b then [f] else [] := by
  cases b <;> cases b' <;> simp [answered]

theorem Inv.refuse {f : F} (h : Inv ex q) (htest : ex.slave = .test f) :
    Inv { ex with slave := .full f, answers := ex.answers ++ [(f, false)] } q := by
  obtain ⟨n, slot, r, c, p, m, sl, ma, calls, answers, released, delivered, lost⟩ := ex
  cases htest
  have horder : answered true answers = delivered ++ ma.inHand ++ q ++ [] := h.order
  have hrefused : answered false answers = released ++ [] := h.refused_eq
  have hcalls : calls = answers.map (·.1) ++ [f] := h.calls_eq
  refine { h with order := ?_, refused_eq := ?_, calls_eq := ?_ }
  · refine (answered_snoc true false answers f).trans ?_
    simp [horder, Slave.coming]
  · refine (answered_snoc false false answers f).trans ?_
    simp [hrefused, Slave.releasing]
  · simpa [Slave.deciding] using hcalls

theorem Inv.accept {f : F} (h : Inv ex q) (htest : ex.slave = .test f) (hnext : ex.next ex.slaveCur ≠ ex.masterRead) :
    Inv { ex with slave := .store f, answers := ex.answers ++ [(f, true)] } q := by
  obtain ⟨n, slot, r, c, p, m, sl, ma, calls, answers, released, delivered, lost⟩ := ex
  cases htest
  have horder : answered true answers = delivered ++ ma.inHand ++ q ++ [] := h.order
  have hrefused : answered false answers = released ++ [] := h.refused_eq
  have hcalls : calls = answers.map (·.1) ++ [f] := h.calls_eq
  have hlt : q.length + 0 < n := h.room
  have hring : Slots n slot r (q ++ []) := h.ring
  rw [append_nil] at hring
  have hroom : q.length + 1 ≠ n := by
    intro heq
    refine hnext ?_
    rw [h.cur]
    exact (hring.next_eq_iff hlt).2 heq
  refine { h with room := ?_, order := ?_, refused_eq := ?_, calls_eq := ?_ }
  · change q.length + 1 < n
    omega
  · refine (answered_snoc true true answers f).trans ?_
    simp [horder, Slave.coming]
  · refine (answered_snoc false true answers f).trans ?_
    simp [hrefused, Slave.releasing]
  · simpa [Slave.deciding] using hcalls

theorem Inv.store {f : F} (h : Inv ex q) (hstore : ex.slave = .store f) :
    Inv { ex with slot := update ex.slot ex.slaveCur (some f), slave := .write f } q := by
  obtain ⟨n, slot, r, c, p, m, sl, ma, calls, answers, released, delivered, lost⟩ := ex
  cases hstore
  have hring : Slots n slot r (q ++ []) := h.ring
  have hroom : q.length + 1 < n := h.room
  have hcur : c = (r + q.length) % n := h.cur
  rw [append_nil] at hring
  refine { h with ring := ?_ }
  rw [hcur]
  exact hring.push (by omega) f

theorem Inv.advance {f : F} (h : Inv ex q) (hadvance : ex.slave = .advance f) :
    Inv { ex with slaveCur := ex.next ex.slaveCur, slave := .unlock } (q ++ [f]) := by
  obtain ⟨n, slot, r, c, p, m, sl, ma, calls, answers, released, delivered, lost⟩ := ex
  cases hadvance
  have hroom : q.length + 1 < n := h.room
  have hcur : c = (r + q.length) % n := h.cur
  refine { h with ring := ?_, cur := ?_, room := ?_, bytes := ?_, order := ?_ }
  · simpa [Slave.stored] using h.ring
  · change (c + 1) % n = (r + (q ++ [f]).length) % n
    rw [hcur, Slots.cursor_push, length_append, length_singleton]
  · simpa [Slave.coming] using hroom
  · simpa [Slave.written] using h.bytes
  · change _ = _ ++ (q ++ [f]) ++ []
    rw [append_nil, ← append_assoc]
    exact h.order

/-- **One step of the encoder thread.** -/
theorem Inv.slaveStep (h : Inv ex q) (hs : ex.slaveStep = some ex') : ∃ q', Inv ex' q' := by
  obtain ⟨n, slot, r, c, p, m, sl, ma, calls, answers, released, delivered, lost⟩ := ex
  cases sl with
  | idle => cases hs
  | lock f =>
    cases m with
    | true => cases hs
    | false =>
      cases hs
      exact ⟨q, { h with mutex_eq := rfl, apart := .inr (h.both_outside rfl).2 }⟩
  | test f =>
    simp only [Exchanger.slaveStep] at hs
    split at hs
    · cases hs
      exact ⟨q, h.refuse rfl⟩
    · next hnext =>
      cases hs
      exact ⟨q, h.accept rfl hnext⟩
  | store f =>
    cases hs
    exact ⟨q, h.store rfl⟩
  | write f =>
    cases hs
    have hbytes : q.length + 0 = p + ma.taken := h.bytes
    refine ⟨q, { h with bytes := ?_ }⟩
    change q.length + 1 = p + 1 + ma.taken
    omega
  | advance f =>
    cases hs
    exact ⟨q ++ [f], h.advance rfl⟩
  | unlock =>
    cases hs
    exact ⟨q, { h with mutex_eq := (h.master_outside rfl).symm, apart := .inl rfl }⟩
  | full f =>
    cases hs
    exact ⟨q, { h with mutex_eq := (h.master_outside rfl).symm, apart := .inl rfl }⟩
  | unref f =>
    cases hs
    refine ⟨q, { h with refused_eq := ?_ }⟩
    change _ = released ++ [f] ++ []
    rw [append_nil]
    exact h.refused_eq

theorem Inv.queue_of_test (h : Inv ex q) (htest : ex.master = .test) :
    ∃ f q', q = f :: q' ∧ ex.slot ex.masterRead = some f := by
  have hout : ex.slave.inside = false := h.slave_outside (by rw [htest]; rfl)
  have hwritten : ex.slave.written = 0 := by
    cases hslave : ex.slave with
    | advance f =>
      rw [hslave] at hout
      cases hout
    | _ => rfl
  have hbytes := h.bytes
  rw [htest, hwritten] at hbytes
  obtain ⟨f, q', rfl⟩ : ∃ f q', q = f :: q' :=
    exists_cons_of_length_pos (Nat.lt_of_lt_of_eq (Nat.succ_pos _) hbytes.symm)
  exact ⟨f, q', rfl, h.ring.head⟩

theorem Inv.take {f : F} (h : Inv ex (f :: q)) (htest : ex.master = .test) : Inv { ex with
      slot := update ex.slot ex.masterRead none, masterRead := ex.next ex.masterRead,
      master := .unlock f } q := by
  obtain ⟨n, slot, r, c, p, m, sl, ma, calls, answers, released, delivered, lost⟩ := ex
  cases htest
  have hring : Slots n slot r (f :: (q ++ sl.stored)) := h.ring
  have hcur : c = (r + (q.length + 1)) % n := h.cur
  have hroom : q.length + 1 + sl.coming.length < n := h.room
  have hbytes : q.length + 1 + sl.written = p + 1 := h.bytes
  refine { h with ring := hring.pop, cur := ?_, room := ?_, bytes := ?_, order := ?_ }
  · change c = ((r + 1) % n + q.length) % n
    rw [Slots.cursor_pop]
    exact hcur
  · change q.length + sl.coming.length < n
    omega
  · change q.length + sl.written = p + 0
    omega
  · refine h.order.trans ?_
    simp [Master.inHand]

/-- **One step of the event loop.** -/
theorem Inv.masterStep (h : Inv ex q) (hs : ex.masterStep = some ex') : ∃ q', Inv ex' q' := by
  have htest := h.queue_of_test
  obtain ⟨n, slot, r, c, p, m, sl, ma, calls, answers, released, delivered, lost⟩ := ex
  cases ma with
  | idle =>
    simp only [Exchanger.masterStep] at hs
    split at hs
    · cases hs
      exact ⟨q, h⟩
    · next hpipe =>
      cases hs
      refine ⟨q, { h with bytes := h.bytes.trans ?_ }⟩
      exact (Nat.succ_pred_eq_of_ne_zero hpipe).symm
  | lock =>
    cases m with
    | true => cases hs
    | false =>
      cases hs
      exact ⟨q, { h with mutex_eq := (Bool.or_true _).symm, apart := .inl (h.both_outside rfl).1 }⟩
  | test =>
    obtain ⟨f, q, rfl, hhead⟩ := htest rfl
    dsimp only at hhead
    simp only [Exchanger.masterStep, hhead] at hs
    cases hs
    exact ⟨q, h.take rfl⟩
  | lost =>
    cases hs
    have hout : sl.inside = false := h.slave_outside rfl
    exact ⟨q, { h with mutex_eq := by rw [hout]; rfl, apart := .inl hout }⟩
  | unlock f =>
    cases hs
    have hout : sl.inside = false := h.slave_outside rfl
    exact ⟨q, { h with mutex_eq := by rw [hout]; rfl, apart := .inl hout }⟩
  | call f =>
    cases hs
    refine ⟨q, { h with order := h.order.trans ?_ }⟩
    simp [Master.inHand]

/-- **Every step of every interleaving keeps the hand-off.** -/
theorem Inv.step {a : Act F} (h : Inv ex q) (hs : ex.step a = some ex') : ∃ q', Inv ex' q' := by
  cases a with
  | deliverFrame f => exact ⟨q, h.deliverFrame hs⟩
  | slave => exact h.slaveStep hs
  | master => exact h.masterStep hs

/-! ## Every frame gets through -/

def work (ex : Exchanger F) : Nat := ex.slave.work + ex.master.work + 5 * ex.pipe

theorem slaveStep_work (hs : ex.slaveStep = some ex') : ex'.work < ex.work := by
  obtain ⟨n, slot, r, c, p, m, sl, ma, calls, answers, released, delivered, lost⟩ := ex
  cases sl with
  | idle => cases hs
  | lock f =>
    cases m <;> cases hs
    simp [work, Slave.work]
  | test f =>
    simp only [slaveStep] at hs
    split at hs <;> cases hs <;> simp [work, Slave.work]
  | write f =>
    cases hs
    simp only [work, Slave.work]
    omega
  | _ =>
    cases hs
    simp [work, Slave.work]

theorem masterStep_work (hs : ex.masterStep = some ex') (hbusy : 0 < ex.master.work + ex.pipe) : ex'.work < ex.work := by
  obtain ⟨n, slot, r, c, p, m, sl, ma, calls, answers, released, delivered, lost⟩ := ex
  cases ma with
  | idle =>
    simp only [masterStep] at hs
    split at hs
    · next hpipe => simp [hpipe, Master.work] at hbusy
    · cases hs
      simp only [work, Master.work]
      omega
  | lock =>
    cases m <;> cases hs
    simp [work, Master.work]
  | test =>
    simp only [masterStep] at hs
    split at hs <;> cases hs <;> simp [work, Master.work]
  | _ =>
    cases hs
    simp [work, Master.work]

theorem slave_goes (hbusy : 0 < ex.slave.work) (hfree : ex.mutex = false ∨ ex.slave.inside) :
    ∃ ex', ex.slaveStep = some ex' := by
  unfold slaveStep
  cases hslave : ex.slave with
  | idle => simp [hslave, Slave.work] at hbusy
  | lock f =>
    have hmutex : ex.mutex = false := by simpa [hslave, Slave.inside] using hfree
    simp [hmutex]
  | test f => dsimp only; split <;> exact ⟨_, rfl⟩
  | _ => exact ⟨_, rfl⟩

theorem master_goes (hfree : ex.mutex = false ∨ ex.master.inside) : ∃ ex', ex.masterStep = some ex' := by
  unfold masterStep
  cases hmaster : ex.master with
  | idle => dsimp only; split <;> exact ⟨_, rfl⟩
  | lock =>
    have hmutex : ex.mutex = false := by simpa [hmaster, Master.inside] using hfree
    simp [hmutex]
  | test => dsimp only; split <;> exact ⟨_, rfl⟩
  | _ => exact ⟨_, rfl⟩

theorem Inv.goes_on (h : Inv ex q) (hbusy : 0 < ex.work) :
    ∃ a ex', (a = .slave ∨ a = .master) ∧ ex.step a = some ex' ∧ ex'.work < ex.work := by
  have hslave : ∀ ex', ex.slaveStep = some ex' →
      ∃ a ex', (a = .slave ∨ a = .master) ∧ ex.step a = some ex' ∧ ex'.work < ex.work :=
    fun ex' hs => ⟨.slave, ex', .inl rfl, hs, slaveStep_work hs⟩
  have hmaster : ∀ ex', ex.masterStep = some ex' → 0 < ex.master.work + ex.pipe →
      ∃ a ex', (a = .slave ∨ a = .master) ∧ ex.step a = some ex' ∧ ex'.work < ex.work :=
    fun ex' hs hb => ⟨.master, ex', .inr rfl, hs, masterStep_work hs hb⟩
  cases hm : ex.master.inside with
  | true =>
    obtain ⟨ex', hs⟩ := master_goes (.inr hm)
    exact hmaster ex' hs (Nat.add_pos_left (Master.work_of_inside hm) _)
  | false =>
    have hfree : ex.mutex = false ∨ ex.slave.inside := by
      rw [h.mutex_eq, hm, Bool.or_false]
      cases ex.slave.inside <;> simp
    by_cases hw : 0 < ex.slave.work
    · obtain ⟨ex', hs⟩ := slave_goes hw hfree
      exact hslave ex' hs
    · have hmutex : ex.mutex = false := hfree.resolve_right fun hin => hw (Slave.work_of_inside hin)
      obtain ⟨ex', hs⟩ := master_goes (.inl hmutex)
      refine hmaster ex' hs ?_
      unfold work at hbusy
      omega

theorem step_answers {a : Act F} (hs : ex.step a = some ex') : ex.answers <+: ex'.answers := by
  obtain ⟨n, slot, r, c, p, m, sl, ma, calls, answers, released, delivered, lost⟩ := ex
  cases a with
  | deliverFrame f =>
    cases sl <;> cases hs
    exact prefix_rfl
  | slave =>
    cases sl with
    | lock f =>
      cases m <;> cases hs
      exact prefix_rfl
    | test f =>
      simp only [step, slaveStep] at hs
      split at hs <;> cases hs <;> exact prefix_append _ _
    | _ => cases hs <;> exact prefix_rfl
  | master =>
    simp only [step, masterStep] at hs
    repeat' split at hs
    all_goals cases hs <;> exact prefix_rfl

theorem Inv.idle_of_work (h : Inv ex q) (hdone : ex.work = 0) : q = [] ∧ ex.slave = .idle ∧ ex.master = .idle := by
  unfold work at hdone
  have hslave : ex.slave = .idle := by
    cases hs : ex.slave <;> simp [hs, Slave.work] at hdone ⊢
  have hmaster : ex.master = .idle := by
    cases hm : ex.master <;> simp [hm, Master.work] at hdone ⊢
  have hbytes := h.bytes
  rw [hslave, hmaster] at hbytes
  refine ⟨eq_nil_of_length_eq_zero ?_, hslave, hmaster⟩
  change q.length + 0 = ex.pipe + 0 at hbytes
  omega

/-- **The two threads get every frame through.** -/
theorem Inv.drains (h : Inv ex q) : ∃ acts ex', (∀ a ∈ acts, a = .slave ∨ a = .master) ∧ run Exchanger.step ex acts = some ex' ∧
      ex.answers <+: ex'.answers ∧ ex'.calls = ex'.answers.map (·.1) ∧
      ex'.delivered = ex'.accepted ∧ ex'.released = ex'.refused := by
  -- by induction on the work that is left
  generalize hk : ex.work = k
  induction k using Nat.strongRecOn generalizing ex q with
  | _ k ih =>
    rcases Nat.eq_zero_or_pos k with hzero | hpos
    · obtain ⟨rfl, hslave, hmaster⟩ := h.idle_of_work (hk.trans hzero)
      refine ⟨[], ex, fun _ ha => absurd ha not_mem_nil, rfl, prefix_rfl, ?_, ?_, ?_⟩
      · rw [h.calls_eq, hslave]
        exact append_nil _
      · rw [h.order, hslave, hmaster]
        simp [Slave.coming, Master.inHand]
      · rw [h.refused_eq, hslave]
        exact (append_nil _).symm
    · obtain ⟨a, ex₁, ha, hs, hlt⟩ := h.goes_on (hk ▸ hpos)
      obtain ⟨q₁, h₁⟩ := h.step hs
      obtain ⟨acts, ex', hacts, hrun, hans, hrest⟩ := ih ex₁.work (hk ▸ hlt) h₁ rfl
      refine ⟨a :: acts, ex', forall_mem_cons.2 ⟨ha, hacts⟩, ?_, (step_answers hs).trans hans, hrest⟩
      rw [run, hs]
      exact hrun

/-! ## What holds in every interleaving -/

theorem step_slots {a : Act F} (hs : ex.step a = some ex') : ex'.slots = ex.slots := by
  cases a with
  | deliverFrame f =>
    simp only [step] at hs
    split at hs <;> cases hs
    rfl
  | slave =>
    simp only [step, slaveStep] at hs
    repeat' split at hs
    all_goals cases hs <;> rfl
  | master =>
    simp only [step, masterStep] at hs
    repeat' split at hs
    all_goals cases hs <;> rfl

/-- **What the exchanger is for**, with `q` the queued frames. -/
structure HandsOver (ex : Exchanger F) (q : List F) : Prop where
  /-- the slots between the cursors are the queued frames -/
  queued_eq : ex.queued = q.map some
  /-- no other slot has a frame, but for the one that is being queued -/
  ring : Slots ex.slots ex.slot ex.masterRead (q ++ ex.slave.stored)
  /-- one byte for each of them, in the pipe or read ahead of the lock -/
  bytes : q.length + ex.slave.written = ex.pipe + ex.master.taken
  length_lt : q.length < ex.slots
  /-- the callback gets the accepted frames in the order of the calls, each once -/
  order : ex.accepted = ex.delivered ++ ex.master.inHand ++ q ++ ex.slave.coming
  /-- the refused frames are released -/
  refused_eq : ex.refused = ex.released ++ ex.slave.releasing
  /-- every call is accepted or refused -/
  calls_eq : ex.calls = ex.answers.map (·.1) ++ ex.slave.deciding
  found : ex.lost = false
  /-- the threads can go on until every accepted frame is delivered and every refused one is released -/
  drains : ∃ acts ex', (∀ a ∈ acts, a = .slave ∨ a = .master) ∧ run step ex acts = some ex' ∧
    ex.answers <+: ex'.answers ∧ ex'.calls = ex'.answers.map (·.1) ∧
    ex'.delivered = ex'.accepted ∧ ex'.released = ex'.refused

theorem Inv.handsOver (h : Inv ex q) : HandsOver ex q where
  queued_eq := by
    rw [queued, h.cur]
    exact h.ring.slotsBetween_eq (Nat.lt_of_le_of_lt (Nat.le_add_right _ _) h.room)
  ring := h.ring
  bytes := h.bytes
  length_lt := Nat.lt_of_le_of_lt (Nat.le_add_right _ _) h.room
  order := h.order
  refused_eq := h.refused_eq
  calls_eq := h.calls_eq
  found := h.found
  drains := h.drains

end Exchanger

/-- **The hand-off holds** at every point of every interleaving, for every number of slots. -/
theorem exchanger_hands_over {F : Type*} (slots : Int) {ex : Exchanger F} (hnew : newExchanger slots = some ex)
    (acts : List (Exchanger.Act F)) : Always Exchanger.step (fun ex => ex.slots = slots ∧ ∃ q, ex.HandsOver q) ex acts := by
  have hslots : ex.slots = slots := by
    unfold newExchanger at hnew
    split at hnew <;> cases hnew
    exact Int.toNat_of_nonneg (by omega)
  have hinv : Always Exchanger.step (fun ex => ex.slots = slots ∧ ∃ q, ex.Inv q) ex acts :=
    always_of_step (fun s a s' ⟨hs, q, hq⟩ hstep => ⟨by rw [Exchanger.step_slots hstep, hs], hq.step hstep⟩)
      ⟨hslots, [], Exchanger.inv_newExchanger hnew⟩
  exact hinv.mono fun s ⟨hs, q, hq⟩ => ⟨hs, q, hq.handsOver⟩

theorem exchanger_hands_over_two_slots : ∃ ex : Exchanger Nat, newExchanger 2 = some ex ∧
    let acts := [.deliverFrame 7, .slave, .slave, .slave, .slave, .slave, .slave,
      .deliverFrame 8, .slave, .slave, .slave, .slave, .master, .master, .master, .master, .master]
    Always Exchanger.step (fun ex => (ex.slots : Int) = 2 ∧ ∃ q, ex.HandsOver q) ex acts ∧
    (run Exchanger.step ex acts).map (fun ex => (ex.delivered, ex.refused, ex.released)) = some ([7], [8], [8]) :=
  ⟨_, rfl, exchanger_hands_over 2 rfl _, by decide⟩

theorem byte_read_before_frame : ∃ ex : Exchanger Nat, newExchanger 2 = some ex ∧
    ¬ Always Exchanger.step (fun ex => ex.queued.length = ex.pipe) ex
      [.deliverFrame 7, .slave, .slave, .slave, .slave, .slave, .slave, .master] :=
  ⟨_, rfl, fun h => absurd (h.last rfl) (by decide)⟩

end NuWicam.Rtsp
