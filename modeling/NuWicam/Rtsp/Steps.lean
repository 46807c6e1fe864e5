import NuWicam.Rtsp.Requests

/-!
# What an event does to the server

`step_effect`: the changes of the memory that an event makes, and what it sends; `step_enabled`: an event that can happen is
handled without a fault; `always_wf`: the memory is well-formed in every state of every run.
-/

namespace NuWicam.Rtsp

open Lib Option

variable {md5 : Md5} {locs : List RtspLocation} {st st' : State} {ev : Event}

section

variable (md5 locs st)

inductive StepEffect : Event → State → Prop
  | accept {c st'} : OpStep st.heap (.accept c) st'.heap → st'.sent = st.sent → StepEffect (.accept c) st'
  | request {c m env r st'} : Effect md5 locs st.srv m env st'.heap r → st'.sent = st.sent ++ [.reply c r] →
      StepEffect (.request c m env) st'
  | drop {c ops st'} : Ops st.heap ops st'.heap → (∀ op ∈ ops, op.removes = true) → st'.sent = st.sent →
      StepEffect (.drop c) st'
  | fail {e ops st'} : Ops st.heap ops st'.heap → (∀ op ∈ ops, op.removes = true) → st'.sent = st.sent →
      StepEffect (.fail e) st'
  | idle {b t accepted fails} : ((st.heap.source b).track t).waiting = false →
      StepEffect (.frame b t accepted fails) st
  | frame {b t accepted fails ops st'} : ((st.heap.source b).track t).waiting = true → Ops st.heap ops st'.heap →
      (∀ op ∈ ops, op = .ready b t ∨ op.removes = true) →
      st'.sent = st.sent ++ (if accepted then (st.heap.source b).sessList.filterMap (st.heap.receiver t) else []).map
        (.rtp b t) → StepEffect (.frame b t accepted fails) st'

end

/-- Blocks are new or exist, and the URI of a request fits into the buffers. -/
def Enabled (h : Heap) : Event → Prop
  | .accept c => h.conn.fresh c = true
  | .request c m env => (∃ method uri, m.sl = .req method uri) ∧ (h.conn c).isSome ∧ env.Fresh h ∧ Fits m
  | .drop c => (h.conn c).isSome
  | .fail e => (h.ep e).isSome
  | .frame _ _ _ _ => True

/-- **One event** does one of the effects. -/
theorem step_effect (hw : st.heap.Wf) (hs : step md5 locs st ev = some st') : StepEffect md5 locs st ev st' := by
  cases ev with
  | accept c =>
    simp only [step, map_eq_some_iff] at hs
    obtain ⟨h', ho, rfl⟩ := hs
    exact .accept (.accept ho) rfl
  | request c m env =>
    simp only [step] at hs
    split at hs
    · rename_i cn _ hc
      simp only [map_eq_some_iff] at hs
      obtain ⟨x, hx, rfl⟩ := hs
      have hspec : (rtspHandleMsg md5 locs st.srv c m env).Spec _ (Effect md5 locs st.srv m env) :=
        rtspHandleMsg_spec hw (isSome_of_mem hc)
      rw [hx] at hspec
      exact .request hspec rfl
    · cases hs
  | drop c =>
    simp only [step, map_eq_some_iff] at hs
    obtain ⟨h', ho, rfl⟩ := hs
    have hc : (st.heap.conn c).isSome := by
      cases hcn : st.heap.conn c with
      | none => simp [dropConn, hcn] at ho
      | some cn => rfl
    obtain ⟨h₁, ops, hrun, hops, hall, -⟩ := dropConn_spec hw hc
    cases ho.symm.trans hrun
    exact .drop hops hall rfl
  | fail e =>
    simp only [step, map_eq_some_iff, bind_eq_some_iff] at hs
    obtain ⟨p, hp, h', ho, rfl⟩ := hs
    obtain ⟨x, t, hx, -⟩ := hw.sess_of_ep hp
    obtain ⟨h₁, hrun, hlo, -⟩ := liveTeardown_spec hw hx (some e)
    cases ho.symm.trans hrun
    obtain ⟨ops, hops, hall⟩ := hlo.ops
    exact .fail hops hall rfl
  | frame b t accepted fails =>
    simp only [step] at hs
    split at hs
    · rename_i hwait
      simp only [map_eq_some_iff] at hs
      obtain ⟨x, hx, rfl⟩ := hs
      obtain ⟨h', ops, hrun, hops, hall⟩ := nextLiveFrame_spec hw b t accepted fails
      cases hx.symm.trans hrun
      exact .frame hwait hops hall rfl
    · rename_i hwait
      cases hs
      exact .idle (Bool.eq_false_iff.mpr hwait)

/-- **No fault**: in a well-formed memory every event is handled to its end. -/
theorem step_enabled (hw : st.heap.Wf) (he : Enabled st.heap ev) : ∃ st', step md5 locs st ev = some st' := by
  cases ev with
  | accept c =>
    have hc : st.heap.conn.fresh c := he
    simp [step, doAccept, hc]
  | request c m env =>
    obtain ⟨⟨method, uri, hsl⟩, hc, hfresh, hfits⟩ := he
    obtain ⟨cn, hcn⟩ := isSome_iff_exists.mp hc
    have hspec : (rtspHandleMsg md5 locs st.srv c m env).Spec _ (Effect md5 locs st.srv m env) :=
      rtspHandleMsg_spec hw hc
    cases hx : rtspHandleMsg md5 locs st.srv c m env with
    | none =>
      rw [hx] at hspec
      exact (hspec ⟨hfresh, hfits⟩).elim
    | some x => simp [step, hsl, hcn, hx]
  | drop c =>
    obtain ⟨h', _, hrun, -⟩ := dropConn_spec hw he
    simp [step, hrun]
  | fail e =>
    obtain ⟨p, hp⟩ := isSome_iff_exists.mp he
    obtain ⟨x, t, hx, -⟩ := hw.sess_of_ep hp
    obtain ⟨h', hrun, -⟩ := liveTeardown_spec hw hx (some e)
    simp [step, hp, hrun]
  | frame b t accepted fails =>
    obtain ⟨h', ops, hrun, -⟩ := nextLiveFrame_spec hw b t accepted fails
    by_cases hwait : ((st.heap.source b).track t).waiting
    · simp [step, hwait, hrun]
    · simp [step, hwait]

/-! ## Whole runs -/

def playOf (st : State) : Event → Option Addr
  | .request _ m _ => playTarget st.srv m
  | _ => none

def SetsUp (m : Pmsg) (h' : Heap) (r : Reply) (s : Addr) : Prop :=
  methodOf m = .setup ∧ r.resp.code = 200 ∧ ∃ w, h'.view s = some w ∧ w.ctl.isSome

theorem Clean.ops {srv : Server} {m : Pmsg} {env : Env} {h' : Heap} {r : Reply} (hw : srv.heap.Wf)
    (hc : Clean md5 locs srv m env h' r) :
    ∃ ops, Ops srv.heap ops h' ∧ ∀ op ∈ ops, op.plays = false ∧ ∀ s ∈ op.opens, h'.view s = none ∨ SetsUp m h' r s := by
  have hnone : ∀ s ∈ (none : Option Addr), h'.view s = none ∨ SetsUp m h' r s := fun s hs => by cases hs
  have hquiet : ∀ {ops : List Op}, (∀ op ∈ ops, op.removes) →
      ∀ op ∈ ops, op.plays = false ∧ ∀ s ∈ op.opens, h'.view s = none ∨ SetsUp m h' r s := fun hall op hop => by
    rw [Op.opens_of_removes (hall op hop)]
    exact ⟨Op.plays_of_removes (hall op hop), hnone⟩
  cases hc with
  | same => exact ⟨_, .nil _, by simp⟩
  | brief _ _ ho hl hgone =>
    obtain ⟨ops, hops, hall⟩ := hl.ops
    refine ⟨_, .cons ho hops, List.forall_mem_cons.mpr ⟨⟨rfl, ?_⟩, hquiet hall⟩⟩
    rintro s ⟨⟩
    exact .inl (view_none hgone)
  | refused _ _ ho hs hl hgone =>
    obtain ⟨ops, hops, hall⟩ := hl.ops
    refine ⟨_, .cons ho (.cons hs hops), List.forall_mem_cons.mpr ⟨⟨rfl, ?_⟩,
      List.forall_mem_cons.mpr ⟨⟨rfl, hnone⟩, hquiet hall⟩⟩⟩
    rintro s ⟨⟩
    exact .inl (view_none hgone)
  | @setup loc t h₁ h₂ h₃ _ _ hset _ ho hs hc hb _ hcode =>
    have hw₁ := ho.wf hw
    have hw₂ := hs.wf hw₁
    have hv : h'.view env.sess = some ⟨env.live, loc.source, false, Function.update (fun _ => none) t (some env.ep),
        some env.rtsp⟩ := by
      rw [hb.view (hc.wf hw₂), hc.view hw₂, hs.view hw₁, ho.view hw]
      simp [Op.onView, Table.modify]
    refine ⟨_, .cons ho (.cons hs (.cons hc (.single hb))), List.forall_mem_cons.mpr ⟨⟨rfl, ?_⟩, ?_⟩⟩
    · rintro s ⟨⟩
      exact .inr ⟨hset.method, hcode, _, hv, rfl⟩
    · simp [Op.plays, Op.opens]
  | join _ _ hs hc =>
    refine ⟨_, .cons hs (.single hc), ?_⟩
    simp [Op.plays, Op.opens]
  | joinRefused _ _ hs hl =>
    obtain ⟨ops, hops, hall⟩ := hl.ops
    exact ⟨_, .cons hs hops, List.forall_mem_cons.mpr ⟨⟨rfl, hnone⟩, hquiet hall⟩⟩
  | teardown _ _ hl =>
    obtain ⟨ops, hops, hall⟩ := hl.ops
    exact ⟨_, hops, hquiet hall⟩

theorem step_ops (hw : st.heap.Wf) (hs : step md5 locs st ev = some st') :
    (playOf st ev = none ∧ ∃ ops, Ops st.heap ops st'.heap ∧ ∀ op ∈ ops, op.plays = false) ∨
      ∃ s, playOf st ev = some s ∧ OpStep st.heap (.play s) st'.heap := by
  have hquiet : ∀ {ops : List Op}, (∀ op ∈ ops, op.removes) → ∀ op ∈ ops, op.plays = false :=
    fun hall op hop => Op.plays_of_removes (hall op hop)
  cases step_effect hw hs with
  | accept ho => exact .inl ⟨rfl, _, .single ho, List.forall_mem_singleton.mpr rfl⟩
  | request he =>
    cases he with
    | leak hl _ ho _ =>
      refine .inl ⟨if_neg ?_, _, .single ho, List.forall_mem_singleton.mpr rfl⟩
      rw [hl.1]
      exact nofun
    | play hp ho _ => exact .inr ⟨_, hp, ho⟩
    | clean _ hp hc =>
      obtain ⟨ops, hops, hall⟩ := hc.ops hw
      exact .inl ⟨hp, ops, hops, fun op hop => (hall op hop).1⟩
  | drop hops hall => exact .inl ⟨rfl, _, hops, hquiet hall⟩
  | fail hops hall => exact .inl ⟨rfl, _, hops, hquiet hall⟩
  | idle => exact .inl ⟨rfl, _, .nil _, by simp⟩
  | frame _ hops hall =>
    refine .inl ⟨rfl, _, hops, fun op hop => ?_⟩
    rcases hall op hop with rfl | hr
    · rfl
    · exact Op.plays_of_removes hr

theorem step_wf (hw : st.heap.Wf) (hs : step md5 locs st ev = some st') : st'.heap.Wf := by
  rcases step_ops hw hs with ⟨-, ops, hops, -⟩ | ⟨s, -, ho⟩
  · exact hops.wf hw
  · exact ho.wf hw

/-- **The memory is well-formed in every state of every run.** -/
theorem always_wf (blocks : SourceId → List Directive) (evs : List Event) :
    Always (step md5 locs) (fun st => st.heap.Wf) (State.start blocks) evs :=
  always_of_step (fun _ _ _ hw hs => step_wf hw hs) (startHeap_wf blocks)

/-! ## A camera with one source -/

namespace Camera

def blocks (n : Int) (b : SourceId) : List Directive :=
  if b = 0 then [.track (some ⟨fun _ _ => [], none⟩), .conn n] else []

def location (realm : Str) : RtspLocation := ⟨bytes "/live", fun _ => 0, realm, [], [], 0⟩

def env (n : UInt32) : Env where
  now := 0
  later := 0
  live := 4 * n
  sess := 4 * n + 1
  ep := 4 * n + 2
  rtsp := 4 * n + 3
  secretBytes := List.replicate 8 0
  nonceBytes := List.replicate 12 0
  idBytes := List.replicate 15 n.toUInt8
  udp := some (bytes "IP4 10.0.0.2", 5000, 50000)

def request (n : UInt32) (method uri : String) (fields : List (Str × Str)) : Event :=
  .request 1 ⟨.req (bytes method) (bytes uri), bytes "RTSP/1.0", fields⟩ (env n)

def setup (n : UInt32) : Event :=
  request n "SETUP" "rtsp://c/live/track0" [(bytes "Transport", bytes "RTP/AVP;client_port=5000")]

def play (n : UInt32) : Event :=
  request n "PLAY" "rtsp://c/live" [(bytes "Session", hexBytesUpper (List.replicate 15 n.toUInt8))]

end Camera

end NuWicam.Rtsp
