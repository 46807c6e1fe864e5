import NuWicam.Rtsp.Steps

/-!
# Sessions without an owner

`handle_DESCRIBE` opens a session before it asks for authentication and returns without closing it when that fails. Such
requests are all that can break the correspondence of the lists of sessions (`paired_iff_no_leak`).
-/

namespace NuWicam.Rtsp

open Lib Option

structure Heap.Paired (h : Heap) : Prop where
  nodup : h.sessList.Nodup ∧ h.rtspList.Nodup ∧ ∀ b, (h.source b).sessList.Nodup
  live : ∀ b, ∀ a ∈ (h.source b).sessList, ∃ l x, h.live a = some l ∧ l.source = b ∧ l.sess ∈ h.sessList ∧
    h.sess l.sess = some x ∧ x.priv = a ∧
    ∃ r ∈ h.rtspList, x.controlPrivate = some r ∧ ∃ rs, h.rtsp r = some rs ∧ rs.sess = l.sess
  sess : ∀ s ∈ h.sessList, ∃ x l, h.sess s = some x ∧ h.live x.priv = some l ∧ l.sess = s ∧
    x.priv ∈ (h.source l.source).sessList
  rtsp : ∀ r ∈ h.rtspList, ∃ rs x, h.rtsp r = some rs ∧ rs.sess ∈ h.sessList ∧ h.sess rs.sess = some x ∧
    x.controlPrivate = some r

def Heap.Controlled (h : Heap) : Prop := ∀ s, ∀ w ∈ h.view s, w.ctl.isSome

theorem Heap.Wf.paired_iff {h : Heap} (hw : h.Wf) : h.Paired ↔ h.Controlled := by
  constructor
  · intro hp s w hv
    obtain ⟨x, l, hx, hl, rfl⟩ := view_eq_some hv
    obtain ⟨l', x', hl', -, -, hx', -, r, -, hr, -⟩ := hp.live _ _ (hw.mem_of_live hl)
    obtain ⟨l'', hl'', rfl⟩ := hw.live_of_sess hx
    cases hl.symm.trans hl'
    cases hl.symm.trans hl''
    cases hx.symm.trans hx'
    exact isSome_iff_exists.mpr ⟨r, hr⟩
  · intro hc
    refine ⟨⟨hw.sessions.nodup, hw.rtsps.nodup, hw.lives.nodup⟩, fun b a ha => ?_, fun s hs => ?_, fun r hr => ?_⟩
    · obtain ⟨l, hl, hb⟩ := hw.live_of_mem ha
      obtain ⟨x, hx, rfl⟩ := hw.sess_of_live hl
      obtain ⟨r, hr⟩ := isSome_iff_exists.mp (hc l.sess _ (view_eq hx hl))
      obtain ⟨rs, hrs, hback⟩ := hw.rtsp_of_sess hx hr
      exact ⟨l, x, hl, hb, (hw.sessions.mem_iff _).mpr (isSome_of_mem hx), hx, rfl, r,
        (hw.rtsps.mem_iff _).mpr (isSome_of_mem hrs), hr, rs, hrs, hback⟩
    · obtain ⟨x, hx⟩ := isSome_iff_exists.mp ((hw.sessions.mem_iff s).mp hs)
      obtain ⟨l, hl, hback⟩ := hw.live_of_sess hx
      exact ⟨x, l, hx, hl, hback, hw.mem_of_live hl⟩
    · obtain ⟨rs, hrs⟩ := isSome_iff_exists.mp ((hw.rtsps.mem_iff r).mp hr)
      obtain ⟨x, hx, hback⟩ := hw.sess_of_rtsp hrs
      exact ⟨rs, x, hrs, (hw.sessions.mem_iff _).mpr (isSome_of_mem hx), hx, hback⟩

section

variable (md5 : Md5) (locs : List RtspLocation)

/-- The event is no `DESCRIBE` that is challenged after its session has been opened. -/
def NoLeak (st : State) : Event → Prop
  | .request _ m env => ¬ Leaks md5 locs st.srv m env
  | _ => True

/-- The event is a `SETUP` that is answered with 200. -/
def SetupSucceeds (st : State) (ev : Event) (st' : State) : Prop :=
  ∃ c m env r, ev = .request c m env ∧ methodOf m = .setup ∧ st'.sent = st.sent ++ [.reply c r] ∧ r.resp.code = 200

def NoGrowth (st : State) (ev : Event) : Prop :=
  ∀ st', step md5 locs st ev = some st' → SetupSucceeds st ev st' ∨
    ∀ b, (st'.heap.source b).sessList.length ≤ (st.heap.source b).sessList.length

end

section

variable {md5 : Md5} {locs : List RtspLocation} {st st' : State} {ev : Event}

theorem step_opens (hw : st.heap.Wf) (hs : step md5 locs st ev = some st') (hno : NoLeak md5 locs st ev) :
    ∃ ops, Ops st.heap ops st'.heap ∧ ∀ op ∈ ops, ∀ s ∈ op.opens, st'.heap.view s = none ∨
      SetupSucceeds st ev st' ∧ ∃ w, st'.heap.view s = some w ∧ w.ctl.isSome := by
  have hquiet : ∀ {ops : List Op}, (∀ op ∈ ops, op.opens = none) → ∀ op ∈ ops, ∀ s ∈ op.opens,
      st'.heap.view s = none ∨ SetupSucceeds st ev st' ∧ ∃ w, st'.heap.view s = some w ∧ w.ctl.isSome :=
    fun hall op hop s hs => by rw [hall op hop] at hs; cases hs
  cases step_effect hw hs with
  | accept ho => exact ⟨_, .single ho, hquiet (List.forall_mem_singleton.mpr rfl)⟩
  | @request c m env r _ he hsent =>
    cases he with
    | leak hl _ _ _ => exact (hno hl).elim
    | play _ ho _ => exact ⟨_, .single ho, hquiet (List.forall_mem_singleton.mpr rfl)⟩
    | clean _ _ hc =>
      obtain ⟨ops, hops, hall⟩ := hc.ops hw
      refine ⟨ops, hops, fun op hop s hs => ?_⟩
      rcases (hall op hop).2 s hs with hnone | ⟨hm, hcode, hctl⟩
      · exact .inl hnone
      · exact .inr ⟨⟨c, m, env, r, rfl, hm, hsent, hcode⟩, hctl⟩
  | drop hops hall => exact ⟨_, hops, hquiet fun op hop => Op.opens_of_removes (hall op hop)⟩
  | fail hops hall => exact ⟨_, hops, hquiet fun op hop => Op.opens_of_removes (hall op hop)⟩
  | idle => exact ⟨_, .nil _, by simp⟩
  | frame _ hops hall =>
    refine ⟨_, hops, hquiet fun op hop => ?_⟩
    rcases hall op hop with rfl | hr
    · rfl
    · exact Op.opens_of_removes hr

/-- **One event** leaves no orphan exactly if it is no failed `DESCRIBE`. -/
theorem step_controlled_iff (hw : st.heap.Wf) (hi : st.heap.Controlled) (hs : step md5 locs st ev = some st') :
    st'.heap.Controlled ↔ NoLeak md5 locs st ev := by
  constructor
  · intro hc
    cases step_effect hw hs with
    | @request c m env r _ he _ =>
      intro hl
      cases he with
      | @leak loc _ _ _ _ _ ho _ =>
        have hv : st'.heap.view env.sess = some ⟨env.live, loc.source, false, fun _ => none, none⟩ := by
          rw [ho.view hw]
          exact Table.set_self _
        exact absurd (hc _ _ hv) nofun
      | play hp _ _ =>
        rw [playTarget, hl.1] at hp
        cases hp
      | clean hno _ _ => exact hno hl
    | _ => trivial
  · intro hno s w' hv'
    obtain ⟨ops, hops, hall⟩ := step_opens hw hs hno
    by_cases hopen : ∃ op ∈ ops, op.opens = some s
    · obtain ⟨op, hop, hos⟩ := hopen
      rcases hall op hop s hos with hnone | ⟨-, w, hv, hctl⟩
      · cases hnone.symm.trans hv'
      · cases hv.symm.trans hv'
        exact hctl
    · obtain ⟨w, hv, hk⟩ := hops.view_some hw (fun op hop hos => hopen ⟨op, hop, hos⟩) hv'
      exact hk.ctl (hi s w hv)

theorem step_noGrowth (hw : st.heap.Wf) (hno : NoLeak md5 locs st ev) : NoGrowth md5 locs st ev := by
  intro st' hs
  by_cases hsetup : SetupSucceeds st ev st'
  · exact .inl hsetup
  refine .inr fun b => ?_
  have hw' := step_wf hw hs
  obtain ⟨ops, hops, hall⟩ := step_opens hw hs hno
  have hsub : (st'.heap.source b).sessList ⊆ (st.heap.source b).sessList := by
    intro a ha
    obtain ⟨s, w', hv', rfl, rfl⟩ := hw'.mem_sessList_iff.mp ha
    have hopen : ∀ op ∈ ops, op.opens ≠ some s := by
      intro op hop hos
      rcases hall op hop s hos with hnone | ⟨hsucc, -⟩
      · cases hnone.symm.trans hv'
      · exact hsetup hsucc
    obtain ⟨w, hv, hk⟩ := hops.view_some hw hopen hv'
    exact hw.mem_sessList_iff.mpr ⟨s, w, hv, hk.priv.symm, hk.source.symm⟩
  exact ((hw'.lives.nodup b).subperm hsub).length_le

end

theorem startHeap_controlled (blocks : SourceId → List Directive) : (startHeap blocks).Controlled :=
  fun _ _ hv => nomatch hv

/-- **No orphans** but those of a `DESCRIBE` that fails the authentication. -/
theorem paired_iff_no_leak (md5 : Md5) (locs : List RtspLocation) (blocks : SourceId → List Directive) (evs : List Event) :
    (Always (step md5 locs) (fun st => st.heap.Paired) (State.start blocks) evs ↔
      EachStep (step md5 locs) (NoLeak md5 locs) (State.start blocks) evs) ∧
    (EachStep (step md5 locs) (NoLeak md5 locs) (State.start blocks) evs →
      EachStep (step md5 locs) (NoGrowth md5 locs) (State.start blocks) evs) := by
  have hkeep : ∀ (st : State) ev st', st.heap.Wf → step md5 locs st ev = some st' → st'.heap.Wf :=
    fun _ _ _ hw hs => step_wf hw hs
  constructor
  · have hwf : Always (step md5 locs) (fun st => st.heap.Wf) (State.start blocks) evs := always_wf blocks evs
    have hiff : Always (step md5 locs) (fun st => st.heap.Controlled) (State.start blocks) evs ↔ _ :=
      always_iff_eachStep (I := fun st : State => st.heap.Wf) hkeep
        (fun _ _ _ hw hi hs => step_controlled_iff hw hi hs) (startHeap_wf blocks) (startHeap_controlled blocks)
    exact ⟨fun h => hiff.mp ((hwf.and h).mono fun _ h => h.1.paired_iff.mp h.2),
      fun h => (hwf.and (hiff.mpr h)).mono fun _ h => h.1.paired_iff.mpr h.2⟩
  · exact EachStep.mono (I := fun st : State => st.heap.Wf) hkeep (fun _ _ hw hno => step_noGrowth hw hno)
      (startHeap_wf blocks)

theorem describe_leaves_orphan : ¬ Always (step Md5.ofLibrary [Camera.location (bytes "cam")])
    (fun st => st.heap.Paired) (State.start (Camera.blocks 4)) [.accept 1, Camera.request 1 "DESCRIBE" "rtsp://c/live" []] := by
  intro h
  have heval : (run (step Md5.ofLibrary [Camera.location (bytes "cam")]) (State.start (Camera.blocks 4))
      [.accept 1, Camera.request 1 "DESCRIBE" "rtsp://c/live" []]).map
      (fun st => ((st.heap.source 0).sessList, st.heap.rtspList)) = some ([4], []) := by decide +kernel
  obtain ⟨st, hrun, hst⟩ := map_eq_some_iff.mp heval
  obtain ⟨hlive, hrtsp⟩ := Prod.mk.inj hst
  have hmem : 4 ∈ (st.heap.source 0).sessList := hlive ▸ List.mem_singleton.mpr rfl
  obtain ⟨_, _, -, -, -, -, -, r, hr, -⟩ := (h.last hrun).live 0 4 hmem
  rw [hrtsp] at hr
  cases hr

end NuWicam.Rtsp
