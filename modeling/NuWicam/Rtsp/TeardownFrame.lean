import NuWicam.Rtsp.Steps

/-!
# What a `TEARDOWN` of one track leaves

`live_teardown` takes `NULL` for all the endpoints of the session, and `s->ep[track]` is `NULL` as well for a track that was
never set up, so that a `TEARDOWN` of such a track takes the whole session down (`teardown_only_track_iff`).
-/

namespace NuWicam.Rtsp

open Lib Option

/-! ## The track in a URI -/

def TrackUri (uri pre : Str) (t : Track) : Prop :=
  ∃ ds, uri = pre ++ bytes "/track" ++ ds ∧ ds ≠ [] ∧ ds.all isDigit = true ∧ digitsVal ds = t.val

theorem bytes_track : bytes "/track" = 47 :: bytes "track" := rfl

theorem slash_not_mem {ds : Str} (hd : ∀ c ∈ ds, isDigit c) : (47 : UInt8) ∉ bytes "track" ++ ds := by
  rw [List.mem_append, not_or]
  exact ⟨by decide, fun hmem => absurd (hd 47 hmem) (by decide)⟩

theorem trackOf_digits {ds : Str} {t : Track} (hne : ds ≠ []) (hd : ∀ c ∈ ds, isDigit c)
    (hv : digitsVal ds = t.val) (a : Str) : (trackOf (a ++ 47 :: (bytes "track" ++ ds))).1 = t.val := by
  have hclamp : clampLong (digitsVal ds) = t.val := by
    have hlt : t.val < 2 := t.isLt
    unfold clampLong
    omega
  have hslash : (47 : UInt8) ∉ ds := fun hmem => absurd (hd 47 hmem) (by decide)
  show (trackOf (a ++ (bytes "/track" ++ ds))).1 = _
  rw [trackOf_name hslash, strtol_digits hne hd]
  exact hclamp

theorem host_of_short {pre rest : Str} (hpfx : hasPfxCase (bytes "rtsp://") (pre ++ 47 :: (bytes "track" ++ rest)))
    (hlen : pre.length ≤ 6) : pre.length = 6 := by
  have hlit : (bytes "rtsp://").map lower = [114, 116, 115, 112, 58, 47, 47] := by decide
  have htrack : (bytes "track").map lower = [116, 114, 97, 99, 107] := by decide
  have h47 : lower 47 = 47 := by decide
  unfold hasPfxCase at hpfx
  rw [hlit] at hpfx
  simp only [List.map_append, List.map_cons, h47, htrack] at hpfx
  match pre, hlen with
  | [], _ => simp [List.isPrefixOf] at hpfx
  | [_], _ => simp [List.isPrefixOf] at hpfx
  | [_, _], _ => simp [List.isPrefixOf] at hpfx
  | [_, _, _], _ => simp [List.isPrefixOf] at hpfx
  | [_, _, _, _], _ => simp [List.isPrefixOf] at hpfx
  | [_, _, _, _, _], _ => simp [List.isPrefixOf] at hpfx
  | [_, _, _, _, _, _], _ => rfl
  | _ :: _ :: _ :: _ :: _ :: _ :: _ :: _, hlen =>
    simp only [List.length_cons] at hlen
    omega

theorem trackOf_uri {uri pre path : Str} {t : Track} (hu : TrackUri uri pre t) (hp : getLocalPath uri = some path) :
    (trackOf path).1 = if 6 < pre.length then (t.val : Int) else -1 := by
  obtain ⟨ds, rfl, hne, hall, hv⟩ := hu
  have hd : ∀ c ∈ ds, isDigit c := List.all_eq_true.mp hall
  rw [List.append_assoc, bytes_track, List.cons_append] at hp
  unfold getLocalPath at hp
  split at hp
  · rename_i hpfx
    cases hp
    split
    · rename_i hlen
      rw [List.drop_append_of_le_length hlen]
      obtain ⟨a, ha⟩ := strchr_of_mem (c := 47) (bytes "track" ++ ds) (pre.drop 7)
      rw [ha]
      exact trackOf_digits hne hd hv a
    · rename_i hlen
      have hsix : pre.length = 6 := host_of_short hpfx (by omega)
      have hdrop : (pre ++ 47 :: (bytes "track" ++ ds)).drop 7 = bytes "track" ++ ds := by
        rw [← List.drop_drop (i := 1) (j := 6), List.drop_left' hsix]
        rfl
      rw [hdrop, strchr_eq_none (slash_not_mem hd)]
      decide
  · cases hp

theorem findRtspLocation_track {locs : List RtspLocation} {uri pre : Str} {t : Track} {base : Bool}
    {loc : RtspLocation} {n : Int} (hu : TrackUri uri pre t) (hf : findRtspLocation locs uri base true = some (some (loc, n))) :
    n = if 6 < pre.length then (t.val : Int) else -1 := by
  unfold findRtspLocation at hf
  cases hp : getLocalPath uri with
  | none =>
    rw [hp] at hf
    cases hf
  | some path =>
    rw [hp] at hf
    dsimp only at hf
    rw [if_pos rfl] at hf
    generalize (if 1 < (trackOf path).2 ∧ path.getD ((trackOf path).2 - 1) 0 = 47 then (trackOf path).2 - 1
      else (trackOf path).2) = len at hf
    split at hf
    · cases hf
    · obtain ⟨_, -, heq⟩ := map_eq_some_iff.mp (Option.some.inj hf)
      cases heq
      exact trackOf_uri hu hp

/-! ## Endpoints that stay -/

section

variable {h h' : Heap} {s : Addr}

theorem OpStep.ep_of_removes {op : Op} (hs : OpStep h op h') (hw : h.Wf) (hr : op.removes) (e : Addr) :
    h'.ep e = h.ep e ∨ h'.ep e = none := by
  cases hs with
  | hangUp => exact .inl rfl
  | @drop _ _ _ e' _ _ _ hx ht _ hd hc =>
    obtain ⟨_, _, hd', hw', -, -, rfl⟩ := dropEndpoint_spec hw hx ht
    cases hd.symm.trans hd'
    cases hc.symm.trans (trackCheckRunning_eq hw' _ _)
    have hep : (h.ep.del e') e = h.ep e ∨ (h.ep.del e') e = none := by
      by_cases he : e = e'
      · exact .inr (he ▸ Table.set_self _)
      · exact .inl (Function.update_of_ne he ..)
    split <;> exact hep
  | close hx hnone hc =>
    obtain ⟨l, hl, -⟩ := hw.live_of_sess hx
    obtain ⟨_, _, _, hc', -, rfl⟩ := closeLive_spec hw hx hl hnone
    cases hc.symm.trans hc'
    exact .inl rfl
  | accept | openSession | setup | udp | inter | bind | play | ready => cases hr

theorem Loses.ep_eq (hl : Loses h h' s) (hw : h.Wf) {s' e : Addr} {x : Session} {t : Track}
    (hx : h'.sess s' = some x) (ht : x.ep t = some e) : h'.ep e = h.ep e := by
  obtain ⟨ops, hops, hall⟩ := hl.ops
  have hkeep : ∀ e, h'.ep e = h.ep e ∨ h'.ep e = none := by
    refine hops.inv (I := fun h₁ => ∀ e, h₁.ep e = h.ep e ∨ h₁.ep e = none) ?_ hw hall fun _ => .inl rfl
    intro h₁ op h₂ hw₁ hr hi ho e
    rcases ho.ep_of_removes hw₁ hr e with heq | hnone
    · rw [heq]
      exact hi e
    · exact .inr hnone
  obtain ⟨p, hp, -⟩ := (hl.wf hw).ep_of_sess hx ht
  rcases hkeep e with heq | hnone
  · exact heq
  · cases hnone.symm.trans hp

theorem liveTeardown_keeps (hw : h.Wf) {x : Session} {ep : Option Addr} {t : Track} {e : Addr}
    (hx : h.sess s = some x) (hrun : liveTeardown h s ep = some h') (ht : x.torn ep t = some e) :
    ∃ x', h'.sess s = some x' ∧ x'.ep t = some e ∧ h'.ep e = h.ep e := by
  obtain ⟨h₁, hrun₁, hlo, -, hs⟩ := liveTeardown_spec hw hx ep
  cases hrun.symm.trans hrun₁
  rw [if_neg fun hall => by cases (hall t).symm.trans ht] at hs
  exact ⟨_, hs, ht, hlo.ep_eq hw hs ht⟩

end

/-! ## `TEARDOWN` -/

section

variable (locs : List RtspLocation) (srv : Server) (m : Pmsg) (s : Addr)

def TearsDown : Prop :=
  (findRtspLocation locs m.uri false true).join.isSome ∧ ∃ rs, named srv m = some rs ∧ rs.sess = s

end

/-- Only the track `t` is taken away, if `taken`: every other endpoint is there as it was, and the session is closed only if
there is none. -/
structure OnlyTrack (h h' : Heap) (s : Addr) (x : Session) (t : Track) (taken : Prop) : Prop where
  gone : taken → ∀ e, x.ep t = some e → h'.ep e = none
  kept : ∀ t' ≠ t, ∀ e, x.ep t' = some e → ∃ x', h'.sess s = some x' ∧ x'.ep t' = some e ∧ h'.ep e = h.ep e
  closed : h'.sess s = none → ∀ t' ≠ t, x.ep t' = none

section

variable {md5 : Md5} {locs : List RtspLocation} {st st' : State} {c : Addr} {m : Pmsg} {env : Env} {pre : Str}
  {t : Track}

theorem TearsDown.unique {srv : Server} {s s' : Addr} (h : TearsDown locs srv m s) (h' : TearsDown locs srv m s') : s = s' := by
  obtain ⟨-, rs, hn, rfl⟩ := h
  obtain ⟨-, rs', hn', rfl⟩ := h'
  cases hn.symm.trans hn'
  rfl

theorem step_teardown (hw : st.heap.Wf) (hm : methodOf m = .teardown) (hu : TrackUri m.uri pre t)
    (hs : step md5 locs st (.request c m env) = some st') : (st'.heap = st.heap ∧ ∀ s, ¬ TearsDown locs st.srv m s) ∨
      ∃ s x, TearsDown locs st.srv m s ∧ st.heap.sess s = some x ∧
        liveTeardown st.heap s (if 6 < pre.length then x.ep t else none) = some st'.heap := by
  have hrun : ∃ r, rtspHandleMsg md5 locs st.srv c m env = some r ∧ st'.srv = r.1 := by
    simp only [step] at hs
    split at hs
    · obtain ⟨r, hr, rfl⟩ := map_eq_some_iff.mp hs
      exact ⟨r, hr, rfl⟩
    · cases hs
  obtain ⟨r, hr, hsrv⟩ := hrun
  have hheap : st'.heap = r.1.heap := congrArg Server.heap hsrv
  simp only [rtspHandleMsg, hm, handleTEARDOWN] at hr
  obtain ⟨o, ho⟩ := findRtspLocation_noBase locs m.uri true
  simp only [ho, bind_eq_bind, bind_some] at hr
  have hjoin : (findRtspLocation locs m.uri false true).join = o := by rw [ho]; rfl
  cases o with
  | none =>
    cases hr
    refine .inl ⟨hheap, fun s h => ?_⟩
    rw [TearsDown, hjoin] at h
    cases h.1
  | some found =>
    obtain ⟨loc, n⟩ := found
    have hn := findRtspLocation_track hu ho
    have hlt : ¬ (maxTracks : Int) ≤ n := by
      rw [hn]
      split <;> omega
    dsimp only at hr
    rw [if_neg hlt] at hr
    cases hg : getSession st.srv.heap (getHeader m (bytes "Session")) with
    | none =>
      rw [hg] at hr
      cases hr
      refine .inl ⟨hheap, fun s h => ?_⟩
      obtain ⟨-, rs, hnamed, -⟩ := h
      rw [named, hg] at hnamed
      cases hnamed
    | some a =>
      obtain ⟨rs, hrs, hnamed⟩ := named_of_getSession hg
      obtain ⟨x, hx, -⟩ := hw.sess_of_rtsp hrs
      have htears : TearsDown locs st.srv m rs.sess := ⟨by rw [hjoin]; rfl, rs, hnamed, rfl⟩
      refine .inr ⟨rs.sess, x, htears, hx, ?_⟩
      have hep : (if ht : 0 ≤ n ∧ n.toNat < maxTracks then x.ep ⟨n.toNat, ht.2⟩ else none) =
          if 6 < pre.length then x.ep t else none := by
        subst hn
        split
        · rename_i hlen
          rw [dif_pos ⟨by omega, t.isLt⟩]
          rfl
        · rw [dif_neg fun h => absurd h.1 (by decide)]
      have hx' : st.srv.heap.sess rs.sess = some x := hx
      simp only [hg, hrs, hx', bind_some, hep, bind_eq_some_iff] at hr
      obtain ⟨h₁, hlive, hpure⟩ := hr
      cases hpure
      rw [hheap]
      exact hlive

theorem liveTeardown_onlyTrack {h h' : Heap} {s : Addr} {x : Session} {ep : Option Addr} {taken : Prop} (hw : h.Wf)
    (hx : h.sess s = some x) (hrun : liveTeardown h s ep = some h') (hep : ep = none ∨ ep = x.ep t) :
    OnlyTrack h h' s x t taken ↔ ep.isSome ∨ ∀ t' ≠ t, x.ep t' = none := by
  obtain ⟨h₁, hrun₁, -, -, hs⟩ := liveTeardown_spec hw hx ep
  cases hrun.symm.trans hrun₁
  have hgone : ∀ e, x.ep t = some e → h'.ep e = none := fun e ht =>
    liveTeardown_frees_torn hw hx ht (if_pos (hep.imp_right Eq.symm)) hrun
  constructor
  · intro ho
    cases ep with
    | some e => exact .inl rfl
    | none =>
      refine .inr fun t' ht' => ?_
      cases hother : x.ep t' with
      | none => rfl
      | some e =>
        obtain ⟨x', hx', -⟩ := ho.kept t' ht' e hother
        cases hs.symm.trans hx'
  · rintro (hsome | halone)
    · obtain ⟨e₀, rfl⟩ := isSome_iff_exists.mp hsome
      have ht : x.ep t = some e₀ := (hep.resolve_left nofun).symm
      -- no two tracks of a session share an endpoint
      have hkeep : ∀ t' ≠ t, x.torn (some e₀) t' = x.ep t' := by
        intro t' hne
        refine if_neg fun h => ?_
        have hsame := h.resolve_left nofun
        exact hne (hw.eps.track ((Table.field_of_some _ hx).trans hsame) ((Table.field_of_some _ hx).trans ht))
      refine ⟨fun _ => hgone, fun t' hne e he => ?_, fun hclosed t' hne => ?_⟩
      · exact liveTeardown_keeps hw hx hrun ((hkeep t' hne).trans he)
      · rw [hclosed] at hs
        split at hs
        · rename_i hall
          exact (hkeep t' hne).symm.trans (hall t')
        · cases hs
    · refine ⟨fun _ => hgone, fun t' hne e he => ?_, fun _ => halone⟩
      cases (halone t' hne).symm.trans he

theorem onlyTrack_of_other {h h' : Heap} {s s' : Addr} {x : Session} (hw : h.Wf) (hl : Loses h h' s') (hne : s ≠ s')
    (hx : h.sess s = some x) : OnlyTrack h h' s x t False := by
  have hx' : h'.sess s = some x := (hl.others s hne).trans hx
  refine ⟨False.elim, fun t' _ e he => ⟨x, hx', he, hl.ep_eq hw hx' he⟩, fun hclosed => ?_⟩
  cases hclosed.symm.trans hx'

end

/-- **A `TEARDOWN` of a track takes that track only** exactly if it is set up and found by its name, or the only one. -/
theorem teardown_only_track_iff (md5 : Md5) (locs : List RtspLocation) (blocks : SourceId → List Directive)
    (evs : List Event) (st st' : State) (c : Addr) (m : Pmsg) (env : Env) (pre : Str) (t : Track) (s : Addr) (x : Session)
    (hrun : run (step md5 locs) (State.start blocks) evs = some st) (hm : methodOf m = .teardown)
    (hu : TrackUri m.uri pre t) (hs : step md5 locs st (.request c m env) = some st') (hx : st.heap.sess s = some x) :
    OnlyTrack st.heap st'.heap s x t (TearsDown locs st.srv m s) ↔
      (TearsDown locs st.srv m s → (6 < pre.length ∧ (x.ep t).isSome) ∨ ∀ t' ≠ t, x.ep t' = none) := by
  have hw : st.heap.Wf := (always_wf blocks evs).last hrun
  rcases step_teardown hw hm hu hs with ⟨hheap, hnot⟩ | ⟨s₁, x₁, htears, hx₁, hlive⟩
  · rw [hheap, eq_false (hnot s)]
    exact ⟨fun _ => False.elim, fun _ => ⟨False.elim, fun _ _ e he => ⟨x, hx, he, rfl⟩,
      fun hclosed => by cases hclosed.symm.trans hx⟩⟩
  · by_cases heq : s = s₁
    · subst heq
      cases hx.symm.trans hx₁
      rw [liveTeardown_onlyTrack (t := t) hw hx hlive (by split <;> simp)]
      have hsome : (if 6 < pre.length then x.ep t else none).isSome ↔ 6 < pre.length ∧ (x.ep t).isSome := by
        split <;> simp_all
      rw [hsome]
      exact ⟨fun h _ => h, fun h => h htears⟩
    · obtain ⟨h₁, hrun₁, hlo, -⟩ := liveTeardown_spec hw hx₁ (if 6 < pre.length then x₁.ep t else none)
      cases hlive.symm.trans hrun₁
      have hnot : ¬ TearsDown locs st.srv m s := fun h => heq (h.unique htears)
      rw [eq_false hnot]
      exact ⟨fun _ => False.elim, fun _ => onlyTrack_of_other hw hlo heq hx⟩

namespace Camera

def teardownMsg (uri : String) : Pmsg :=
  ⟨.req (bytes "TEARDOWN") (bytes uri), bytes "RTSP/1.0", [(bytes "Session", hexBytesUpper (List.replicate 15 1))]⟩

def tornSession (uri : String) (t : Track) : Option (Option Addr × Bool) :=
  (run (step Md5.ofLibrary [location []]) (State.start (blocks 4)) [.accept 1, setup 1]).bind fun st =>
    (step Md5.ofLibrary [location []] st (.request 1 (teardownMsg uri) (env 2))).bind fun st' =>
      (st.heap.sess 5).map fun x => (x.ep t, (st'.heap.sess 5).isSome)

theorem tornSession_eq {uri : String} {t : Track} {o : Option Addr} {b : Bool} (h : tornSession uri t = some (o, b)) :
    ∃ st st' x, run (step Md5.ofLibrary [location []]) (State.start (blocks 4)) [.accept 1, setup 1] = some st ∧
      step Md5.ofLibrary [location []] st (.request 1 (teardownMsg uri) (env 2)) = some st' ∧
      st.heap.sess 5 = some x ∧ x.ep t = o ∧ (st'.heap.sess 5).isSome = b := by
  simp only [tornSession, bind_eq_some_iff, map_eq_some_iff, Prod.mk.injEq] at h
  obtain ⟨st, hrun, st', hs, x, hx, ho, hb⟩ := h
  exact ⟨st, st', x, hrun, hs, hx, ho, hb⟩

end Camera

theorem teardown_of_set_up_track : ∃ st st' x,
    run (step Md5.ofLibrary [Camera.location []]) (State.start (Camera.blocks 4)) [.accept 1, Camera.setup 1] = some st ∧
    step Md5.ofLibrary [Camera.location []] st (.request 1 (Camera.teardownMsg "rtsp://c/live/track0") (Camera.env 2)) =
      some st' ∧ st.heap.sess 5 = some x ∧ x.ep 0 = some 6 ∧ OnlyTrack st.heap st'.heap 5 x 0
      (TearsDown [Camera.location []] st.srv (Camera.teardownMsg "rtsp://c/live/track0") 5) := by
  have heval : Camera.tornSession "rtsp://c/live/track0" 0 = some (some 6, false) := by decide +kernel
  obtain ⟨st, st', x, hrun, hs, hx, ho, -⟩ := Camera.tornSession_eq heval
  have huri : TrackUri (Camera.teardownMsg "rtsp://c/live/track0").uri (bytes "rtsp://c/live") 0 :=
    ⟨bytes "0", by decide, by decide, by decide, by decide⟩
  refine ⟨st, st', x, hrun, hs, hx, ho, ?_⟩
  exact (teardown_only_track_iff _ _ _ _ st st' 1 _ _ (bytes "rtsp://c/live") 0 5 x hrun (by decide) huri hs hx).mpr
    fun _ => .inl ⟨by decide, by rw [ho]; rfl⟩

theorem teardown_of_absent_track : ∃ st st' x,
    run (step Md5.ofLibrary [Camera.location []]) (State.start (Camera.blocks 4)) [.accept 1, Camera.setup 1] = some st ∧
    step Md5.ofLibrary [Camera.location []] st (.request 1 (Camera.teardownMsg "rtsp://c/live/track1") (Camera.env 2)) =
      some st' ∧ TrackUri (Camera.teardownMsg "rtsp://c/live/track1").uri (bytes "rtsp://c/live") 1 ∧ st.heap.sess 5 = some x ∧
    ¬ OnlyTrack st.heap st'.heap 5 x 1
      (TearsDown [Camera.location []] st.srv (Camera.teardownMsg "rtsp://c/live/track1") 5) := by
  have heval : Camera.tornSession "rtsp://c/live/track1" 0 = some (some 6, false) := by decide +kernel
  obtain ⟨st, st', x, hrun, hs, hx, ho, hgone⟩ := Camera.tornSession_eq heval
  refine ⟨st, st', x, hrun, hs, ⟨bytes "1", by decide, by decide, by decide, by decide⟩, hx, fun h => ?_⟩
  obtain ⟨x', hx', -⟩ := h.kept 0 (by decide) 6 ho
  rw [hx'] at hgone
  cases hgone

end NuWicam.Rtsp
