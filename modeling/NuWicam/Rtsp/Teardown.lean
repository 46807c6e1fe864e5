import NuWicam.Rtsp.Ops

/-!
# `live_teardown` and its callers

In a well-formed memory `live_teardown` follows no pointer that leads nowhere and changes nothing but its own session
(`liveTeardown_spec`), and so the loops that it is called from are not confused by it (`sendFrame_spec`, `dropConn_spec`).
-/

namespace NuWicam.Rtsp

open Lib List Option

variable {h h' : Heap}

/-! ## One session -/

def Session.torn (x : Session) (ep : Option Addr) (t : Track) : Option Addr :=
  if ep = none ∨ x.ep t = ep then none else x.ep t

/-- `h'` is `h` but for the session `s`, which has lost endpoints. -/
structure Loses (h h' : Heap) (s : Addr) : Prop where
  ops : ∃ ops, Ops h ops h' ∧ ∀ op ∈ ops, op.removes = true
  others : ∀ s' ≠ s, h'.sess s' = h.sess s'
  state : stateOf h'.conn = stateOf h.conn
  chans : ∀ k c p, chanOf h'.conn k c = some p → chanOf h.conn k c = some p

theorem Loses.refl (h : Heap) (s : Addr) : Loses h h s :=
  ⟨⟨[], .nil h, by simp⟩, fun _ _ => rfl, rfl, fun _ _ _ hp => hp⟩

variable {s : Addr} {x : Session} {t : Track} {l : LiveSession}

theorem Loses.trans {h₁ : Heap} (hl : Loses h h₁ s) (hl' : Loses h₁ h' s) : Loses h h' s := by
  obtain ⟨ops, hops, hall⟩ := hl.ops
  obtain ⟨ops', hops', hall'⟩ := hl'.ops
  refine ⟨⟨ops ++ ops', hops.append hops', ?_⟩, ?_, hl'.state.trans hl.state,
    fun k c p hp => hl.chans k c p (hl'.chans k c p hp)⟩
  · exact forall_mem_append.mpr ⟨hall, hall'⟩
  · exact fun s' hs => (hl'.others s' hs).trans (hl.others s' hs)

theorem Loses.wf (hl : Loses h h' s) (hw : h.Wf) : h'.Wf := by
  obtain ⟨ops, hops, -⟩ := hl.ops
  exact hops.wf hw

theorem drop_spec (hw : h.Wf) {e : Addr} (hx : h.sess s = some x) (ht : x.ep t = some e) (hl : h.live x.priv = some l) :
    ∃ h₁ h', dropEndpoint h s t e = some h₁ ∧ trackCheckRunning h₁ l.source t = some h' ∧ Loses h h' s ∧
      h'.live = h.live ∧ h'.sess s = some { x with ep := Function.update x.ep t none } ∧
      ∀ b, (h'.source b).tracks = (h.source b).tracks := by
  obtain ⟨conn, h₁, hd, hw₁, hst, hch, rfl⟩ := dropEndpoint_spec hw hx ht
  refine ⟨_, _, hd, trackCheckRunning_eq hw₁ _ _, ⟨⟨_, .single (.drop hx ht hl hd (trackCheckRunning_eq hw₁ _ _)), ?_⟩,
    ?_, ?_, ?_⟩, ?_, ?_, ?_⟩
  · exact forall_mem_singleton.mpr rfl
  · intro s' hs
    split <;> exact Table.put_ne hs _
  · split <;> exact hst
  · intro k c p hp
    have hp' : chanOf conn k c = some (p.1, p.2) := by
      split at hp <;> exact hp
    exact ((hch k c p.1 p.2).mp hp').1
  · split <;> rfl
  · split <;> exact Table.set_self _
  · intro b
    split
    · rfl
    · exact tracks_congr fun t' => rtp_modifyTrack _ _ _ _ fun _ => rfl

theorem tearTracks_spec (ep : Option Addr) : ∀ (ts : List Track) {h : Heap} {x : Session}
    (r : Nat), h.Wf → h.sess s = some x → h.live x.priv = some l →
    ∃ h' x', tearTracks s ep l.source ts h r = some (h', r + ts.countP fun t => (x'.ep t).isSome) ∧ Loses h h' s ∧
      h'.live = h.live ∧ h'.sess s = some x' ∧ x'.priv = x.priv ∧ x'.controlPrivate = x.controlPrivate ∧
      (∀ b, (h'.source b).tracks = (h.source b).tracks) ∧ ∀ t, x'.ep t = if t ∈ ts then x.torn ep t else x.ep t
  | [], h, x, r, _, hx, _ => ⟨h, x, rfl, .refl h s, rfl, hx, rfl, rfl, fun _ => rfl, fun t => by simp⟩
  | t :: ts, h, x, r, hw, hx, hl => by
    cases ht : x.ep t with
    | none =>
      obtain ⟨h', x', hr, hlo, hlive, hx', hp, hc, htr, hep⟩ := tearTracks_spec ep ts r hw hx hl
      have ht' : x'.ep t = none := by rw [hep]; simp [Session.torn, ht]
      refine ⟨h', x', ?_, hlo, hlive, hx', hp, hc, htr, fun t' => ?_⟩
      · simpa [tearTracks, hx, ht, ht'] using hr
      · by_cases htt : t' = t
        · subst htt
          simp [ht', Session.torn, ht]
        · simp [hep, htt]
    | some e =>
      by_cases hhit : ep = none ∨ ep = some e
      · obtain ⟨h₁, h₂, hd, hc₂, hlo₂, hlive₂, hx₂, htr₂⟩ := drop_spec hw hx ht hl
        obtain ⟨h', x', hr, hlo, hlive, hx', hp, hc, htr, hep⟩ :=
          tearTracks_spec ep ts r (hlo₂.wf hw) hx₂ (hlive₂ ▸ hl)
        have ht' : x'.ep t = none := by rw [hep]; simp [Session.torn]
        refine ⟨h', x', ?_, hlo₂.trans hlo, hlive.trans hlive₂, hx', hp, hc, fun b => (htr b).trans (htr₂ b),
          fun t' => ?_⟩
        · simpa [tearTracks, hx, ht, ht', if_pos hhit, hd, hc₂] using hr
        · by_cases htt : t' = t
          · subst htt
            have hhit' : ep = none ∨ some e = ep := hhit.imp_right Eq.symm
            simp [ht', Session.torn, ht, hhit']
          · simp [hep, htt, Session.torn]
      · obtain ⟨h', x', hr, hlo, hlive, hx', hp, hc, htr, hep⟩ := tearTracks_spec ep ts (r + 1) hw hx hl
        have hhit' : ¬ (ep = none ∨ some e = ep) := fun hh => hhit (hh.imp_right Eq.symm)
        have ht' : x'.ep t = some e := by rw [hep]; simp [Session.torn, ht, hhit']
        refine ⟨h', x', ?_, hlo, hlive, hx', hp, hc, htr, fun t' => ?_⟩
        · simp only [tearTracks, hx, ht, if_neg hhit, bind_eq_bind, bind_some, hr,
            countP_cons_of_pos (p := fun t => (x'.ep t).isSome) (by rw [ht']; rfl)]
          rw [Nat.add_right_comm, Nat.add_assoc]
        · by_cases htt : t' = t
          · subst htt
            simp [ht', Session.torn, ht, hhit']
          · simp [hep, htt]

theorem Heap.Wf.ep_none (hw : h.Wf) (hx : h.sess s = some x)
    (hl : h.live x.priv = some l) (ht : t ∉ (h.source l.source).tracks) : x.ep t = none := by
  cases he : x.ep t with
  | none => rfl
  | some e => exact (ht (hw.mem_tracks hx hl he)).elim

/-- **`live_teardown`** of a session, which is closed when no endpoint is left. -/
theorem liveTeardown_spec (hw : h.Wf) (hx : h.sess s = some x) (ep : Option Addr) :
    ∃ h', liveTeardown h s ep = some h' ∧ Loses h h' s ∧ (∀ a ≠ x.priv, h'.live a = h.live a) ∧
      h'.sess s = if ∀ t, x.torn ep t = none then none else some { x with ep := x.torn ep } := by
  obtain ⟨l, hl, -⟩ := hw.live_of_sess hx
  obtain ⟨h₁, x₁, hr, hlo, hlive, hx₁, hp, hc, htr, hep⟩ :=
    tearTracks_spec ep (h.source l.source).tracks 0 hw hx hl
  have htorn : x₁.ep = x.torn ep := by
    funext t
    rw [hep]
    split
    · rfl
    · rename_i ht
      simp [Session.torn, hw.ep_none hx hl ht]
  have hcount : (h.source l.source).tracks.countP (fun t => (x₁.ep t).isSome) = 0 ↔ ∀ t, x.torn ep t = none := by
    rw [countP_eq_zero, ← htorn]
    constructor
    · intro hall t
      by_cases ht : t ∈ (h.source l.source).tracks
      · simpa using hall t ht
      · rw [hep, if_neg ht]
        exact hw.ep_none hx hl ht
    · intro hall t _
      simp [hall t]
  rw [Nat.zero_add] at hr
  have hrun : liveTeardown h s ep = if ∀ t, x.torn ep t = none then closeLive h₁ s x.priv else some h₁ := by
    simp only [liveTeardown, hx, hl, hr, bind_eq_bind, bind_some, hcount]
    rfl
  rw [hrun]
  by_cases hall : ∀ t, x.torn ep t = none
  · simp only [if_pos hall]
    have hw₁ := hlo.wf hw
    have hnone : ∀ t, x₁.ep t = none := fun t => by rw [htorn]; exact hall t
    obtain ⟨rl, rt, h₂, hclose, -, rfl⟩ := closeLive_spec hw₁ hx₁ (by rw [hp, hlive]; exact hl) hnone
    refine ⟨_, hp ▸ hclose, hlo.trans ⟨⟨_, .single (.close hx₁ hnone hclose), ?_⟩, ?_, rfl, fun _ _ _ hp => hp⟩, ?_, ?_⟩
    · exact forall_mem_singleton.mpr rfl
    · exact fun s' hs => Table.del_ne hs
    · exact fun a ha => (Table.del_ne (hp ▸ ha)).trans (by rw [hlive])
    · exact Table.set_self _
  · simp only [if_neg hall]
    refine ⟨h₁, rfl, hlo, fun a _ => by rw [hlive], ?_⟩
    rw [hx₁, ← htorn, ← hp, ← hc]

/-! ## Frames -/

theorem Loses.receiver (hw : h.Wf) (hx : h.sess s = some x) (hlo : Loses h h' s)
    (hlive : ∀ a ≠ x.priv, h'.live a = h.live a) (t : Track) {a : Addr} (ha : a ≠ x.priv) :
    h'.receiver t a = h.receiver t a := by
  rw [Heap.receiver, Heap.receiver, hlive a ha]
  cases hl : h.live a with
  | none => rfl
  | some l =>
    have hs : l.sess ≠ s := by
      rintro rfl
      obtain ⟨x', hx', rfl⟩ := hw.sess_of_live hl
      cases hx.symm.trans hx'
      exact ha rfl
    simp [hlo.others _ hs]

theorem sendFrame_spec (t : Track) (fails : Addr → Bool) : ∀ {as : List Addr} {h : Heap}, h.Wf → as.Nodup →
    (∀ a ∈ as, (h.live a).isSome) → ∃ h' ops, sendFrame t fails as h = some (h', as.filterMap (h.receiver t)) ∧
      Ops h ops h' ∧ ∀ op ∈ ops, op.removes = true
  | [], h, _, _, _ => ⟨h, [], rfl, .nil h, by simp⟩
  | a :: as, h, hw, hnd, hlive => by
    rw [List.nodup_cons] at hnd
    rw [List.forall_mem_cons] at hlive
    obtain ⟨l, hl⟩ := isSome_iff_exists.mp hlive.1
    obtain ⟨x, hx, rfl⟩ := hw.sess_of_live hl
    have hrec : h.receiver t x.priv = if l.playing then x.ep t else none := by simp [Heap.receiver, hl, hx]
    cases hr : h.receiver t x.priv with
    | none =>
      obtain ⟨h', ops, hsend, hops, hall⟩ := sendFrame_spec t fails hw hnd.2 hlive.2
      refine ⟨h', ops, ?_, hops, hall⟩
      rw [hrec] at hr
      cases hp : l.playing with
      | false => simpa [sendFrame, hl, hp, hrec] using hsend
      | true =>
        have he : x.ep t = none := by simpa [hp] using hr
        simpa [sendFrame, hl, hp, hx, he, hrec] using hsend
    | some e =>
      obtain ⟨hp, he⟩ : l.playing ∧ x.ep t = some e := by
        rw [hrec] at hr
        split at hr
        · exact ⟨‹_›, hr⟩
        · cases hr
      -- whether the session is torn down or not, the rest of the list is as before
      obtain ⟨h₁, ops₁, h1, hw₁, hops₁, hall₁, hlive₁, hrec₁⟩ : ∃ h₁ ops₁,
          sendPackets h l.sess e (fails e) = some h₁ ∧ h₁.Wf ∧ Ops h ops₁ h₁ ∧
          (∀ op ∈ ops₁, op.removes) ∧ (∀ a ∈ as, (h₁.live a).isSome) ∧
          ∀ a ∈ as, h₁.receiver t a = h.receiver t a := by
        by_cases hf : fails e
        · obtain ⟨h₁, hrun, hlo, hlive₁, -⟩ := liveTeardown_spec hw hx (some e)
          have hne : ∀ a ∈ as, a ≠ x.priv := fun a ha heq => hnd.1 (heq ▸ ha)
          obtain ⟨ops₁, hops₁, hall₁⟩ := hlo.ops
          refine ⟨h₁, ops₁, by rw [sendPackets, if_pos hf, hrun], hlo.wf hw, hops₁, hall₁, ?_, ?_⟩
          · exact fun a ha => by rw [hlive₁ a (hne a ha)]; exact hlive.2 a ha
          · exact fun a ha => hlo.receiver hw hx hlive₁ t (hne a ha)
        · exact ⟨h, [], by rw [sendPackets, if_neg hf], hw, .nil h, by simp, hlive.2, fun _ _ => rfl⟩
      obtain ⟨h', ops, hsend, hops, hall⟩ := sendFrame_spec t fails hw₁ hnd.2 hlive₁
      refine ⟨h', ops₁ ++ ops, ?_, hops₁.append hops, forall_mem_append.mpr ⟨hall₁, hall⟩⟩
      rw [filterMap_congr hrec₁] at hsend
      simp only [sendFrame, hl, hp, hx, he, h1, hsend, bind_eq_bind, bind_some, ↓reduceIte,
        filterMap_cons, hr]
      rfl

theorem nextLiveFrame_spec (hw : h.Wf) (b : SourceId) (t : Track) (accepted : Bool) (fails : Addr → Bool) :
    ∃ h' ops, nextLiveFrame h b t accepted fails =
        some (h', if accepted then (h.source b).sessList.filterMap (h.receiver t) else []) ∧ Ops h ops h' ∧
      ∀ op ∈ ops, op = .ready b t ∨ op.removes = true := by
  cases accepted with
  | false => exact ⟨h, [], rfl, .nil h, by simp⟩
  | true =>
    -- the first frame of a track marks it ready
    obtain ⟨h₁, ops₁, h1, hops₁, hall₁, hlist, hrec, hlive⟩ : ∃ h₁ ops₁,
        (if ((h.source b).track t).ready then h
          else (setWaiting h b t false).modifyTrack b t fun track => { track with ready := true }) = h₁ ∧
        Ops h ops₁ h₁ ∧ (∀ op ∈ ops₁, op = .ready b t) ∧ (h₁.source b).sessList = (h.source b).sessList ∧
        h₁.receiver t = h.receiver t ∧ h₁.live = h.live := by
      cases hready : ((h.source b).track t).ready with
      | true => exact ⟨h, [], rfl, .nil h, by simp, rfl, rfl, rfl⟩
      | false =>
        refine ⟨_, [.ready b t], rfl, .single (.ready hready), fun op => by simp, ?_, rfl, rfl⟩
        rw [if_neg Bool.false_ne_true]
        exact (sessList_modifyTrack ..).trans (sessList_modifyTrack ..)
    have hw₁ := hops₁.wf hw
    have hsome : ∀ a ∈ (h₁.source b).sessList, (h₁.live a).isSome := fun a ha => by
      obtain ⟨l, hl, -⟩ := hw₁.live_of_mem ha
      rw [hl]
      rfl
    obtain ⟨h', ops, hsend, hops, hall⟩ := sendFrame_spec t fails hw₁ (hw₁.lives.nodup b) hsome
    refine ⟨h', ops₁ ++ ops, ?_, hops₁.append hops, forall_mem_append.mpr ⟨?_, ?_⟩⟩
    · simp only [nextLiveFrame, h1, ↓reduceIte]
      rw [hsend, hlist, hrec]
    · exact fun op hop => .inl (hall₁ op hop)
    · exact fun op hop => .inr (hall op hop)

/-! ## The end of a connection -/

theorem ep_of_torn {ep : Option Addr} {e : Addr} (h : x.torn ep t = some e) : x.ep t = some e := by
  unfold Session.torn at h
  split at h
  · cases h
  · exact h

theorem liveTeardown_frees_torn (hw : h.Wf) {e : Addr} {ep : Option Addr}
    (hx : h.sess s = some x) (ht : x.ep t = some e) (htorn : x.torn ep t = none)
    (hrun : liveTeardown h s ep = some h') : h'.ep e = none := by
  obtain ⟨h₁, hrun₁, hlo, -, hs⟩ := liveTeardown_spec hw hx ep
  cases hrun.symm.trans hrun₁
  cases hp : h'.ep e with
  | none => rfl
  | some p =>
    -- the session that holds it is the one that has lost it
    obtain ⟨x', t', hx', ht'⟩ := (hlo.wf hw).sess_of_ep hp
    have hslot : epOf h.sess t s = some e := (Table.field_of_some _ hx).trans ht
    by_cases hps : p.session = s
    · rw [hps, hs] at hx'
      split at hx'
      · cases hx'
      · cases hx'
        cases hw.eps.track hslot ((Table.field_of_some _ hx).trans (ep_of_torn ht'))
        cases htorn.symm.trans ht'
    · rw [hlo.others _ hps] at hx'
      have howner := (hw.eps.owner e p.session).mpr ⟨t', (Table.field_of_some _ hx').trans ht'⟩
      have howner' := (hw.eps.owner e s).mpr ⟨t, hslot⟩
      exact (hps (Option.some.inj (howner.symm.trans howner'))).elim

theorem stateOf_eq_some {conn : Table Conn} {c : Addr} :
    stateOf conn c = some () ↔ ∃ cn rc, conn c = some cn ∧ cn.protoState = some rc := by
  simp [stateOf, Table.field_eq_some]

theorem disconnectChans_spec {c : Addr} : ∀ (ks : List Chan) {h : Heap}, h.Wf → stateOf h.conn c = some () →
    ∃ h' ops, disconnectChans c ks h = some h' ∧ Ops h ops h' ∧
      (∀ op ∈ ops, op.removes) ∧ (∀ k ∈ ks, ∀ e, chanOf h'.conn k c ≠ some (e, false)) ∧
      ∀ k p, chanOf h'.conn k c = some p → chanOf h.conn k c = some p
  | [], h, _, _ => ⟨h, [], rfl, .nil h, by simp, by simp, fun _ _ hp => hp⟩
  | k :: ks, h, hw, hst => by
    obtain ⟨cn, rc, hc, hrc⟩ := stateOf_eq_some.mp hst
    have hch : chanOf h.conn k c = (rc k).ep.map fun e => (e, (rc k).rtcp) := by
      rw [chanOf, Table.field_of_some _ hc, hrc]
      rfl
    by_cases hrtp : ∃ e, (rc k).ep = some e ∧ (rc k).rtcp = false
    · obtain ⟨e, he, hr⟩ := hrtp
      obtain ⟨p, i, j, hp, hpt, hki⟩ := hw.ep_of_chan hc hrc he
      obtain ⟨x, t, hx, hxt⟩ := hw.sess_of_ep hp
      obtain ⟨h₁, hrun₁, hlo, -⟩ := liveTeardown_spec hw hx (some e)
      obtain ⟨ops₁, hops₁, hall₁⟩ := hlo.ops
      have hw₁ := hlo.wf hw
      obtain ⟨h', ops, hrun, hops, hall, hfree, hmono⟩ := disconnectChans_spec ks hw₁ ((congrFun hlo.state c).trans hst)
      refine ⟨h', ops₁ ++ ops, ?_, hops₁.append hops, ?_, forall_mem_cons.mpr ⟨fun e' he' => ?_, hfree⟩, ?_⟩
      · simpa [disconnectChans, hc, hrc, he, hr, hp, hrun₁] using hrun
      · exact forall_mem_append.mpr ⟨hall₁, hall⟩
      · have hk₁ := hmono k _ he'
        have hk := hlo.chans k c _ hk₁
        rw [hch, he, hr] at hk
        cases hk
        obtain ⟨i', j', htr, -⟩ := (hw₁.chans.holder k c e false).mp hk₁
        rw [transOf, Table.field_of_none _ (liveTeardown_frees_torn hw hx hxt (if_pos (.inr hxt)) hrun₁)] at htr
        cases htr
      · exact fun k' p' hp' => hlo.chans k' c p' (hmono k' p' hp')
    · -- a channel that is free or carries RTCP is skipped
      obtain ⟨h', ops, hrun, hops, hall, hfree, hmono⟩ := disconnectChans_spec ks hw hst
      refine ⟨h', ops, ?_, hops, hall, forall_mem_cons.mpr ⟨fun e he => ?_, hfree⟩, hmono⟩
      · cases he : (rc k).ep with
        | none => simpa [disconnectChans, hc, hrc, he] using hrun
        | some e =>
          have hr : (rc k).rtcp := by
            cases hr : (rc k).rtcp with
            | true => rfl
            | false => exact (hrtp ⟨e, he, hr⟩).elim
          simpa [disconnectChans, hc, hrc, he, hr] using hrun
      · have hk := hmono k _ he
        rw [hch, map_eq_some_iff] at hk
        obtain ⟨e', hek, heq⟩ := hk
        exact hrtp ⟨e', hek, congrArg Prod.snd heq⟩

/-- **`drop_conn`** leaves nothing that refers to the connection. -/
theorem dropConn_spec (hw : h.Wf) {c : Addr} (hc : (h.conn c).isSome) : ∃ h' ops, dropConn h c = some h' ∧ Ops h ops h' ∧
      (∀ op ∈ ops, op.removes) ∧ h'.conn c = none ∧ c ∉ h'.connList ∧
      ∀ e p i j, h'.ep e = some p → p.trans ≠ .inter c i j := by
  obtain ⟨cn, hcn⟩ := isSome_iff_exists.mp hc
  -- the loop leaves no channel in use
  obtain ⟨h₁, ops, hloop, hops, hall, hfree⟩ : ∃ h₁ ops,
      (if cn.protoState.isSome then disconnectChans c (List.finRange _) h else pure h) = some h₁ ∧ Ops h ops h₁ ∧
      (∀ op ∈ ops, op.removes) ∧ ∀ k, chanOf h₁.conn k c = none := by
    cases hrc : cn.protoState with
    | none =>
      refine ⟨h, [], rfl, .nil h, by simp, fun k => ?_⟩
      rw [chanOf, Table.field_of_some _ hcn, hrc]
      rfl
    | some rc =>
      obtain ⟨h₁, ops, hloop, hops, hall, hfree, -⟩ :=
        disconnectChans_spec (List.finRange _) hw (stateOf_eq_some.mpr ⟨cn, rc, hcn, hrc⟩)
      refine ⟨h₁, ops, hloop, hops, hall, fun k => ?_⟩
      cases hk : chanOf h₁.conn k c with
      | none => rfl
      | some p =>
        have hw₁ := hops.wf hw
        obtain ⟨i, j, htr, -⟩ := (hw₁.chans.holder k c p.1 p.2).mp hk
        have hrtp := (hw₁.chans.holder ⟨i, (hw₁.chans.lt htr).1⟩ c p.1 false).mpr ⟨i, j, htr, rfl⟩
        exact (hfree _ (mem_finRange _) _ hrtp).elim
  have hops' : Ops h (ops ++ [.hangUp c]) _ := hops.append (.single (.hangUp hfree))
  have hw' := hops'.wf hw
  refine ⟨_, _, ?_, hops', ?_, Table.set_self _, ?_, fun e p i j he hp => ?_⟩
  · simp only [dropConn, hcn, bind_eq_bind, bind_some]
    split at hloop <;> simp_all
  · exact forall_mem_append.mpr ⟨hall, forall_mem_singleton.mpr rfl⟩
  · rw [hw'.conns.mem_iff]
    simp
  · obtain ⟨cn', _, _, _, hcn', -⟩ := hw'.chans_of_ep he hp
    simp at hcn'

end NuWicam.Rtsp
