import NuWicam.Rtsp.Steps

/-!
# What is not served without authentication

Only `DESCRIBE` and `SETUP` ask for authentication. That is enough (`unused_without_credentials`): what a source has to give
goes to sessions with endpoints, and only a `SETUP` gives a session its endpoints and its RTSP session.
-/

namespace NuWicam.Rtsp

open Lib Option

def Heap.Unused (h : Heap) (b : SourceId) : Prop :=
  ∀ a ∈ (h.source b).sessList, ∃ l x, h.live a = some l ∧ l.playing = false ∧ h.sess l.sess = some x ∧
    ∀ t, x.ep t = none

def Output.Without (b : SourceId) : Output → Prop
  | .reply _ r => ∀ p ∈ r.sdp, p.1 ≠ b
  | .rtp b' _ _ => b' ≠ b

/-- The event is no request for a location of the source with a response that is accepted. -/
def Unauthenticated (md5 : Md5) (locs : List RtspLocation) (b : SourceId) (st : State) : Event → Prop
  | .request _ m env => ∀ p ∈ matchedLocation locs m, p.1.source = b →
      checkDigestResponse md5 st.srv.secret env.now m p.1.realm p.1.username p.1.password ≠ 1
  | _ => True

instance (md5 : Md5) (locs : List RtspLocation) (b : SourceId) (st : State) :
    ∀ ev, Decidable (Unauthenticated md5 locs b st ev)
  | .request _ m _ => inferInstanceAs (Decidable (∀ p ∈ matchedLocation locs m, _))
  | .accept _ | .drop _ | .fail _ | .frame _ _ _ _ => isTrue trivial

/-! ## The gate -/

section

variable {md5 : Md5} {locs : List RtspLocation} {b : SourceId}

theorem matchedLocation_mem {m : Pmsg} {loc : RtspLocation} {n : Int} (hm : matchedLocation locs m = some (loc, n)) :
    loc ∈ locs := by
  have hfind : ∀ {base track : Bool}, (findRtspLocation locs m.uri base track).join = some (loc, n) → loc ∈ locs :=
    fun hj => findRtspLocation_mem (join_eq_some_iff.mp hj)
  unfold matchedLocation at hm
  split at hm
  · exact hfind hm
  · exact hfind hm
  · cases hm

theorem checkNonce_le_one (secret : Option Str) (now : UInt32) (nonce : Str) : checkNonce md5 secret now nonce ≤ 1 := by
  unfold checkNonce
  split
  · decide
  · split
    · decide
    · split
      · decide
      · split <;> decide

theorem checkDigestResponse_le_one (secret : Option Str) (now : UInt32) (m : Pmsg) (realm username password : Str) :
    checkDigestResponse md5 secret now m realm username password ≤ 1 := by
  unfold checkDigestResponse
  split
  · decide
  · split
    · decide
    · split
      · decide
      · split
        · decide
        · split
          · decide
          · split
            · decide
            · exact checkNonce_le_one ..

theorem source_ne_of_passes (hrealm : ∀ loc ∈ locs, loc.source = b → loc.realm ≠ []) {st : State} {c : Addr} {m : Pmsg}
    {env : Env} (hun : Unauthenticated md5 locs b st (.request c m env)) {loc : RtspLocation} {n : Int}
    (hm : matchedLocation locs m = some (loc, n)) (hp : Passes md5 st.srv m env loc) : loc.source ≠ b := by
  intro hb
  rcases hp with hp | hp
  · exact hrealm loc (matchedLocation_mem hm) hb hp
  · exact hun _ hm hb (le_antisymm (checkDigestResponse_le_one ..) hp)

end

/-! ## One change -/

def Locked (v : Table View) (b : SourceId) : Prop :=
  ∀ s, ∀ w ∈ v s, w.source = b → w.playing = false ∧ (∀ t, w.ep t = none) ∧ w.ctl = none

def Op.Off (h : Heap) (b : SourceId) : Op → Prop
  | .setup s _ _ | .bind s _ | .play s => ∀ w ∈ h.view s, w.source ≠ b
  | _ => True

section

variable {h h' : Heap} {op : Op} {b : SourceId} {s : Addr}

theorem OpStep.locked (hs : OpStep h op h') (hw : h.Wf) (hi : Locked h.view b) (hoff : op.Off h b) : Locked h'.view b := by
  rw [hs.view hw]
  have hmod : ∀ {s : Addr} {f : View → View}, (∀ w, (f w).source = w.source) →
      (∀ w ∈ h.view s, w.source = b → (f w).playing = false ∧ (∀ t, (f w).ep t = none) ∧ (f w).ctl = none) →
      Locked (h.view.modify s f) b := by
    intro s f hsrc hf s' w' hv' hb
    rw [Table.modify_apply] at hv'
    split at hv'
    · rename_i heq
      subst heq
      obtain ⟨w, hv, rfl⟩ := map_eq_some_iff.mp hv'
      exact hf w hv ((hsrc w).symm.trans hb)
    · exact hi s' w' hv' hb
  cases op with
  | accept | hangUp | connect | ready => exact hi
  | openSession b₀ a s =>
    intro s' w' hv' hb
    rw [Op.onView, Table.put_apply] at hv'
    split at hv'
    · cases hv'
      exact ⟨rfl, fun _ => rfl, rfl⟩
    · exact hi s' w' hv' hb
  | setup s t e => exact hmod (fun _ => rfl) fun w hv hb => absurd hb (hoff w hv)
  | bind s a => exact hmod (fun _ => rfl) fun w hv hb => absurd hb (hoff w hv)
  | play s => exact hmod (fun _ => rfl) fun w hv hb => absurd hb (hoff w hv)
  | drop s t =>
    refine hmod (fun _ => rfl) fun w hv hb => ?_
    obtain ⟨hp, hep, hctl⟩ := hi s w hv hb
    refine ⟨hp, fun t' => ?_, hctl⟩
    simp [Function.update_apply, hep]
  | close s =>
    intro s' w' hv' hb
    rw [Op.onView, Table.del_apply] at hv'
    split at hv'
    · cases hv'
    · exact hi s' w' hv' hb

theorem Op.off_of_removes (hr : op.removes) (h : Heap) : op.Off h b := by
  cases op <;> trivial

theorem Ops.locked {ops : List Op} (hops : Ops h ops h') (hw : h.Wf) (hi : Locked h.view b)
    (hall : ∀ op ∈ ops, ∀ h, op.Off h b) : Locked h'.view b :=
  Ops.inv (I := fun h => Locked h.view b) (fun h _ _ hw hop hi ho => ho.locked hw hi (hop h)) hops hw hall hi

theorem Loses.locked (hl : Loses h h' s) (hw : h.Wf) (hi : Locked h.view b) : Locked h'.view b := by
  obtain ⟨ops, hops, hall⟩ := hl.ops
  exact Ops.locked hops hw hi fun op hop => Op.off_of_removes (hall op hop)

theorem Locked.named {srv : Server} (hi : Locked srv.heap.view b) (hw : srv.heap.Wf) {m : Pmsg} {rs : RtspSession}
    (hn : named srv m = some rs) : ∀ w ∈ srv.heap.view rs.sess, w.source ≠ b := by
  intro w hv hb
  obtain ⟨a, -, hr⟩ := bind_eq_some_iff.mp hn
  obtain ⟨x, hx, hctl⟩ := hw.sess_of_rtsp hr
  obtain ⟨x', l, hx', hl, rfl⟩ := view_eq_some hv
  cases hx.symm.trans hx'
  cases hctl.symm.trans (hi _ _ hv hb).2.2

theorem Locked.unused (hi : Locked h.view b) (hw : h.Wf) : h.Unused b := by
  intro a ha
  obtain ⟨l, hl, hb⟩ := hw.live_of_mem ha
  obtain ⟨x, hx, rfl⟩ := hw.sess_of_live hl
  obtain ⟨hp, hep, -⟩ := hi _ _ (view_eq hx hl) hb
  exact ⟨l, x, hl, hp, hx, hep⟩

theorem Locked.receivers (hi : Locked h.view b) (hw : h.Wf) (t : Track) :
    (h.source b).sessList.filterMap (h.receiver t) = [] := by
  refine List.filterMap_eq_nil_iff.mpr fun a ha => ?_
  obtain ⟨s, w, hv, rfl, hb⟩ := hw.mem_sessList_iff.mp ha
  rw [hw.receiver_eq hv, (hi s w hv hb).1]
  rfl

end

/-! ## Whole runs -/

section

variable {md5 : Md5} {locs : List RtspLocation} {b : SourceId} {st st' : State} {ev : Event}

theorem off_of_open {h h₁ : Heap} {b₀ : SourceId} {a s : Addr} (ho : OpStep h (.openSession b₀ a s) h₁) (hw : h.Wf)
    (hb : b₀ ≠ b) : ∀ w ∈ h₁.view s, w.source ≠ b := by
  intro w hv
  rw [ho.view hw] at hv
  cases (Table.set_self _).symm.trans hv
  exact hb

theorem OpStep.off {h h₁ : Heap} {op : Op} {s : Addr} (ho : OpStep h op h₁) (hw : h.Wf) (hop : op.opens ≠ some s)
    (hoff : ∀ w ∈ h.view s, w.source ≠ b) : ∀ w ∈ h₁.view s, w.source ≠ b := by
  intro w' hv'
  rw [ho.view hw] at hv'
  obtain ⟨w, hv, hk⟩ := Op.onView_some hop hv'
  rw [hk.source]
  exact hoff w hv

theorem without_of_none {c : Addr} {r : Reply} (hr : r.sdp = none) : Output.Without b (.reply c r) := by
  intro p hp
  rw [hr] at hp
  cases hp

theorem Clean.locked {srv : Server} {m : Pmsg} {env : Env} {h' : Heap} {r : Reply} (hc : Clean md5 locs srv m env h' r)
    (hw : srv.heap.Wf) (hi : Locked srv.heap.view b)
    (hne : ∀ {loc n}, matchedLocation locs m = some (loc, n) → Passes md5 srv m env loc → loc.source ≠ b) (c : Addr) :
    Locked h'.view b ∧ Output.Without b (.reply c r) := by
  cases hc with
  | same hr => exact ⟨hi, without_of_none hr⟩
  | brief hm hp ho hl _ hr =>
    refine ⟨hl.locked (ho.wf hw) (ho.locked hw hi trivial), fun p hsdp => ?_⟩
    rw [hr p hsdp]
    exact hne hm hp
  | refused hset _ ho hs hl _ hr =>
    have hoff := off_of_open ho hw (hne hset.location hset.passes)
    have hw₁ := ho.wf hw
    exact ⟨hl.locked (hs.wf hw₁) (hs.locked hw₁ (ho.locked hw hi trivial) hoff), without_of_none hr⟩
  | setup hset _ ho hs hcon hb hr _ =>
    have hoff := off_of_open ho hw (hne hset.location hset.passes)
    have hw₁ := ho.wf hw
    have hw₂ := hs.wf hw₁
    have hi₂ := hs.locked hw₁ (ho.locked hw hi trivial) hoff
    have hoff₃ := hcon.off hw₂ nofun (hs.off hw₁ nofun hoff)
    exact ⟨hb.locked (hcon.wf hw₂) (hcon.locked hw₂ hi₂ trivial) hoff₃, without_of_none hr⟩
  | join _ hn hs hcon hr =>
    exact ⟨hcon.locked (hs.wf hw) (hs.locked hw hi (hi.named hw hn)) trivial, without_of_none hr⟩
  | joinRefused _ hn hs hl hr =>
    exact ⟨hl.locked (hs.wf hw) (hs.locked hw hi (hi.named hw hn)), without_of_none hr⟩
  | teardown _ _ hl hr => exact ⟨hl.locked hw hi, without_of_none hr⟩

theorem Effect.locked {srv : Server} {m : Pmsg} {env : Env} {h' : Heap} {r : Reply}
    (he : Effect md5 locs srv m env h' r) (hw : srv.heap.Wf) (hi : Locked srv.heap.view b)
    (hne : ∀ {loc n}, matchedLocation locs m = some (loc, n) → Passes md5 srv m env loc → loc.source ≠ b) (c : Addr) :
    Locked h'.view b ∧ Output.Without b (.reply c r) := by
  cases he with
  | leak _ _ ho hr => exact ⟨ho.locked hw hi trivial, without_of_none hr⟩
  | play hp ho hr =>
    unfold playTarget at hp
    split at hp
    · obtain ⟨rs, hn, rfl⟩ := map_eq_some_iff.mp hp
      exact ⟨ho.locked hw hi (hi.named hw hn), without_of_none hr⟩
    · cases hp
  | clean _ _ hc => exact hc.locked hw hi hne c

/-- **One event** keeps a protected source locked. -/
theorem step_locked (hrealm : ∀ loc ∈ locs, loc.source = b → loc.realm ≠ []) (hw : st.heap.Wf)
    (hi : Locked st.heap.view b) (hsent : ∀ o ∈ st.sent, o.Without b) (hun : Unauthenticated md5 locs b st ev)
    (hs : step md5 locs st ev = some st') : Locked st'.heap.view b ∧ ∀ o ∈ st'.sent, o.Without b := by
  cases step_effect hw hs with
  | accept ho hsent' => exact ⟨ho.locked hw hi trivial, hsent' ▸ hsent⟩
  | @request c m env r _ he hsent' =>
    obtain ⟨hlock, hout⟩ := he.locked hw hi (source_ne_of_passes hrealm hun) c
    refine ⟨hlock, ?_⟩
    rw [hsent']
    exact List.forall_mem_append.mpr ⟨hsent, List.forall_mem_singleton.mpr hout⟩
  | drop hops hall hsent' =>
    exact ⟨Ops.locked hops hw hi fun op hop => Op.off_of_removes (hall op hop), hsent' ▸ hsent⟩
  | fail hops hall hsent' =>
    exact ⟨Ops.locked hops hw hi fun op hop => Op.off_of_removes (hall op hop), hsent' ▸ hsent⟩
  | idle => exact ⟨hi, hsent⟩
  | @frame b' t accepted fails ops _ _ hops hall hsent' =>
    constructor
    · refine Ops.locked hops hw hi fun op hop => ?_
      rcases hall op hop with rfl | hr
      · exact fun _ => trivial
      · exact Op.off_of_removes hr
    · rw [hsent']
      refine List.forall_mem_append.mpr ⟨hsent, List.forall_mem_map.mpr fun e he hb => ?_⟩
      subst hb
      rw [hi.receivers hw, ite_self] at he
      cases he

end

/-- **The gate**: without an accepted response nothing of a protected source is played or sent. -/
theorem unused_without_credentials (md5 : Md5) (locs : List RtspLocation) (blocks : SourceId → List Directive)
    (evs : List Event) (b : SourceId) (hrealm : ∀ loc ∈ locs, loc.source = b → loc.realm ≠ [])
    (hun : EachStep (step md5 locs) (Unauthenticated md5 locs b) (State.start blocks) evs) :
    Always (step md5 locs) (fun st => st.heap.Unused b ∧ ∀ o ∈ st.sent, o.Without b) (State.start blocks) evs := by
  have hstart : Locked (startHeap blocks).view b := fun _ _ hv => nomatch hv
  have hlock : Always (step md5 locs)
      (fun st => st.heap.Wf ∧ Locked st.heap.view b ∧ ∀ o ∈ st.sent, o.Without b) (State.start blocks) evs :=
    always_of_eachStep (fun _ _ _ hi hc hs => ⟨step_wf hi.1 hs, step_locked hrealm hi.1 hi.2.1 hi.2.2 hc hs⟩)
      ⟨startHeap_wf blocks, hstart, List.forall_mem_nil _⟩ hun
  exact hlock.mono fun _ hi => ⟨hi.2.1.unused hi.1, hi.2.2⟩

theorem unused_without_credentials_guest : (∀ loc ∈ [Camera.location (bytes "cam")], loc.source = 0 → loc.realm ≠ []) ∧
    EachStep (step Md5.ofLibrary [Camera.location (bytes "cam")])
      (Unauthenticated Md5.ofLibrary [Camera.location (bytes "cam")] 0) (State.start (Camera.blocks 4))
      [.accept 1, .frame 0 0 true fun _ => false, Camera.request 1 "DESCRIBE" "rtsp://c/live" [], Camera.setup 2,
        Camera.play 2, Camera.play 1, .frame 0 0 true fun _ => false] ∧
    Always (step Md5.ofLibrary [Camera.location (bytes "cam")])
      (fun st => st.heap.Unused 0 ∧ ∀ o ∈ st.sent, o.Without 0) (State.start (Camera.blocks 4))
      [.accept 1, .frame 0 0 true fun _ => false, Camera.request 1 "DESCRIBE" "rtsp://c/live" [], Camera.setup 2,
        Camera.play 2, Camera.play 1, .frame 0 0 true fun _ => false] :=
  have hrealm := by decide
  have hun := by decide +kernel
  ⟨hrealm, hun, unused_without_credentials _ _ _ _ _ hrealm hun⟩

end NuWicam.Rtsp
