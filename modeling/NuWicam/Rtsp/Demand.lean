import NuWicam.Rtsp.Steps

/-!
# Which tracks wait for frames

The destination of a track waits until the first frame makes it ready, and then while a session plays it. The flag goes wrong
at a first frame while a session plays already, at the end of a session before the first frame, and when a track is added to
a session that plays (`waiting_iff_of_orderly`).
-/

namespace NuWicam.Rtsp

open Lib Option Function

/-- The destination of a track waits if and only if the track is not ready or some session plays it. -/
def Heap.Served (h : Heap) : Prop :=
  ∀ b t, ((h.source b).track t).rtp.isSome →
    (((h.source b).track t).waiting = true ↔ ((h.source b).track t).ready = false ∨ h.demand b t = true)

structure Heap.Fed (h : Heap) : Prop where
  wf : h.Wf
  served : h.Served
  eps : ∀ s, ∀ w ∈ h.view s, ∀ t, (w.ep t).isSome → ((h.source w.source).track t).ready = true

section

variable {h h' : Heap} {op : Op} {v : Table View} {s : Addr} {b : SourceId} {t : Track}

/-! ## Demand -/

variable {f : View → View} {t₀ : Track}

theorem demanded_modify (hf : ∀ w, v s = some w → ((f w).Demands b t ↔ w.Demands b t)) :
    Demanded (v.modify s f) b t ↔ Demanded v b t := by
  refine exists_congr fun s' => ?_
  rw [Table.modify_apply]
  split
  · rename_i heq
    subst heq
    cases hv : v s' with
    | none => rfl
    | some w => simpa using hf w hv
  · rfl

theorem demanded_modify_of {w : View} (hv : v s = some w) (hd : (f w).Demands b t) : Demanded (v.modify s f) b t :=
  ⟨s, f w, by rw [Table.modify_apply, if_pos rfl, hv]; rfl, hd⟩

theorem Demanded.of_modify (hf : ∀ w : View, (f w).Demands b t → w.Demands b t)
    (hd : Demanded (v.modify s f) b t) : Demanded v b t := by
  obtain ⟨s', w', hv', hd⟩ := hd
  rw [Table.modify_apply] at hv'
  split at hv'
  · obtain ⟨w, hv, rfl⟩ := map_eq_some_iff.mp hv'
    exact ⟨s', w, hv, hf w hd⟩
  · exact ⟨s', w', hv', hd⟩

theorem demands_update (htt : t ≠ t₀) (w : View) (o : Option Addr) :
    View.Demands { w with ep := update w.ep t₀ o } b t ↔ w.Demands b t := by
  simp only [View.Demands, update_of_ne htt]

def Op.idle : Op → Bool
  | .setup _ _ _ | .play _ | .ready _ _ | .drop _ _ => false
  | _ => true

theorem OpStep.demand_eq (hs : OpStep h op h') (hw : h.Wf) (hop : op.idle) : h'.demand b t = h.demand b t := by
  rw [Bool.eq_iff_iff, (hs.wf hw).demand_iff, hw.demand_iff, hs.view hw]
  cases hs with
  | accept | hangUp | udp | inter => rfl
  | @openSession b₀ a s _ ho =>
    obtain ⟨-, -, ⟨-, hnew⟩, -⟩ := liveOpen_eq ho
    refine exists_congr fun s' => ?_
    rw [Op.onView, Table.put_apply]
    split
    · rename_i heq
      rw [heq, view_none hnew]
      simp [View.Demands]
    · rfl
  | bind => exact demanded_modify fun _ _ => Iff.rfl
  | @close s x _ hx hnone =>
    refine exists_congr fun s' => ?_
    rw [Op.onView, Table.del_apply]
    split
    · rename_i heq
      obtain ⟨l, hl, -⟩ := hw.live_of_sess hx
      rw [heq, view_eq hx hl]
      simp [View.Demands, hnone]
    · rfl
  | setup | play | ready | drop => cases hop

/-! ## Flags -/

theorem OpStep.track_eq (hs : OpStep h op h') (hw : h.Wf) (hop : op.idle ∨ op.quiet) :
    (h'.source b).track t = (h.source b).track t := by
  cases hq : op.quiet with
  | true => rw [(hs.frame hq).1]
  | false =>
    have hop := hop.resolve_right (by rw [hq]; exact nofun)
    cases hs with
    | openSession ho =>
      obtain ⟨-, -, -, rfl⟩ := liveOpen_eq ho
      exact update_same (fun src : LiveSource => src.track t) (by rfl) b
    | close hx hnone hc =>
      obtain ⟨l, hl, -⟩ := hw.live_of_sess hx
      obtain ⟨_, _, _, hc', -, rfl⟩ := closeLive_spec hw hx hl hnone
      cases hc.symm.trans hc'
      exact update_same (fun src : LiveSource => src.track t) (by rfl) b
    | accept | hangUp | setup | udp | inter | bind => cases hq
    | play | ready | drop => cases hop

theorem OpStep.track_play (hs : OpStep h (.play s) h') (hw : h.Wf) : ∃ w, h.view s = some w ∧
    ∀ b t, (h'.source b).track t = if b = w.source ∧ (w.ep t).isSome then { (h.source b).track t with waiting := true }
      else (h.source b).track t := by
  cases hs with
  | play ho =>
    obtain ⟨x, l, hx, hl, rfl⟩ := livePlay_inv ho
    refine ⟨_, view_eq hx hl, fun b t => ?_⟩
    simp only [update_apply]
    by_cases hb : b = l.source
    · subst hb
      have hmem : t ∈ (h.source l.source).tracks ∧ (x.ep t).isSome ↔ (x.ep t).isSome :=
        and_iff_right_of_imp fun ht => by
          obtain ⟨e, he⟩ := isSome_iff_exists.mp ht
          exact hw.mem_tracks hx hl he
      simp [↓reduceIte, LiveSource.played, hmem]
    · simp [hb]

theorem demand_setWaiting {b₀ : SourceId} {waiting : Bool} : (setWaiting h b₀ t₀ waiting).demand b t = h.demand b t := by
  rw [Heap.demand, Heap.demand, setWaiting, sessList_modifyTrack]
  rfl

theorem OpStep.track_drop (hs : OpStep h (.drop s t) h') (hw : h.Wf) : ∃ w, h.view s = some w ∧ (w.ep t).isSome ∧
    ∀ b' t', (h'.source b').track t' = if b' = w.source ∧ t' = t ∧ h'.demand b' t' = false then
      { (h.source b').track t' with waiting := false } else (h.source b').track t' := by
  cases hs with
  | @drop _ _ x e l h₁ _ hx ht hl hd hc =>
    obtain ⟨conn, h₂, hd', hw₁, -, -, heq⟩ := dropEndpoint_spec hw hx ht
    have hsrc : h₂.source = h.source := by rw [heq]
    cases hd.symm.trans hd'
    cases hc.symm.trans (trackCheckRunning_eq hw₁ _ _)
    refine ⟨_, view_eq hx hl, isSome_iff_exists.mpr ⟨e, ht⟩, fun b' t' => ?_⟩
    cases hdem : h₁.demand l.source t with
    | true =>
      have hno : ¬ (b' = l.source ∧ t' = t ∧ h₁.demand b' t' = false) := by
        rintro ⟨rfl, rfl, hfalse⟩
        cases hdem.symm.trans hfalse
      simp only [↓reduceIte, hno, hsrc]
    | false =>
      simp only [Bool.false_eq_true, ↓reduceIte, demand_setWaiting]
      rw [setWaiting, track_modifyTrack, hsrc]
      by_cases hbt : b' = l.source ∧ t' = t
      · obtain ⟨rfl, rfl⟩ := hbt
        simp [hdem]
      · rw [if_neg hbt, if_neg fun hc => hbt ⟨hc.1, hc.2.1⟩]

theorem OpStep.track_ready (hs : OpStep h (.ready b t) h') : ((h.source b).track t).ready = false ∧
    ∀ b' t', (h'.source b').track t' = if b' = b ∧ t' = t then
      { (h.source b').track t' with waiting := false, ready := true } else (h.source b').track t' := by
  cases hs with
  | ready hready =>
    refine ⟨hready, fun b' t' => ?_⟩
    rw [track_modifyTrack, setWaiting, track_modifyTrack, track_modifyTrack]
    by_cases hbt : b' = b ∧ t' = t
    · obtain ⟨rfl, rfl⟩ := hbt
      simp
    · simp [hbt]

/-! ## One change -/

/-- A `SETUP` is for a track that is ready and, if the session plays, for one that waits for frames already. -/
def Op.Orderly (h : Heap) : Op → Prop
  | .setup s t _ => ∀ w ∈ h.view s, ((h.source w.source).track t).ready = true ∧
      (w.playing = true → ((h.source w.source).track t).waiting = true)
  | _ => True

theorem OpStep.ready_mono (hs : OpStep h op h') (hw : h.Wf) (hr : ((h.source b).track t).ready) :
    ((h'.source b).track t).ready = true := by
  cases op with
  | play s =>
    obtain ⟨w, -, htrack⟩ := hs.track_play hw
    rw [htrack]
    split <;> exact hr
  | ready b₀ t₀ =>
    rw [hs.track_ready.2]
    split
    · rfl
    · exact hr
  | drop s t₀ =>
    obtain ⟨w, -, -, htrack⟩ := hs.track_drop hw
    rw [htrack]
    split <;> exact hr
  | setup s t₀ e => rwa [hs.track_eq hw (.inr rfl)]
  | accept | hangUp | openSession | connect | bind | close => rwa [hs.track_eq hw (.inl rfl)]

theorem OpStep.eps_ready (hs : OpStep h op h') (hi : h.Fed) (hop : op.Orderly h) :
    ∀ s, ∀ w ∈ h'.view s, ∀ t, (w.ep t).isSome → ((h'.source w.source).track t).ready = true := by
  intro s w' hv' t ht
  rw [hs.view hi.wf] at hv'
  obtain ⟨w, hv, hb, hsome | ⟨e, rfl⟩⟩ := Op.onView_ep hv' ht
  · rw [hb]
    exact hs.ready_mono hi.wf (hi.eps s w hv t hsome)
  · rw [hb]
    exact hs.ready_mono hi.wf (hop w hv).1

theorem served_setup {e : Addr} (hs : OpStep h (.setup s t₀ e) h') (hi : h.Fed)
    (hop : Op.Orderly h (.setup s t₀ e)) : h'.Served := by
  intro b t hrtp
  rw [hs.track_eq hi.wf (.inr rfl)] at hrtp ⊢
  have hdem := (hs.wf hi.wf).demand_iff (b := b) (t := t)
  rw [hs.view hi.wf, Op.onView] at hdem
  by_cases hnew : ∃ w, h.view s = some w ∧ w.source = b ∧ w.playing ∧ t = t₀
  · -- the session plays: frames are delivered to the track already
    obtain ⟨w, hv, rfl, hp, rfl⟩ := hnew
    exact iff_of_true ((hop w hv).2 hp) (.inr (hdem.mpr (demanded_modify_of hv ⟨rfl, hp, by simp⟩)))
  · rw [hdem, demanded_modify, ← hi.wf.demand_iff]
    · exact hi.served b t hrtp
    · intro w hv
      by_cases htt : t = t₀
      · exact iff_of_false (fun hd => hnew ⟨w, hv, hd.1, hd.2.1, htt⟩) fun hd => hnew ⟨w, hv, hd.1, hd.2.1, htt⟩
      · exact demands_update htt w _

theorem served_play (hs : OpStep h (.play s) h') (hi : h.Fed) : h'.Served := by
  intro b t hrtp
  obtain ⟨w, hv, htrack⟩ := hs.track_play hi.wf
  have hdem := (hs.wf hi.wf).demand_iff (b := b) (t := t)
  rw [hs.view hi.wf, Op.onView] at hdem
  rw [htrack] at hrtp ⊢
  by_cases hc : b = w.source ∧ (w.ep t).isSome
  · rw [if_pos hc]
    obtain ⟨rfl, hep⟩ := hc
    exact iff_of_true rfl (.inr (hdem.mpr (demanded_modify_of hv ⟨rfl, rfl, hep⟩)))
  · rw [if_neg hc] at hrtp ⊢
    rw [hdem, demanded_modify, ← hi.wf.demand_iff]
    · exact hi.served b t hrtp
    · intro w' hv'
      cases hv.symm.trans hv'
      exact iff_of_false (fun hd => hc ⟨hd.1.symm, hd.2.2⟩) fun hd => hc ⟨hd.1.symm, hd.2.2⟩

theorem served_ready {b₀ : SourceId} (hs : OpStep h (.ready b₀ t₀) h') (hi : h.Fed) : h'.Served := by
  intro b t hrtp
  obtain ⟨hready, htrack⟩ := hs.track_ready
  have hdem : h'.demand b t = h.demand b t := by
    rw [Bool.eq_iff_iff, (hs.wf hi.wf).demand_iff, hi.wf.demand_iff, hs.view hi.wf]
    rfl
  rw [htrack] at hrtp ⊢
  rw [hdem]
  by_cases hc : b = b₀ ∧ t = t₀
  · obtain ⟨rfl, rfl⟩ := hc
    have hnone : h.demand b t ≠ true := fun hd => by
      obtain ⟨s, w, hv, rfl, -, hep⟩ := hi.wf.demand_iff.mp hd
      cases hready.symm.trans (hi.eps s w hv t hep)
    simp [hnone]
  · rw [if_neg hc] at hrtp ⊢
    exact hi.served b t hrtp

theorem served_drop (hs : OpStep h (.drop s t₀) h') (hi : h.Fed) : h'.Served := by
  intro b t hrtp
  obtain ⟨w, hv, hep, htrack⟩ := hs.track_drop hi.wf
  have hdem := (hs.wf hi.wf).demand_iff (b := b) (t := t)
  rw [hs.view hi.wf, Op.onView] at hdem
  rw [htrack] at hrtp ⊢
  by_cases hbt : b = w.source ∧ t = t₀
  · obtain ⟨rfl, rfl⟩ := hbt
    have hready := hi.eps s w hv t hep
    cases hd : h'.demand w.source t with
    | false => simp [hready]
    | true =>
      simp only [hd, Bool.true_eq_false, and_false, ↓reduceIte] at hrtp ⊢
      have hold : h.demand w.source t := by
        refine hi.wf.demand_iff.mpr ((hdem.mp hd).of_modify fun w' hd' => ?_)
        exact absurd hd'.2.2 (by simp)
      simpa [hold] using hi.served w.source t hrtp
  · have hc : ¬ (b = w.source ∧ t = t₀ ∧ h'.demand b t = false) := fun hc => hbt ⟨hc.1, hc.2.1⟩
    rw [if_neg hc] at hrtp ⊢
    rw [hdem, demanded_modify, ← hi.wf.demand_iff]
    · exact hi.served b t hrtp
    · intro w' hv'
      cases hv.symm.trans hv'
      by_cases htt : t = t₀
      · exact iff_of_false (fun hd => hbt ⟨hd.1.symm, htt⟩) fun hd => hbt ⟨hd.1.symm, htt⟩
      · exact demands_update htt w _

theorem OpStep.fed (hs : OpStep h op h') (hi : h.Fed) (hop : op.Orderly h) : h'.Fed := by
  refine ⟨hs.wf hi.wf, ?_, hs.eps_ready hi hop⟩
  cases op with
  | setup s t e => exact served_setup hs hi hop
  | play s => exact served_play hs hi
  | ready b t => exact served_ready hs hi
  | drop s t => exact served_drop hs hi
  | accept | hangUp | openSession | connect | bind | close =>
    intro b t hrtp
    rw [hs.track_eq hi.wf (.inl rfl)] at hrtp ⊢
    rw [hs.demand_eq hi.wf rfl]
    exact hi.served b t hrtp

theorem Op.orderly_of_removes (hr : op.removes) (h : Heap) : op.Orderly h := by
  cases op <;> trivial

theorem Ops.fed {ops : List Op} (hops : Ops h ops h') (hi : h.Fed) (hall : ∀ op ∈ ops, ∀ h, op.Orderly h) : h'.Fed :=
  hops.keeps (I := Heap.Fed) (A := fun op => ∀ h, op.Orderly h) (fun h _ _ hop hi ho => ho.fed hi (hop h)) hall hi

theorem Loses.fed (hl : Loses h h' s) (hi : h.Fed) : h'.Fed := by
  obtain ⟨ops, hops, hall⟩ := hl.ops
  exact Ops.fed hops hi fun op hop => Op.orderly_of_removes (hall op hop)

theorem orderly_of_open {a : Addr} (ho : OpStep h (.openSession b a s) h') (hw : h.Wf)
    (hr : ((h.source b).track t).ready) (e : Addr) : Op.Orderly h' (.setup s t e) := by
  intro w hv
  have hnew : h'.view s = some ⟨a, b, false, fun _ => none, none⟩ := by
    rw [ho.view hw]
    exact Table.set_self _
  cases hnew.symm.trans hv
  exact ⟨ho.ready_mono hw hr, nofun⟩

end

/-! ## Whole runs -/

def Orderly (locs : List RtspLocation) (st : State) : Event → Prop
  | .request _ m _ => methodOf m = .setup → ∀ p ∈ matchedLocation locs m, ∀ t : Track, p.2 = (t.val : Int) →
      (getHeader m (bytes "Session") = none → ((st.heap.source p.1.source).track t).ready = true) ∧
      ∀ rs ∈ named st.srv m, ∀ w ∈ st.heap.view rs.sess, ((st.heap.source w.source).track t).ready = true ∧
        (w.playing = true → ((st.heap.source w.source).track t).waiting = true)
  | _ => True

instance (locs : List RtspLocation) (st : State) : ∀ ev, Decidable (Orderly locs st ev)
  | .request _ m _ => inferInstanceAs (Decidable (methodOf m = .setup → ∀ p ∈ matchedLocation locs m, _))
  | .accept _ | .drop _ | .fail _ | .frame _ _ _ _ => isTrue trivial

section

variable {md5 : Md5} {locs : List RtspLocation} {st st' : State} {ev : Event}

theorem Clean.fed {c : Addr} {m : Pmsg} {env : Env} {h' : Heap} {r : Reply} (hc : Clean md5 locs st.srv m env h' r)
    (hi : st.heap.Fed) (hord : Orderly locs st (.request c m env)) : h'.Fed := by
  -- the track of a new session is ready, and so is that of a session which is named
  have hnew : ∀ {loc t h₁}, SetupOf md5 locs st.srv m env loc t → getHeader m (bytes "Session") = none →
      OpStep st.heap (.openSession loc.source env.live env.sess) h₁ → Op.Orderly h₁ (.setup env.sess t env.ep) :=
    fun hset hnone ho => orderly_of_open ho hi.wf ((hord hset.method _ hset.location _ rfl).1 hnone) _
  have hjoin : ∀ {loc t rs}, SetupOf md5 locs st.srv m env loc t → named st.srv m = some rs →
      Op.Orderly st.heap (.setup rs.sess t env.ep) :=
    fun hset hrs => (hord hset.method _ hset.location _ rfl).2 _ hrs
  cases hc with
  | same => exact hi
  | brief _ _ ho hl => exact hl.fed (ho.fed hi trivial)
  | refused hset hnone ho hs hl => exact hl.fed (hs.fed (ho.fed hi trivial) (hnew hset hnone ho))
  | setup hset hnone ho hs hcon hb =>
    have hi₂ := hs.fed (ho.fed hi trivial) (hnew hset hnone ho)
    exact hb.fed (hcon.fed hi₂ trivial) trivial
  | join hset hrs hs hcon => exact hcon.fed (hs.fed hi (hjoin hset hrs)) trivial
  | joinRefused hset hrs hs hl => exact hl.fed (hs.fed hi (hjoin hset hrs))
  | teardown _ _ hl => exact hl.fed hi

/-- **One event** keeps the tracks fed. -/
theorem step_fed (hi : st.heap.Fed) (hord : Orderly locs st ev) (hs : step md5 locs st ev = some st') : st'.heap.Fed := by
  cases step_effect hi.wf hs with
  | accept ho => exact ho.fed hi trivial
  | request he =>
    cases he with
    | leak _ _ ho => exact ho.fed hi trivial
    | play _ ho => exact ho.fed hi trivial
    | clean _ _ hc => exact hc.fed hi hord
  | drop hops hall => exact Ops.fed hops hi fun op hop => Op.orderly_of_removes (hall op hop)
  | fail hops hall => exact Ops.fed hops hi fun op hop => Op.orderly_of_removes (hall op hop)
  | idle => exact hi
  | frame _ hops hall =>
    refine Ops.fed hops hi fun op hop => ?_
    rcases hall op hop with rfl | hr
    · exact fun _ => trivial
    · exact Op.orderly_of_removes hr

end

theorem startHeap_fed (blocks : SourceId → List Directive) : (startHeap blocks).Fed := by
  have hflags : ∀ b t, (((startHeap blocks).source b).track t).ready = false ∧
      ((((startHeap blocks).source b).track t).rtp.isSome →
        (((startHeap blocks).source b).track t).waiting) := by
    intro b
    refine startHeap_source (P := fun src => ∀ t, (src.track t).ready = false ∧
      ((src.track t).rtp.isSome → (src.track t).waiting)) (fun _ => ⟨rfl, nofun⟩)
      (fun src d hz => ?_) blocks b
    cases d with
    | track m =>
      cases m with
      | none => exact hz
      | some m =>
        simp only [LiveSource.configure]
        split
        · exact hz
        · intro t
          simp only [update_apply]
          split
          · exact ⟨(hz _).1, fun _ => rfl⟩
          · exact hz t
    | mtu n => exact hz
    | conn n => exact hz
  exact ⟨startHeap_wf blocks, fun b t hrtp => iff_of_true ((hflags b t).2 hrtp) (.inl (hflags b t).1),
    fun _ _ hv => by cases hv⟩

/-- **Demand**: in an orderly run a track waits exactly if it is not ready or some session plays it. -/
theorem waiting_iff_of_orderly (md5 : Md5) (locs : List RtspLocation) (blocks : SourceId → List Directive)
    (evs : List Event) (hord : EachStep (step md5 locs) (Orderly locs) (State.start blocks) evs) :
    Always (step md5 locs) (fun st => st.heap.Served) (State.start blocks) evs := by
  have hfed : Always (step md5 locs) (fun st => st.heap.Fed) (State.start blocks) evs :=
    always_of_eachStep (fun _ _ _ hi hc hs => step_fed hi hc hs) (startHeap_fed blocks) hord
  exact hfed.mono fun _ hi => hi.served

theorem waiting_iff_after_frame :
    EachStep (step Md5.ofLibrary [Camera.location []]) (Orderly [Camera.location []]) (State.start (Camera.blocks 4))
      [.frame 0 0 true fun _ => false, .accept 1, Camera.setup 1, Camera.play 1, .drop 1] ∧
    Always (step Md5.ofLibrary [Camera.location []]) (fun st => st.heap.Served) (State.start (Camera.blocks 4))
      [.frame 0 0 true fun _ => false, .accept 1, Camera.setup 1, Camera.play 1, .drop 1] :=
  have hord := by decide +kernel
  ⟨hord, waiting_iff_of_orderly _ _ _ _ hord⟩

theorem first_frame_stops_track : ¬ Always (step Md5.ofLibrary [Camera.location []]) (fun st => st.heap.Served)
    (State.start (Camera.blocks 4)) [.accept 1, Camera.setup 1, Camera.play 1, .frame 0 0 true fun _ => false] := by
  intro h
  have heval : (run (step Md5.ofLibrary [Camera.location []]) (State.start (Camera.blocks 4))
      [.accept 1, Camera.setup 1, Camera.play 1, .frame 0 0 true fun _ => false]).map
      (fun st => (((st.heap.source 0).track 0).rtp.isSome, ((st.heap.source 0).track 0).waiting, st.heap.demand 0 0)) =
      some (true, false, true) := by decide +kernel
  obtain ⟨st, hrun, hst⟩ := map_eq_some_iff.mp heval
  simp only [Prod.mk.injEq] at hst
  have hwait := (h.last hrun 0 0 hst.1).mpr (.inr hst.2.2)
  cases hwait.symm.trans hst.2.1

end NuWicam.Rtsp
