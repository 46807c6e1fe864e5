import NuWicam.Rtsp.Ops

/-!
# Sessions without pointers

What the sessions are, apart from how they are linked: each has a live session of a source, plays or not, has endpoints for
some tracks, and may be under the control of an RTSP session. `OpStep.view` is the link with the memory.
-/

namespace NuWicam.Rtsp

open Lib Option Function

/-- A session with its live session, at the address `priv`. -/
structure View where
  priv : Addr
  source : SourceId
  playing : Bool
  ep : Track → Option Addr
  ctl : Option Addr

def Heap.view (h : Heap) : Table View := fun s =>
  (h.sess s).bind fun x => (h.live x.priv).map fun l => ⟨x.priv, l.source, l.playing, x.ep, x.controlPrivate⟩

def Op.onView (v : Table View) : Op → Table View
  | .openSession b a s => v.put s ⟨a, b, false, fun _ => none, none⟩
  | .setup s t e => v.modify s fun w => { w with ep := update w.ep t (some e) }
  | .bind s a => v.modify s fun w => { w with ctl := some a }
  | .play s => v.modify s fun w => { w with playing := true }
  | .drop s t => v.modify s fun w => { w with ep := update w.ep t none }
  | .close s => v.del s
  | .accept _ | .hangUp _ | .connect _ | .ready _ _ => v

section

variable {h h' : Heap} {op : Op}

variable {s : Addr} {x : Session} {w' : View}

theorem view_eq {l : LiveSession} (hx : h.sess s = some x) (hl : h.live x.priv = some l) :
    h.view s = some ⟨x.priv, l.source, l.playing, x.ep, x.controlPrivate⟩ := by
  simp [Heap.view, hx, hl]

theorem view_eq_some {v : View} (hv : h.view s = some v) :
    ∃ x l, h.sess s = some x ∧ h.live x.priv = some l ∧ v = ⟨x.priv, l.source, l.playing, x.ep, x.controlPrivate⟩ := by
  simp only [Heap.view, bind_eq_some_iff, map_eq_some_iff] at hv
  obtain ⟨x, hx, l, hl, rfl⟩ := hv
  exact ⟨x, l, hx, hl, rfl⟩

theorem view_none (hs : h.sess s = none) : h.view s = none := by simp [Heap.view, hs]

theorem Heap.Wf.priv_ne (hw : h.Wf) {s' : Addr} {x' : Session} (hx : h.sess s = some x) (hx' : h.sess s' = some x')
    (hne : s' ≠ s) : x'.priv ≠ x.priv := by
  intro heq
  obtain ⟨l, hl, rfl⟩ := hw.live_of_sess hx
  obtain ⟨l', hl', rfl⟩ := hw.live_of_sess hx'
  rw [heq, hl] at hl'
  cases hl'
  exact hne rfl

theorem view_put {h₁ : Heap} {x' : Session} {l : LiveSession} {f : View → View} (hx : h.sess s = some x)
    (hl : h.live x.priv = some l) (hs : h₁.sess = h.sess.put s x') (hlive : h₁.live = h.live) (hp : x'.priv = x.priv)
    (hf : f ⟨x.priv, l.source, l.playing, x.ep, x.controlPrivate⟩ =
      ⟨x'.priv, l.source, l.playing, x'.ep, x'.controlPrivate⟩) : h₁.view = h.view.modify s f := by
  funext s'
  rw [Table.modify_apply]
  by_cases hs' : s' = s
  · subst hs'
    have hx₁ : h₁.sess s' = some x' := by rw [hs]; exact Table.set_self _
    have hl₁ : h₁.live x'.priv = some l := by rw [hlive, hp]; exact hl
    rw [if_pos rfl, view_eq hx hl, view_eq hx₁ hl₁, map_some, hf]
  · rw [if_neg hs', Heap.view, Heap.view, hs, hlive, Table.put_ne hs']

/-- **One change**, on the views. -/
theorem OpStep.view (hs : OpStep h op h') (hw : h.Wf) : h'.view = op.onView h.view := by
  cases hs with
  | @accept c _ ho =>
    unfold doAccept at ho
    split at ho
    · cases ho
      rfl
    · cases ho
  | hangUp => rfl
  | @openSession b a s _ ho =>
    obtain ⟨-, ⟨-, ha⟩, -, rfl⟩ := liveOpen_eq ho
    funext s'
    simp only [Op.onView, Heap.view, Table.set_apply]
    by_cases hs' : s' = s
    · simp [hs']
    · simp only [hs', ↓reduceIte]
      cases hx : h.sess s' with
      | none => rfl
      | some x =>
        -- the new live session is not that of an old session
        have hne : x.priv ≠ a := by
          obtain ⟨l, hl, -⟩ := hw.live_of_sess hx
          rintro rfl
          simp [hl] at ha
        simp [hne]
  | setup _ ho =>
    obtain ⟨x, l, _, hx, hl, _, _, _, rfl⟩ := liveSetup_eq ho
    exact view_put hx hl rfl rfl rfl rfl
  | udp _ ho =>
    simp only [connectUdpEndpoint, bind_eq_bind, bind_eq_some_iff] at ho
    obtain ⟨_, _, ho⟩ := ho
    cases ho
    rfl
  | inter _ _ _ ho =>
    obtain ⟨_, _, _, _, _, _, rfl⟩ := connectInterleaved_eq ho
    rfl
  | bind _ ho =>
    obtain ⟨x, hx, _, rfl⟩ := newRtspSession_eq ho
    obtain ⟨l, hl, -⟩ := hw.live_of_sess hx
    exact view_put hx hl rfl rfl rfl rfl
  | @play s _ ho =>
    obtain ⟨x, l, hx, hl, rfl⟩ := livePlay_inv ho
    funext s'
    rw [Op.onView, Table.modify_apply]
    by_cases hs' : s' = s
    · subst hs'
      simp [Heap.view, hx, hl]
    · rw [if_neg hs', Heap.view, Heap.view]
      cases hx' : h.sess s' with
      | none => rfl
      | some x' => simp [Table.put_ne (hw.priv_ne hx hx' hs')]
  | ready => rfl
  | @drop s t x e l _ _ hx ht hl hd hc =>
    obtain ⟨conn, _, hd', hw₁, -, -, rfl⟩ := dropEndpoint_spec hw hx ht
    cases hd.symm.trans hd'
    cases hc.symm.trans (trackCheckRunning_eq hw₁ _ _)
    split
    · exact view_put hx hl rfl rfl rfl rfl
    · exact view_put hx hl rfl rfl rfl rfl
  | @close s x _ hx hnone hc =>
    obtain ⟨l, hl, -⟩ := hw.live_of_sess hx
    obtain ⟨_, _, _, hc', -, rfl⟩ := closeLive_spec hw hx hl hnone
    cases hc.symm.trans hc'
    funext s'
    rw [Op.onView, Table.del_apply]
    by_cases hs' : s' = s
    · simp [hs', Heap.view]
    · rw [if_neg hs', Heap.view, Heap.view]
      simp only [Table.del_ne hs']
      cases hx' : h.sess s' with
      | none => rfl
      | some x' => simp [Table.del_ne (hw.priv_ne hx hx' hs')]

structure View.Keeps (w w' : View) : Prop where
  priv : w'.priv = w.priv
  source : w'.source = w.source
  ctl : w.ctl.isSome → w'.ctl.isSome

theorem View.Keeps.refl (w : View) : w.Keeps w := ⟨rfl, rfl, id⟩

theorem View.Keeps.trans {w w₁ : View} (h : w.Keeps w₁) (h' : w₁.Keeps w') : w.Keeps w' :=
  ⟨h'.priv.trans h.priv, h'.source.trans h.source, h'.ctl ∘ h.ctl⟩

theorem Op.onView_some {v : Table View} (hop : op.opens ≠ some s) (h : op.onView v s = some w') :
    ∃ w, v s = some w ∧ w.Keeps w' := by
  have hmod : ∀ {s₀ : Addr} {f : View → View}, v.modify s₀ f s = some w' → (∀ w : View, w.Keeps (f w)) →
      ∃ w, v s = some w ∧ w.Keeps w' := by
    intro s₀ f h hf
    rw [Table.modify_apply] at h
    split at h
    · obtain ⟨w, hw, rfl⟩ := map_eq_some_iff.mp h
      exact ⟨w, hw, hf w⟩
    · exact ⟨w', h, .refl w'⟩
  cases op with
  | openSession b a s₀ =>
    have hne : s ≠ s₀ := fun heq => hop (heq ▸ rfl)
    exact ⟨w', (Table.put_ne hne _).symm.trans h, .refl w'⟩
  | setup s₀ t e => exact hmod h fun _ => ⟨rfl, rfl, id⟩
  | bind s₀ a => exact hmod h fun _ => ⟨rfl, rfl, fun _ => rfl⟩
  | play s₀ => exact hmod h fun _ => ⟨rfl, rfl, id⟩
  | drop s₀ t => exact hmod h fun _ => ⟨rfl, rfl, id⟩
  | close s₀ =>
    rw [Op.onView, Table.del_apply] at h
    split at h
    · cases h
    · exact ⟨w', h, .refl w'⟩
  | accept | hangUp | connect | ready => exact ⟨w', h, .refl w'⟩

theorem Ops.view_some {ops : List Op} (hops : Ops h ops h') (hw : h.Wf)
    (hall : ∀ op ∈ ops, op.opens ≠ some s) (hv : h'.view s = some w') : ∃ w, h.view s = some w ∧ w.Keeps w' := by
  refine Ops.inv (I := fun h₁ => ∀ w', h₁.view s = some w' → ∃ w, h.view s = some w ∧ w.Keeps w')
    (fun h₁ op h₂ hw₁ hop hi ho w₂ hv₂ => ?_) hops hw hall (fun w hv => ⟨w, hv, .refl w⟩) w' hv
  rw [ho.view hw₁] at hv₂
  obtain ⟨w₁, hv₁, hk₂⟩ := Op.onView_some hop hv₂
  obtain ⟨w, hv, hk₁⟩ := hi w₁ hv₁
  exact ⟨w, hv, hk₁.trans hk₂⟩

theorem Op.onView_ep {v : Table View} {t : Track} (h : op.onView v s = some w') (ht : (w'.ep t).isSome) :
    ∃ w, v s = some w ∧ w'.source = w.source ∧ ((w.ep t).isSome ∨ ∃ e, op = .setup s t e) := by
  have hmod : ∀ {s₀ : Addr} {f : View → View}, v.modify s₀ f s = some w' → (∀ w : View, (f w).source = w.source) →
      (s = s₀ → ∀ w : View, ((f w).ep t).isSome → (w.ep t).isSome ∨ ∃ e, op = .setup s t e) →
      ∃ w, v s = some w ∧ w'.source = w.source ∧ ((w.ep t).isSome ∨ ∃ e, op = .setup s t e) := by
    intro s₀ f h hsrc hf
    rw [Table.modify_apply] at h
    split at h
    · rename_i heq
      obtain ⟨w, hw, rfl⟩ := map_eq_some_iff.mp h
      exact ⟨w, hw, hsrc w, hf heq w ht⟩
    · exact ⟨w', h, rfl, .inl ht⟩
  cases op with
  | openSession b a s₀ =>
    rw [Op.onView, Table.put_apply] at h
    split at h
    · cases h
      cases ht
    · exact ⟨w', h, rfl, .inl ht⟩
  | setup s₀ t₀ e =>
    refine hmod h (fun _ => rfl) fun heq w (hsome : (update w.ep t₀ (some e) t).isSome) => ?_
    by_cases htt : t = t₀
    · exact .inr ⟨e, by rw [heq, htt]⟩
    · exact .inl (by rwa [update_of_ne htt] at hsome)
  | drop s₀ t₀ =>
    refine hmod h (fun _ => rfl) fun _ w (hsome : (update w.ep t₀ none t).isSome) => .inl ?_
    rw [update_apply] at hsome
    split at hsome
    · cases hsome
    · exact hsome
  | bind s₀ a => exact hmod h (fun _ => rfl) fun _ _ => .inl
  | play s₀ => exact hmod h (fun _ => rfl) fun _ _ => .inl
  | close s₀ =>
    rw [Op.onView, Table.del_apply] at h
    split at h
    · cases h
    · exact ⟨w', h, rfl, .inl ht⟩
  | accept | hangUp | connect | ready => exact ⟨w', h, rfl, .inl ht⟩

/-! ## What is read off the views -/

theorem Heap.Wf.mem_sessList_iff (hw : h.Wf) {b : SourceId} {a : Addr} :
    a ∈ (h.source b).sessList ↔ ∃ s v, h.view s = some v ∧ v.priv = a ∧ v.source = b := by
  constructor
  · intro ha
    obtain ⟨l, hl, rfl⟩ := hw.live_of_mem ha
    obtain ⟨x, hx, rfl⟩ := hw.sess_of_live hl
    exact ⟨l.sess, _, view_eq hx hl, rfl, rfl⟩
  · rintro ⟨s, v, hv, rfl, rfl⟩
    obtain ⟨x, l, hx, hl, rfl⟩ := view_eq_some hv
    exact hw.mem_of_live hl

theorem Heap.Wf.receiver_eq (hw : h.Wf) {w : View} (hv : h.view s = some w) (t : Track) :
    h.receiver t w.priv = if w.playing then w.ep t else none := by
  obtain ⟨x, l, hx, hl, rfl⟩ := view_eq_some hv
  obtain ⟨l', hl', rfl⟩ := hw.live_of_sess hx
  cases hl.symm.trans hl'
  simp [Heap.receiver, hl, hx]

def View.Demands (w : View) (b : SourceId) (t : Track) : Prop := w.source = b ∧ w.playing = true ∧ (w.ep t).isSome

def Demanded (v : Table View) (b : SourceId) (t : Track) : Prop := ∃ s w, v s = some w ∧ w.Demands b t

theorem Heap.Wf.demand_iff (hw : h.Wf) {b : SourceId} {t : Track} : h.demand b t ↔ Demanded h.view b t := by
  rw [Heap.demand, List.any_eq_true]
  constructor
  · rintro ⟨a, ha, hsome⟩
    obtain ⟨s, v, hv, rfl, hb⟩ := hw.mem_sessList_iff.mp ha
    rw [hw.receiver_eq hv] at hsome
    cases hp : v.playing with
    | false => simp [hp] at hsome
    | true => exact ⟨s, v, hv, hb, hp, by simpa [hp] using hsome⟩
  · rintro ⟨s, v, hv, hb, hp, hsome⟩
    refine ⟨v.priv, hw.mem_sessList_iff.mpr ⟨s, v, hv, rfl, hb⟩, ?_⟩
    rw [hw.receiver_eq hv, hp]
    exact hsome

end

end NuWicam.Rtsp
