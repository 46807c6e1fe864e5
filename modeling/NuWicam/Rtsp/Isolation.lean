import NuWicam.Rtsp.Steps

/-!
# What a client can do to the others

A request leaves every session alone whose id is not in its `Session` header (`request_isolated`).
-/

namespace NuWicam.Rtsp

open Lib Option

def Op.Touches (s : Addr) : Op → Prop
  | .openSession _ _ s' | .setup s' _ _ | .bind s' _ | .play s' | .drop s' _ | .close s' => s' = s
  | .accept _ | .hangUp _ | .connect _ | .ready _ _ => False

section

variable {h h' : Heap} {op : Op} {s s' : Addr}

theorem OpStep.view_ne (ho : OpStep h op h') (hw : h.Wf) (hne : ¬ op.Touches s) : h'.view s = h.view s := by
  rw [ho.view hw]
  cases op with
  | openSession => exact Table.put_ne (Ne.symm hne) _
  | setup | bind | play | drop => exact (Table.modify_apply ..).trans (if_neg (Ne.symm hne))
  | close => exact Table.del_ne (Ne.symm hne)
  | accept | hangUp | connect | ready => rfl

theorem OpStep.ne_of_open {b : SourceId} {a : Addr} (ho : OpStep h (.openSession b a s') h') (hv : (h.view s).isSome) :
    s' ≠ s := by
  rintro rfl
  cases ho with
  | openSession ho =>
    obtain ⟨-, -, ⟨-, hs⟩, -⟩ := liveOpen_eq ho
    rw [view_none hs] at hv
    cases hv

theorem Op.onView_of_removes (hr : op.removes) {v : Table View} {w' : View} (h : op.onView v s = some w') :
    ∃ w, v s = some w ∧ (w'.source, w'.playing) = (w.source, w.playing) := by
  cases op with
  | drop =>
    rw [Op.onView, Table.modify_apply] at h
    split at h
    · obtain ⟨w, hw, rfl⟩ := map_eq_some_iff.mp h
      exact ⟨w, hw, rfl⟩
    · exact ⟨w', h, rfl⟩
  | close =>
    rw [Op.onView, Table.del_apply] at h
    split at h
    · cases h
    · exact ⟨w', h, rfl⟩
  | hangUp => exact ⟨w', h, rfl⟩
  | accept | openSession | setup | connect | bind | play | ready => cases hr

theorem Loses.view_ne (hl : Loses h h' s') (hw : h.Wf) (hne : s' ≠ s) : h'.view s = h.view s := by
  obtain ⟨ops, hops, hall⟩ := hl.ops
  have hkeep := hops.inv (I := fun h₁ => ∀ w', h₁.view s = some w' →
      ∃ w, h.view s = some w ∧ (w'.source, w'.playing) = (w.source, w.playing)) (fun h₁ op h₂ hw₁ hr hi ho w₂ hv₂ => by
    rw [ho.view hw₁] at hv₂
    obtain ⟨w₁, hv₁, heq₂⟩ := Op.onView_of_removes hr hv₂
    obtain ⟨w, hv, heq₁⟩ := hi w₁ hv₁
    exact ⟨w, hv, heq₂.trans heq₁⟩) hw hall fun w hv => ⟨w, hv, rfl⟩
  have hsess := hl.others s hne.symm
  cases hx : h.sess s with
  | none => rw [view_none hx, view_none (hsess.trans hx)]
  | some x =>
    obtain ⟨l, hlive, -⟩ := hw.live_of_sess hx
    obtain ⟨l', hlive', -⟩ := (hl.wf hw).live_of_sess (hsess.trans hx)
    have hv' := view_eq (hsess.trans hx) hlive'
    obtain ⟨w, hv, heq⟩ := hkeep _ hv'
    cases hv.symm.trans (view_eq hx hlive)
    obtain ⟨hb, hp⟩ := Prod.mk.inj heq
    rw [hv', hv, Option.some.injEq, View.mk.injEq]
    exact ⟨rfl, hb, hp, rfl, rfl⟩

variable {md5 : Md5} {locs : List RtspLocation} {srv : Server} {m : Pmsg} {env : Env} {r : Reply}

theorem Clean.view_ne (hc : Clean md5 locs srv m env h' r) (hw : srv.heap.Wf) (hv : (srv.heap.view s).isSome)
    (hother : ∀ rs, named srv m = some rs → rs.sess ≠ s) : h'.view s = srv.heap.view s := by
  cases hc with
  | same => rfl
  | brief _ _ ho hl =>
    have hne := ho.ne_of_open hv
    rw [hl.view_ne (ho.wf hw) hne, ho.view_ne hw hne]
  | refused _ _ ho hs hl =>
    have hne := ho.ne_of_open hv
    have hw₁ := ho.wf hw
    rw [hl.view_ne (hs.wf hw₁) hne, hs.view_ne hw₁ hne, ho.view_ne hw hne]
  | setup _ _ ho hs hcon hb =>
    have hne := ho.ne_of_open hv
    have hw₁ := ho.wf hw
    have hw₂ := hs.wf hw₁
    rw [hb.view_ne (hcon.wf hw₂) hne, hcon.view_ne hw₂ id, hs.view_ne hw₁ hne, ho.view_ne hw hne]
  | join _ hn hs hcon => rw [hcon.view_ne (hs.wf hw) id, hs.view_ne hw (hother _ hn)]
  | joinRefused _ hn hs hl => rw [hl.view_ne (hs.wf hw) (hother _ hn), hs.view_ne hw (hother _ hn)]
  | teardown _ hn hl => exact hl.view_ne hw (hother _ hn)

theorem Effect.view_ne (he : Effect md5 locs srv m env h' r) (hw : srv.heap.Wf) (hv : (srv.heap.view s).isSome)
    (hother : ∀ rs, named srv m = some rs → rs.sess ≠ s) : h'.view s = srv.heap.view s := by
  cases he with
  | leak _ _ ho => exact ho.view_ne hw (ho.ne_of_open hv)
  | play hp ho =>
    unfold playTarget at hp
    split at hp
    · obtain ⟨rs, hn, rfl⟩ := map_eq_some_iff.mp hp
      exact ho.view_ne hw (hother rs hn)
    · cases hp
  | clean _ _ hc => exact hc.view_ne hw hv hother

/-- The `Session` header is the id of the session. -/
def Names (h : Heap) (m : Pmsg) (w : View) : Prop :=
  ∃ a rs, w.ctl = some a ∧ h.rtsp a = some rs ∧ getHeader m (bytes "Session") = some rs.id

theorem names_of_named (hw : srv.heap.Wf) {rs : RtspSession} (hn : named srv m = some rs) {w : View}
    (hv : srv.heap.view rs.sess = some w) : Names srv.heap m w := by
  obtain ⟨a, hget, hr⟩ := bind_eq_some_iff.mp hn
  obtain ⟨id, hid, hfind⟩ := bind_eq_some_iff.mp hget
  have hany := List.find?_some hfind
  rw [hr, any_some, beq_iff_eq] at hany
  obtain ⟨x, hx, hctl⟩ := hw.sess_of_rtsp hr
  obtain ⟨x', l, hx', -, rfl⟩ := view_eq_some hv
  cases hx.symm.trans hx'
  exact ⟨a, rs, hctl, hr, hany ▸ hid⟩

end

/-- **A request changes only the sessions that it names**, in every state of every run. -/
theorem request_isolated (md5 : Md5) (locs : List RtspLocation) (blocks : SourceId → List Directive) (evs : List Event) :
    Always (step md5 locs) (fun st => ∀ c m env st' s w, step md5 locs st (.request c m env) = some st' →
      st.heap.view s = some w → ¬ Names st.heap m w → st'.heap.view s = some w) (State.start blocks) evs := by
  refine (always_wf blocks evs).mono fun st hw c m env st' s w hs hv hnames => ?_
  cases step_effect hw hs with
  | request he =>
    refine (he.view_ne hw (isSome_of_mem hv) fun rs hn heq => ?_).trans hv
    exact hnames (names_of_named hw hn (heq ▸ hv))

end NuWicam.Rtsp
