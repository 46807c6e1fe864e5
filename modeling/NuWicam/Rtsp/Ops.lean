import NuWicam.Lib.Run
import NuWicam.Rtsp.Wf

/-!
# The elementary changes of the memory

Everything the server does to its memory is a sequence of the changes listed by `Op`. What holds of the memory along a run is
proved change by change, the first of it that the memory stays well-formed (`OpStep.wf`).
-/

namespace NuWicam.Rtsp

open Lib Option

/-! ## Which endpoints a frame is for -/

/-- None unless it plays. -/
def Heap.receiver (h : Heap) (t : Track) (a : Addr) : Option Addr :=
  (h.live a).bind fun l => if l.playing then (h.sess l.sess).bind fun x => x.ep t else none

def Heap.demand (h : Heap) (b : SourceId) (t : Track) : Bool :=
  (h.source b).sessList.any fun a => (h.receiver t a).isSome

theorem trackDemand_eq {h : Heap} (hw : h.Wf) (t : Track) : ∀ {as : List Addr}, (∀ a ∈ as, (h.live a).isSome) →
    trackDemand h t as = some (as.any fun a => (h.receiver t a).isSome)
  | [], _ => rfl
  | a :: as, hlive => by
    rw [List.forall_mem_cons] at hlive
    obtain ⟨l, hl⟩ := isSome_iff_exists.mp hlive.1
    obtain ⟨x, hx, -⟩ := hw.sess_of_live hl
    have ih := trackDemand_eq hw t hlive.2
    cases hp : l.playing with
    | false => simp [trackDemand, hl, hp, Heap.receiver, ih]
    | true => cases he : x.ep t <;> simp [trackDemand, hl, hp, hx, he, Heap.receiver, ih]

theorem trackCheckRunning_eq {h : Heap} (hw : h.Wf) (b : SourceId) (t : Track) :
    trackCheckRunning h b t = some (if h.demand b t then h else setWaiting h b t false) := by
  have hlive : ∀ a ∈ (h.source b).sessList, (h.live a).isSome := fun a ha => by
    obtain ⟨l, hl, -⟩ := hw.live_of_mem ha
    simp [hl]
  simp only [trackCheckRunning, trackDemand_eq hw t hlive]
  rfl

/-! ## Changes -/

inductive Op
  | accept (c : Addr)
  | hangUp (c : Addr)
  | openSession (b : SourceId) (a s : Addr)
  | setup (s : Addr) (t : Track) (e : Addr)
  | connect (e : Addr)
  | bind (s a : Addr)
  | play (s : Addr)
  | ready (b : SourceId) (t : Track)
  | drop (s : Addr) (t : Track)
  | close (s : Addr)

def Op.removes : Op → Bool
  | .hangUp _ | .drop _ _ | .close _ => true
  | _ => false

def Op.plays : Op → Bool
  | .play _ => true
  | _ => false

def Op.quiet : Op → Bool
  | .accept _ | .hangUp _ | .setup _ _ _ | .connect _ | .bind _ _ => true
  | _ => false

def Op.opens : Op → Option Addr
  | .openSession _ _ s => some s
  | _ => none

theorem Op.plays_of_removes {op : Op} (h : op.removes) : op.plays = false := by
  cases op <;> first | rfl | cases h

theorem Op.opens_of_removes {op : Op} (h : op.removes) : op.opens = none := by
  cases op <;> first | rfl | cases h

inductive OpStep (h : Heap) : Op → Heap → Prop
  | accept {c h'} : doAccept h c = some h' → OpStep h (.accept c) h'
  | hangUp {c} : (∀ k, chanOf h.conn k c = none) →
      OpStep h (.hangUp c) { h with connList := h.connList.erase c, conn := h.conn.del c }
  | openSession {b a s h'} : liveOpen h b a s = some (some h') → OpStep h (.openSession b a s) h'
  | setup {s t e h'} : epOf h.sess t s = none → liveSetup h s t e = some (some h') → OpStep h (.setup s t e) h'
  | udp {e sdpAddr sdpPort h'} : transOf h.ep e = some .unset → connectUdpEndpoint h e sdpAddr sdpPort = some h' →
      OpStep h (.connect e) h'
  | inter {c e i j h'} : transOf h.ep e = some .unset → i ≠ j →
      (∀ k : Chan, k.val = i ∨ k.val = j → chanOf h.conn k c = none) → connectInterleaved h c e i j = some h' →
      OpStep h (.connect e) h'
  | bind {s a id h'} : ctlOf h.sess s = none → newRtspSession h s a id = some h' → OpStep h (.bind s a) h'
  | play {s h'} : livePlay h s = some h' → OpStep h (.play s) h'
  | ready {b t} : ((h.source b).track t).ready = false → OpStep h (.ready b t)
      ((setWaiting h b t false).modifyTrack b t fun track => { track with ready := true })
  | drop {s t x e l h₁ h'} : h.sess s = some x → x.ep t = some e → h.live x.priv = some l →
      dropEndpoint h s t e = some h₁ → trackCheckRunning h₁ l.source t = some h' → OpStep h (.drop s t) h'
  | close {s x h'} : h.sess s = some x → (∀ t, x.ep t = none) → closeLive h s x.priv = some h' →
      OpStep h (.close s) h'

abbrev Ops := Trail OpStep

section

variable {h h' : Heap} {op : Op}

theorem Heap.Wf.hangUp (hw : h.Wf) {c : Addr} (hfree : ∀ k, chanOf h.conn k c = none) :
    Heap.Wf { h with connList := h.connList.erase c, conn := h.conn.del c } := by
  have hch : ∀ k, chanOf (h.conn.del c) k = chanOf h.conn k := fun k =>
    (Table.field_set ..).trans (Table.set_eq_self (hfree k))
  exact { hw with conns := hw.conns.del, chans := ⟨fun k => by rw [hch]; exact hw.chans.holder k, hw.chans.lt⟩ }

/-- **Every change keeps the memory well-formed.** -/
theorem OpStep.wf (hs : OpStep h op h') (hw : h.Wf) : h'.Wf := by
  cases hs with
  | accept ho => exact hw.accept ho
  | hangUp hfree => exact hw.hangUp hfree
  | openSession ho => exact hw.open ho
  | setup hslot ho => exact hw.setup ho hslot
  | udp hunset ho => exact hw.connectUdp hunset ho
  | inter hunset hij hfree ho => exact hw.connectInter hunset hij hfree ho
  | bind hctl ho => exact hw.bind hctl ho
  | play ho => exact hw.play ho
  | ready _ => exact (hw.setWaiting _ _ _).modifyTrack _ _ fun _ => rfl
  | drop hx ht _ hd hc =>
    obtain ⟨_, _, hd', hw', _⟩ := dropEndpoint_spec hw hx ht
    cases hd.symm.trans hd'
    exact hw'.checkRunning hc
  | close hx hnone hc =>
    obtain ⟨l, hl, -⟩ := hw.live_of_sess hx
    obtain ⟨_, _, _, hc', hw', -⟩ := closeLive_spec hw hx hl hnone
    cases hc.symm.trans hc'
    exact hw'

theorem Ops.wf {ops : List Op} (hs : Ops h ops h') (hw : h.Wf) : h'.Wf :=
  hs.keeps (A := fun _ => True) (fun _ _ _ _ hw hs => hs.wf hw) (fun _ _ => trivial) hw

theorem OpStep.frame (hs : OpStep h op h') (hq : op.quiet) : h'.source = h.source ∧ h'.live = h.live := by
  cases hs with
  | accept ho =>
    unfold doAccept at ho
    split at ho
    · cases ho
      exact ⟨rfl, rfl⟩
    · cases ho
  | hangUp => exact ⟨rfl, rfl⟩
  | setup _ ho =>
    obtain ⟨_, _, _, _, _, _, _, _, rfl⟩ := liveSetup_eq ho
    exact ⟨rfl, rfl⟩
  | udp _ ho =>
    simp only [connectUdpEndpoint, bind_eq_bind, bind_eq_some_iff] at ho
    obtain ⟨_, _, ho⟩ := ho
    cases ho
    exact ⟨rfl, rfl⟩
  | inter _ _ _ ho =>
    obtain ⟨_, _, _, _, _, _, rfl⟩ := connectInterleaved_eq ho
    exact ⟨rfl, rfl⟩
  | bind _ ho =>
    obtain ⟨_, _, _, rfl⟩ := newRtspSession_eq ho
    exact ⟨rfl, rfl⟩
  | openSession | play | ready | drop | close => cases hq

/-- **Invariant rule for changes.** -/
theorem Ops.inv {I : Heap → Prop} {A : Op → Prop} (hstep : ∀ h op h', h.Wf → A op → I h → OpStep h op h' → I h')
    {ops : List Op} (hs : Ops h ops h') (hw : h.Wf) (hall : ∀ op ∈ ops, A op) (hi : I h) : I h' :=
  (hs.keeps (I := fun h => h.Wf ∧ I h) (fun h op h' ha hi ho => ⟨ho.wf hi.1, hstep h op h' hi.1 ha hi.2 ho⟩) hall
    ⟨hw, hi⟩).2

end

end NuWicam.Rtsp
