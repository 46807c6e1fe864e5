import NuWicam.Rtsp.Steps

/-!
# Interleaved channels

The table `ichan` of a connection and the endpoints that send over it point at each other, in every state of every run
(`interleaved_always_consistent`).
-/

namespace NuWicam.Rtsp

open Lib

structure Heap.Interleaved (h : Heap) : Prop where
  /-- an endpoint holds its two channels of a connection in `conn_list` -/
  holds : ∀ e p c i j, h.ep e = some p → p.trans = .inter c i j → c ∈ h.connList ∧
    ∃ (conn : Conn) (rc : RtspConn) (hi : i < maxInterleaveChannels) (hj : j < maxInterleaveChannels),
      h.conn c = some conn ∧ conn.protoState = some rc ∧ rc ⟨i, hi⟩ = ⟨some e, false⟩ ∧ rc ⟨j, hj⟩ = ⟨some e, true⟩
  /-- a channel in use leads to an endpoint that leads back to it -/
  held : ∀ c conn rc k e, h.conn c = some conn → conn.protoState = some rc → (rc k).ep = some e →
    ∃ p i j, h.ep e = some p ∧ p.trans = .inter c i j ∧ k.val = if (rc k).rtcp then j else i
  /-- two endpoints of a connection share no channel -/
  disjoint : ∀ e e' p p' c i j i' j', h.ep e = some p → h.ep e' = some p' → p.trans = .inter c i j →
    p'.trans = .inter c i' j' → e ≠ e' → i ≠ i' ∧ i ≠ j' ∧ j ≠ i' ∧ j ≠ j'

structure Heap.Gone (h : Heap) (c : Addr) : Prop where
  conn : h.conn c = none
  list : c ∉ h.connList
  ep : ∀ e p i j, h.ep e = some p → p.trans ≠ .inter c i j

variable {md5 : Md5} {locs : List RtspLocation} {h : Heap}

theorem Heap.Wf.interleaved (hw : h.Wf) : h.Interleaved where
  holds e p c i j he hp := by
    obtain ⟨conn, rc, hi, hj, hc, hrc, hri, hrj⟩ := hw.chans_of_ep he hp
    exact ⟨(hw.conns.mem_iff c).mpr (by rw [hc]; rfl), conn, rc, hi, hj, hc, hrc, hri, hrj⟩
  held c conn rc k e hc hrc he := hw.ep_of_chan hc hrc he
  disjoint e e' p p' c i j i' j' he he' hp hp' hne := by
    -- a channel of both would hold both
    have hone : ∀ (k : Chan) rtcp rtcp', chanOf h.conn k c = some (e, rtcp) → chanOf h.conn k c ≠ some (e', rtcp') :=
      fun k rtcp rtcp' hk hk' => by
        rw [hk] at hk'
        cases hk'
        exact hne rfl
    have htr : transOf h.ep e = some (.inter c i j) := (Table.field_of_some _ he).trans (congrArg some hp)
    have htr' : transOf h.ep e' = some (.inter c i' j') := (Table.field_of_some _ he').trans (congrArg some hp')
    have hfirst : ∀ (k : Chan) (rtcp : Bool), k.val = (if rtcp then j else i) → chanOf h.conn k c = some (e, rtcp) :=
      fun k rtcp hk => (hw.chans.holder k c e rtcp).mpr ⟨i, j, htr, hk⟩
    have hsecond : ∀ (k : Chan) (rtcp : Bool), k.val = (if rtcp then j' else i') →
        chanOf h.conn k c = some (e', rtcp) :=
      fun k rtcp hk => (hw.chans.holder k c e' rtcp).mpr ⟨i', j', htr', hk⟩
    obtain ⟨hi, hj⟩ := hw.chans.lt htr
    refine ⟨?_, ?_, ?_, ?_⟩
    · rintro rfl
      exact hone ⟨i, hi⟩ false false (hfirst _ _ rfl) (hsecond _ _ rfl)
    · rintro rfl
      exact hone ⟨i, hi⟩ false true (hfirst _ _ rfl) (hsecond _ _ rfl)
    · rintro rfl
      exact hone ⟨j, hj⟩ true false (hfirst _ _ rfl) (hsecond _ _ rfl)
    · rintro rfl
      exact hone ⟨j, hj⟩ true true (hfirst _ _ rfl) (hsecond _ _ rfl)

theorem drop_gone {st st' : State} (hw : st.heap.Wf) {c : Addr} (hs : step md5 locs st (.drop c) = some st') :
    st'.heap.Gone c := by
  simp only [step, Option.map_eq_some_iff] at hs
  obtain ⟨h', ho, rfl⟩ := hs
  have hc : (st.heap.conn c).isSome := by
    cases hcn : st.heap.conn c with
    | none => simp [dropConn, hcn] at ho
    | some cn => rfl
  obtain ⟨h₁, ops, hrun, -, -, hconn, hlist, hep⟩ := dropConn_spec hw hc
  cases ho.symm.trans hrun
  exact ⟨hconn, hlist, hep⟩

/-- **Channels and endpoints match** in every state of every run. -/
theorem interleaved_always_consistent (md5 : Md5) (locs : List RtspLocation) (blocks : SourceId → List Directive)
    (evs : List Event) : Always (step md5 locs)
      (fun st => st.heap.Interleaved ∧ (∀ ev, Enabled st.heap ev → ∃ st', step md5 locs st ev = some st') ∧
        ∀ c st', step md5 locs st (.drop c) = some st' → st'.heap.Gone c)
      (State.start blocks) evs :=
  (always_wf blocks evs).mono fun _ hw =>
    ⟨hw.interleaved, fun _ he => step_enabled hw he, fun _ _ hs => drop_gone hw hs⟩

end NuWicam.Rtsp
