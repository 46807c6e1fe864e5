import NuWicam.Rtsp.Net

/-!
# Interleaved data in every state of a connection (`interleave_recv`, `parse_client_data`)

`interleave_recv` reads `c->proto_state->chan[chan]`, and `proto_state` is `NULL` before the first interleaved `SETUP` that
succeeds. A packet on a channel without an endpoint leaves no trace (`stray_ignored`, `interleaved_data_safe`).
-/

namespace NuWicam.Rtsp

open Lib Option

def Conn.Silent (conn : Conn) (chan : Nat) : Prop :=
  ∀ hc : chan < maxInterleaveChannels, ∃ rc, conn.protoState = some rc ∧ (rc ⟨chan, hc⟩).ep = none

/-- The protocol of the first line, if it is not yet known. -/
def ReadSide.speaks (r : ReadSide) : Option ConnProto :=
  match r.proto with
  | .start => (strchr 10 (cstr r.reqBuf)).bind fun rest =>
      firstLine ((cstr r.reqBuf).take ((cstr r.reqBuf).length - rest.length))
  | p => some p

/-- The bytes that `c` sends complete a packet on a channel without an endpoint. -/
structure Stray (net : Net) (c : Addr) (second : Bool) (chunk : Str) (x : Tcp) (conn : Conn) : Prop where
  record : net.tcp c = some x
  block : net.heap.conn c = some conn
  sock : x.sock second ≠ none
  nonempty : chunk ≠ []
  fits : x.read.reqBuf.length + chunk.length ≤ reqBufSize - 1
  room : (appendRead x.read chunk).reqBuf.length ≠ reqBufSize - 1
  groups : (appendRead x.read chunk).base64Count ≤ 0
  speaks : (appendRead x.read chunk).speaks = some .rtsp
  packet : ∃ chan, Packet (appendRead x.read chunk).reqBuf chan ∧ conn.Silent chan

section

variable {md5 : Md5} {locs : List RtspLocation} {net : Net} {c : Addr} {env : Env}

variable {conn : Conn} {chan : Nat}

theorem interleaveRecv_silent {d : Str} (hc : net.heap.conn c = some conn)
    (hs : conn.Silent chan) : interleaveRecv net c chan d = some net := by
  simp only [interleaveRecv, hc, bind_eq_bind, bind_some]
  split
  · rename_i hlt
    obtain ⟨rc, hrc, hep⟩ := hs hlt
    rw [hrc]
    dsimp only
    generalize rc ⟨chan, hlt⟩ = ch at hep ⊢
    obtain ⟨ep, rtcp⟩ := ch
    cases hep
    rfl
  · rfl

theorem netParse_silent {x : Tcp} {r : ReadSide} (hx : net.tcp c = some x)
    (hc : net.heap.conn c = some conn) (hr : r.proto = .rtsp) (hp : Packet r.reqBuf chan) (hs : conn.Silent chan) :
    netParse md5 locs (net.setRead c r) c env = some (0, net.setRead c ⟨.rtsp, [], r.base64Count⟩) := by
  have hset : (net.setRead c r).tcp c = some { x with read := r } := Net.modify_self hx _
  have hrecv : ∀ chan d, conn.Silent chan → interleaveRecv (net.setRead c r) c chan d = some (net.setRead c r) :=
    fun _ _ => interleaveRecv_silent hc
  have hclear : (net.setRead c r).clear c = net.setRead c ⟨.rtsp, [], r.base64Count⟩ := by rw [Net.clear_setRead, hr]
  obtain ⟨hhead, hfour, hwhole, rfl⟩ := hp
  simp only [netParse, hset, bind_eq_bind, bind_some, hr]
  rw [if_neg (Nat.not_lt.mpr hfour), if_pos hhead, if_neg (Nat.not_lt.mpr hwhole), hrecv _ _ hs,
    map_some, hclear]

theorem netParseLoop_silent {x : Tcp} {r : ReadSide} (hx : net.tcp c = some x)
    (hc : net.heap.conn c = some conn) (hr : r.speaks = some .rtsp) (hp : Packet r.reqBuf chan) (hs : conn.Silent chan) :
    netParseLoop md5 locs (net.setRead c r) c env = some (0, net.setRead c ⟨.rtsp, [], r.base64Count⟩) := by
  have hset : (net.setRead c r).tcp c = some { x with read := r } := Net.modify_self hx _
  unfold ReadSide.speaks at hr
  unfold netParseLoop
  split at hr
  · -- the first line is read in one call, the packet in the next
    rename_i hstart
    obtain ⟨rest, hline, hfirst⟩ := bind_eq_some_iff.mp hr
    have hone : netParse md5 locs (net.setRead c r) c env = some (1, net.setRead c { r with proto := .rtsp }) := by
      simp only [netParse, hset, bind_eq_bind, bind_some, hstart, hline, hfirst, 
        Net.setRead_setRead]
      rfl
    rw [hone, bind_some, if_pos Int.one_pos]
    exact netParse_silent (r := { r with proto := .rtsp }) hx hc rfl hp hs
  · have hproto := Option.some.inj hr
    rw [netParse_silent hx hc hproto hp hs, bind_some, if_neg (by omega)]

/-- **A packet on a channel without an endpoint is ignored.** -/
theorem stray_ignored {second : Bool} {chunk : Str} {x : Tcp} (hfault : net.fault = false)
    (h : Stray net c second chunk x conn) : netStep md5 locs net (.read c second chunk env) =
      some (net.setRead c ⟨.rtsp, [], (appendRead x.read chunk).base64Count⟩) := by
  obtain ⟨chan, hp, hs⟩ := h.packet
  have hguard : ¬ (x.sock second = none ∨ chunk = [] ∨ reqBufSize - 1 < x.read.reqBuf.length + chunk.length) := by
    rintro (hsock | hnil | hlong)
    · exact h.sock hsock
    · exact h.nonempty hnil
    · exact Nat.not_lt.mpr h.fits hlong
  simp only [netStep, hfault, Bool.false_eq_true, if_false, netRead, h.record, bind_eq_bind, bind_some]
  rw [if_neg hguard, if_neg h.room, if_neg (Int.not_lt.mpr h.groups), netParseLoop_silent h.record h.block h.speaks hp hs,
    bind_some, if_neg (by omega)]
  rfl

end

/-! ## Runs -/

def Attached (net : Net) : NetEvent → Prop
  | .read c _ chunk _ => ∀ x ∈ net.tcp c, ∀ conn ∈ net.heap.conn c,
      Packet (appendRead x.read chunk).reqBuf ((appendRead x.read chunk).reqBuf.getD 1 0).toNat →
      ((appendRead x.read chunk).reqBuf.getD 1 0).toNat < maxInterleaveChannels → conn.protoState.isSome
  | _ => True

instance (net : Net) : ∀ ev, Decidable (Attached net ev)
  | .read c _ _ _ =>
    inferInstanceAs (Decidable (∀ x ∈ net.tcp c, ∀ conn ∈ net.heap.conn c, _ → _ → conn.protoState.isSome = true))
  | .accept _ _ => isTrue trivial
  | .close _ _ => isTrue trivial
  | .drop _ => isTrue trivial
  | .fail _ => isTrue trivial
  | .frame _ _ _ _ => isTrue trivial

section

variable {md5 : Md5} {locs : List RtspLocation}

theorem Attached.no_fault {net : Net} {ev : NetEvent} {c : Addr} {chan : Nat} (h : Attached net ev)
    (ha : ev.Allows net (.fault c chan)) : False := by
  cases ev with
  | read c' second chunk env =>
    obtain ⟨y, hy, rfl, hp, hlt, conn, hconn, hnone⟩ := ha
    obtain ⟨hhead, hfour, hwhole, rfl⟩ := hp
    have hsome := h y hy conn hconn ⟨hhead, hfour, hwhole, rfl⟩ hlt
    rw [hnone] at hsome
    cases hsome
  | _ => exact ha

/-- **Interleaved data** for a channel without an endpoint changes nothing but the buffer it is read into. -/
theorem interleaved_data_safe (blocks : SourceId → List Directive) (evs : List NetEvent)
    (hevs : EachStep (netStep md5 locs) Attached (Net.start blocks) evs) :
    Always (netStep md5 locs) (fun net => net.fault = false ∧
      ∀ c second chunk env x conn, Stray net c second chunk x conn → netStep md5 locs net (.read c second chunk env) =
        some (net.setRead c ⟨.rtsp, [], (appendRead x.read chunk).base64Count⟩)) (Net.start blocks) evs := by
  have hfault : Always (netStep md5 locs) (fun net => net.fault = false) (Net.start blocks) evs := by
    refine always_of_netOps ?_ rfl hevs
    intro net op net' ev net₀ ha hc hi hop
    cases hop with
    | fault => exact (hc.no_fault ha).elim
    | _ => exact hi
  exact hfault.mono fun net hf => ⟨hf, fun c second chunk env x conn h => stray_ignored hf h⟩

end

def reportEvents : List NetEvent :=
  [.accept 1 5,
    .read 1 false (bytes "SETUP rtsp://c/live/track0 RTSP/1.0\r\nTransport: RTP/AVP/TCP;interleaved=0-1\r\n\r\n")
      (Camera.env 1),
    .read 1 false [36, 1, 0, 1, 0] (Camera.env 1)]

theorem interleaved_data_safe_report :
    EachStep (netStep Md5.ofLibrary [Camera.location []]) Attached (Net.start (Camera.blocks 1)) reportEvents ∧
    Always (netStep Md5.ofLibrary [Camera.location []]) (fun net => net.fault = false ∧
      ∀ c second chunk env x conn, Stray net c second chunk x conn →
        netStep Md5.ofLibrary [Camera.location []] net (.read c second chunk env) =
          some (net.setRead c ⟨.rtsp, [], (appendRead x.read chunk).base64Count⟩))
      (Net.start (Camera.blocks 1)) reportEvents :=
  have hevs : EachStep (netStep Md5.ofLibrary [Camera.location []]) Attached (Net.start (Camera.blocks 1)) reportEvents := by
    decide +kernel
  ⟨hevs, interleaved_data_safe _ _ hevs⟩

theorem packet_after_options_faults : ¬ Always (netStep Md5.ofLibrary [Camera.location []]) (fun net => net.fault = false)
    (Net.start (Camera.blocks 1)) [.accept 1 5, .read 1 false (bytes "OPTIONS * RTSP/1.0\r\n\r\n") (Camera.env 1),
      .read 1 false [36, 0, 0, 0] (Camera.env 1)] := by
  intro h
  have heval : (run (netStep Md5.ofLibrary [Camera.location []]) (Net.start (Camera.blocks 1))
      [.accept 1 5, .read 1 false (bytes "OPTIONS * RTSP/1.0\r\n\r\n") (Camera.env 1),
        .read 1 false [36, 0, 0, 0] (Camera.env 1)]).map Net.fault = some true := by
    decide +kernel
  obtain ⟨net, hrun, hfault⟩ := map_eq_some_iff.mp heval
  have hlast := h.last hrun
  rw [hfault] at hlast
  cases hlast

end NuWicam.Rtsp
