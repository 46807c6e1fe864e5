import NuWicam.Lib.CString
import NuWicam.Lib.Table

/-!
# Connections, sessions and endpoints in memory (`rtp.h`, `rtsp.c`, `session.c`, `live.c`)

The structures that point at each other, by the addresses that `malloc` returns. A linked list is the list of its nodes'
addresses; `rtsp_conn` is kept inside its connection. A function is `none` where the source follows a pointer that leads
nowhere.
-/

namespace NuWicam.Rtsp

open Lib Function

abbrev maxTracks : Nat := 2

abbrev Track := Fin maxTracks

abbrev maxInterleaveChannels : Nat := 8

abbrev Chan := Fin maxInterleaveChannels

/-- An entry of `ichan`. -/
structure IChan where
  ep : Option Addr
  rtcp : Bool
deriving DecidableEq, Repr

abbrev RtspConn := Chan → IChan

/-- `struct conn`, as far as sessions are concerned. -/
structure Conn where
  protoState : Option RtspConn

inductive Trans
  | unset
  | udp (sdpAddr : Str) (sdpPort : Int)
  | inter (conn : Addr) (rtpChan rtcpChan : Nat)
deriving DecidableEq, Repr

/-- `struct rtp_endpoint` -/
structure Endpoint where
  session : Addr
  payload : Int
  maxDataSize : Int
  trans : Trans
deriving DecidableEq, Repr

/-- Every session is one of `live.c`, so `private` is a `live_session`, and `control_private`, if set, an `rtsp_session`. -/
structure Session where
  priv : Addr
  controlPrivate : Option Addr
  ep : Track → Option Addr

structure RtspSession where
  id : Str
  sess : Addr
deriving DecidableEq, Repr

/-- Which `live_source`. -/
abbrev SourceId := Nat

structure LiveSession where
  sess : Addr
  source : SourceId
  playing : Bool
deriving DecidableEq, Repr

/-- `struct rtp_media`: `get_sdp` of a payload type and a port, and `get_payload`. -/
structure Media where
  getSdp : Int → Int → Str
  getPayload : Option (Int → Int)

/-- `struct live_track`, with the flag `waiting` of its stream destination. -/
structure LiveTrack where
  rtp : Option Media
  waiting : Bool
  ready : Bool

structure LiveSource where
  sessList : List Addr
  track : Track → LiveTrack
  i32MaxRTPTransSize : Int
  u32MaxConnNum : UInt32
  u32CurConn : UInt32

/-- The lists of connections, sessions and RTSP sessions, and the blocks of each type. -/
structure Heap where
  connList : List Addr
  conn : Table Conn
  source : SourceId → LiveSource
  live : Table LiveSession
  sessList : List Addr
  sess : Table Session
  rtspList : List Addr
  rtsp : Table RtspSession
  ep : Table Endpoint

namespace Heap

def modifySource (h : Heap) (b : SourceId) (f : LiveSource → LiveSource) : Heap :=
  { h with source := update h.source b (f (h.source b)) }

def modifyTrack (h : Heap) (b : SourceId) (t : Track) (f : LiveTrack → LiveTrack) : Heap :=
  h.modifySource b fun src => { src with track := update src.track t (f (src.track t)) }

end Heap

/-! ## `session.c` and the lists of `rtsp.c` -/

def rtspSessionClose (h : Heap) (a : Addr) : Option Heap := do
  let _ ← h.rtsp a
  pure { h with rtspList := h.rtspList.erase a, rtsp := h.rtsp.del a }

def delSession (h : Heap) (s : Addr) : Option Heap := do
  let sess ← h.sess s
  let h := { h with sessList := h.sessList.erase s }
  let h ← match sess.controlPrivate with
    | some a => rtspSessionClose h a
    | none => some h
  pure { h with sess := h.sess.del s }

def newRtspSession (h : Heap) (s a : Addr) (id : Str) : Option Heap := do
  let sess ← h.sess s
  if h.rtsp.fresh a then
    pure { h with
      rtspList := a :: h.rtspList
      rtsp := h.rtsp.put a ⟨id, s⟩
      sess := h.sess.put s { sess with controlPrivate := some a } }
  else none

def getSession (h : Heap) (id : Option Str) : Option Addr :=
  id.bind fun id => h.rtspList.find? fun a => (h.rtsp a).any fun r => r.id == id

/-! ## Endpoints (`rtp.c`) and interleaved channels (`rtsp.c`) -/

def interleaveDisconnect (h : Heap) (c : Addr) (chan : Nat) : Option Heap := do
  let conn ← h.conn c
  let rc ← conn.protoState
  if hc : chan < maxInterleaveChannels then
    let rc' := update rc ⟨chan, hc⟩ { rc ⟨chan, hc⟩ with ep := none }
    pure { h with conn := h.conn.put c { conn with protoState := some rc' } }
  else none

def delRtpEndpoint (h : Heap) (e : Addr) : Option Heap := do
  let p ← h.ep e
  let h ← match p.trans with
    | .inter c rtpChan rtcpChan => do
      let h ← interleaveDisconnect h c rtpChan
      interleaveDisconnect h c rtcpChan
    | _ => some h
  pure { h with ep := h.ep.del e }

/-- Where it succeeds -/
def connectUdpEndpoint (h : Heap) (e : Addr) (sdpAddr : Str) (sdpPort : Int) : Option Heap := do
  let p ← h.ep e
  pure { h with ep := h.ep.put e { p with trans := .udp sdpAddr sdpPort } }

/-- The connection gets its `rtsp_conn` if it has none, the endpoint gets the two channels, and
`connect_interleaved_endpoint` is called. -/
def connectInterleaved (h : Heap) (c e : Addr) (rtpChan rtcpChan : Nat) : Option Heap := do
  let conn ← h.conn c
  let p ← h.ep e
  if hc : rtpChan < maxInterleaveChannels ∧ rtcpChan < maxInterleaveChannels then
    let rc := conn.protoState.getD fun _ => ⟨none, false⟩
    let rc := update rc ⟨rtpChan, hc.1⟩ ⟨some e, false⟩
    let rc := update rc ⟨rtcpChan, hc.2⟩ ⟨some e, true⟩
    pure { h with
      conn := h.conn.put c { conn with protoState := some rc }
      ep := h.ep.put e { p with trans := .inter c rtpChan rtcpChan } }
  else none

end NuWicam.Rtsp
