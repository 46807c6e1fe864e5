import NuWicam.Rtsp.Heap

/-!
# Live sources (`live.c`) and the end of a connection (`rtsp.c`, `tcp.c`)

The functions that `live.c` puts into a session, the delivery of a frame to a track, and `drop_conn`. `fails e` says that the
packets for the endpoint `e` end in the `teardown` that `send_rtp_packet` and `rtcp_send` call.
-/

namespace NuWicam.Rtsp

open Lib Function

/-! ## Configuration -/

def LiveSource.startBlock : LiveSource where
  sessList := []
  track _ := ⟨none, false, false⟩
  i32MaxRTPTransSize := 1400
  u32MaxConnNum := 0xFFFFFFFF
  u32CurConn := 0

inductive Directive
  | track (media : Option Media)
  | mtu (n : Int)
  | conn (n : Int)

/-- `set_track`, `set_mtu`, `set_conn` -/
def LiveSource.configure (src : LiveSource) : Directive → LiveSource
  | .track none => src
  | .track (some m) =>
    match (List.finRange maxTracks).find? fun t => (src.track t).rtp.isNone with
    | none => src
    | some t => { src with track := update src.track t { src.track t with rtp := some m, waiting := true } }
  | .mtu n => { src with i32MaxRTPTransSize := n }
  | .conn n => { src with u32MaxConnNum := UInt32.ofInt n }

def startHeap (blocks : SourceId → List Directive) : Heap where
  connList := []
  conn _ := none
  source b := (blocks b).foldl LiveSource.configure .startBlock
  live _ := none
  sessList := []
  sess _ := none
  rtspList := []
  rtsp _ := none
  ep _ := none

/-- `for (t = 0; t < MAX_TRACKS && source->track[t].rtp; ++t)` -/
def LiveSource.tracks (src : LiveSource) : List Track :=
  (List.finRange maxTracks).takeWhile fun t => (src.track t).rtp.isSome

/-! ## Sessions -/

/-- `set_waiting`, as far as the flag of the destination goes -/
def setWaiting (h : Heap) (b : SourceId) (t : Track) (waiting : Bool) : Heap :=
  h.modifyTrack b t fun track => { track with waiting := waiting }

/-- It returns the session unless it refuses; `a` and `s` are the new blocks. -/
def liveOpen (h : Heap) (b : SourceId) (a s : Addr) : Option (Option Heap) :=
  if (h.source b).u32CurConn ≥ (h.source b).u32MaxConnNum then some none
  else if h.live.fresh a && h.sess.fresh s then
    let h := h.modifySource b fun src => { src with sessList := a :: src.sessList }
    some (some { h with
      live := h.live.put a ⟨s, b, false⟩
      sessList := s :: h.sessList
      sess := h.sess.put s ⟨a, none, fun _ => none⟩ })
  else none

/-- `e` is the new endpoint, and the result is `none` inside where it returns `-1`. -/
def liveSetup (h : Heap) (s : Addr) (t : Track) (e : Addr) : Option (Option Heap) := do
  let sess ← h.sess s
  let l ← h.live sess.priv
  match ((h.source l.source).track t).rtp with
  | none => pure none
  | some m =>
    let payload : Int := 96 + t.val
    let payload := (m.getPayload.map (· payload)).getD payload
    if h.ep.fresh e then
      pure (some { h with
        ep := h.ep.put e ⟨s, payload, (h.source l.source).i32MaxRTPTransSize, .unset⟩
        sess := h.sess.put s { sess with ep := update sess.ep t (some e) } })
    else none

def livePlay (h : Heap) (s : Addr) : Option Heap := do
  let sess ← h.sess s
  let l ← h.live sess.priv
  let h := { h with live := h.live.put sess.priv { l with playing := true } }
  let h := h.modifySource l.source fun src => { src with u32CurConn := src.u32CurConn + 1 }
  pure ((h.source l.source).tracks.foldl
    (fun h t => if (sess.ep t).isSome then setWaiting h l.source t true else h) h)

/-- Whether some session of the list plays and has an endpoint for `t`. -/
def trackDemand (h : Heap) (t : Track) : List Addr → Option Bool
  | [] => some false
  | a :: as => do
    let l ← h.live a
    if l.playing then
      let sess ← h.sess l.sess
      if (sess.ep t).isSome then pure true else trackDemand h t as
    else trackDemand h t as

def trackCheckRunning (h : Heap) (b : SourceId) (t : Track) : Option Heap := do
  let demand ← trackDemand h t (h.source b).sessList
  pure (if demand then h else setWaiting h b t false)

/-- `del_rtp_endpoint(s->ep[i]); s->ep[i] = NULL;` -/
def dropEndpoint (h : Heap) (s : Addr) (t : Track) (e : Addr) : Option Heap := do
  let h ← delRtpEndpoint h e
  let sess ← h.sess s
  pure { h with sess := h.sess.put s { sess with ep := update sess.ep t none } }

def tearTracks (s : Addr) (ep : Option Addr) (b : SourceId) : List Track → Heap → Nat → Option (Heap × Nat)
  | [], h, remaining => some (h, remaining)
  | t :: ts, h, remaining => do
    let sess ← h.sess s
    match sess.ep t with
    | none => tearTracks s ep b ts h remaining
    | some e =>
      if ep = none ∨ ep = some e then
        let h ← dropEndpoint h s t e
        let h ← trackCheckRunning h b t
        tearTracks s ep b ts h remaining
      else tearTracks s ep b ts h (remaining + 1)

def LiveSource.unlink (src : LiveSource) (a : Addr) (playing : Bool) : LiveSource :=
  { src with
    u32CurConn := if src.u32CurConn > 0 ∧ playing then src.u32CurConn - 1 else src.u32CurConn
    sessList := src.sessList.erase a }

def closeLive (h : Heap) (s a : Addr) : Option Heap := do
  let l ← h.live a
  let h := h.modifySource l.source fun src => src.unlink a l.playing
  delSession { h with live := h.live.del a } s

def liveTeardown (h : Heap) (s : Addr) (ep : Option Addr) : Option Heap := do
  let sess ← h.sess s
  let l ← h.live sess.priv
  let (h, remaining) ← tearTracks s ep l.source (h.source l.source).tracks h 0
  if remaining = 0 then closeLive h s sess.priv else pure h

/-- The description, unless a track is missing or not ready. -/
def liveGetSdp (h : Heap) (s : Addr) : Option (Option Str) := do
  let sess ← h.sess s
  let l ← h.live sess.priv
  let src := h.source l.source
  if (src.track 0).rtp.isNone ∨ (src.track 0).ready = false ∨ src.tracks.any (fun t => !(src.track t).ready) then
    pure none
  else
    let transOf := fun t => ((sess.ep t).bind h.ep).map (·.trans)
    let addr := match transOf 0 with
      | some (.udp sdpAddr _) => sdpAddr
      | _ => bytes "IP4 0.0.0.0"
    let port := fun t => match transOf t with
      | some (.udp _ sdpPort) => sdpPort
      | _ => 0
    let media := src.tracks.flatMap fun t =>
      (((src.track t).rtp.map fun m => m.getSdp (96 + t.val) (port t)).getD []) ++
        (if port t = 0 then bytes "a=control:track" ++ decimal t.val ++ bytes "\r\n" else [])
    pure (some (bytes "v=0\r\no=- 1 1 IN IP4 127.0.0.1\r\ns=Test\r\na=type:broadcast\r\nt=0 0\r\nc=IN " ++ addr ++
      bytes "\r\n" ++ media))

/-! ## Frames -/

def sendPackets (h : Heap) (s e : Addr) (fails : Bool) : Option Heap :=
  if fails then liveTeardown h s (some e) else some h

/-- With the endpoints to which packets are given. -/
def sendFrame (t : Track) (fails : Addr → Bool) : List Addr → Heap → Option (Heap × List Addr)
  | [], h => some (h, [])
  | a :: as, h => do
    let l ← h.live a
    if l.playing then
      let sess ← h.sess l.sess
      match sess.ep t with
      | none => sendFrame t fails as h
      | some e =>
        let h ← sendPackets h l.sess e (fails e)
        let (h, es) ← sendFrame t fails as h
        pure (h, e :: es)
    else sendFrame t fails as h

/-- `deliver_frame_to_stream` calls it if the destination is waiting. `accepted` is the result of `rtp->frame`. -/
def nextLiveFrame (h : Heap) (b : SourceId) (t : Track) (accepted : Bool) (fails : Addr → Bool) :
    Option (Heap × List Addr) :=
  if accepted then
    let h := if ((h.source b).track t).ready then h
      else (setWaiting h b t false).modifyTrack b t fun track => { track with ready := true }
    sendFrame t fails (h.source b).sessList h
  else some (h, [])

/-! ## The end of a connection -/

def disconnectChans (c : Addr) : List Chan → Heap → Option Heap
  | [], h => some h
  | i :: is, h => do
    let conn ← h.conn c
    let rc ← conn.protoState
    match (rc i).ep with
    | none => disconnectChans c is h
    | some e =>
      if (rc i).rtcp then disconnectChans c is h
      else
        let p ← h.ep e
        let h ← liveTeardown h p.session (some e)
        disconnectChans c is h

/-- A connection with a `proto_state` is always an RTSP connection. -/
def dropConn (h : Heap) (c : Addr) : Option Heap := do
  let conn ← h.conn c
  let h ← if conn.protoState.isSome then disconnectChans c (List.finRange _) h else pure h
  pure { h with connList := h.connList.erase c, conn := h.conn.del c }

def doAccept (h : Heap) (c : Addr) : Option Heap :=
  if h.conn.fresh c then some { h with connList := c :: h.connList, conn := h.conn.put c ⟨none⟩ } else none

end NuWicam.Rtsp
