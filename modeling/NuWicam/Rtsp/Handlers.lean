import NuWicam.Rtsp.Live
import NuWicam.Rtsp.Reply

/-!
# The RTSP handlers (`rtsp.c`)

Every handler sends one response; the description that `DESCRIBE` queues after it is kept with it. A handler is `none` where
the source follows a pointer that leads nowhere, or writes past `path[256]` or `hdr[512]`. What a request gets from outside
is in `Env`. `live_play` sets the start position to `-1`, so `handle_PLAY` never answers with a `Range`, and no session has a
`pause` function.
-/

namespace NuWicam.Rtsp

open Lib

/-! ## Locations -/

/-- `struct rtsp_location` of a live source. -/
structure RtspLocation where
  path : Str
  /-- the memory after the `NUL` of `path`, by its distance from the start of `path` -/
  after : Nat → UInt8
  realm : Str
  username : Str
  password : Str
  source : SourceId

/-- `loc->path[i]` -/
def RtspLocation.pathAt (loc : RtspLocation) (i : Nat) : UInt8 :=
  if i ≤ loc.path.length then loc.path.getD i 0 else loc.after i

def getLocalPath (uri : Str) : Option Str :=
  if hasPfxCase (bytes "rtsp://") uri then some ((strchr 47 (uri.drop 7)).getD (bytes "/")) else none

def nodeFindLocation (locs : List RtspLocation) (path : Str) (len : Nat) : Option RtspLocation :=
  locs.find? fun loc => hasPfx loc.path path && (loc.pathAt len == 47 || loc.pathAt len == 0)

/-- `-1` if there is none, and the length of the path before it. -/
def trackOf (path : Str) : Int × Nat :=
  match strrchr 47 path with
  | none => (-1, path.length)
  | some c =>
    if hasPfx (bytes "/track") c then
      let (track, rest) := strtol (c.drop 6)
      (track, if rest = [] then path.length - c.length else path.length)
    else (-1, path.length)

/-- With the track if asked for; `base` says that the path is copied into `path[256]`. -/
def findRtspLocation (locs : List RtspLocation) (uri : Str) (base track : Bool) :
    Option (Option (RtspLocation × Int)) :=
  match getLocalPath uri with
  | none => some none
  | some path =>
    let (n, len) := if track then trackOf path else (-1, path.length)
    let len := if 1 < len ∧ path.getD (len - 1) 0 = 47 then len - 1 else len
    if base ∧ 256 ≤ len then none else some ((nodeFindLocation locs path len).map fun loc => (loc, n))

/-! ## The state of the server -/

structure Server where
  heap : Heap
  /-- `digest_secret`, if `secret_created` -/
  secret : Option Str

structure Env where
  /-- the time when the response is checked, and when a nonce is made -/
  now : UInt32
  later : UInt32
  /-- new blocks: a `live_session`, a `session`, an `rtp_endpoint`, an `rtsp_session` -/
  live : Addr
  sess : Addr
  ep : Addr
  rtsp : Addr
  /-- random bytes: eight for `digest_secret`, twelve for a nonce, fifteen for the id of a session -/
  secretBytes : Str
  nonceBytes : Str
  idBytes : Str
  /-- `sdp_addr`, `sdp_port` and `our_port` if `connect_udp_endpoint` succeeds -/
  udp : Option (Str × Int × Int)

structure Reply where
  resp : Resp
  sdp : Option (SourceId × Str)

abbrev Handled := Option (Server × Reply)

def rtspSendError (m : Pmsg) (code : Nat) (reason : String) : Reply := ⟨rtspCreateReply m code (bytes reason), none⟩

section Handlers

variable (md5 : Md5) (locs : List RtspLocation)

/-- The state after the challenge and the challenge, if it is sent. -/
def rtspVerifyAuth (srv : Server) (m : Pmsg) (env : Env) (loc : RtspLocation) : Option (Server × Reply) :=
  if loc.realm = [] then none
  else
    let ret := checkDigestResponse md5 srv.secret env.now m loc.realm loc.username loc.password
    if 0 < ret then none
    else
      let secret := srv.secret.getD (hexBytesUpper env.secretBytes)
      let resp := rtspCreateReply m 401 (bytes "Unauthorized")
      let nonce := createNonce md5 secret env.later env.nonceBytes
      some ({ srv with secret := some secret }, ⟨(addDigestChallenge resp loc.realm nonce (ret == 0)).2, none⟩)

def handleOPTIONS (srv : Server) (m : Pmsg) : Handled :=
  some (srv, ⟨(addHeader (rtspCreateReply m 200 (bytes "OK")) (bytes "Public")
    (bytes "DESCRIBE, SETUP, TEARDOWN, PLAY, PAUSE")).2, none⟩)

def describeReply (m : Pmsg) (b : SourceId) (sdp : Str) : Reply :=
  let resp := rtspCreateReply m 200 (bytes "OK")
  let resp := (addHeader resp (bytes "Content-Base") (m.uri ++ bytes "/")).2
  ⟨(addHeader resp (bytes "Content-Type") (bytes "application/sdp")).2, some (b, sdp)⟩

def handleDESCRIBE (srv : Server) (m : Pmsg) (env : Env) : Handled := do
  match ← findRtspLocation locs m.uri true false with
  | none => pure (srv, rtspSendError m 404 "Not Found")
  | some (loc, _) =>
    match ← liveOpen srv.heap loc.source env.live env.sess with
    | none => pure (srv, rtspSendError m 404 "Not Found")
    | some h =>
      match rtspVerifyAuth md5 { srv with heap := h } m env loc with
      -- the session that was just opened stays
      | some challenged => pure challenged
      | none =>
        let sdp ← liveGetSdp h env.sess
        if sdp.isSome ∧ 512 < m.uri.length + 2 then none
        else
          let h ← liveTeardown h env.sess none
          pure ({ srv with heap := h }, match sdp with
            | some sdp => describeReply m loc.source sdp
            | none => rtspSendError m 404 "Not Found")

/-! ## `SETUP` -/

/-- `rc && rc->ichan[i].ep` -/
def chanUsed (rc : Option RtspConn) (i : Nat) : Bool :=
  rc.any fun rc => if hi : i < maxInterleaveChannels then (rc ⟨i, hi⟩).ep.isSome else false

def interleaveChans (rc : Option RtspConn) (t : Str) : Option (Nat × Nat) :=
  match strstr (bytes "interleaved") t with
  | some p =>
    if p.getD 11 0 ≠ 61 then none
    else
      let (n, rest) := strtol (p.drop 12)
      if rest = p.drop 12 then none
      else if n < 0 ∨ (maxInterleaveChannels : Int) ≤ n + 1 then none
      else if chanUsed rc n.toNat || chanUsed rc (n.toNat + 1) then none
      else some (n.toNat, n.toNat + 1)
  | none => ([0, 2, 4, 6].find? fun i => !chanUsed rc i && !chanUsed rc (i + 1)).map fun i => (i, i + 1)

/-- `none` inside where it returns `-1`. -/
def rtspInterleaveSetup (h : Heap) (c e : Addr) (t : Str) (resp : Resp) : Option (Option (Heap × Resp)) := do
  let conn ← h.conn c
  match interleaveChans conn.protoState t with
  | none => pure none
  | some (i, j) =>
    let h ← connectInterleaved h c e i j
    let trans := bytes "RTP/AVP/TCP;unicast;interleaved=" ++ decimal i ++ bytes "-" ++ decimal j
    pure (some (h, (addHeader resp (bytes "Transport") trans).2))

/-- The client's port that `rtsp_udp_setup` reads. -/
def clientPort (t : Str) : Option Int :=
  match strstr (bytes "client_port") t with
  | none => none
  | some p =>
    if p.getD 11 0 ≠ 61 then none
    else
      let (n, rest) := strtol (p.drop 12)
      if rest = p.drop 12 then none else some n

/-- `"%d-%d"` of a port and the next one, as `int`s -/
def portPair (n : Int) : Str := decimal n ++ bytes "-" ++ decimal (Int.bmod (n + 1) (2 ^ 32))

/-- `none` inside where it returns `-1`. -/
def rtspUdpSetup (h : Heap) (env : Env) (e : Addr) (t : Str) (resp : Resp) : Option (Option (Heap × Resp)) :=
  match clientPort t, env.udp with
  | some cport, some (sdpAddr, sdpPort, serverPort) => do
    let h ← connectUdpEndpoint h e sdpAddr sdpPort
    let trans := bytes "RTP/AVP;unicast;client_port=" ++ portPair cport ++ bytes ";server_port=" ++ portPair serverPort
    pure (some (h, (addHeader resp (bytes "Transport") trans).2))
  | _, _ => pure none

def transportSetup (h : Heap) (env : Env) (c e : Addr) (t : Str) (resp : Resp) : Option (Option (Heap × Resp)) :=
  if hasPfxCase (bytes "RTP/AVP/TCP") t then rtspInterleaveSetup h c e t resp
  else if (hasPfxCase (bytes "RTP/AVP") t ∧ t.getD 7 0 ≠ 47) ∨ hasPfxCase (bytes "RTP/AVP/UDP") t then
    rtspUdpSetup h env e t resp
  else some none

/-- A new one unless it has joined one. -/
def sessionOf (h : Heap) (env : Env) (s : Addr) : Option Addr → Option (Heap × Str)
  | some a => do
    let rs ← h.rtsp a
    pure (h, rs.id)
  | none => do
    let h ← newRtspSession h s env.rtsp (hexBytesUpper env.idBytes)
    pure (h, hexBytesUpper env.idBytes)

/-- When the session `s` has a new endpoint for the track. -/
def setupTransport (srv : Server) (c : Addr) (m : Pmsg) (env : Env) (s : Addr) (track : Track) (t : Str)
    (rs : Option Addr) : Handled := do
  let sess ← srv.heap.sess s
  let e ← sess.ep track
  match ← transportSetup srv.heap env c e t (rtspCreateReply m 200 (bytes "OK")) with
  | none =>
    let h ← liveTeardown srv.heap s (some e)
    pure ({ srv with heap := h }, rtspSendError m 461 "Unsupported Transport")
  | some (h, resp) =>
    let (h, id) ← sessionOf h env s rs
    pure ({ srv with heap := h }, ⟨(addHeader resp (bytes "Session") id).2, none⟩)

/-- From the test of `s->ep[track]` on; `rs` is the RTSP session joined, if any. -/
def setupSession (srv : Server) (c : Addr) (m : Pmsg) (env : Env) (s : Addr) (track : Track) (t : Str)
    (rs : Option Addr) : Handled := do
  let sess ← srv.heap.sess s
  if (sess.ep track).isSome then pure (srv, rtspSendError m 461 "Unsupported Transport")
  else match ← liveSetup srv.heap s track env.ep with
    | some h => setupTransport { srv with heap := h } c m env s track t rs
    | none =>
      match rs with
      | some _ => pure (srv, rtspSendError m 404 "Not Found")
      | none =>
        let h ← liveTeardown srv.heap s none
        pure ({ srv with heap := h }, rtspSendError m 404 "Not Found")

/-- From the `Session` header on. -/
def setupTrack (srv : Server) (c : Addr) (m : Pmsg) (env : Env) (loc : RtspLocation) (track : Track) (t : Str) :
    Handled := do
  match getHeader m (bytes "Session") with
  | none =>
    match ← liveOpen srv.heap loc.source env.live env.sess with
    | none => pure (srv, rtspSendError m 404 "Not Found")
    | some h => setupSession { srv with heap := h } c m env env.sess track t none
  | some sh =>
    match getSession srv.heap (some sh) with
    | none => pure (srv, rtspSendError m 454 "Session Not Found")
    | some a =>
      let rs ← srv.heap.rtsp a
      setupSession srv c m env rs.sess track t (some a)

def handleSETUP (srv : Server) (c : Addr) (m : Pmsg) (env : Env) : Handled := do
  match ← findRtspLocation locs m.uri true true with
  | none => pure (srv, rtspSendError m 404 "Not Found")
  | some (loc, track) =>
    if ht : 0 ≤ track ∧ track.toNat < maxTracks then
      match rtspVerifyAuth md5 srv m env loc with
      | some challenged => pure challenged
      | none =>
        match getHeader m (bytes "Transport") with
        | none => pure (srv, rtspSendError m 461 "Unspecified Transport")
        | some t => setupTrack srv c m env loc ⟨track.toNat, ht.2⟩ t
    else pure (srv, rtspSendError m 404 "Not Found")

/-! ## The other methods -/

def sessionReply (m : Pmsg) (id : Str) : Reply :=
  ⟨(addHeader (rtspCreateReply m 200 (bytes "OK")) (bytes "Session") id).2, none⟩

def handlePLAY (srv : Server) (m : Pmsg) : Handled := do
  match getSession srv.heap (getHeader m (bytes "Session")) with
  | none => pure (srv, rtspSendError m 454 "Session Not Found")
  | some a =>
    let rs ← srv.heap.rtsp a
    let h ← livePlay srv.heap rs.sess
    pure ({ srv with heap := h }, sessionReply m rs.id)

def handlePAUSE (srv : Server) (m : Pmsg) : Handled :=
  match getSession srv.heap (getHeader m (bytes "Session")) with
  | none => some (srv, rtspSendError m 454 "Session Not Found")
  | some _ => some (srv, rtspSendError m 501 "Not Implemented")

def handleTEARDOWN (srv : Server) (m : Pmsg) : Handled := do
  match ← findRtspLocation locs m.uri false true with
  | none => pure (srv, rtspSendError m 404 "Not Found")
  | some (_, track) =>
    if (maxTracks : Int) ≤ track then pure (srv, rtspSendError m 404 "Not Found")
    else match getSession srv.heap (getHeader m (bytes "Session")) with
      | none => pure (srv, rtspSendError m 454 "Session Not Found")
      | some a =>
        let rs ← srv.heap.rtsp a
        let sess ← srv.heap.sess rs.sess
        let ep := if ht : 0 ≤ track ∧ track.toNat < maxTracks then sess.ep ⟨track.toNat, ht.2⟩ else none
        let h ← liveTeardown srv.heap rs.sess ep
        pure ({ srv with heap := h }, sessionReply m rs.id)

inductive Method
  | options
  | describe
  | setup
  | play
  | pause
  | teardown
  | unknown
deriving DecidableEq, Repr

def methodOf (m : Pmsg) : Method :=
  if caseEq m.method (bytes "OPTIONS") then .options
  else if caseEq m.method (bytes "DESCRIBE") then .describe
  else if caseEq m.method (bytes "SETUP") then .setup
  else if caseEq m.method (bytes "PLAY") then .play
  else if caseEq m.method (bytes "PAUSE") then .pause
  else if caseEq m.method (bytes "TEARDOWN") then .teardown
  else .unknown

/-- `rtsp_handle_msg` for a request on the connection `c` -/
def rtspHandleMsg (srv : Server) (c : Addr) (m : Pmsg) (env : Env) : Handled :=
  match methodOf m with
  | .options => handleOPTIONS srv m
  | .describe => handleDESCRIBE md5 locs srv m env
  | .setup => handleSETUP md5 locs srv c m env
  | .play => handlePLAY srv m
  | .pause => handlePAUSE srv m
  | .teardown => handleTEARDOWN locs srv m
  | .unknown => some (srv, rtspSendError m 501 "Not Implemented")

end Handlers

/-! ## Events -/

inductive Output
  | reply (c : Addr) (r : Reply)
  | rtp (b : SourceId) (t : Track) (e : Addr)

inductive Event
  | accept (c : Addr)
  | request (c : Addr) (m : Pmsg) (env : Env)
  | drop (c : Addr)
  | fail (e : Addr)
  | frame (b : SourceId) (t : Track) (accepted : Bool) (fails : Addr → Bool)

structure State where
  srv : Server
  sent : List Output

def State.start (blocks : SourceId → List Directive) : State := ⟨⟨startHeap blocks, none⟩, []⟩

def State.heap (st : State) : Heap := st.srv.heap

def State.withHeap (st : State) (h : Heap) : State := { st with srv := { st.srv with heap := h } }

/-- `none` for a fault, and for an event that cannot happen in the state. -/
def step (md5 : Md5) (locs : List RtspLocation) (st : State) : Event → Option State
  | .accept c => (doAccept st.heap c).map st.withHeap
  | .request c m env =>
    match m.sl, st.heap.conn c with
    | .req _ _, some _ => (rtspHandleMsg md5 locs st.srv c m env).map fun r => ⟨r.1, st.sent ++ [.reply c r.2]⟩
    | _, _ => none
  | .drop c => (dropConn st.heap c).map st.withHeap
  | .fail e => (st.heap.ep e).bind fun p => (liveTeardown st.heap p.session (some e)).map st.withHeap
  | .frame b t accepted fails =>
    -- `deliver_frame_to_stream` passes over a destination that is not waiting
    if ((st.heap.source b).track t).waiting then
      (nextLiveFrame st.heap b t accepted fails).map fun r =>
        { st.withHeap r.1 with sent := st.sent ++ r.2.map (.rtp b t) }
    else some st

end NuWicam.Rtsp
