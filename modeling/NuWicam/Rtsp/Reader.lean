import NuWicam.Rtsp.Pmsg

/-!
# The reading side of a connection (`tcp.c`)

`readStep` is one round of the loop of `do_read`: one result of `read()`. What the round hands on is its list of
`Dispatch`es. A tunnelling `GET` turns the connection into an RTSP connection with base64 input, a tunnelling `POST` gives
its socket away. No HTTP location is ever registered (`http_init` is not called), so every other HTTP request is answered
with an error.
-/

namespace NuWicam.Rtsp

open Lib

/-- `sizeof(c->req_buf)` -/
def reqBufSize : Nat := 4096

inductive ConnProto
  | start
  | rtsp
  | http
deriving DecidableEq, Repr

/-- The fields of `struct conn` that the reading functions use: `proto`, the first `req_len` bytes of `req_buf`, and
`base64_count`. -/
structure ReadSide where
  proto : ConnProto
  reqBuf : Str
  base64Count : Int
deriving DecidableEq, Repr

def ReadSide.accept : ReadSide := ⟨.start, [], -1⟩

inductive Dispatch
  | request (text : Str)
  | packet (chan : UInt8) (d : Str)
deriving DecidableEq, Repr

inductive ReadEnd
  | goesOn
  | dropped
  | crashed
deriving DecidableEq, Repr

def crlfcrlf : Str := [13, 10, 13, 10]

def requestText (buf : Str) : Str :=
  match strstr crlfcrlf buf with
  | some rest => buf.take (buf.length - rest.length + 4)
  | none => buf

/-! ## The QuickTime tunnel over HTTP -/

def tunnelType : Str := bytes "application/x-rtsp-tunnelled"

/-- `peer t` says whether some connection in `conn_list` has the cookie `t`. -/
def handleQTTunnel (peer : Str → Bool) (m : Pmsg) (c : ReadSide) (post : Bool) : Nat × ReadSide :=
  match getHeader m (bytes "x-sessioncookie") with
  | none => (0, c)
  | some t =>
    if 128 < t.length + 1 then (0, c)
    else if post then (if peer t then 1 else 0, c)
    else (0, { c with proto := .rtsp, base64Count := 0 })

/-- They differ in the header they look at. -/
def handleTunnel (peer : Str → Bool) (m : Pmsg) (c : ReadSide) (header : Str) (post : Bool) : Int × ReadSide :=
  match getHeader m header with
  | some t =>
    if caseEq t tunnelType then
      let r := handleQTTunnel peer m c post
      (if r.1 ≠ 0 then -1 else 0, r.2)
    else (0, c)
  | none => (0, c)

/-- The `CONN_PROTO_HTTP` case of `handle_request`. -/
def handleHttp (peer : Str → Bool) (m : Pmsg) (method : Str) (c : ReadSide) : Int × ReadSide :=
  if caseEq method (bytes "GET") then handleTunnel peer m c (bytes "Accept") false
  else if caseEq method (bytes "POST") then handleTunnel peer m c (bytes "Content-Type") true
  else (0, c)

/-! ## Requests and packets -/

/-- As far as the reading side goes. `parse_pmsg` accepts responses too; their `sl.req` is not set, and the handlers read it.
-/
def handleRequest (peer : Str → Bool) (c : ReadSide) : ReadEnd × ReadSide :=
  if c.reqBuf.head? = some 0 then (.dropped, c)
  else match parsePmsg c.reqBuf with
    | .error .refused => (.dropped, c)
    | .error .fault => (.crashed, c)
    | .ok (m, _) =>
      match m.sl with
      | .stat _ _ => (.crashed, c)
      | .req method _ =>
        match c.proto with
        | .http =>
          let r := handleHttp peer m method c
          (if r.1 < 0 then .dropped else .goesOn, r.2)
        | _ => (.goesOn, c)

def takeRequest (peer : Str → Bool) (c : ReadSide) : ReadEnd × ReadSide × List Dispatch :=
  let r := handleRequest peer c
  (r.1, { r.2 with reqBuf := [] }, [.request (requestText c.reqBuf)])

/-- `GET_16(c->req_buf + 2)` -/
def packetLen (buf : Str) : Nat := (buf.getD 2 0).toNat * 256 + (buf.getD 3 0).toNat

/-- `none` where `parse_client_data` returns `-1`. -/
def firstLine (line : Str) : Option ConnProto :=
  match strrchr 32 line with
  | none => none
  | some b =>
    if hasPfx (bytes "HTTP/") b.tail then some .http
    else if hasPfx (bytes "RTSP/") b.tail then some .rtsp
    else none

/-- The Boolean is true where it returns `1` to be called again. -/
def parseClientData (peer : Str → Bool) (c : ReadSide) : Bool × ReadEnd × ReadSide × List Dispatch :=
  match c.proto with
  | .start =>
    match strchr 10 (cstr c.reqBuf) with
    | none => (false, .goesOn, c, [])
    | some rest =>
      match firstLine ((cstr c.reqBuf).take ((cstr c.reqBuf).length - rest.length)) with
      | none => (false, .dropped, c, [])
      | some proto => (true, .goesOn, { c with proto := proto }, [])
  | .rtsp =>
    if c.reqBuf.length < 4 then (false, .goesOn, c, [])
    else if c.reqBuf.head? = some 36 then
      if c.reqBuf.length < packetLen c.reqBuf + 4 then (false, .goesOn, c, [])
      else (false, .goesOn, { c with reqBuf := [] },
        [.packet (c.reqBuf.getD 1 0) ((c.reqBuf.drop 4).take (packetLen c.reqBuf))])
    else if (strstr crlfcrlf (cstr c.reqBuf)).isNone then (false, .goesOn, c, [])
    else (false, takeRequest peer c)
  | .http =>
    if (strstr crlfcrlf (cstr c.reqBuf)).isNone then (false, .goesOn, c, [])
    else (false, takeRequest peer c)

/-! ## The loop of `do_read` -/

/-- `base64[]` -/
def base64 (c : UInt8) : Option Nat :=
  let n := c.toNat
  if 65 ≤ n ∧ n ≤ 90 then some (n - 65)
  else if 97 ≤ n ∧ n ≤ 122 then some (n - 71)
  else if 48 ≤ n ∧ n ≤ 57 then some (n + 4)
  else if n = 43 then some 62
  else if n = 47 then some 63
  else if n = 61 then some 0
  else none

def unbase64Group (a b c d : UInt8) : Str :=
  let v := fun x => (base64 x).getD 0
  let out := [UInt8.ofNat ((v a <<< 2) &&& 0xFC ||| (v b >>> 4)), UInt8.ofNat ((v b <<< 4) &&& 0xF0 ||| (v c >>> 2)),
    UInt8.ofNat ((v c <<< 6) &&& 0xC0 ||| v d)]
  if d = 61 then (if c = 61 then out.take 1 else out.take 2) else out

def unbase64Groups : Str → Str × Nat
  | a :: b :: c :: d :: rest => (unbase64Group a b c d ++ (unbase64Groups rest).1, (unbase64Groups rest).2)
  | rest => (rest, rest.length)

/-- The decoded bytes followed by the characters of an unfinished group, and the number of the latter. -/
def unbase64 (d : Str) : Str × Nat := unbase64Groups (d.filter fun c => (base64 c).isSome)

/-- `req_buf`, `req_len` and `base64_count` after a result of `read()`. -/
def appendRead (c : ReadSide) (chunk : Str) : ReadSide :=
  if 0 ≤ c.base64Count then
    let keep := c.reqBuf.length - c.base64Count.toNat
    let r := unbase64 (c.reqBuf.drop keep ++ chunk)
    { c with reqBuf := c.reqBuf.take keep ++ r.1, base64Count := r.2 }
  else { c with reqBuf := c.reqBuf ++ chunk }

/-- Only the start state asks for another call, and it is left by then. -/
def parseLoop (peer : Str → Bool) (c : ReadSide) : ReadEnd × ReadSide × List Dispatch :=
  match parseClientData peer c with
  | (true, _, c', _) => (parseClientData peer c').2
  | (false, r) => r

/-- `none` if `read()` cannot have returned `chunk`, as it returns at least one byte and no more than there is room for. -/
def readStep (peer : Str → Bool) (c : ReadSide) (chunk : Str) : Option (ReadEnd × ReadSide × List Dispatch) :=
  if chunk = [] ∨ reqBufSize - 1 < c.reqBuf.length + chunk.length then none
  else
    let c := appendRead c chunk
    if c.reqBuf.length = reqBufSize - 1 then some (.dropped, c, [])
    else if 0 < c.base64Count then some (.goesOn, c, [])
    else some (parseLoop peer c)

def feed (peer : Str → Bool) : ReadSide → List Str → Option (List Dispatch)
  | _, [] => some []
  | c, chunk :: rest =>
    match readStep peer c chunk with
    | none => none
    | some (.goesOn, c', ds) => (feed peer c' rest).map (ds ++ ·)
    | some (_, _, ds) => some ds

end NuWicam.Rtsp
