import NuWicam.Rtsp.Reader
import NuWicam.Rtsp.Splitting

/-!
# The server from its sockets (`tcp.c`, `rtsp.c`)

What the bytes of all clients do to the whole state. The sockets and the cookie of a connection are kept beside the memory of
`Handlers`, by the same addresses, with the cookies of the tunnelling requests that concern it. A `NULL` `proto_state` that
`interleave_recv` follows sets `fault`, and nothing happens afterwards; every other fault is `none`. What is written to the
sockets is left out (`SendBuf`). `net_reaches` connects the runs of sockets with the runs of `step`.
-/

namespace NuWicam.Rtsp

open Lib Option

/-- The fields of `struct conn` that belong to its sockets and to the tunnel. -/
structure Tcp where
  read : ReadSide
  /-- `fd` and `second_fd`, if not `-1` -/
  fd : Option Nat
  secondFd : Option Nat
  /-- `http_tunnel_cookie` -/
  cookie : Str
  /-- the cookies of the tunnelling `GET`s that this connection has completed -/
  gets : List Str
  /-- the cookies of the tunnelling `POST`s whose socket it was given -/
  posts : List Str

def Tcp.sock (x : Tcp) (second : Bool) : Option Nat := if second then x.secondFd else x.fd

structure Net where
  st : State
  tcp : Table Tcp
  /-- the calls of `interleave_recv_rtcp` -/
  rtcp : List (Addr × Str)
  /-- a `NULL` `proto_state` was followed -/
  fault : Bool

namespace Net

def heap (net : Net) : Heap := net.st.heap

def modify (net : Net) (c : Addr) (f : Tcp → Tcp) : Net := { net with tcp := net.tcp.modify c f }

def setRead (net : Net) (c : Addr) (r : ReadSide) : Net := net.modify c fun x => { x with read := r }

/-- `c->req_len = 0` -/
def clear (net : Net) (c : Addr) : Net := net.modify c fun x => { x with read := { x.read with reqBuf := [] } }

variable (net : Net) (c : Addr)

theorem modify_tcp (f : Tcp → Tcp) (b : Addr) :
    (net.modify c f).tcp b = if b = c then (net.tcp b).map f else net.tcp b := Table.modify_apply ..

theorem modify_self {net : Net} {c : Addr} {x : Tcp} (hx : net.tcp c = some x) (f : Tcp → Tcp) :
    (net.modify c f).tcp c = some (f x) := by
  rw [modify_tcp, if_pos rfl, hx]
  rfl

theorem modify_modify (f g : Tcp → Tcp) : (net.modify c f).modify c g = net.modify c fun x => g (f x) := by
  have htcp : (net.tcp.modify c f).modify c g = net.tcp.modify c fun x => g (f x) := by
    funext b
    simp only [Table.modify_apply]
    split
    · rw [map_map]
      rfl
    · rfl
  unfold modify
  rw [htcp]

theorem setRead_setRead (r r' : ReadSide) : (net.setRead c r).setRead c r' = net.setRead c r' :=
  modify_modify ..

theorem clear_setRead (r : ReadSide) : (net.setRead c r).clear c = net.setRead c { r with reqBuf := [] } := modify_modify ..

def findPeer (net : Net) (t : Str) : Option Addr :=
  net.heap.connList.find? fun cg => (net.tcp cg).any fun x => x.cookie == t

end Net

/-! ## Packets and the tunnel -/

def interleaveRecv (net : Net) (c : Addr) (chan : Nat) (d : Str) : Option Net := do
  let conn ← net.heap.conn c
  if hc : chan < maxInterleaveChannels then
    match conn.protoState with
    | none => pure { net with fault := true }
    | some rc =>
      match rc ⟨chan, hc⟩ with
      | ⟨none, _⟩ => pure net
      | ⟨some e, true⟩ => pure { net with rtcp := net.rtcp ++ [(e, d)] }
      | ⟨some _, false⟩ => pure net
  else pure net

/-- `handle_QT_tunnel` -/
def netQTTunnel (net : Net) (c : Addr) (m : Pmsg) (post : Bool) : Option (Nat × Net) := do
  let x ← net.tcp c
  match getHeader m (bytes "x-sessioncookie") with
  | none => pure (0, net)
  | some t =>
    if 128 < t.length + 1 then pure (0, net)
    else if post then
      match net.findPeer t with
      | none => pure (0, net)
      | some cg =>
        let net := net.modify cg fun y => { y with secondFd := x.fd, posts := y.posts ++ [t] }
        pure (1, net.modify c fun y => { y with fd := none })
    else pure (0, net.modify c fun y =>
      { y with cookie := t, gets := y.gets ++ [t], read := { y.read with proto := .rtsp, base64Count := 0 } })

/-- `handle_GET` and `handle_POST` -/
def netTunnel (net : Net) (c : Addr) (m : Pmsg) (header : Str) (post : Bool) : Option (Int × Net) :=
  match getHeader m header with
  | some t =>
    if caseEq t tunnelType then (netQTTunnel net c m post).map fun r => (if r.1 ≠ 0 then -1 else 0, r.2)
    else some (0, net)
  | none => some (0, net)

/-- The `CONN_PROTO_HTTP` case of `handle_request` -/
def netHttp (net : Net) (c : Addr) (m : Pmsg) (method : Str) : Option (Int × Net) :=
  if caseEq method (bytes "GET") then netTunnel net c m (bytes "Accept") false
  else if caseEq method (bytes "POST") then netTunnel net c m (bytes "Content-Type") true
  else some (0, net)

section

variable (md5 : Md5) (locs : List RtspLocation)

/-- `handle_request` -/
def netRequest (net : Net) (c : Addr) (env : Env) : Option (Int × Net) := do
  let x ← net.tcp c
  if x.read.reqBuf.head? = some 0 then pure (-1, net)
  else match parsePmsg x.read.reqBuf with
    | .error .refused => pure (-1, net)
    | .error .fault => none
    | .ok (m, _) =>
      match m.sl with
      | .stat _ _ => none
      | .req method _ =>
        match x.read.proto with
        | .http => netHttp net c m method
        | .rtsp => (step md5 locs net.st (.request c m env)).map fun st => (0, { net with st := st })
        | .start => pure (0, net)

def netTake (net : Net) (c : Addr) (env : Env) : Option (Int × Net) :=
  (netRequest md5 locs net c env).map fun r => if r.1 < 0 then (-1, r.2) else (0, r.2.clear c)

/-- `parse_client_data` -/
def netParse (net : Net) (c : Addr) (env : Env) : Option (Int × Net) := do
  let x ← net.tcp c
  match x.read.proto with
  | .start =>
    match strchr 10 (cstr x.read.reqBuf) with
    | none => pure (0, net)
    | some rest =>
      match firstLine ((cstr x.read.reqBuf).take ((cstr x.read.reqBuf).length - rest.length)) with
      | none => pure (-1, net)
      | some proto => pure (1, net.setRead c { x.read with proto := proto })
  | .rtsp =>
    if x.read.reqBuf.length < 4 then pure (0, net)
    else if x.read.reqBuf.head? = some 36 then
      if x.read.reqBuf.length < packetLen x.read.reqBuf + 4 then pure (0, net)
      else (interleaveRecv net c (x.read.reqBuf.getD 1 0).toNat
        ((x.read.reqBuf.drop 4).take (packetLen x.read.reqBuf))).map fun net => (0, net.clear c)
    else if (strstr crlfcrlf (cstr x.read.reqBuf)).isNone then pure (0, net)
    else netTake md5 locs net c env
  | .http =>
    if (strstr crlfcrlf (cstr x.read.reqBuf)).isNone then pure (0, net)
    else netTake md5 locs net c env

/-- `while ((ret = parse_client_data(c)) > 0);` as in `parseLoop` -/
def netParseLoop (net : Net) (c : Addr) (env : Env) : Option (Int × Net) :=
  (netParse md5 locs net c env).bind fun y => if 0 < y.1 then netParse md5 locs y.2 c env else some y

/-- `drop_conn` -/
def netDrop (net : Net) (c : Addr) : Option Net :=
  (step md5 locs net.st (.drop c)).map fun st => { net with st := st, tcp := net.tcp.del c }

/-- `read()` returns `chunk` on the first or the second socket. -/
def netRead (net : Net) (c : Addr) (second : Bool) (chunk : Str) (env : Env) : Option Net := do
  let x ← net.tcp c
  if x.sock second = none ∨ chunk = [] ∨ reqBufSize - 1 < x.read.reqBuf.length + chunk.length then none
  else
    let r := appendRead x.read chunk
    let net := net.setRead c r
    if r.reqBuf.length = reqBufSize - 1 then netDrop md5 locs net c
    else if 0 < r.base64Count then pure net
    else
      let z ← netParseLoop md5 locs net c env
      if z.1 < 0 then netDrop md5 locs z.2 c else pure z.2

inductive NetEvent
  | accept (c : Addr) (fd : Nat)
  | read (c : Addr) (second : Bool) (chunk : Str) (env : Env)
  /-- `read()` reports the end or an error -/
  | close (c : Addr) (second : Bool)
  /-- `conn_write` drops the connection -/
  | drop (c : Addr)
  | fail (e : Addr)
  | frame (b : SourceId) (t : Track) (accepted : Bool) (fails : Addr → Bool)

def Tcp.accept (fd : Nat) : Tcp := ⟨.accept, some fd, none, [], [], []⟩

def netStep (net : Net) (ev : NetEvent) : Option Net :=
  if net.fault then none
  else match ev with
    | .accept c fd => (step md5 locs net.st (.accept c)).map fun st =>
        { net with st := st, tcp := net.tcp.put c (.accept fd) }
    | .read c second chunk env => netRead md5 locs net c second chunk env
    | .close c true => (net.tcp c).bind fun x =>
        if x.secondFd.isSome then some (net.modify c fun x => { x with secondFd := none }) else none
    | .close c false => netDrop md5 locs net c
    | .drop c => netDrop md5 locs net c
    | .fail e => (step md5 locs net.st (.fail e)).map fun st => { net with st := st }
    | .frame b t accepted fails => (step md5 locs net.st (.frame b t accepted fails)).map fun st => { net with st := st }

end

def Net.start (blocks : SourceId → List Directive) : Net := ⟨State.start blocks, fun _ => none, [], false⟩

/-! ## What a round can do -/

inductive NetOp
  /-- the reading side of a connection -/
  | read (c : Addr) (f : ReadSide → ReadSide)
  /-- an event of the server -/
  | server (ev : Event)
  | rtcp (e : Addr) (d : Str)
  /-- a packet on a channel of a connection without `proto_state` -/
  | fault (c : Addr) (chan : Nat)
  /-- tunnelling requests with the cookie `t`; the socket of `c` is given to `cg` -/
  | get (c : Addr) (t : Str)
  | post (c cg : Addr) (t : Str)
  | closeSecond (c : Addr)
  | accept (c : Addr) (fd : Nat)
  | gone (c : Addr)

inductive NetOpStep (md5 : Md5) (locs : List RtspLocation) (net : Net) : NetOp → Net → Prop
  | read {c f} : NetOpStep md5 locs net (.read c f) (net.modify c fun x => { x with read := f x.read })
  | server {ev st} : step md5 locs net.st ev = some st → NetOpStep md5 locs net (.server ev) { net with st := st }
  | rtcp {e d} : NetOpStep md5 locs net (.rtcp e d) { net with rtcp := net.rtcp ++ [(e, d)] }
  | fault {c chan} : NetOpStep md5 locs net (.fault c chan) { net with fault := true }
  | get {c t} : NetOpStep md5 locs net (.get c t) (net.modify c fun y =>
      { y with cookie := t, gets := y.gets ++ [t], read := { y.read with proto := .rtsp, base64Count := 0 } })
  | post {c cg t x} : net.tcp c = some x → net.findPeer t = some cg → NetOpStep md5 locs net (.post c cg t)
      ((net.modify cg fun y => { y with secondFd := x.fd, posts := y.posts ++ [t] }).modify c fun y => { y with fd := none })
  | closeSecond {c} : NetOpStep md5 locs net (.closeSecond c) (net.modify c fun x => { x with secondFd := none })
  | accept {c fd} : NetOpStep md5 locs net (.accept c fd) { net with tcp := net.tcp.put c (.accept fd) }
  | gone {c} : NetOpStep md5 locs net (.gone c) { net with tcp := net.tcp.del c }

def Packet (buf : Str) (chan : Nat) : Prop :=
  buf.head? = some 36 ∧ 4 ≤ buf.length ∧ packetLen buf + 4 ≤ buf.length ∧ chan = (buf.getD 1 0).toNat

instance (buf : Str) (chan : Nat) : Decidable (Packet buf chan) :=
  inferInstanceAs (Decidable (_ ∧ _ ∧ _ ∧ _))

/-- A fault comes from a packet in the buffer, a `POST` from a request in the buffer; the requests of the server have been
parsed. -/
def NetOp.From (h : Heap) (c : Addr) (buf : Str) : NetOp → Prop
  | .fault c' chan => c' = c ∧ Packet buf chan ∧ chan < maxInterleaveChannels ∧
      ∃ conn, h.conn c = some conn ∧ conn.protoState = none
  | .post _ _ t => ∃ m rest, parsePmsg buf = .ok (m, rest) ∧ caseEq m.method (bytes "POST") = true ∧
      getHeader m (bytes "x-sessioncookie") = some t
  | .server ev => ev.Parsed
  | _ => True

def NetEvent.Allows (net : Net) (op : NetOp) : NetEvent → Prop
  | .read c _ chunk _ => ∃ y, net.tcp c = some y ∧ op.From net.heap c (appendRead y.read chunk).reqBuf
  | _ => match op with
    | .fault _ _ => False
    | .post _ _ _ => False
    | .server ev => ev.Parsed
    | _ => True

section

variable {md5 : Md5} {locs : List RtspLocation}

def NetPath (md5 : Md5) (locs : List RtspLocation) (A : NetOp → Prop) (net net' : Net) : Prop :=
  ∃ ops, Trail (NetOpStep md5 locs) net ops net' ∧ ∀ op ∈ ops, A op

namespace NetPath

variable {A : NetOp → Prop} {net net₁ net' : Net}

theorem refl : NetPath md5 locs A net net := ⟨[], .nil net, fun _ h => by cases h⟩

theorem single {op : NetOp} (h : NetOpStep md5 locs net op net') (ha : A op) : NetPath md5 locs A net net' :=
  ⟨[op], .single h, fun _ hop => by rw [List.mem_singleton.mp hop]; exact ha⟩

theorem trans (h : NetPath md5 locs A net net₁) (h' : NetPath md5 locs A net₁ net') : NetPath md5 locs A net net' := by
  obtain ⟨ops, ht, ha⟩ := h
  obtain ⟨ops', ht', ha'⟩ := h'
  exact ⟨ops ++ ops', ht.append ht', fun op hop => (List.mem_append.mp hop).elim (ha op) (ha' op)⟩

end NetPath

variable {net net' : Net} {c : Addr} {h : Heap} {buf : Str} {m : Pmsg} {env : Env}

theorem interleaveRecv_path {chan : Nat} {d : Str} (hh : net.heap = h) (hbuf : Packet buf chan)
    (ho : interleaveRecv net c chan d = some net') : NetPath md5 locs (NetOp.From h c buf) net net' := by
  simp only [interleaveRecv, bind_eq_bind, bind_eq_some_iff] at ho
  obtain ⟨conn, hconn, ho⟩ := ho
  split at ho
  · rename_i hlt
    split at ho
    · rename_i hnone
      cases ho
      have hop : NetOpStep md5 locs net (.fault c chan) { net with fault := true } := .fault
      exact .single hop ⟨rfl, hbuf, hlt, conn, hh ▸ hconn, hnone⟩
    · split at ho
      · cases ho
        exact .refl
      · cases ho
        exact .single .rtcp trivial
      · cases ho
        exact .refl
  · cases ho
    exact .refl

variable {rest : Str} {post : Bool} {x : Int × Net} {y : Tcp}

theorem netQTTunnel_path (hm : parsePmsg buf = .ok (m, rest)) (hpost : post → caseEq m.method (bytes "POST")) {x : Nat × Net}
    (ho : netQTTunnel net c m post = some x) : NetPath md5 locs (NetOp.From h c buf) net x.2 := by
  simp only [netQTTunnel, bind_eq_bind, bind_eq_some_iff] at ho
  obtain ⟨y, hy, ho⟩ := ho
  split at ho
  · cases ho
    exact .refl
  rename_i t ht
  split at ho
  · cases ho
    exact .refl
  split at ho
  · rename_i hp
    split at ho
    · cases ho
      exact .refl
    · rename_i cg hcg
      cases ho
      exact .single (.post hy hcg) ⟨m, rest, hm, hpost hp, ht⟩
  · cases ho
    exact .single .get trivial

theorem netTunnel_path {header : Str} (hm : parsePmsg buf = .ok (m, rest)) (hpost : post → caseEq m.method (bytes "POST"))
    (ho : netTunnel net c m header post = some x) : NetPath md5 locs (NetOp.From h c buf) net x.2 := by
  unfold netTunnel at ho
  split at ho
  · split at ho
    · obtain ⟨y, hy, rfl⟩ := map_eq_some_iff.mp ho
      exact netQTTunnel_path hm hpost hy
    · cases ho
      exact .refl
  · cases ho
    exact .refl

theorem netHttp_path {method : Str} (hm : parsePmsg buf = .ok (m, rest)) (hmethod : m.method = method)
    (ho : netHttp net c m method = some x) : NetPath md5 locs (NetOp.From h c buf) net x.2 := by
  unfold netHttp at ho
  split at ho
  · exact netTunnel_path hm (fun hp => by cases hp) ho
  split at ho
  · rename_i hp
    exact netTunnel_path hm (fun _ => hmethod ▸ hp) ho
  · cases ho
    exact .refl

theorem clear_path {A : NetOp → Prop} (hA : ∀ f, A (.read c f)) : NetPath md5 locs A net (net.clear c) :=
  .single .read (hA fun r => { r with reqBuf := [] })

theorem netTake_path (hy : net.tcp c = some y) (ho : netTake md5 locs net c env = some x) :
    NetPath md5 locs (NetOp.From h c y.read.reqBuf) net x.2 := by
  have hrequest : ∀ {z : Int × Net}, netRequest md5 locs net c env = some z →
      NetPath md5 locs (NetOp.From h c y.read.reqBuf) net z.2 := by
    intro z hz
    simp only [netRequest, hy, bind_eq_bind, bind_some] at hz
    split at hz
    · cases hz
      exact .refl
    split at hz
    · cases hz
      exact .refl
    · cases hz
    rename_i m rest hm
    split at hz
    · cases hz
    rename_i method uri hsl
    split at hz
    · refine netHttp_path hm ?_ hz
      rw [Pmsg.method, hsl]
    · obtain ⟨st, hst, rfl⟩ := map_eq_some_iff.mp hz
      exact .single (.server hst) ⟨_, _, hm⟩
    · cases hz
      exact .refl
  obtain ⟨z, hz, rfl⟩ := map_eq_some_iff.mp ho
  have hpath := hrequest hz
  split
  · exact hpath
  · exact hpath.trans (clear_path fun _ => trivial)

theorem netTake_le (ho : netTake md5 locs net c env = some x) : x.1 ≤ 0 := by
  obtain ⟨z, _, rfl⟩ := map_eq_some_iff.mp ho
  split
  · omega
  · omega

theorem netParse_again (hy : net.tcp c = some y) (ho : netParse md5 locs net c env = some x)
    (hpos : 0 < x.1) : ∃ proto, x.2 = net.setRead c { y.read with proto := proto } := by
  have hzero : ∀ {net' : Net}, (0, net') = x → False := fun h => absurd hpos (by rw [← h]; omega)
  have htake : netTake md5 locs net c env = some x → False := fun h => Int.not_lt.mpr (netTake_le h) hpos
  simp only [netParse, hy, bind_eq_bind, bind_some] at ho
  split at ho
  · split at ho
    · exact (hzero (some.inj ho)).elim
    split at ho
    · cases ho
      exact absurd hpos (show ¬ (0 : Int) < -1 by decide)
    · cases ho
      exact ⟨_, rfl⟩
  · split at ho
    · exact (hzero (some.inj ho)).elim
    split at ho
    · split at ho
      · exact (hzero (some.inj ho)).elim
      · obtain ⟨_, _, hx⟩ := map_eq_some_iff.mp ho
        exact (hzero hx).elim
    split at ho
    · exact (hzero (some.inj ho)).elim
    · exact (htake ho).elim
  · split at ho
    · exact (hzero (some.inj ho)).elim
    · exact (htake ho).elim

theorem netParse_path (hy : net.tcp c = some y) (hh : net.heap = h)
    (ho : netParse md5 locs net c env = some x) : NetPath md5 locs (NetOp.From h c y.read.reqBuf) net x.2 := by
  simp only [netParse, hy, bind_eq_bind, bind_some] at ho
  split at ho
  · split at ho
    · cases ho
      exact .refl
    split at ho
    · cases ho
      exact .refl
    · rename_i proto _
      cases ho
      exact .single (.read (f := fun _ => { y.read with proto := proto })) trivial
  · split at ho
    · cases ho
      exact .refl
    rename_i hfour
    split at ho
    · rename_i hhead
      split at ho
      · cases ho
        exact .refl
      · rename_i hwhole
        obtain ⟨net₁, hrecv, rfl⟩ := map_eq_some_iff.mp ho
        have hpacket : Packet y.read.reqBuf _ := ⟨hhead, by omega, by omega, rfl⟩
        exact (interleaveRecv_path hh hpacket hrecv).trans (clear_path fun _ => trivial)
    split at ho
    · cases ho
      exact .refl
    · exact netTake_path hy ho
  · split at ho
    · cases ho
      exact .refl
    · exact netTake_path hy ho

theorem netDrop_path {A : NetOp → Prop} (hserver : A (.server (.drop c))) (hgone : A (.gone c))
    (ho : netDrop md5 locs net c = some net') : NetPath md5 locs A net net' := by
  obtain ⟨st, hst, rfl⟩ := map_eq_some_iff.mp ho
  exact (NetPath.single (.server hst) hserver).trans (.single .gone hgone)

/-- **What a round of `do_read` does**, by elementary changes. -/
theorem netRead_ops {second : Bool} {chunk : Str} (hy : net.tcp c = some y)
    (ho : netRead md5 locs net c second chunk env = some net') :
    NetPath md5 locs (NetOp.From net.heap c (appendRead y.read chunk).reqBuf) net net' := by
  simp only [netRead, hy, bind_eq_bind, bind_some] at ho
  split at ho
  · cases ho
  set r := appendRead y.read chunk
  have hset : NetPath md5 locs (NetOp.From net.heap c r.reqBuf) net (net.setRead c r) :=
    .single (.read (f := fun _ => r)) trivial
  have hr : (net.setRead c r).tcp c = some { y with read := r } := Net.modify_self hy _
  split at ho
  · exact hset.trans (netDrop_path trivial trivial ho)
  split at ho
  · cases ho
    exact hset
  obtain ⟨z, hz, ho⟩ := bind_eq_some_iff.mp ho
  obtain ⟨u, hu, hz⟩ := bind_eq_some_iff.mp hz
  have hpath := hset.trans (netParse_path hr rfl hu)
  -- the second call, if there is one, sees the same buffer
  have hpath' : NetPath md5 locs (NetOp.From net.heap c r.reqBuf) net z.2 := by
    split at hz
    · rename_i hpos
      obtain ⟨proto, hu'⟩ := netParse_again hr hu hpos
      rw [hu'] at hz hpath
      exact hpath.trans (netParse_path (Net.modify_self hr _) rfl hz)
    · cases hz
      exact hpath
  split at ho
  · exact hpath'.trans (netDrop_path trivial trivial ho)
  · cases ho
    exact hpath'

/-- **What an event does**, by changes that it allows. -/
theorem netStep_path {ev : NetEvent} (ho : netStep md5 locs net ev = some net') :
    NetPath md5 locs (ev.Allows net) net net' := by
  unfold netStep at ho
  split at ho
  · cases ho
  split at ho
  · obtain ⟨st, hst, rfl⟩ := map_eq_some_iff.mp ho
    exact (NetPath.single (.server hst) trivial).trans (.single .accept trivial)
  · rename_i c second chunk env
    obtain ⟨y, hy, _⟩ := bind_eq_some_iff.mp ho
    obtain ⟨ops, ht, hall⟩ := netRead_ops hy ho
    exact ⟨ops, ht, fun op hop => ⟨y, hy, hall op hop⟩⟩
  · obtain ⟨y, hy, ho⟩ := bind_eq_some_iff.mp ho
    split at ho
    · cases ho
      exact .single .closeSecond trivial
    · cases ho
  · exact netDrop_path trivial trivial ho
  · exact netDrop_path trivial trivial ho
  · obtain ⟨st, hst, rfl⟩ := map_eq_some_iff.mp ho
    exact .single (.server hst) trivial
  · obtain ⟨st, hst, rfl⟩ := map_eq_some_iff.mp ho
    exact .single (.server hst) trivial

/-- **Invariant rule for the sockets.** -/
theorem always_of_netOps {I : Net → Prop} {C : Net → NetEvent → Prop}
    (hstep : ∀ net op net' ev net₀, ev.Allows net₀ op → C net₀ ev → I net → NetOpStep md5 locs net op net' → I net')
    {evs : List NetEvent} (h₀ : I net) (hC : EachStep (netStep md5 locs) C net evs) : Always (netStep md5 locs) I net evs := by
  refine always_of_eachStep (fun net ev net' hi hc ho => ?_) h₀ hC
  obtain ⟨ops, ht, hall⟩ := netStep_path ho
  exact ht.keeps (fun net₁ op net₂ ha hi₁ h => hstep net₁ op net₂ ev net ha hc hi₁ h) hall hi

/-! ## The server of a run -/

theorem NetEvent.Allows.parsed {ev : NetEvent} {ev' : Event} (h : ev.Allows net (.server ev')) : ev'.Parsed := by
  cases ev with
  | read c second chunk env =>
    obtain ⟨y, _, hfrom⟩ := h
    exact hfrom
  | _ => exact h

/-- A server that a run of `step` reaches, with requests that were parsed. -/
def Reaches (md5 : Md5) (locs : List RtspLocation) (blocks : SourceId → List Directive) (st : State) : Prop :=
  ∃ evs : List Event, (∀ ev ∈ evs, ev.Parsed) ∧ run (step md5 locs) (State.start blocks) evs = some st

theorem Reaches.step {blocks : SourceId → List Directive} {st st' : State} {ev : Event}
    (h : Reaches md5 locs blocks st) (hev : ev.Parsed) (hs : Rtsp.step md5 locs st ev = some st') :
    Reaches md5 locs blocks st' := by
  obtain ⟨evs, hall, hrun⟩ := h
  refine ⟨evs ++ [ev], fun e he => ?_, ?_⟩
  · rcases List.mem_append.mp he with he | he
    · exact hall e he
    · rw [List.mem_singleton.mp he]
      exact hev
  · rw [run_append, hrun]
    simp [run, hs]

/-- **Bytes to events**: the server of every state that the sockets reach is one that `step` reaches. -/
theorem net_reaches (blocks : SourceId → List Directive) (evs : List NetEvent) :
    Always (netStep md5 locs) (fun net => Reaches md5 locs blocks net.st) (Net.start blocks) evs := by
  refine always_of_netOps (C := fun _ _ => True) ?_ ⟨[], fun _ h => (List.not_mem_nil h).elim, rfl⟩
    (eachStep_of_forall (fun _ _ => trivial) _)
  intro net op net' ev net₀ ha _ hi hop
  cases hop with
  | server hst => exact hi.step ha.parsed hst
  | _ => exact hi

/-! ## One connection of a run -/

def Net.peer (net : Net) (t : Str) : Bool := (net.findPeer t).isSome

def Net.Sees (net : Net) (c : Addr) (r : ReadSide) : Prop := ∃ x, net.tcp c = some x ∧ x.read = r

theorem netQTTunnel_sees (hy : net.tcp c = some y) {x : Nat × Net} (ho : netQTTunnel net c m post = some x) :
    x.1 = (handleQTTunnel net.peer m y.read post).1 ∧ x.2.Sees c (handleQTTunnel net.peer m y.read post).2 := by
  simp only [netQTTunnel, hy, bind_eq_bind, bind_some] at ho
  unfold handleQTTunnel
  generalize getHeader m (bytes "x-sessioncookie") = cookie at ho ⊢
  rcases cookie with _ | t
  · cases ho
    exact ⟨rfl, y, hy, rfl⟩
  dsimp only at ho ⊢
  split at ho
  · cases ho
    rw [if_pos ‹_›]
    exact ⟨rfl, y, hy, rfl⟩
  rw [if_neg ‹_›]
  split at ho
  · rw [if_pos ‹_›, Net.peer]
    generalize net.findPeer t = found at ho ⊢
    rcases found with _ | cg
    · cases ho
      exact ⟨rfl, y, hy, rfl⟩
    · cases ho
      -- the connection may have found itself; its reading side stays as it is
      refine ⟨rfl, ?_⟩
      by_cases hself : c = cg
      · subst hself
        exact ⟨_, Net.modify_self (Net.modify_self hy _) _, rfl⟩
      · have hother : (net.modify cg fun z => { z with secondFd := y.fd, posts := z.posts ++ [t] }).tcp c = some y := by
          rw [Net.modify_tcp, if_neg hself, hy]
        exact ⟨_, Net.modify_self hother _, rfl⟩
  · rw [if_neg ‹_›]
    cases ho
    exact ⟨rfl, _, Net.modify_self hy _, rfl⟩

theorem netHttp_sees (hy : net.tcp c = some y) {method : Str} (ho : netHttp net c m method = some x) :
    x.1 = (handleHttp net.peer m method y.read).1 ∧ x.2.Sees c (handleHttp net.peer m method y.read).2 := by
  have htunnel : ∀ {header : Str} {post : Bool}, netTunnel net c m header post = some x →
      x.1 = (handleTunnel net.peer m y.read header post).1 ∧ x.2.Sees c (handleTunnel net.peer m y.read header post).2 := by
    intro header post ho
    unfold netTunnel at ho
    unfold handleTunnel
    generalize getHeader m header = value at ho ⊢
    rcases value with _ | t
    · cases ho
      exact ⟨rfl, y, hy, rfl⟩
    dsimp only at ho ⊢
    split at ho
    · rw [if_pos ‹_›]
      obtain ⟨z, hz, rfl⟩ := map_eq_some_iff.mp ho
      obtain ⟨hret, hsees⟩ := netQTTunnel_sees hy hz
      exact ⟨by rw [hret], hsees⟩
    · rw [if_neg ‹_›]
      cases ho
      exact ⟨rfl, y, hy, rfl⟩
  unfold netHttp at ho
  unfold handleHttp
  split_ifs at ho ⊢
  · exact htunnel ho
  · exact htunnel ho
  · cases ho
    exact ⟨rfl, y, hy, rfl⟩

def endOf (ret : Int) : ReadEnd := if ret < 0 then .dropped else .goesOn

theorem netRequest_sees (hy : net.tcp c = some y) (ho : netRequest md5 locs net c env = some x) :
    (handleRequest net.peer y.read).1 = endOf x.1 ∧ (0 ≤ x.1 → x.2.Sees c (handleRequest net.peer y.read).2) := by
  simp only [netRequest, hy, bind_eq_bind, bind_some] at ho
  unfold handleRequest
  split at ho
  · rw [if_pos ‹_›]
    cases ho
    exact ⟨rfl, fun _ => ⟨y, hy, rfl⟩⟩
  rw [if_neg ‹_›]
  generalize parsePmsg y.read.reqBuf = parsed at ho ⊢
  rcases parsed with (_ | _) | ⟨m, rest⟩
  · cases ho
    exact ⟨rfl, fun _ => ⟨y, hy, rfl⟩⟩
  · cases ho
  dsimp only at ho ⊢
  generalize m.sl = sl at ho ⊢
  rcases sl with ⟨method, uri⟩ | ⟨code, reason⟩
  · dsimp only at ho ⊢
    split at ho
    · rename_i hp
      obtain ⟨hret, hsees⟩ := netHttp_sees hy ho
      simp only [hp, endOf, hret]
      exact ⟨trivial, fun _ => hsees⟩
    · rename_i hp
      obtain ⟨st, _, rfl⟩ := map_eq_some_iff.mp ho
      simp only [hp]
      exact ⟨rfl, fun _ => ⟨y, hy, rfl⟩⟩
    · rename_i hp
      cases ho
      simp only [hp]
      exact ⟨rfl, fun _ => ⟨y, hy, rfl⟩⟩
  · cases ho

theorem interleaveRecv_tcp {chan : Nat} {d : Str} (ho : interleaveRecv net c chan d = some net') : net'.tcp = net.tcp := by
  simp only [interleaveRecv, bind_eq_bind, bind_eq_some_iff] at ho
  obtain ⟨conn, _, ho⟩ := ho
  split at ho
  · split at ho
    · cases ho
      rfl
    · split at ho <;> cases ho <;> rfl
  · cases ho
    rfl

structure Agrees (c : Addr) (x : Int × Net) (r : Bool × ReadEnd × ReadSide × List Dispatch) : Prop where
  again : r.1 = true ↔ 0 < x.1
  fin : r.2.1 = endOf x.1
  side : 0 ≤ x.1 → x.2.Sees c r.2.2.1

theorem agrees_zero (hy : net.tcp c = some y) {ds : List Dispatch} : Agrees c (0, net) (false, .goesOn, y.read, ds) :=
  ⟨by simp, rfl, fun _ => ⟨y, hy, rfl⟩⟩

theorem agrees_neg {r : ReadSide} {ds : List Dispatch} : Agrees c (-1, net) (false, .dropped, r, ds) :=
  ⟨by simp, rfl, fun h => absurd h (show ¬ (0 : Int) ≤ -1 by decide)⟩

theorem netTake_agrees (hy : net.tcp c = some y) (ho : netTake md5 locs net c env = some x) :
    Agrees c x (false, takeRequest net.peer y.read) := by
  obtain ⟨z, hz, rfl⟩ := map_eq_some_iff.mp ho
  obtain ⟨hend, hsees⟩ := netRequest_sees hy hz
  dsimp only [takeRequest]
  rw [hend, endOf]
  split_ifs with hneg
  · exact agrees_neg
  · obtain ⟨x, hx, hread⟩ := hsees (Int.not_lt.mp hneg)
    rw [← hread]
    exact agrees_zero (Net.modify_self hx _)

theorem netParse_agrees (hy : net.tcp c = some y) (ho : netParse md5 locs net c env = some x) :
    Agrees c x (parseClientData net.peer y.read) := by
  simp only [netParse, hy, bind_eq_bind, bind_some] at ho
  unfold parseClientData
  generalize hp : y.read.proto = proto at ho ⊢
  cases proto with
  | start =>
    generalize strchr 10 (cstr y.read.reqBuf) = line at ho ⊢
    rcases line with _ | rest
    · cases ho
      exact agrees_zero hy
    dsimp only at ho ⊢
    generalize firstLine _ = found at ho ⊢
    rcases found with _ | proto
    · cases ho
      exact agrees_neg
    · cases ho
      exact ⟨⟨fun _ => by omega, fun _ => rfl⟩, rfl, fun _ => ⟨_, Net.modify_self hy _, rfl⟩⟩
  | rtsp =>
    dsimp only at ho ⊢
    split_ifs at ho ⊢
    · cases ho
      exact agrees_zero hy
    · cases ho
      exact agrees_zero hy
    · obtain ⟨net₁, hrecv, rfl⟩ := map_eq_some_iff.mp ho
      have hy₁ : net₁.tcp c = some y := by rw [interleaveRecv_tcp hrecv, hy]
      rw [← hp]
      exact agrees_zero (Net.modify_self hy₁ _)
    · cases ho
      exact agrees_zero hy
    · exact netTake_agrees hy ho
  | http =>
    dsimp only at ho ⊢
    split_ifs at ho ⊢
    · cases ho
      exact agrees_zero hy
    · exact netTake_agrees hy ho

theorem peer_setRead (net : Net) (c : Addr) (r : ReadSide) : (net.setRead c r).peer = net.peer := by
  have hany : ∀ (t : Str) (cg : Addr), ((net.setRead c r).tcp cg).any (fun x => x.cookie == t) =
      (net.tcp cg).any fun x => x.cookie == t := by
    intro t cg
    rw [Net.setRead, Net.modify_tcp]
    split
    · rcases net.tcp cg with _ | x <;> rfl
    · rfl
  funext t
  show (List.find? _ _).isSome = (List.find? _ _).isSome
  simp only [hany]
  rfl

theorem netParseLoop_agrees (hy : net.tcp c = some y) {z : Int × Net}
    (ho : netParseLoop md5 locs net c env = some z) : ∃ b, Agrees c z (b, parseLoop net.peer y.read) := by
  obtain ⟨u, hu, hz⟩ := bind_eq_some_iff.mp ho
  have hfirst := netParse_agrees hy hu
  unfold parseLoop
  generalize parseClientData net.peer y.read = first at hfirst ⊢
  obtain ⟨b, fin, r', ds⟩ := first
  split at hz
  · rename_i hpos
    obtain ⟨proto, hu'⟩ := netParse_again hy hu hpos
    have hu₁ : u.2.tcp c = some { y with read := { y.read with proto := proto } } := by
      rw [hu']
      exact Net.modify_self hy _
    obtain ⟨x, hx, hread⟩ := hfirst.side (by omega)
    cases hu₁.symm.trans hx
    have hsecond := netParse_agrees hu₁ hz
    rw [hu', peer_setRead, hread] at hsecond
    cases hfirst.again.mpr hpos
    exact ⟨_, hsecond⟩
  · rename_i hpos
    cases hz
    cases b with
    | true => exact absurd (hfirst.again.mp rfl) hpos
    | false => exact ⟨false, hfirst⟩

/-- **One connection of a run.** In every state a round of `do_read` does to its connection what `readStep` says. -/
theorem netRead_readSide (blocks : SourceId → List Directive) (evs : List NetEvent) :
    Always (netStep md5 locs) (fun net => ∀ c y second chunk env net', net.tcp c = some y →
      netStep md5 locs net (.read c second chunk env) = some net' →
        ∃ fin r ds, readStep net.peer y.read chunk = some (fin, r, ds) ∧
          (fin = .goesOn ∧ net'.Sees c r ∨ fin = .dropped ∧ net'.tcp c = none)) (Net.start blocks) evs := by
  refine (always_of_step (P := fun _ => True) (fun _ _ _ _ _ => trivial) trivial).mono
    fun net _ c y second chunk env net' hy ho => ?_
  have hgone : ∀ {net₁ : Net}, netDrop md5 locs net₁ c = some net' → net'.tcp c = none := by
    intro net₁ hd
    obtain ⟨st, _, rfl⟩ := map_eq_some_iff.mp hd
    exact Table.set_self _
  simp only [netStep, netRead, hy, bind_eq_bind, bind_some] at ho
  split at ho
  · cases ho
  split at ho
  · cases ho
  rename_i hok
  rw [not_or] at hok
  unfold readStep
  rw [if_neg hok.2]
  set r := appendRead y.read chunk
  have hr : (net.setRead c r).tcp c = some { y with read := r } := Net.modify_self hy _
  split at ho
  · rw [if_pos ‹_›]
    exact ⟨_, _, _, rfl, .inr ⟨rfl, hgone ho⟩⟩
  rw [if_neg ‹_›]
  split at ho
  · rw [if_pos ‹_›]
    cases ho
    exact ⟨_, _, _, rfl, .inl ⟨rfl, _, hr, rfl⟩⟩
  rw [if_neg ‹_›]
  obtain ⟨z, hz, ho⟩ := bind_eq_some_iff.mp ho
  obtain ⟨b, hagrees⟩ := netParseLoop_agrees hr hz
  rw [peer_setRead] at hagrees
  refine ⟨_, _, _, rfl, ?_⟩
  split at ho
  · rename_i hneg
    exact .inr ⟨hagrees.fin.trans (if_pos hneg), hgone ho⟩
  · rename_i hneg
    cases ho
    exact .inl ⟨hagrees.fin.trans (if_neg hneg), hagrees.side (Int.not_lt.mp hneg)⟩

end

end NuWicam.Rtsp
