import NuWicam.Rtsp.Net

/-!
# Which connection a tunnel is bound to (`handle_QT_tunnel`)

`handle_QT_tunnel` gives the socket of a `POST` to the first connection of `conn_list` with the same `x-sessioncookie`. A
connection that has not asked for a tunnel has the empty cookie, and the search does not skip it (`Tcp.Bound`).
-/

namespace NuWicam.Rtsp

open Lib Option

structure Tcp.Bound (x : Tcp) : Prop where
  /-- a socket came from a `POST` with the cookie of one of its `GET`s -/
  posts : ∀ t ∈ x.posts, t ∈ x.gets
  second : x.secondFd ≠ none → x.gets ≠ []

/-- Only the empty cookie is there without a `GET`. -/
structure Tcp.Named (x : Tcp) : Prop extends x.Bound where
  cookie : x.cookie ≠ [] → x.cookie ∈ x.gets

theorem Tcp.Named.accept (fd : Nat) : (Tcp.accept fd).Named where
  posts _ ht := (List.not_mem_nil ht).elim
  second h := (h rfl).elim
  cookie h := (h rfl).elim

theorem Tcp.Named.get {x : Tcp} (h : x.Named) (t : Str) (r : ReadSide) :
    ({ x with cookie := t, gets := x.gets ++ [t], read := r } : Tcp).Named where
  posts k hk := List.mem_append_left _ (h.posts k hk)
  second _ := by simp
  cookie _ := by simp

theorem Tcp.Named.post {x : Tcp} (h : x.Named) {fd : Option Nat} (hne : x.cookie ≠ []) :
    ({ x with secondFd := fd, posts := x.posts ++ [x.cookie] } : Tcp).Named where
  posts k hk := by
    rcases List.mem_append.mp hk with hk | hk
    · exact h.posts k hk
    · rw [List.mem_singleton.mp hk]
      exact h.cookie hne
  second _ := List.ne_nil_of_mem (h.cookie hne)
  cookie := h.cookie

def Net.Each (net : Net) (P : Tcp → Prop) : Prop := ∀ c x, net.tcp c = some x → P x

theorem Net.Each.set {net : Net} {P : Tcp → Prop} (h : net.Each P) {c : Addr} {o : Option Tcp}
    (ho : ∀ x, o = some x → P x) : ({ net with tcp := net.tcp.set c o } : Net).Each P := by
  intro b y hy
  dsimp only at hy
  rw [Table.set_apply] at hy
  split at hy
  · exact ho y hy
  · exact h b y hy

theorem Net.Each.modify {net : Net} {P : Tcp → Prop} (h : net.Each P) {c : Addr} {f : Tcp → Tcp}
    (hf : ∀ x, net.tcp c = some x → P x → P (f x)) : (net.modify c f).Each P := by
  intro b y hy
  rw [Net.modify_tcp] at hy
  split at hy
  · rename_i hb
    subst hb
    obtain ⟨x, hx, rfl⟩ := map_eq_some_iff.mp hy
    exact hf x hx (h b x hx)
  · exact h b y hy

theorem Net.cookie_of_findPeer {net : Net} {t : Str} {cg : Addr} {x : Tcp} (h : net.findPeer t = some cg)
    (hx : net.tcp cg = some x) : x.cookie = t := by
  have hany := List.find?_some h
  rw [hx] at hany
  exact eq_of_beq hany

/-! ## Runs -/

/-- No `POST` with an empty cookie is completed. -/
def NamesTunnel (net : Net) : NetEvent → Prop
  | .read c _ chunk _ => ∀ x ∈ net.tcp c, ∀ p ∈ (parsePmsg (appendRead x.read chunk).reqBuf).toOption,
      caseEq p.1.method (bytes "POST") = true → getHeader p.1 (bytes "x-sessioncookie") ≠ some []
  | _ => True

instance (net : Net) : ∀ ev, Decidable (NamesTunnel net ev)
  | .read c _ chunk _ =>
    inferInstanceAs (Decidable (∀ x ∈ net.tcp c, ∀ p ∈ (parsePmsg (appendRead x.read chunk).reqBuf).toOption, _ → _ ≠ _))
  | .accept _ _ => isTrue trivial
  | .close _ _ => isTrue trivial
  | .drop _ => isTrue trivial
  | .fail _ => isTrue trivial
  | .frame _ _ _ _ => isTrue trivial

section

variable {md5 : Md5} {locs : List RtspLocation}

theorem NamesTunnel.ne_nil {net : Net} {ev : NetEvent} {c cg : Addr} {t : Str} (h : NamesTunnel net ev)
    (ha : ev.Allows net (.post c cg t)) : t ≠ [] := by
  cases ev with
  | read c' second chunk env =>
    obtain ⟨x, hx, m, rest, hm, hpost, ht⟩ := ha
    rintro rfl
    have hparsed : (m, rest) ∈ (parsePmsg (appendRead x.read chunk).reqBuf).toOption := by rw [hm]; rfl
    exact h x hx (m, rest) hparsed hpost ht
  | _ => exact ha.elim

/-- **One change** keeps the cookies. -/
theorem NetOpStep.named {net net' net₀ : Net} {op : NetOp} {ev : NetEvent} (ha : ev.Allows net₀ op)
    (hc : NamesTunnel net₀ ev) (h : net.Each Tcp.Named) (hop : NetOpStep md5 locs net op net') : net'.Each Tcp.Named := by
  cases hop with
  | read => exact h.modify fun x _ hx => ⟨⟨hx.posts, hx.second⟩, hx.cookie⟩
  | get => exact h.modify fun x _ hx => hx.get _ _
  | @post c cg t x _ hcg =>
    have hne : t ≠ [] := hc.ne_nil ha
    have hgive : (net.modify cg fun y => { y with secondFd := x.fd, posts := y.posts ++ [t] }).Each Tcp.Named := by
      refine h.modify fun y hy hnamed => ?_
      have hcookie := Net.cookie_of_findPeer hcg hy
      subst hcookie
      exact hnamed.post hne
    exact hgive.modify fun y _ hy => ⟨⟨hy.posts, hy.second⟩, hy.cookie⟩
  | closeSecond => exact h.modify fun x _ hx => ⟨⟨hx.posts, fun hs => (hs rfl).elim⟩, hx.cookie⟩
  | accept => exact h.set fun x hx => some.inj hx ▸ .accept _
  | gone => exact h.set fun x hx => by cases hx
  | server => exact h
  | rtcp => exact h
  | fault => exact h

/-- **Tunnels are bound** to the `POST` with the cookie of their own `GET`. -/
theorem tunnel_bound (blocks : SourceId → List Directive) (evs : List NetEvent)
    (hevs : EachStep (netStep md5 locs) NamesTunnel (Net.start blocks) evs) :
    Always (netStep md5 locs) (fun net => net.Each Tcp.Bound) (Net.start blocks) evs := by
  have hstart : (Net.start blocks).Each Tcp.Named := fun c x hx => by cases hx
  have hnamed : Always (netStep md5 locs) (fun net => net.Each Tcp.Named) (Net.start blocks) evs :=
    always_of_netOps (fun net op net' ev net₀ ha hc hi hop => hop.named ha hc hi) hstart hevs
  exact hnamed.mono fun net h c x hx => (h c x hx).toBound

end

def tunnelRequest (method header t : String) : Str :=
  bytes method ++ bytes " /live HTTP/1.0\r\n" ++ bytes header ++ bytes ": application/x-rtsp-tunnelled\r\nx-sessioncookie: " ++
    bytes t ++ bytes "\r\n\r\n"

/-- A `GET` on the first connection, a `POST` with its cookie on the second. -/
def tunnelEvents : List NetEvent :=
  [.accept 1 5, .accept 2 6, .read 1 false (tunnelRequest "GET" "Accept" "abc") (Camera.env 1),
    .read 2 false (tunnelRequest "POST" "Content-Type" "abc") (Camera.env 2)]

theorem tunnel_bound_abc :
    EachStep (netStep Md5.ofLibrary [Camera.location []]) NamesTunnel (Net.start (Camera.blocks 1)) tunnelEvents ∧
    Always (netStep Md5.ofLibrary [Camera.location []]) (fun net => net.Each Tcp.Bound) (Net.start (Camera.blocks 1))
      tunnelEvents :=
  have hevs : EachStep (netStep Md5.ofLibrary [Camera.location []]) NamesTunnel (Net.start (Camera.blocks 1))
      tunnelEvents := by decide +kernel
  ⟨hevs, tunnel_bound _ _ hevs⟩

theorem empty_cookie_binds : ¬ Always (netStep Md5.ofLibrary [Camera.location []]) (fun net => net.Each Tcp.Bound)
    (Net.start (Camera.blocks 1))
    [.accept 1 5, .accept 2 6, .read 1 false (tunnelRequest "POST" "Content-Type" "") (Camera.env 1)] := by
  intro h
  have heval : ((run (netStep Md5.ofLibrary [Camera.location []]) (Net.start (Camera.blocks 1))
      [.accept 1 5, .accept 2 6, .read 1 false (tunnelRequest "POST" "Content-Type" "") (Camera.env 1)]).bind fun net =>
      net.tcp 2).map (fun x => (x.secondFd, x.gets)) = some (some 5, []) := by
    decide +kernel
  obtain ⟨x, hx, hfields⟩ := map_eq_some_iff.mp heval
  obtain ⟨net, hrun, hx⟩ := bind_eq_some_iff.mp hx
  obtain ⟨hsecond, hgets⟩ := Prod.mk.inj hfields
  have hbound := h.last hrun 2 x hx
  exact hbound.second (by rw [hsecond]; simp) hgets

end NuWicam.Rtsp
