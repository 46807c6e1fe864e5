import Mathlib.Data.Int.ModEq
import Mathlib.Data.List.Count
import Mathlib.Data.List.Range

/-!
# The ports and sockets of a UDP endpoint (`connect_udp_endpoint`, `config_rtprange`)

`connect_udp_endpoint` looks for a pair of free ports, from a random start on through the configured range. Its sockets are
numbered as they are created, and `calls` has all calls made with them. The outcomes of the system calls are inputs.
-/

namespace NuWicam.Rtsp

open List Option Int

/-! ## The functions of the source -/

/-- `rtp_port_start` and `rtp_port_end` -/
structure PortRange where
  start : Int
  stop : Int

namespace PortRange

def initial : PortRange := ⟨50000, 60000⟩

def maxTries (g : PortRange) : Nat := ((g.stop - g.start + 1).tdiv 2).toNat

end PortRange

/-- `none` stands for its `exit(1)`. -/
def configRtprange (first last : Int) : Option PortRange :=
  let start := if first % 2 = 1 then first + 1 else first
  let stop := if last % 2 = 0 then last - 1 else last
  if stop - start + 1 < 8 then none else some ⟨start, stop⟩

inductive BindEnd
  | ok
  | addrInUse
  | otherError
  deriving DecidableEq

/-- The outcomes of the system calls. Those in the loop are given by the turn, in which each call is made at most once, those
of `bind` also by the port. -/
structure UdpEnv where
  random : Nat
  rtpSocket : Nat → Bool
  rtcpSocket : Nat → Bool
  rtpBind : Nat → Nat → BindEnd
  rtcpBind : Nat → Nat → BindEnd
  /-- The port that the kernel chooses for a socket that is bound to the port 0 -/
  anyPort : Nat → Nat
  rtpConnect : Bool
  rtcpConnect : Bool
  getsockname : Bool

inductive SockCall
  | socket (fd : Nat)
  | bind (rtcp : Bool) (fd asked : Nat) (bound : Option Nat)
  | close (fd : Nat)
  deriving DecidableEq

/-- `none` is the descriptor `-1`. -/
structure UdpSearch where
  port : Int
  rtpfd : Option Nat
  rtcpfd : Option Nat
  created : Nat
  calls : List SockCall

inductive UdpEnd
  | connected (rtpfd rtcpfd : Nat) (ourPort : Int)
  | failed
  | ranOut
  deriving DecidableEq

def UdpEnd.ret : UdpEnd → Int
  | .connected .. => 0
  | .failed => -1
  | .ranOut => -1

/-- `htons` -/
def port16 (port : Int) : Nat := (port % 65536).toNat

def boundPort (anyPort asked : Nat) : BindEnd → Option Nat
  | .ok => some (if asked = 0 then anyPort else asked)
  | _ => none

namespace UdpSearch

/-- `rtpfd = socket(..)` unless there is one -/
def openRtp (s : UdpSearch) : Nat × UdpSearch :=
  match s.rtpfd with
  | some fd => (fd, s)
  | none => (s.created, { s with
      rtpfd := some s.created, created := s.created + 1, calls := s.calls ++ [.socket s.created] })

/-- `rtcpfd = socket(..)` unless there is one -/
def openRtcp (s : UdpSearch) : Nat × UdpSearch :=
  match s.rtcpfd with
  | some fd => (fd, s)
  | none => (s.created, { s with
      rtcpfd := some s.created, created := s.created + 1, calls := s.calls ++ [.socket s.created] })

def bind (s : UdpSearch) (rtcp : Bool) (fd asked : Nat) (bound : Option Nat) : UdpSearch :=
  { s with calls := s.calls ++ [.bind rtcp fd asked bound] }

def close (s : UdpSearch) (fd : Nat) : UdpSearch := { s with calls := s.calls ++ [.close fd] }

def start (g : PortRange) (random : Nat) : UdpSearch :=
  let port := g.start + random % (g.stop - g.start)
  ⟨if port % 2 = 1 then port + 1 else port, none, none, 0, []⟩

def turnPort (g : PortRange) (s : UdpSearch) : Int := if s.port + 1 > g.stop then g.start else s.port

/-- `inl` goes on. -/
def bindTurn (env : UdpEnv) (i : Nat) (port : Int) (rtpfd rtcpfd : Nat) (s : UdpSearch) : UdpSearch ⊕ (UdpEnd × UdpSearch) :=
  let asked := port16 port
  let s := s.bind false rtpfd asked (boundPort (env.anyPort i) asked (env.rtpBind i asked))
  match env.rtpBind i asked with
  | .addrInUse => .inl { s with port := port + 2 }
  | .otherError => .inr (.failed, (s.close rtpfd).close rtcpfd)
  | .ok =>
    let asked := port16 (port + 1)
    let s := s.bind true rtcpfd asked (boundPort (env.anyPort i) asked (env.rtcpBind i asked))
    match env.rtcpBind i asked with
    | .addrInUse => .inl { s.close rtpfd with rtpfd := none, port := port + 2 }
    | .otherError => .inr (.failed, (s.close rtpfd).close rtcpfd)
    | .ok => .inr (.connected rtpfd rtcpfd port, s)

def turn (g : PortRange) (env : UdpEnv) (i : Nat) (s : UdpSearch) : UdpSearch ⊕ (UdpEnd × UdpSearch) :=
  if s.rtpfd = none ∧ env.rtpSocket i = false then .inr (.failed, s)
  else
    let rtp := s.openRtp
    if s.rtcpfd = none ∧ env.rtcpSocket i = false then .inr (.failed, rtp.2.close rtp.1)
    else
      let rtcp := rtp.2.openRtcp
      bindTurn env i (turnPort g s) rtp.1 rtcp.1 rtcp.2

/-- The loop, from the turn `i` on -/
def search (g : PortRange) (env : UdpEnv) : Nat → Nat → UdpSearch → UdpEnd × UdpSearch
  | 0, _, s => (.ranOut, s)
  | tries + 1, i, s => (turn g env i s).elim (search g env tries (i + 1)) id

def connect (env : UdpEnv) : UdpEnd × UdpSearch → UdpEnd × UdpSearch
  | (.connected rtpfd rtcpfd port, s) =>
    if env.rtpConnect && env.rtcpConnect && env.getsockname then (.connected rtpfd rtcpfd port, s)
    else (.failed, (s.close rtpfd).close rtcpfd)
  | (e, s) => (e, s)

def connectUdpEndpoint (g : PortRange) (env : UdpEnv) : UdpEnd × UdpSearch :=
  connect env (search g env g.maxTries 0 (start g env.random))

/-! ## One turn -/

section

variable {g : PortRange} {env : UdpEnv} {i : Nat} {port : Int} {rtpfd rtcpfd : Nat} {s : UdpSearch}

def InUse (env : UdpEnv) (i : Nat) (port : Int) : Prop :=
  env.rtpBind i (port16 port) = .addrInUse ∨
    env.rtpBind i (port16 port) = .ok ∧ env.rtcpBind i (port16 (port + 1)) = .addrInUse

def HalfBound (env : UdpEnv) (i : Nat) (port : Int) : Prop :=
  env.rtpBind i (port16 port) = .ok ∧ env.rtcpBind i (port16 (port + 1)) = .addrInUse

/-! ## The ledger of the sockets -/

def closed (s : UdpSearch) (fd : Nat) : Nat := s.calls.count (.close fd)

/-- **The ledger**: every socket that was created is in one of the two variables, or was closed once. -/
structure Ledger (s : UdpSearch) : Prop where
  closed_eq : ∀ fd, s.closed fd = if fd < s.created ∧ s.rtpfd ≠ some fd ∧ s.rtcpfd ≠ some fd then 1 else 0
  rtp_lt : ∀ fd, s.rtpfd = some fd → fd < s.created
  rtcp_lt : ∀ fd, s.rtcpfd = some fd → fd < s.created
  apart : ∀ fd, s.rtpfd = some fd → s.rtcpfd ≠ some fd

/-- **All sockets are settled**: after an error every socket that was created is closed, once; otherwise only those of the
endpoint are open. -/
structure Settled (r : UdpEnd × UdpSearch) : Prop where
  failed : r.1.ret = -1 → ∀ fd < r.2.created, r.2.closed fd = 1
  connected : ∀ a b port, r.1 = .connected a b port → a ≠ b ∧ a < r.2.created ∧ b < r.2.created ∧
    ∀ fd < r.2.created, r.2.closed fd = if fd = a ∨ fd = b then 0 else 1

@[simp] theorem closed_bind (s : UdpSearch) (rtcp : Bool) (fd asked : Nat) (bound : Option Nat) (x : Nat) :
    (s.bind rtcp fd asked bound).closed x = s.closed x := by
  simp [closed, bind, count_append]

@[simp] theorem closed_close (s : UdpSearch) (fd x : Nat) : (s.close fd).closed x = s.closed x + if x = fd then 1 else 0 := by
  by_cases h : x = fd
  · simp [closed, close, count_append, h]
  · simp [closed, close, count_append, h, Ne.symm h]

theorem ledger_start (g : PortRange) (random : Nat) : (start g random).Ledger where
  closed_eq _ := rfl
  rtp_lt _ h := by cases h
  rtcp_lt _ h := by cases h
  apart _ h := by cases h

theorem Ledger.bind (h : s.Ledger) (rtcp : Bool) (fd asked : Nat) (bound : Option Nat) :
    (s.bind rtcp fd asked bound).Ledger where
  closed_eq x := by
    rw [closed_bind]
    exact h.closed_eq x
  rtp_lt := h.rtp_lt
  rtcp_lt := h.rtcp_lt
  apart := h.apart

theorem closed_new (h : s.Ledger) (x : Nat) : (s.calls ++ [SockCall.socket s.created]).count (SockCall.close x) =
    if x < s.created + 1 ∧ s.created ≠ x ∧ s.rtpfd ≠ some x ∧ s.rtcpfd ≠ some x then 1 else 0 := by
  have hclosed := h.closed_eq x
  have hlt : x < s.created + 1 ∧ s.created ≠ x ↔ x < s.created := by omega
  have hnew : [SockCall.socket s.created].count (SockCall.close x) = 0 := count_eq_zero_of_not_mem (by simp)
  rw [closed] at hclosed
  rw [count_append, hclosed, hnew, Nat.add_zero]
  simp only [← and_assoc, hlt]

theorem Ledger.openRtp (h : s.Ledger) : s.openRtp.2.Ledger ∧ s.openRtp.2.rtpfd = some s.openRtp.1 := by
  unfold UdpSearch.openRtp
  cases hrtp : s.rtpfd with
  | some fd => exact ⟨h, hrtp⟩
  | none =>
    refine ⟨⟨fun x => ?_, fun x hx => ?_, fun x hx => ?_, fun x hx hx' => ?_⟩, rfl⟩
    · refine (closed_new h x).trans ?_
      simp [hrtp]
    · cases hx
      exact Nat.lt_succ_self _
    · exact Nat.lt_succ_of_lt (h.rtcp_lt x hx)
    · cases hx
      exact Nat.lt_irrefl _ (h.rtcp_lt _ hx')

theorem Ledger.openRtcp (h : s.Ledger) : s.openRtcp.2.Ledger ∧ s.openRtcp.2.rtcpfd = some s.openRtcp.1 ∧
    s.openRtcp.2.rtpfd = s.rtpfd := by
  unfold UdpSearch.openRtcp
  cases hrtcp : s.rtcpfd with
  | some fd => exact ⟨h, hrtcp, rfl⟩
  | none =>
    refine ⟨⟨fun x => ?_, fun x hx => ?_, fun x hx => ?_, fun x hx hx' => ?_⟩, rfl, rfl⟩
    · refine (closed_new h x).trans ?_
      simp [hrtcp, and_comm]
    · exact Nat.lt_succ_of_lt (h.rtp_lt x hx)
    · cases hx
      exact Nat.lt_succ_self _
    · cases hx'
      exact Nat.lt_irrefl _ (h.rtp_lt _ hx)

theorem Ledger.settled_close (h : s.Ledger) (hrtp : s.rtpfd = some rtpfd) (hrtcp : s.rtcpfd = some rtcpfd) :
    Settled (.failed, (s.close rtpfd).close rtcpfd) where
  failed _ fd hfd := by
    have hlt : fd < s.created := hfd
    have hne : rtpfd ≠ rtcpfd := fun he => h.apart rtpfd hrtp (he ▸ hrtcp)
    rw [closed_close, closed_close, h.closed_eq, hrtp, hrtcp]
    by_cases ha : fd = rtpfd
    · simp [ha, hne]
    · by_cases hb : fd = rtcpfd
      · simp [hb, Ne.symm hne]
      · simp [ha, hb, hlt, Ne.symm ha, Ne.symm hb]
  connected _ _ _ h := by cases h

theorem Ledger.settled_connected (h : s.Ledger) (hrtp : s.rtpfd = some rtpfd) (hrtcp : s.rtcpfd = some rtcpfd) (port : Int) :
    Settled (.connected rtpfd rtcpfd port, s) where
  failed h := absurd h (show (0 : Int) ≠ -1 by decide)
  connected a b _ he := by
    cases he
    refine ⟨fun he => h.apart rtpfd hrtp (he ▸ hrtcp), h.rtp_lt _ hrtp, h.rtcp_lt _ hrtcp, fun fd hfd => ?_⟩
    have hlt : fd < s.created := hfd
    rw [h.closed_eq, hrtp, hrtcp]
    by_cases ha : fd = rtpfd
    · simp [ha]
    · by_cases hb : fd = rtcpfd
      · simp [hb]
      · simp [ha, hb, hlt, Ne.symm ha, Ne.symm hb]

theorem Ledger.drop (h : s.Ledger) (hrtp : s.rtpfd = some rtpfd) (port : Int) :
    Ledger { s.close rtpfd with rtpfd := none, port := port } where
  closed_eq fd := by
    have hclosed : (s.close rtpfd).closed fd = _ := closed_close s rtpfd fd
    rw [h.closed_eq, hrtp] at hclosed
    refine hclosed.trans ?_
    by_cases ha : fd = rtpfd
    · have hlt := h.rtp_lt _ hrtp
      have happart := h.apart _ hrtp
      rw [ha]
      simp [close, hlt, happart]
    · simp [close, ha, Ne.symm ha]
  rtp_lt _ hx := by cases hx
  rtcp_lt := h.rtcp_lt
  apart _ hx := by cases hx

theorem bindTurn_spec (h : s.Ledger) (hrtp : s.rtpfd = some rtpfd) (hrtcp : s.rtcpfd = some rtcpfd) :
    (InUse env i port ∧ ∃ s', bindTurn env i port rtpfd rtcpfd s = .inl s' ∧ s'.Ledger ∧ s'.rtcpfd = some rtcpfd ∧
      s'.port = port + 2 ∧ (s'.rtpfd = none ↔ HalfBound env i port)) ∨
    (¬ InUse env i port ∧ ∃ r, bindTurn env i port rtpfd rtcpfd s = .inr r ∧ Settled r) := by
  unfold bindTurn InUse HalfBound
  dsimp only
  cases hp : env.rtpBind i (port16 port) with
  | addrInUse =>
    refine .inl ⟨.inl rfl, _, rfl, ?_, hrtcp, rfl, ?_⟩
    · have hbound := h.bind false rtpfd (port16 port) (boundPort (env.anyPort i) (port16 port) .addrInUse)
      exact ⟨hbound.closed_eq, hbound.rtp_lt, hbound.rtcp_lt, hbound.apart⟩
    · have hsome : s.rtpfd ≠ none := by
        rw [hrtp]
        simp
      exact iff_of_false hsome fun h => BindEnd.noConfusion h.1
  | otherError =>
    refine .inr ⟨by simp, _, rfl, ?_⟩
    exact (h.bind _ _ _ _).settled_close hrtp hrtcp
  | ok =>
    have hboth := (h.bind false rtpfd (port16 port) (boundPort (env.anyPort i) (port16 port) .ok)).bind true rtcpfd
      (port16 (port + 1)) (boundPort (env.anyPort i) (port16 (port + 1)) (env.rtcpBind i (port16 (port + 1))))
    cases hq : env.rtcpBind i (port16 (port + 1)) with
    | addrInUse =>
      rw [hq] at hboth
      exact .inl ⟨.inr ⟨rfl, rfl⟩, _, rfl, hboth.drop hrtp (port + 2), hrtcp, rfl, iff_of_true rfl ⟨rfl, rfl⟩⟩
    | otherError =>
      rw [hq] at hboth
      exact .inr ⟨by simp, _, rfl, hboth.settled_close hrtp hrtcp⟩
    | ok =>
      rw [hq] at hboth
      exact .inr ⟨by simp, _, rfl, hboth.settled_connected hrtp hrtcp port⟩

theorem turn_of_sockets (hrtp : s.rtpfd = none → env.rtpSocket i)
    (hrtcp : s.rtcpfd = none → env.rtcpSocket i) : turn g env i s =
      bindTurn env i (turnPort g s) s.openRtp.1 s.openRtp.2.openRtcp.1 s.openRtp.2.openRtcp.2 := by
  unfold turn
  rw [if_neg, if_neg]
  · rintro ⟨h, hno⟩
    rw [hrtcp h] at hno
    cases hno
  · rintro ⟨h, hno⟩
    rw [hrtp h] at hno
    cases hno

theorem turn_spec (h : s.Ledger) (hrtp : s.rtpfd = none → env.rtpSocket i) (hrtcp : s.rtcpfd = none → env.rtcpSocket i) :
    (InUse env i (turnPort g s) ∧ ∃ s', turn g env i s = .inl s' ∧ s'.Ledger ∧ s'.rtcpfd ≠ none ∧
      s'.port = turnPort g s + 2 ∧ (s'.rtpfd = none ↔ HalfBound env i (turnPort g s))) ∨
    (¬ InUse env i (turnPort g s) ∧ ∃ r, turn g env i s = .inr r ∧ Settled r) := by
  rw [turn_of_sockets hrtp hrtcp]
  obtain ⟨h₁, hrtpfd⟩ := h.openRtp
  obtain ⟨h₂, hrtcpfd, heq⟩ := h₁.openRtcp
  rcases bindTurn_spec h₂ (heq.trans hrtpfd) hrtcpfd with ⟨hused, s', hturn, hs', hrtcp', hport, hnone⟩ | hend
  · refine .inl ⟨hused, s', hturn, hs', ?_, hport, hnone⟩
    rw [hrtcp']
    simp
  · exact .inr hend

end

end UdpSearch

/-! ## The ports of the turns -/

namespace PortRange

structure Usable (g : PortRange) : Prop where
  even : g.start % 2 = 0
  wide : 7 ≤ g.stop - g.start

/-- The range that the variables start with, or a configured one. -/
def Set (g : PortRange) : Prop := g = initial ∨ ∃ first last, configRtprange first last = some g

def pairPort (g : PortRange) (k : Nat) : Int := g.start + 2 * ((k % g.maxTries : Nat) : Int)

variable {g : PortRange}

theorem usable_of_config {first last : Int} (h : configRtprange first last = some g) : g.Usable ∧ g.stop % 2 = 1 := by
  obtain ⟨hwide, h⟩ := ite_none_left_eq_some.mp h
  cases h
  refine ⟨⟨?_, ?_⟩, ?_⟩ <;> dsimp only at hwide ⊢
  · split <;> omega
  · omega
  · split <;> omega

theorem Set.usable (h : g.Set) : g.Usable := by
  rcases h with rfl | ⟨first, last, h⟩
  · exact ⟨by decide, by decide⟩
  · exact (usable_of_config h).1

theorem Usable.maxTries_spec (h : g.Usable) : 4 ≤ g.maxTries ∧ 2 * (g.maxTries : Int) ≤ g.stop - g.start + 1 ∧
    g.stop - g.start ≤ 2 * (g.maxTries : Int) := by
  have hwide := h.wide
  have hdiv : (g.stop - g.start + 1).tdiv 2 = (g.stop - g.start + 1) / 2 := tdiv_eq_ediv_of_nonneg (by omega)
  unfold maxTries
  omega

theorem Usable.pairPort_spec (h : g.Usable) (k : Nat) :
    g.pairPort k % 2 = 0 ∧ g.start ≤ g.pairPort k ∧ g.pairPort k + 1 ≤ g.stop := by
  obtain ⟨hfour, hlow, hhigh⟩ := h.maxTries_spec
  have heven := h.even
  have hmod : k % g.maxTries < g.maxTries := Nat.mod_lt _ (by omega)
  unfold pairPort
  omega

theorem Usable.exists_pairPort (h : g.Usable) (first : Nat) {p : Int} (heven : p % 2 = 0) (hlow : g.start ≤ p)
    (hhigh : p + 1 ≤ g.stop) : ∃ k < g.maxTries, g.pairPort (first + k) = p := by
  obtain ⟨hfour, hfits, hall⟩ := h.maxTries_spec
  have hstart := h.even
  obtain ⟨j, hj⟩ : ∃ j : Nat, p = g.start + 2 * j := ⟨((p - g.start) / 2).toNat, by omega⟩
  have hjlt : j < g.maxTries := by omega
  refine ⟨(j + (g.maxTries - first % g.maxTries)) % g.maxTries, Nat.mod_lt _ (by omega), ?_⟩
  have hmod : (first + (j + (g.maxTries - first % g.maxTries)) % g.maxTries) % g.maxTries = j := by
    have hfirst := Nat.mod_lt first (show 0 < g.maxTries by omega)
    have hdm := Nat.div_add_mod first g.maxTries
    rw [Nat.add_mod_mod]
    have hsum : first + (j + (g.maxTries - first % g.maxTries)) = j + g.maxTries * (first / g.maxTries + 1) := by
      rw [Nat.mul_add]
      omega
    rw [hsum, Nat.add_mul_mod_self_left, Nat.mod_eq_of_lt hjlt]
  rw [pairPort, hmod, hj]

end PortRange

namespace UdpSearch

def firstPair (g : PortRange) (random : Nat) : Nat := ((random % (g.stop - g.start) + 1) / 2).toNat

def portAt (g : PortRange) (env : UdpEnv) (i : Nat) : Int := g.pairPort (firstPair g env.random + i)

/-- It may be past the last pair. -/
def AtPair (g : PortRange) (k : Nat) (s : UdpSearch) : Prop :=
  ∃ j ≤ g.maxTries, s.port = g.start + 2 * (j : Int) ∧ j % g.maxTries = k % g.maxTries

variable {g : PortRange} {s s' : UdpSearch} {k : Nat}

theorem AtPair.turnPort_eq (hg : g.Usable) (h : AtPair g k s) : turnPort g s = g.pairPort k := by
  obtain ⟨j, hj, hport, hmod⟩ := h
  obtain ⟨hfour, hlow, hhigh⟩ := hg.maxTries_spec
  unfold turnPort PortRange.pairPort
  rw [← hmod, hport]
  by_cases hlast : j = g.maxTries
  · rw [if_pos (by omega), hlast, Nat.mod_self]
    simp
  · rw [if_neg (by omega), Nat.mod_eq_of_lt (by omega)]

theorem AtPair.next (hg : g.Usable) (hport : s'.port = g.pairPort k + 2) : AtPair g (k + 1) s' := by
  obtain ⟨hfour, hlow, hhigh⟩ := hg.maxTries_spec
  have hmod : k % g.maxTries < g.maxTries := Nat.mod_lt _ (by omega)
  refine ⟨k % g.maxTries + 1, hmod, ?_, ?_⟩
  · rw [hport, PortRange.pairPort]
    omega
  · rw [Nat.mod_add_mod]

theorem atPair_start (hg : g.Usable) (random : Nat) : AtPair g (firstPair g random) (start g random) := by
  obtain ⟨hfour, hlow, hhigh⟩ := hg.maxTries_spec
  have heven := hg.even
  have hnonneg := emod_nonneg (random : Int) (show g.stop - g.start ≠ 0 by omega)
  have hlt := emod_lt_of_pos (random : Int) (show 0 < g.stop - g.start by omega)
  refine ⟨firstPair g random, ?_, ?_, rfl⟩
  · unfold firstPair
    omega
  · unfold firstPair start
    dsimp only
    split <;> omega

/-! ## All sockets of a call -/

variable {env : UdpEnv}

/-- There comes a turn whose ports are not in use, and a socket can be made in every turn before it that needs one. -/
def SettlesFrom (g : PortRange) (env : UdpEnv) (tries i : Nat) : Prop :=
  ∃ n < tries, ¬ InUse env (i + n) (portAt g env (i + n)) ∧
    ∀ j < n, InUse env (i + j) (portAt g env (i + j)) ∧
      (HalfBound env (i + j) (portAt g env (i + j)) → env.rtpSocket (i + j + 1) = true)

theorem settlesFrom_succ (tries i : Nat) : SettlesFrom g env (tries + 1) i ↔ ¬ InUse env i (portAt g env i) ∨
    InUse env i (portAt g env i) ∧ (HalfBound env i (portAt g env i) → env.rtpSocket (i + 1)) ∧
      SettlesFrom g env tries (i + 1) := by
  constructor
  · rintro ⟨n, hn, hfree, hbefore⟩
    cases n with
    | zero => exact .inl hfree
    | succ n =>
      obtain ⟨hused, hsocket⟩ := hbefore 0 (by omega)
      refine .inr ⟨hused, hsocket, n, by omega, ?_, fun j hj => ?_⟩
      · rw [Nat.add_right_comm, Nat.add_assoc]
        exact hfree
      · rw [Nat.add_right_comm i 1 j, Nat.add_assoc i j 1]
        exact hbefore (j + 1) (by omega)
  · rintro (hfree | ⟨hused, hsocket, n, hn, hfree, hbefore⟩)
    · exact ⟨0, by omega, hfree, fun j hj => absurd hj (by omega)⟩
    · refine ⟨n + 1, by omega, ?_, fun j hj => ?_⟩
      · rw [← Nat.add_assoc, Nat.add_right_comm]
        exact hfree
      · cases j with
        | zero => exact ⟨hused, hsocket⟩
        | succ j =>
          rw [← Nat.add_assoc, Nat.add_right_comm i j 1]
          exact hbefore j (by omega)

theorem Ledger.not_settled (h : s.Ledger) (hrtcp : s.rtcpfd ≠ none) {e : UdpEnd} (he : e.ret = -1) : ¬ Settled (e, s) := by
  intro hsettled
  obtain ⟨fd, hfd⟩ := ne_none_iff_exists'.mp hrtcp
  have hclosed : s.closed fd = 1 := hsettled.failed he fd (h.rtcp_lt fd hfd)
  rw [h.closed_eq, if_neg fun hopen => hopen.2.2 hfd] at hclosed
  cases hclosed

/-- **The loop from its second turn on.** -/
theorem search_settled_iff (hg : g.Usable) (tries : Nat) {i : Nat} (h : s.Ledger) (hrtcp : s.rtcpfd ≠ none)
    (hat : AtPair g (firstPair g env.random + i) s) : Settled (search g env tries i s) ↔
      (s.rtpfd = none → env.rtpSocket i) ∧ SettlesFrom g env tries i := by
  induction tries generalizing i s with
  | zero => exact iff_of_false (h.not_settled hrtcp rfl) fun hno => Nat.not_lt_zero _ hno.2.choose_spec.1
  | succ tries ih =>
    have hport : turnPort g s = portAt g env i := hat.turnPort_eq hg
    rw [search]
    by_cases hrtp : s.rtpfd = none → env.rtpSocket i
    · rw [settlesFrom_succ, ← hport]
      rcases turn_spec (g := g) h hrtp (fun hnone => absurd hnone hrtcp) with
        ⟨hused, s', hturn, hs', hrtcp', hport', hhalf⟩ | ⟨hfree, r, hturn, hr⟩
      · have hat' : AtPair g (firstPair g env.random + (i + 1)) s' := .next hg (hport' ▸ hport ▸ rfl)
        rw [hturn, Sum.elim_inl, ih hs' hrtcp' hat', hhalf]
        exact ⟨fun hrest => ⟨hrtp, .inr ⟨hused, hrest⟩⟩, fun hrest => (hrest.2.resolve_left (not_not.mpr hused)).2⟩
      · rw [hturn, Sum.elim_inr]
        exact iff_of_true hr ⟨hrtp, .inl hfree⟩
    · refine iff_of_false ?_ fun hno => hrtp hno.1
      rw [Classical.not_imp, Bool.not_eq_true] at hrtp
      rw [turn, if_pos hrtp, Sum.elim_inr]
      exact h.not_settled hrtcp rfl

theorem search_connected (tries : Nat) {i a b : Nat} {port : Int} (h : s.Ledger)
    (hr : (search g env tries i s).1 = .connected a b port) : Settled (search g env tries i s) := by
  induction tries generalizing i s with
  | zero => cases hr
  | succ tries ih =>
    rw [search] at hr ⊢
    by_cases hrtp : s.rtpfd = none ∧ env.rtpSocket i = false
    · rw [turn, if_pos hrtp, Sum.elim_inr] at hr
      cases hr
    by_cases hrtcp : s.rtcpfd = none ∧ env.rtcpSocket i = false
    · rw [turn, if_neg hrtp, if_pos hrtcp, Sum.elim_inr] at hr
      cases hr
    rcases turn_spec (g := g) h (by simpa using hrtp) (by simpa using hrtcp) with
      ⟨-, s', hturn, hs', -, -, -⟩ | ⟨-, r, hturn, hsettled⟩
    · rw [hturn, Sum.elim_inl] at hr ⊢
      exact ih hs' hr
    · rw [hturn, Sum.elim_inr]
      exact hsettled

theorem connect_settled_iff {r : UdpEnd × UdpSearch} (h : ∀ a b port, r.1 = .connected a b port → Settled r) :
    Settled (connect env r) ↔ Settled r := by
  obtain ⟨e, s⟩ := r
  cases e with
  | failed => rfl
  | ranOut => rfl
  | connected a b port =>
    have hsettled := h a b port rfl
    obtain ⟨hne, -, -, hclosed⟩ := hsettled.connected a b port rfl
    refine iff_of_true ?_ hsettled
    rw [connect]
    split
    · exact hsettled
    · refine ⟨fun _ fd hfd => ?_, fun _ _ _ he => by cases he⟩
      have hfd' := hclosed fd hfd
      rw [closed_close, closed_close, hfd']
      by_cases hfa : fd = a
      · simp [hfa, hne]
      · by_cases hfb : fd = b
        · simp [hfb, hne.symm]
        · simp [hfa, hfb]

theorem search_no_socket (tries : Nat) (h : env.rtpSocket 0 = false ∨ env.rtcpSocket 0 = false) :
    Settled (search g env (tries + 1) 0 (start g env.random)) := by
  have hrtp : (start g env.random).rtpfd = none := rfl
  have hrtcp : (start g env.random).rtcpfd = none := rfl
  rw [search]
  by_cases hno : env.rtpSocket 0 = false
  · rw [turn, if_pos ⟨hrtp, hno⟩, Sum.elim_inr]
    exact ⟨fun _ fd hfd => absurd hfd (Nat.not_lt_zero fd), fun _ _ _ he => by cases he⟩
  · rw [turn, if_neg fun h => hno h.2, if_pos ⟨hrtcp, h.resolve_left hno⟩, Sum.elim_inr]
    refine ⟨fun _ fd hfd => ?_, fun _ _ _ he => by cases he⟩
    have hzero : fd = 0 := Nat.lt_one_iff.mp hfd
    subst hzero
    rfl

theorem search_start_settled_iff (hg : g.Usable) : Settled (search g env g.maxTries 0 (start g env.random)) ↔
    env.rtpSocket 0 = false ∨ env.rtcpSocket 0 = false ∨ SettlesFrom g env g.maxTries 0 := by
  have hfour := hg.maxTries_spec.1
  obtain ⟨tries, htries⟩ : ∃ tries, g.maxTries = tries + 1 := ⟨g.maxTries - 1, by omega⟩
  rw [htries]
  by_cases hno : env.rtpSocket 0 = false ∨ env.rtcpSocket 0 = false
  · exact iff_of_true (search_no_socket tries hno) (hno.elim .inl fun h => .inr (.inl h))
  rw [not_or, Bool.not_eq_false, Bool.not_eq_false] at hno
  have hport : turnPort g (start g env.random) = portAt g env 0 := (atPair_start hg env.random).turnPort_eq hg
  have hsockets : (env.rtpSocket 0 = false ∨ env.rtcpSocket 0 = false ∨ SettlesFrom g env (tries + 1) 0) ↔
      SettlesFrom g env (tries + 1) 0 := by
    rw [hno.1, hno.2]
    simp
  rw [hsockets, settlesFrom_succ, search, ← hport]
  rcases turn_spec (g := g) (ledger_start g env.random) (fun _ => hno.1) (fun _ => hno.2) with
    ⟨hused, s', hturn, hs', hrtcp', hport', hhalf⟩ | ⟨hfree, r, hturn, hr⟩
  · have hat' : AtPair g (firstPair g env.random + 1) s' := .next hg (hport' ▸ hport ▸ rfl)
    rw [hturn, Sum.elim_inl, search_settled_iff hg tries hs' hrtcp' hat', hhalf]
    exact ⟨fun hrest => .inr ⟨hused, hrest⟩, fun hrest => (hrest.resolve_left (not_not.mpr hused)).2⟩
  · rw [hturn, Sum.elim_inr]
    exact iff_of_true hr (.inl hfree)

end UdpSearch

/-- **No socket is left behind** exactly if none can be made at first, or a free pair comes before one is missing. -/
theorem udp_sockets_iff {g : PortRange} (hg : g.Set) (env : UdpEnv) :
    UdpSearch.Settled (UdpSearch.connectUdpEndpoint g env) ↔ env.rtpSocket 0 = false ∨ env.rtcpSocket 0 = false ∨
      UdpSearch.SettlesFrom g env g.maxTries 0 := by
  rw [← UdpSearch.search_start_settled_iff hg.usable]
  exact UdpSearch.connect_settled_iff fun a b port =>
    UdpSearch.search_connected g.maxTries (UdpSearch.ledger_start g env.random)

def UdpEnv.calm : UdpEnv :=
  ⟨0, fun _ => true, fun _ => true, fun _ _ => .ok, fun _ _ => .ok, fun _ => 1, true, true, true⟩

/-- The RTCP port of the first pair is in use. -/
def UdpEnv.halfBound : UdpEnv := { UdpEnv.calm with rtcpBind := fun i _ => if i = 0 then .addrInUse else .ok }

theorem udp_sockets_halfBound : (UdpSearch.connectUdpEndpoint .initial .halfBound).2.created = 3 ∧
    UdpSearch.Settled (UdpSearch.connectUdpEndpoint .initial .halfBound) := by
  refine ⟨by decide, (udp_sockets_iff (.inl rfl) .halfBound).mpr (.inr (.inr ⟨1, by decide, ?_, fun j hj => ?_⟩))⟩
  · simp [UdpSearch.InUse, UdpEnv.halfBound, UdpEnv.calm]
  · exact ⟨.inr ⟨rfl, if_pos (by omega)⟩, fun _ => rfl⟩

def UdpEnv.crowded : UdpEnv := { UdpEnv.calm with rtpBind := fun _ _ => .addrInUse }

def UdpEnv.exhausted : UdpEnv :=
  { UdpEnv.calm with rtpSocket := fun i => i == 0, rtcpBind := fun _ _ => .addrInUse }

theorem udp_sockets_left : configRtprange 4000 4007 = some ⟨4000, 4007⟩ ∧
    ¬ UdpSearch.Settled (UdpSearch.connectUdpEndpoint ⟨4000, 4007⟩ .crowded) ∧
    ¬ UdpSearch.Settled (UdpSearch.connectUdpEndpoint ⟨4000, 4007⟩ .exhausted) := by
  refine ⟨rfl, fun h => ?_, fun h => ?_⟩
  · exact absurd (h.failed (by decide) 0 (by decide)) (by decide)
  · exact absurd (h.failed (by decide) 1 (by decide)) (by decide)

/-! ## The order of the tries -/

/-- The port 0 leaves the choice to the kernel. -/
def occupied (inUse : Nat → Bool) (port : Nat) : BindEnd := if port ≠ 0 ∧ inUse port = true then .addrInUse else .ok

structure UdpEnv.Fixed (env : UdpEnv) (inUse : Nat → Bool) : Prop where
  rtpSocket : ∀ i, env.rtpSocket i = true
  rtcpSocket : ∀ i, env.rtcpSocket i = true
  rtpBind : ∀ i port, env.rtpBind i port = occupied inUse port
  rtcpBind : ∀ i port, env.rtcpBind i port = occupied inUse port

def SockCall.rtpPort : SockCall → Option Nat
  | .bind false _ asked _ => some asked
  | _ => none

def rtpPorts (calls : List SockCall) : List Nat := calls.filterMap SockCall.rtpPort

def BoundIn (g : PortRange) (calls : List SockCall) : Prop :=
  ∀ (rtcp : Bool) (fd asked port : Nat), .bind rtcp fd asked (some port) ∈ calls →
    g.start ≤ (port : Int) ∧ (port : Int) ≤ g.stop

/-- **A right search**: it tries pairs of the range in cyclic order, each at most once, binds no port outside of it, gives
the endpoint an even port and the next one, and runs out only if each pair has a port in use. -/
structure SearchOk (g : PortRange) (inUse : Nat → Bool) (r : UdpEnd × UdpSearch) : Prop where
  cyclic : ∃ first n, n ≤ g.maxTries ∧
    (rtpPorts r.2.calls).map ofNat = (List.range n).map fun k => g.pairPort (first + k)
  inRange : BoundIn g r.2.calls
  pair : ∀ rtpfd rtcpfd port, r.1 = .connected rtpfd rtcpfd port → port % 2 = 0 ∧
    .bind false rtpfd port.toNat (some port.toNat) ∈ r.2.calls ∧
    .bind true rtcpfd (port + 1).toNat (some (port + 1).toNat) ∈ r.2.calls
  complete : r.1 = .ranOut → ∀ port, port % 2 = 0 → g.start ≤ port → port + 1 ≤ g.stop →
    inUse port.toNat = true ∨ inUse (port + 1).toNat = true

namespace UdpSearch

section

variable {g : PortRange} {env : UdpEnv} {inUse : Nat → Bool} {i : Nat} {port : Int} {rtpfd rtcpfd : Nat} {s : UdpSearch}

theorem rtpPorts_append (l m : List SockCall) : rtpPorts (l ++ m) = rtpPorts l ++ rtpPorts m := filterMap_append

@[simp] theorem rtpPorts_openRtp (s : UdpSearch) : rtpPorts s.openRtp.2.calls = rtpPorts s.calls := by
  unfold openRtp
  cases s.rtpfd with
  | some fd => rfl
  | none => exact (rtpPorts_append _ _).trans (append_nil _)

@[simp] theorem rtpPorts_openRtcp (s : UdpSearch) : rtpPorts s.openRtcp.2.calls = rtpPorts s.calls := by
  unfold openRtcp
  cases s.rtcpfd with
  | some fd => rfl
  | none => exact (rtpPorts_append _ _).trans (append_nil _)

@[simp] theorem boundIn_openRtp : BoundIn g s.openRtp.2.calls ↔ BoundIn g s.calls := by
  unfold openRtp
  cases s.rtpfd <;> simp [BoundIn]

@[simp] theorem boundIn_openRtcp : BoundIn g s.openRtcp.2.calls ↔ BoundIn g s.calls := by
  unfold openRtcp
  cases s.rtcpfd <;> simp [BoundIn]

@[simp] theorem rtpPorts_bind_rtp (s : UdpSearch) (fd asked : Nat) (bound : Option Nat) :
    rtpPorts (s.bind false fd asked bound).calls = rtpPorts s.calls ++ [asked] := rtpPorts_append _ _

@[simp] theorem rtpPorts_bind_rtcp (s : UdpSearch) (fd asked : Nat) (bound : Option Nat) :
    rtpPorts (s.bind true fd asked bound).calls = rtpPorts s.calls := (rtpPorts_append _ _).trans (append_nil _)

@[simp] theorem rtpPorts_close (s : UdpSearch) (fd : Nat) : rtpPorts (s.close fd).calls = rtpPorts s.calls :=
  (rtpPorts_append _ _).trans (append_nil _)

@[simp] theorem boundIn_close (fd : Nat) : BoundIn g (s.close fd).calls ↔ BoundIn g s.calls := by
  simp [BoundIn, close]

@[simp] theorem boundIn_bind_none (rtcp : Bool) (fd asked : Nat) :
    BoundIn g (s.bind rtcp fd asked none).calls ↔ BoundIn g s.calls := by
  simp [BoundIn, bind]

theorem boundIn_bind_some (rtcp : Bool) (fd asked : Nat) (hs : BoundIn g s.calls) (hlow : g.start ≤ port)
    (hhigh : port ≤ g.stop) (h₀ : 0 < port) : BoundIn g (s.bind rtcp fd asked (some port.toNat)).calls := by
  intro rtcp' fd' asked' q hq
  rcases mem_append.mp hq with hq | hq
  · exact hs rtcp' fd' asked' q hq
  · simp only [mem_singleton, SockCall.bind.injEq, some.injEq] at hq
    omega

theorem port16_of_valid (h₀ : 0 < port) (h : port ≤ 65535) : port16 port = port.toNat := by
  unfold port16
  rw [emod_eq_of_lt (by omega) (by omega)]

theorem occupied_of_free (hfree : inUse port.toNat = false) : occupied inUse port.toNat = .ok := by
  simp [occupied, hfree]

theorem occupied_of_inUse (h₀ : 0 < port) (hused : inUse port.toNat) : occupied inUse port.toNat = .addrInUse := by
  rw [occupied, if_pos ⟨by omega, hused⟩]

theorem boundPort_ok (anyPort : Nat) (h₀ : 0 < port) : boundPort anyPort port.toNat .ok = some port.toNat := by
  rw [boundPort, if_neg (by omega)]

theorem bindTurn_fixed (hf : env.Fixed inUse) (h₀ : 0 < port) (h : port + 1 ≤ 65535) : bindTurn env i port rtpfd rtcpfd s =
      if inUse port.toNat = true then .inl { s.bind false rtpfd port.toNat none with port := port + 2 }
      else if inUse (port + 1).toNat = true then
        .inl { (((s.bind false rtpfd port.toNat (some port.toNat)).bind true rtcpfd (port + 1).toNat none).close rtpfd) with
          rtpfd := none, port := port + 2 }
      else .inr (.connected rtpfd rtcpfd port, (s.bind false rtpfd port.toNat (some port.toNat)).bind true rtcpfd
        (port + 1).toNat (some (port + 1).toNat)) := by
  unfold bindTurn
  dsimp only
  rw [hf.rtpBind, hf.rtcpBind, port16_of_valid h₀ (by omega), port16_of_valid (by omega) h]
  by_cases hp : inUse port.toNat
  · rw [if_pos hp, occupied_of_inUse h₀ hp]
    rfl
  · rw [if_neg hp, occupied_of_free (Bool.not_eq_true _ ▸ hp), boundPort_ok _ h₀]
    by_cases hq : inUse (port + 1).toNat
    · rw [if_pos hq, occupied_of_inUse (by omega) hq]
      rfl
    · rw [if_neg hq, occupied_of_free (Bool.not_eq_true _ ▸ hq), boundPort_ok _ (by omega)]

/-- The `i` pairs that were tried are in use. -/
structure Traced (g : PortRange) (inUse : Nat → Bool) (first i : Nat) (s : UdpSearch) : Prop where
  pair : AtPair g (first + i) s
  tried : (rtpPorts s.calls).map ofNat = (List.range i).map fun k => g.pairPort (first + k)
  inRange : BoundIn g s.calls
  used : ∀ k < i, inUse (g.pairPort (first + k)).toNat = true ∨ inUse (g.pairPort (first + k) + 1).toNat = true

theorem tried_succ {first : Nat} {calls calls' : List SockCall}
    (h : (rtpPorts calls).map ofNat = (List.range i).map fun k => g.pairPort (first + k))
    (h₀ : 0 < g.pairPort (first + i)) (hnew : rtpPorts calls' = rtpPorts calls ++ [(g.pairPort (first + i)).toNat]) :
    (rtpPorts calls').map ofNat = (List.range (i + 1)).map fun k => g.pairPort (first + k) := by
  rw [hnew, map_append, h, range_succ, map_append, map_singleton, map_singleton]
  congr 2
  exact toNat_of_nonneg (le_of_lt h₀)

/-- **One turn**: the next pair is in use, or the endpoint gets it. -/
theorem turn_traced (hg : g.Usable) (h₀ : 0 < g.start) (h : g.stop ≤ 65535) (hf : env.Fixed inUse) {first : Nat}
    (ht : Traced g inUse first i s) : (∃ s', turn g env i s = .inl s' ∧ Traced g inUse first (i + 1) s') ∨
    ∃ a b s', turn g env i s = .inr (.connected a b (g.pairPort (first + i)), s') ∧
      (rtpPorts s'.calls).map ofNat = (List.range (i + 1)).map (fun k => g.pairPort (first + k)) ∧
      BoundIn g s'.calls ∧
      .bind false a (g.pairPort (first + i)).toNat (some (g.pairPort (first + i)).toNat) ∈ s'.calls ∧
      .bind true b (g.pairPort (first + i) + 1).toNat (some (g.pairPort (first + i) + 1).toNat) ∈ s'.calls := by
  obtain ⟨heven, hlow, hhigh⟩ := hg.pairPort_spec (first + i)
  have hpos : 0 < g.pairPort (first + i) := by omega
  rw [turn_of_sockets (fun _ => hf.rtpSocket i) (fun _ => hf.rtcpSocket i), ht.pair.turnPort_eq hg,
    bindTurn_fixed hf hpos (by omega)]
  have hopen : rtpPorts s.openRtp.2.openRtcp.2.calls = rtpPorts s.calls := by
    rw [rtpPorts_openRtcp, rtpPorts_openRtp]
  have hin : BoundIn g s.openRtp.2.openRtcp.2.calls := by
    rw [boundIn_openRtcp, boundIn_openRtp]
    exact ht.inRange
  generalize s.openRtp.1 = a, s.openRtp.2.openRtcp.1 = b, s.openRtp.2.openRtcp.2 = t at hopen hin ⊢
  generalize hp : g.pairPort (first + i) = p at hpos heven hlow hhigh ⊢
  have hused : inUse p.toNat ∨ inUse (p + 1).toNat → ∀ k < i + 1,
      inUse (g.pairPort (first + k)).toNat ∨ inUse (g.pairPort (first + k) + 1).toNat := by
    intro hnow k hk
    rcases Nat.lt_succ_iff_lt_or_eq.mp hk with hk | rfl
    · exact ht.used k hk
    · rw [hp]
      exact hnow
  have hnext : p + 2 = g.pairPort (first + i) + 2 := by rw [hp]
  by_cases hrtp : inUse p.toNat
  · rw [if_pos hrtp]
    refine .inl ⟨_, rfl, .next hg hnext, tried_succ ht.tried (hp ▸ hpos) ?_, ?_, hused (.inl hrtp)⟩
    · rw [rtpPorts_bind_rtp, hopen, hp]
    · exact (boundIn_bind_none _ _ _).mpr hin
  · have hin' := boundIn_bind_some false a p.toNat hin hlow (by omega) hpos
    rw [if_neg hrtp]
    split
    · rename_i hrtcp
      refine .inl ⟨_, rfl, .next hg hnext, tried_succ ht.tried (hp ▸ hpos) ?_, ?_, hused (.inr hrtcp)⟩
      · rw [rtpPorts_close, rtpPorts_bind_rtcp, rtpPorts_bind_rtp, hopen, hp]
      · rw [boundIn_close, boundIn_bind_none]
        exact hin'
    · refine .inr ⟨a, b, _, rfl, tried_succ ht.tried (hp ▸ hpos) ?_, ?_, by simp [bind], by simp [bind]⟩
      · rw [rtpPorts_bind_rtcp, rtpPorts_bind_rtp, hopen, hp]
      · exact boundIn_bind_some _ _ _ hin' (by omega) hhigh (by omega)

/-- **All turns**: after `max_tries` each pair of the range was tried. -/
theorem search_ok (hg : g.Usable) (h₀ : 0 < g.start) (h : g.stop ≤ 65535) (hf : env.Fixed inUse) (first tries : Nat)
    (hi : i + tries = g.maxTries) (ht : Traced g inUse first i s) : SearchOk g inUse (search g env tries i s) := by
  induction tries generalizing i s with
  | zero =>
    refine ⟨⟨first, i, by omega, ht.tried⟩, ht.inRange, fun a b port he => absurd he (by simp [search]), ?_⟩
    intro _ port heven hlow hhigh
    obtain ⟨k, hk, rfl⟩ := hg.exists_pairPort first heven hlow hhigh
    exact ht.used k (by omega)
  | succ tries ih =>
    rw [search]
    rcases turn_traced hg h₀ h hf ht with ⟨s', hturn, ht'⟩ | ⟨a, b, s', hturn, htried, hin, hrtp, hrtcp⟩
    · rw [hturn, Sum.elim_inl]
      exact ih (by omega) ht'
    · rw [hturn, Sum.elim_inr]
      refine ⟨⟨first, i + 1, by omega, htried⟩, hin, fun a' b' port he => ?_, fun he => absurd he (by simp)⟩
      obtain ⟨rfl, rfl, rfl⟩ := UdpEnd.connected.inj he
      exact ⟨(hg.pairPort_spec _).1, hrtp, hrtcp⟩

theorem connect_ok {r : UdpEnd × UdpSearch} (hr : SearchOk g inUse r) : SearchOk g inUse (connect env r) := by
  obtain ⟨e, s⟩ := r
  cases e with
  | connected a b port =>
    rw [connect]
    split
    · exact hr
    · refine ⟨?_, ?_, fun a' b' port' he => absurd he (by simp), fun he => absurd he (by simp)⟩
      · rw [rtpPorts_close, rtpPorts_close]
        exact hr.cyclic
      · rw [boundIn_close, boundIn_close]
        exact hr.inRange
  | failed => exact hr
  | ranOut => exact hr

theorem connectUdpEndpoint_ok (hg : g.Usable) (h₀ : 0 < g.start) (h : g.stop ≤ 65535) (hf : env.Fixed inUse) :
    SearchOk g inUse (connectUdpEndpoint g env) := by
  refine connect_ok (search_ok hg h₀ h hf (firstPair g env.random) g.maxTries (by omega) ?_)
  exact ⟨atPair_start hg env.random, rfl, fun _ _ _ _ hmem => absurd hmem not_mem_nil,
    fun k hk => absurd hk (by omega)⟩

end

end UdpSearch

/-! ## Ranges with ports that do not exist -/

def UdpEnv.free (random : Nat) : UdpEnv := { UdpEnv.calm with random := random, anyPort := fun _ => 3 }

theorem UdpEnv.free_fixed (random : Nat) : (UdpEnv.free random).Fixed fun _ => false := by
  refine ⟨fun _ => rfl, fun _ => rfl, fun i port => ?_, fun i port => ?_⟩
  all_goals simp [UdpEnv.free, UdpEnv.calm, occupied]

namespace UdpSearch

section

variable {g : PortRange} {random : Nat} {port : Int}

theorem connectUdpEndpoint_free (hg : g.Usable) (hp : turnPort g (start g random) = port) :
    connectUdpEndpoint g (.free random) = (.connected 0 1 port, ⟨(start g random).port, some 0, some 1, 2,
      [.socket 0, .socket 1, .bind false 0 (port16 port) (boundPort 3 (port16 port) .ok),
        .bind true 1 (port16 (port + 1)) (boundPort 3 (port16 (port + 1)) .ok)]⟩) := by
  obtain ⟨m, hm⟩ : ∃ m, g.maxTries = m + 1 := Nat.exists_eq_add_of_le' (Nat.le_trans (by omega) hg.maxTries_spec.1)
  have hturn : turn g (.free random) 0 (start g random) = .inr (.connected 0 1 port, ⟨(start g random).port, some 0, some 1, 2,
      [.socket 0, .socket 1, .bind false 0 (port16 port) (boundPort 3 (port16 port) .ok),
        .bind true 1 (port16 (port + 1)) (boundPort 3 (port16 (port + 1)) .ok)]⟩) := by
    rw [turn_of_sockets (fun _ => rfl) (fun _ => rfl), hp]
    rfl
  unfold connectUdpEndpoint
  rw [hm, search]
  change connect (.free random) ((turn g (.free random) 0 (start g random)).elim _ id) = _
  rw [hturn]
  rfl

theorem port_of_bound {asked : Nat} (hasked : port16 port = asked) (hbound : boundPort 3 (port16 port) .ok = some asked)
    (heq : asked = port.toNat) : 0 < port ∧ port ≤ 65535 := by
  rw [boundPort, hasked, some.injEq] at hbound
  unfold port16 at hasked
  by_cases h0 : asked = 0
  · rw [if_pos h0] at hbound
    omega
  · omega

theorem pair_of_searchOk (hg : g.Usable) (hp : turnPort g (start g random) = port)
    (hok : SearchOk g (fun _ => false) (connectUdpEndpoint g (.free random))) : 0 < port ∧ port + 1 ≤ 65535 := by
  rw [connectUdpEndpoint_free hg hp] at hok
  obtain ⟨-, hrtp, hrtcp⟩ := hok.pair 0 1 port rfl
  simp only [mem_cons, SockCall.bind.injEq, reduceCtorEq, not_mem_nil, or_false, false_or, true_and,
    Bool.true_eq_false, Bool.false_eq_true, false_and] at hrtp hrtcp
  exact ⟨(port_of_bound hrtp.1.symm hrtp.2.symm rfl).1, (port_of_bound hrtcp.1.symm hrtcp.2.symm rfl).2⟩

theorem turnPort_start (hlow : g.start ≤ port) (hhigh : port + 1 ≤ g.stop) (heven : port % 2 = 0) :
    turnPort g (start g (port - g.start).toNat) = port := by
  have hmod : ((port - g.start).toNat : Int) % (g.stop - g.start) = port - g.start := by
    rw [toNat_of_nonneg (by omega)]
    exact emod_eq_of_lt (by omega) (by omega)
  unfold turnPort start
  dsimp only
  omega

end

end UdpSearch

/-- **The search for a pair of ports** is right exactly if all ports of the range exist. -/
theorem udp_search_iff {g : PortRange} (hg : g.Set) :
    (∀ (inUse : Nat → Bool) (env : UdpEnv), env.Fixed inUse → SearchOk g inUse (UdpSearch.connectUdpEndpoint g env)) ↔
      0 < g.start ∧ g.stop ≤ 65535 := by
  refine ⟨fun h => ?_, fun h _ _ hf => UdpSearch.connectUdpEndpoint_ok hg.usable h.1 h.2 hf⟩
  have hexists : ∀ port, g.start ≤ port → port + 1 ≤ g.stop → port % 2 = 0 → 0 < port ∧ port + 1 ≤ 65535 :=
    fun port hlow hhigh heven => UdpSearch.pair_of_searchOk hg.usable (UdpSearch.turnPort_start hlow hhigh heven)
      (h _ _ (UdpEnv.free_fixed _))
  obtain ⟨heven, hwide⟩ := hg.usable
  refine ⟨(hexists g.start (by omega) (by omega) heven).1, ?_⟩
  rcases hg with rfl | ⟨first, last, hset⟩
  · decide
  · have hodd := (PortRange.usable_of_config hset).2
    have := (hexists (g.stop - 1) (by omega) (by omega) (by omega)).2
    omega

theorem udp_search_initial : SearchOk .initial (fun port => port == 50000) (UdpSearch.connectUdpEndpoint .initial
    { UdpEnv.calm with
      rtpBind := fun _ => occupied fun port => port == 50000, rtcpBind := fun _ => occupied fun port => port == 50000 }) :=
  (udp_search_iff (.inl rfl)).mpr ⟨by decide, by decide⟩ _ _ ⟨fun _ => rfl, fun _ => rfl, fun _ _ => rfl, fun _ _ => rfl⟩

theorem udp_search_outside : configRtprange 70000 70010 = some ⟨70000, 70009⟩ ∧
    .bind false 0 4464 (some 4464) ∈ (UdpSearch.connectUdpEndpoint ⟨70000, 70009⟩ .calm).2.calls ∧
    UdpEnv.calm.Fixed (fun _ => false) ∧
    ¬ SearchOk ⟨70000, 70009⟩ (fun _ => false) (UdpSearch.connectUdpEndpoint ⟨70000, 70009⟩ .calm) := by
  have hmem : .bind false 0 4464 (some 4464) ∈ (UdpSearch.connectUdpEndpoint ⟨70000, 70009⟩ .calm).2.calls := by decide
  refine ⟨rfl, hmem, ⟨fun _ => rfl, fun _ => rfl, fun i port => ?_, fun i port => ?_⟩, fun h => ?_⟩
  · simp [UdpEnv.calm, occupied]
  · simp [UdpEnv.calm, occupied]
  · exact absurd (h.inRange false 0 4464 4464 hmem).1 (by decide)

end NuWicam.Rtsp
