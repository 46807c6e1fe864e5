import NuWicam.Rtsp.Framing
import NuWicam.Rtsp.Jpeg

/-!
# The counters of the sender report (`rtp.c`)

The runs of an endpoint are all sequences of packets, timer events and what the client and the other users of the connection
do. `sender_report_iff`: the code adds the RTP header to the octets, and it counts the packets that `interleave_send` refuses,
since that returns `1` and not a negative value.
-/

namespace NuWicam.Rtsp

open Lib List Option

/-! ## The functions of the source -/

inductive Transport
  | udp
  | inter (conn : SendSide) (rtpChan rtcpChan : Nat)

structure Sender where
  ep : RtpEndpoint
  trans : Transport
  forceRtcp : Bool
  /-- whether `rtcp_send_event` is enabled -/
  rtcpSendEvent : Bool
  /-- the seconds of `last_rtcp_recv` and `last_rtcp_send` -/
  lastRtcpRecv : Int
  lastRtcpSend : Int

/-- `new_rtp_endpoint`, with the random numbers that it draws -/
def newRtpEndpoint (payload ssrc startTimestamp seqnum : Nat) : RtpEndpoint :=
  ⟨payload, 8192, ssrc, startTimestamp, startTimestamp, seqnum, 0, 0⟩

/-- The time, the time of `last_rtcp_send`, and the results of `send()` and `write()`. -/
structure ReportEnv where
  sec : Nat
  usec : Nat
  sendSec : Int
  sent : Bool
  writes : List WriteResult

def senderReport (ep : RtpEndpoint) (sec usec : Nat) : Str :=
  [(2 : UInt8) <<< 6, 200] ++ be 2 6 ++ be 4 ep.ssrc ++ be 4 (sec + 0x83AA7E80) ++ be 4 (usec * 0x4000000 / 15625) ++
    be 4 ep.lastTimestamp ++ be 4 ep.packetCount ++ be 4 (ep.octetCount % 2 ^ 32).toNat ++
    [(2 : UInt8) <<< 6 ||| 1, 202] ++ be 2 5 ++ be 4 ep.ssrc ++ [1, 14] ++ bytes "Unnamed stream"

/-- The returned value (negative after a teardown), the endpoint, and the report if there is one -/
def Sender.rtcpSend (s : Sender) (env : ReportEnv) : Option (Int × Sender × Option Str) :=
  let report := senderReport s.ep env.sec env.usec
  let s := { s with lastRtcpSend := env.sendSec, forceRtcp := false }
  match s.trans with
  | .udp =>
    if env.sec - s.lastRtcpRecv > 20 then some (-1, s, none) else some (if env.sent then 0 else -1, s, some report)
  | .inter c rtpChan rtcpChan => (interleaveSend c rtcpChan [report] env.writes).map fun x =>
    (if (x.1 : Int) < 0 then -1 else 0, { s with trans := .inter x.2.1 rtpChan rtcpChan }, some report)

structure PacketEnv where
  now : Int
  sent : Bool
  writes : List WriteResult

/-- A negative value if that fails, and whether it was handed on. -/
def Transport.transmit (t : Transport) (pieces : List Str) (env : PacketEnv) : Option (Int × Transport × Bool) :=
  match t with
  | .udp => some (if env.sent then 0 else -1, .udp, env.sent)
  | .inter c rtpChan rtcpChan => (interleaveSend c rtpChan pieces env.writes).map fun x =>
    (x.1, .inter x.2.1 rtpChan rtcpChan, x.1 == 0)

/-- The returned value, the endpoint, whether the packet was handed on, and the report if there is one. -/
structure SendOutcome where
  ret : Int
  sender : Sender
  handed : Bool
  report : Option Str

/-- A piece with all of its bytes -/
def Iovec.of (b : Str) : Iovec := ⟨some b, b.length⟩

/-- `send_rtp_packet` with the pieces `v` after the header -/
def Sender.sendRtpPacket (s : Sender) (v : List Str) (timestamp : Nat) (marker : Bool) (env : PacketEnv) (renv : ReportEnv) :
    Option SendOutcome :=
  let x := NuWicam.Rtsp.sendRtpPacket s.ep (v.map .of) timestamp marker .sent
  (s.trans.transmit (x.2.2.map fun piece => piece.base.getD []) env).bind fun t =>
    if t.1 < 0 then
      some ⟨-1, { s with ep := (NuWicam.Rtsp.sendRtpPacket s.ep (v.map .of) timestamp marker .failed).2.1 }, t.2.2, none⟩
    else
      let s := { s with ep := x.2.1, trans := t.2.1 }
      if s.forceRtcp then
        (s.rtcpSend renv).map fun r =>
          if r.1 < 0 then ⟨-1, r.2.1, t.2.2, r.2.2⟩ else ⟨0, { r.2.1 with rtcpSendEvent := true }, t.2.2, r.2.2⟩
      else if env.now - s.lastRtcpSend > 10 then (s.rtcpSend renv).map fun r => ⟨r.1, r.2.1, t.2.2, r.2.2⟩
      else some ⟨0, s, t.2.2, none⟩

/-! ## Runs of an endpoint -/

/-- Whether a packet was handed on, and the octets of its payload. -/
structure Try where
  handed : Bool
  octets : Nat

/-- An endpoint, until the session is torn down, with all packets and all reports so far, each with the packets before it. -/
structure SenderRun where
  sender : Sender
  alive : Bool
  tries : List Try
  reports : List (Str × List Try)

inductive SenderEvent
  | packet (v : List Str) (timestamp : Nat) (marker : Bool) (env : PacketEnv) (renv : ReportEnv)
  | fire (renv : ReportEnv)
  | received (now : Int)
  | used (conn : SendSide)
  | teardown

def Transport.use (t : Transport) (conn : SendSide) : Transport :=
  match t with
  | .udp => .udp
  | .inter _ rtpChan rtcpChan => .inter conn rtpChan rtcpChan

def senderStep (s : SenderRun) (e : SenderEvent) : Option SenderRun :=
  if s.alive then
    match e with
    | .packet v timestamp marker env renv => (s.sender.sendRtpPacket v timestamp marker env renv).map fun x =>
      let tries := s.tries ++ [⟨x.handed, (v.map List.length).sum⟩]
      ⟨x.sender, decide (0 ≤ x.ret), tries, s.reports ++ (x.report.map fun r => (r, tries)).toList⟩
    | .fire renv => if s.sender.rtcpSendEvent then (s.sender.rtcpSend renv).map fun x =>
        ⟨x.2.1, decide (0 ≤ x.1), s.tries, s.reports ++ (x.2.2.map fun r => (r, s.tries)).toList⟩
      else none
    | .received now => some { s with sender := { s.sender with lastRtcpRecv := now } }
    | .used conn => some { s with sender := { s.sender with trans := s.sender.trans.use conn } }
    | .teardown => some { s with alive := false }
  else none

def SenderRun.start (payload ssrc startTimestamp seqnum : Nat) (trans : Transport) (now : Int) : SenderRun :=
  ⟨⟨newRtpEndpoint payload ssrc startTimestamp seqnum, trans, true, false, now, now⟩, true, [], []⟩

/-! ## What is counted -/

structure RtpEndpoint.Counts (ep : RtpEndpoint) (tries : List Try) : Prop where
  packets : ep.packetCount = tries.length
  octets : ep.octetCount = ((tries.map fun t => 12 + t.octets).sum : Nat)

def packetCountIn (report : Str) : Nat := ofBe ((report.drop 20).take 4)

def octetCountIn (report : Str) : Nat := ofBe ((report.drop 24).take 4)

def Reports (report : Str) (tries : List Try) : Prop :=
  ∃ ep sec usec, report = senderReport ep sec usec ∧ ep.Counts tries

section

variable {s s' : Sender} {ret : Int} {report : Option Str}

theorem packetCountIn_senderReport (ep : RtpEndpoint) (sec usec : Nat) :
    packetCountIn (senderReport ep sec usec) = ep.packetCount % 2 ^ 32 := by
  simp [packetCountIn, senderReport, drop_append, drop_eq_nil_of_le, ofBe_be]

theorem octetCountIn_senderReport (ep : RtpEndpoint) (sec usec : Nat) :
    octetCountIn (senderReport ep sec usec) = (ep.octetCount % 2 ^ 32).toNat := by
  simp [octetCountIn, senderReport, drop_append, drop_eq_nil_of_le, ofBe_be]
  omega

theorem Sender.rtcpSend_spec {env : ReportEnv} (h : s.rtcpSend env = some (ret, s', report)) :
    (ret = 0 ∨ ret = -1) ∧ s'.ep = s.ep ∧ ∀ r ∈ report, r = senderReport s.ep env.sec env.usec := by
  unfold Sender.rtcpSend at h
  cases htrans : s.trans with
  | udp =>
    rw [htrans] at h
    dsimp only at h
    split at h
    · cases h
      exact ⟨.inr rfl, rfl, fun r hr => by cases hr⟩
    · cases h
      exact ⟨ite_eq_or_eq .., rfl, fun r hr => (Option.some.inj hr).symm⟩
  | inter c rtpChan rtcpChan =>
    rw [htrans] at h
    obtain ⟨x, -, hx⟩ := map_eq_some_iff.mp h
    cases hx
    exact ⟨(ite_eq_or_eq ..).symm, rfl, fun r hr => (Option.some.inj hr).symm⟩

theorem Sender.rtcpSend_counts {env : ReportEnv} {tries : List Try} (hcounts : s.ep.Counts tries)
    (h : s.rtcpSend env = some (ret, s', report)) : s'.ep.Counts tries ∧ ∀ r ∈ report, Reports r tries := by
  obtain ⟨-, hep, hreport⟩ := Sender.rtcpSend_spec h
  exact ⟨hep ▸ hcounts, fun r hr => ⟨s.ep, env.sec, env.usec, hreport r hr, hcounts⟩⟩

theorem sum_len_of (v : List Str) : ((v.map Iovec.of).map Iovec.len).sum = ((v.map List.length).sum : Nat) := by
  induction v with
  | nil => rfl
  | cons b v ih => simpa [Iovec.of] using ih

theorem RtpEndpoint.Counts.sent {ep : RtpEndpoint} {tries : List Try} (h : ep.Counts tries) (v : List Str)
    (timestamp : Nat) (marker handed : Bool) : (NuWicam.Rtsp.sendRtpPacket ep (v.map .of) timestamp marker .sent).2.1.Counts
      (tries ++ [⟨handed, (v.map List.length).sum⟩]) where
  packets := by
    rw [length_append, ← h.packets]
    rfl
  octets := by
    rw [map_append, sum_append, Int.natCast_add, ← h.octets]
    change ep.octetCount + (12 + ((v.map Iovec.of).map Iovec.len).sum) = _
    rw [sum_len_of]
    simp

section

variable {v : List Str} {timestamp : Nat} {marker : Bool} {env : PacketEnv} {renv : ReportEnv} {call : SendOutcome}

theorem Sender.sendRtpPacket_cases (h : s.sendRtpPacket v timestamp marker env renv = some call) :
    (call.ret = -1 ∧ call.sender.ep = (NuWicam.Rtsp.sendRtpPacket s.ep (v.map .of) timestamp marker .failed).2.1 ∧
      call.report = none) ∨ ((call.ret = 0 ∨ call.ret = -1) ∧
      call.sender.ep = (NuWicam.Rtsp.sendRtpPacket s.ep (v.map .of) timestamp marker .sent).2.1 ∧
      ∀ r ∈ call.report, r = senderReport call.sender.ep renv.sec renv.usec) := by
  obtain ⟨⟨sent, trans, handed⟩, -, h⟩ := bind_eq_some_iff.mp h
  by_cases hneg : sent < 0
  · rw [if_pos hneg] at h
    cases h
    exact .inl ⟨rfl, rfl, rfl⟩
  rw [if_neg hneg] at h
  by_cases hforce : s.forceRtcp
  · rw [if_pos hforce] at h
    obtain ⟨⟨ret, s', report⟩, hr, hcall⟩ := map_eq_some_iff.mp h
    obtain ⟨-, hep, hreport⟩ := Sender.rtcpSend_spec hr
    rw [← hep] at hreport
    split at hcall
    · cases hcall
      exact .inr ⟨.inr rfl, hep, hreport⟩
    · cases hcall
      exact .inr ⟨.inl rfl, hep, hreport⟩
  rw [if_neg hforce] at h
  by_cases hlate : env.now - s.lastRtcpSend > 10
  · rw [if_pos hlate] at h
    obtain ⟨⟨ret, s', report⟩, hr, hcall⟩ := map_eq_some_iff.mp h
    cases hcall
    obtain ⟨hret, hep, hreport⟩ := Sender.rtcpSend_spec hr
    rw [← hep] at hreport
    exact .inr ⟨hret, hep, hreport⟩
  · rw [if_neg hlate] at h
    cases h
    exact .inr ⟨.inl rfl, rfl, fun r hr => by cases hr⟩

/-- **One packet** is counted, unless the call fails. -/
theorem Sender.sendRtpPacket_spec {tries : List Try} (hcounts : s.ep.Counts tries)
    (h : s.sendRtpPacket v timestamp marker env renv = some call) :
    (0 ≤ call.ret → call.sender.ep.Counts (tries ++ [⟨call.handed, (v.map List.length).sum⟩])) ∧
      ∀ r ∈ call.report, Reports r (tries ++ [⟨call.handed, (v.map List.length).sum⟩]) := by
  rcases Sender.sendRtpPacket_cases h with ⟨hret, -, hnone⟩ | ⟨-, hep, hreport⟩
  · rw [hret, hnone]
    exact ⟨fun hpos => absurd hpos (by decide), fun r hr => by cases hr⟩
  · have hsent := hcounts.sent v timestamp marker call.handed
    rw [← hep] at hsent
    exact ⟨fun _ => hsent, fun r hr => ⟨_, _, _, hreport r hr, hsent⟩⟩

theorem Sender.sendRtpPacket_end (h : s.sendRtpPacket v timestamp marker env renv = some call) :
    ∃ r, (NuWicam.Rtsp.sendRtpPacket s.ep (v.map .of) timestamp marker r).1 = call.ret ∧
      (NuWicam.Rtsp.sendRtpPacket s.ep (v.map .of) timestamp marker r).2.1 = call.sender.ep := by
  rcases Sender.sendRtpPacket_cases h with ⟨hret, hep, -⟩ | ⟨hret | hret, hep, -⟩
  · exact ⟨.failed, hret.symm, hep.symm⟩
  · exact ⟨.sent, hret.symm, hep.symm⟩
  · exact ⟨.reportFailed, hret.symm, hep.symm⟩

end

end

/-! ## All runs -/

structure SenderRun.Counted (s : SenderRun) : Prop where
  live : s.alive = true → s.sender.ep.Counts s.tries
  reports : ∀ r ∈ s.reports, Reports r.1 r.2

theorem SenderRun.Counted.report {s : SenderRun} (h : s.Counted) {report : Option Str} {tries : List Try}
    (hreport : ∀ r ∈ report, Reports r tries) :
    ∀ r ∈ s.reports ++ (report.map fun r => (r, tries)).toList, Reports r.1 r.2 := by
  intro r hr
  rcases mem_append.mp hr with hr | hr
  · exact h.reports r hr
  · obtain ⟨r', hr', rfl⟩ := map_eq_some_iff.mp (mem_toList.mp hr)
    exact hreport r' hr'

/-- **One event** keeps the counts. -/
theorem senderStep_counted {s s' : SenderRun} {e : SenderEvent} (h : s.Counted) (hs : senderStep s e = some s') :
    s'.Counted := by
  obtain ⟨halive, hs⟩ := ite_none_right_eq_some.mp hs
  have hcounts := h.live halive
  cases e with
  | packet v timestamp marker env renv =>
    obtain ⟨call, hcall, rfl⟩ := map_eq_some_iff.mp hs
    obtain ⟨hlive, hreport⟩ := Sender.sendRtpPacket_spec hcounts hcall
    exact ⟨fun hret => hlive (of_decide_eq_true hret), h.report hreport⟩
  | fire renv =>
    obtain ⟨-, hs⟩ := ite_none_right_eq_some.mp hs
    obtain ⟨⟨ret, s₁, report⟩, hr, rfl⟩ := map_eq_some_iff.mp hs
    obtain ⟨hep, hreport⟩ := Sender.rtcpSend_counts hcounts hr
    exact ⟨fun _ => hep, h.report hreport⟩
  | received now =>
    cases hs
    exact ⟨fun _ => hcounts, h.reports⟩
  | used conn =>
    cases hs
    exact ⟨fun _ => hcounts, h.reports⟩
  | teardown =>
    cases hs
    exact ⟨fun hdead => Bool.noConfusion hdead, h.reports⟩

def handedPackets (tries : List Try) : Nat := tries.countP Try.handed

def handedOctets (tries : List Try) : Nat := ((tries.filter Try.handed).map Try.octets).sum

def refusedPackets (tries : List Try) : Nat := tries.countP fun t => !t.handed

def refusedOctets (tries : List Try) : Nat := ((tries.filter fun t => !t.handed).map Try.octets).sum

/-- **A right report**: the number of the packets that were handed on, and the octets of their payloads. -/
structure RightCounts (report : Str) (tries : List Try) : Prop where
  packets : packetCountIn report = handedPackets tries % 2 ^ 32
  octets : octetCountIn report = handedOctets tries % 2 ^ 32

theorem length_tries (tries : List Try) : tries.length = handedPackets tries + refusedPackets tries := by
  rw [length_eq_countP_add_countP Try.handed, handedPackets, refusedPackets]
  simp

theorem sum_tries (tries : List Try) :
    (tries.map fun t => 12 + t.octets).sum = 12 * tries.length + handedOctets tries + refusedOctets tries := by
  induction tries with
  | nil => rfl
  | cons t tries ih =>
    rw [map_cons, sum_cons, ih, length_cons]
    obtain ⟨handed, octets⟩ := t
    cases handed <;> simp [handedOctets, refusedOctets] <;> omega

theorem Reports.right_iff {report : Str} {tries : List Try} (h : Reports report tries) : RightCounts report tries ↔
    refusedPackets tries % 2 ^ 32 = 0 ∧ (12 * tries.length + refusedOctets tries) % 2 ^ 32 = 0 := by
  obtain ⟨ep, sec, usec, rfl, hpackets, hoctets⟩ := h
  rw [length_tries] at hpackets
  rw [sum_tries] at hoctets
  constructor
  · rintro ⟨hp, ho⟩
    rw [packetCountIn_senderReport] at hp
    rw [octetCountIn_senderReport] at ho
    omega
  · rintro ⟨hp, ho⟩
    refine ⟨?_, ?_⟩
    · rw [packetCountIn_senderReport]
      omega
    · rw [octetCountIn_senderReport]
      omega

/-- **A sender report is right** exactly if, modulo 2^32, nothing was refused and the headers come to nothing. -/
theorem sender_report_iff (payload ssrc startTimestamp seqnum : Nat) (trans : Transport) (now : Int) (es : List SenderEvent) :
    Always senderStep (fun s => ∀ r ∈ s.reports, RightCounts r.1 r.2 ↔
      refusedPackets r.2 % 2 ^ 32 = 0 ∧ (12 * r.2.length + refusedOctets r.2) % 2 ^ 32 = 0)
      (.start payload ssrc startTimestamp seqnum trans now) es := by
  have hstart : (SenderRun.start payload ssrc startTimestamp seqnum trans now).Counted :=
    ⟨fun _ => ⟨rfl, rfl⟩, fun r hr => absurd hr not_mem_nil⟩
  apply (always_of_step (fun _ _ _ => senderStep_counted) hstart).mono
  exact fun s hs r hr => (hs.reports r hr).right_iff

def fullConn : SendSide := ⟨⟨fun _ => 0, 1, 0⟩, true, false⟩

def reportAt (sent : Bool) : ReportEnv := ⟨0, 0, 0, sent, [.again]⟩

def onePacket : SenderEvent := .packet [[7]] 0 true ⟨0, true, [.again]⟩ (reportAt true)

theorem wrong_sender_reports :
    ¬ Always senderStep (fun s => ∀ r ∈ s.reports, RightCounts r.1 r.2) (.start 26 1 0 0 .udp 0) [onePacket] ∧
    ¬ Always senderStep (fun s => ∀ r ∈ s.reports, RightCounts r.1 r.2) (.start 26 1 0 0 (.inter fullConn 0 1) 0)
      [onePacket, .used (.accept fun _ => 0), .fire (reportAt true)] := by
  constructor
  · intro h
    have hrun : (run senderStep (.start 26 1 0 0 .udp 0) [onePacket]).map (fun s => s.reports.map fun r =>
        (octetCountIn r.1, handedOctets r.2)) = some [(13, 1)] := by decide
    obtain ⟨s, hs, hreports⟩ := map_eq_some_iff.mp hrun
    obtain ⟨r, hr, heq⟩ := List.mem_map.mp (hreports ▸ mem_cons_self)
    have hright := (h.last hs r hr).octets
    rw [(Prod.mk.inj heq).1, (Prod.mk.inj heq).2] at hright
    exact absurd hright (by decide)
  · intro h
    have hrun : (run senderStep (.start 26 1 0 0 (.inter fullConn 0 1) 0)
        [onePacket, .used (.accept fun _ => 0), .fire (reportAt true)]).map (fun s => s.reports.map fun r =>
        (packetCountIn r.1, handedPackets r.2)) = some [(1, 0), (1, 0)] := by decide
    obtain ⟨s, hs, hreports⟩ := map_eq_some_iff.mp hrun
    obtain ⟨r, hr, heq⟩ := List.mem_map.mp (hreports ▸ mem_cons_of_mem _ mem_cons_self)
    have hright := (h.last hs r hr).packets
    rw [(Prod.mk.inj heq).1, (Prod.mk.inj heq).2] at hright
    exact absurd hright (by decide)

end NuWicam.Rtsp
