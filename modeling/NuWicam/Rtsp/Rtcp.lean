import NuWicam.Lib.BigEndian
import NuWicam.Lib.CString
import NuWicam.Lib.Turns
import NuWicam.Rtsp.Streams

/-!
# RTCP packets from clients (`rtcp-parse.c`, `qos-analyzer.c`)

`ProcRTCPPacket` walks over the elements of a compound packet by the lengths that they declare. A read that is not inside of
the packet is `none`. The readings of the clock are an input.
-/

namespace NuWicam.Rtsp

open Lib List Option

/-! ## The functions of the source -/

/-- `none` if the bytes are not all there. -/
def readBe (d : Str) (p w : Nat) : Option Nat := if p + w ≤ d.length then some (ofBe ((d.drop p).take w)) else none

/-- `S_RTCP_COMMON_HEADER` -/
structure CommonHeader where
  rc : Nat
  padbit : Nat
  version : Nat
  packetType : Nat
  length : Nat
deriving DecidableEq, Repr

def commonHeader (d : Str) (p : Nat) : Option CommonHeader :=
  (readBe d p 1).bind fun first => (readBe d (p + 1) 1).bind fun packetType => (readBe d (p + 2) 2).map fun length =>
    ⟨first % 32, first / 32 % 2, first / 64, packetType, length⟩

/-- The data end at `pu8WritePtr`. -/
structure Mblk where
  data : Str
  readPtr : Nat

/-- `eRTCP_RR` -/
def rtcpRR : Nat := 201

/-- `sizeof(S_RTCP_COMMON_HEADER)` -/
def commonHeaderSize : Nat := 4

/-- `sizeof(S_RTCP_REPORT_BLOCK)` -/
def reportBlockSize : Nat := 24

/-- The common header, the sender and one report block -/
def rrSize : Nat := commonHeaderSize + 4 + reportBlockSize

namespace Mblk

/-- `RTCPGetCommonHeader`; the inner `none` is `NULL` -/
def getCommonHeader (m : Mblk) : Option (Option CommonHeader) :=
  if m.data.length - m.readPtr < commonHeaderSize then some none else (commonHeader m.data m.readPtr).map some

/-- `RTCPGetSize` -/
def getSize (m : Mblk) : Option Int :=
  m.getCommonHeader.map fun
    | none => -1
    | some h => (1 + h.length) * 4

/-- `RTCPNextPacket`; the inner `none` is `NULL` -/
def nextPacket (m : Mblk) : Option (Option Mblk) :=
  m.getSize.map fun (nextLen : Int) =>
    if 0 ≤ nextLen ∧ m.readPtr + nextLen < m.data.length then some { m with readPtr := m.readPtr + nextLen.toNat }
    else none

/-- `RTCPisRR` -/
def isRR (m : Mblk) : Option Bool :=
  m.getCommonHeader.map fun
    | none => false
    | some h => decide (h.packetType = rtcpRR ∧ rrSize ≤ m.data.length - m.readPtr)

/-- The inner `none` is `NULL`. Without room for the block the reception count is read, for the log. -/
def getReportBlock (m : Mblk) (idx : Nat) : Option (Option Nat) :=
  let rb := m.readPtr + 8 + reportBlockSize * idx
  m.getSize.bind fun (size : Int) =>
    if (rb + reportBlockSize : Int) ≤ m.readPtr + size then some (some rb)
    else (commonHeader m.data m.readPtr).map fun _ => none

end Mblk

/-- A `float` is the number that it stands for before it is rounded. -/
structure RtpStats where
  highSeqRecv : Nat
  lostPercentage : Rat
  intJitter : Rat
  roundTripProp : Rat

def statsHistory : Nat := 3

/-- `SimpleQosAnalyser` -/
structure QosAnalyser where
  ssrc : Nat
  stats : Nat → RtpStats
  curIndex : Nat

/-- The fields of `struct rtp_endpoint` that `ProcRTCPPacket` uses. -/
structure RtcpSide where
  dRTT : Rat
  format : Format
  /-- `pvQosAnalyser` -/
  qos : Option QosAnalyser

def shortNtp (now : UInt64) : UInt32 := (now >>> 16).toUInt32

/-- `TimevalToNTP` returns `now`; the differences are `uint32_t`. -/
def computeRTT (d : Str) (ep : RtcpSide) (now : UInt64) (rb : Nat) : Option RtcpSide :=
  (readBe d (rb + 16) 4).bind fun lastSR => (readBe d (rb + 20) 4).map fun delay =>
    if lastSR ≠ 0 ∧ delay ≠ 0 then
      let frac : Rat := (shortNtp now - UInt32.ofNat lastSR - UInt32.ofNat delay).toNat
      if 0 ≤ frac then { ep with dRTT := frac / 65536 } else ep
    else ep

/-- `SimpleAnalyserProcRTCP` -/
def QosAnalyser.procRTCP (a : QosAnalyser) (m : Mblk) (clockRate : Nat) (dRTT : Rat) : Option (Bool × QosAnalyser) :=
  (m.getReportBlock 0).bind fun
    | none => some (false, a)
    | some rb => (readBe m.data rb 4).bind fun ssrc =>
      if ssrc = a.ssrc then
        (readBe m.data (rb + 8) 4).bind fun highSeq => (readBe m.data (rb + 4) 4).bind fun lost =>
          (readBe m.data (rb + 12) 4).map fun jitter =>
            (true, { a with
              curIndex := a.curIndex + 1
              stats := Function.update a.stats ((a.curIndex + 1) % statsHistory)
                ⟨highSeq, 100 * (lost / 2 ^ 24 : Nat) / 256, 1000 * jitter / clockRate, dRTT⟩ })
      else some (true, a)

inductive ReportUse
  | roundTrip (packet block : Nat)
  | qos (packet block : Nat)
deriving DecidableEq, Repr

/-- The endpoint, and the uses. -/
def useReport (m : Mblk) (now : UInt64) (ep : RtcpSide) (rb : Nat) : Option (RtcpSide × List ReportUse) :=
  (computeRTT m.data ep now rb).bind fun ep =>
    if ep.format = .h264 ∨ ep.format = .jpeg then
      match ep.qos with
      | none => some (ep, [.roundTrip m.readPtr rb])
      | some a => (a.procRTCP m 90000 ep.dRTT).map fun r =>
          ({ ep with qos := some r.2 }, [.roundTrip m.readPtr rb, .qos m.readPtr rb])
    else some (ep, [.roundTrip m.readPtr rb])

def rtcpBody (m : Mblk) (now : UInt64) (ep : RtcpSide) : Option (RtcpSide × List ReportUse) :=
  m.isRR.bind fun rr =>
    if rr then (m.getReportBlock 0).bind fun
      | none => some (ep, [])
      | some rb => useReport m now ep rb
    else some (ep, [])

/-- With the packets that the loop has been at and the blocks that it has used. -/
structure RtcpWalk where
  mblk : Mblk
  ep : RtcpSide
  visited : List Nat
  uses : List ReportUse

/-- `times k` is the time in the turn `k`. The result `none` is a read outside of the data. -/
def rtcpTurn (times : Nat → UInt64) (w : RtcpWalk) : RtcpWalk ⊕ Option RtcpWalk :=
  match rtcpBody w.mblk (times w.visited.length) w.ep with
  | none => .inr none
  | some r =>
    let w' := { w with ep := r.1, visited := w.visited ++ [w.mblk.readPtr], uses := w.uses ++ r.2 }
    match w.mblk.nextPacket with
    | none => .inr none
    | some none => .inr (some w')
    | some (some m) => .inl { w' with mblk := m }

/-- After at most `n` turns of its loop -/
def procRTCPPacket (times : Nat → UInt64) (d : Str) (ep : RtcpSide) (n : Nat) : RtcpWalk ⊕ Option RtcpWalk :=
  if d.length < commonHeaderSize then .inr (some ⟨⟨d, 0⟩, ep, [], []⟩)
  else
    match commonHeader d 0 with
    | none => .inr none
    | some h => if h.version ≠ 2 then .inr (some ⟨⟨d, 0⟩, ep, [], []⟩) else turns (rtcpTurn times) n ⟨⟨d, 0⟩, ep, [], []⟩

/-! ## Compound packets -/

def nextElement (d : Str) (p : Nat) : Option Nat :=
  (commonHeader d p).bind fun h => if p + (1 + h.length) * 4 < d.length then some (p + (1 + h.length) * 4) else none

def elementsFrom (d : Str) : Nat → Nat → List Nat
  | 0, _ => []
  | fuel + 1, p => p :: ((nextElement d p).map (elementsFrom d fuel)).getD []

/-- Each element starts where the one before it ends by its own length. -/
def elements (d : Str) : List Nat := elementsFrom d (d.length / 4 + 1) 0

/-- The element has the type of a receiver report, and room for a report block, by its own length and by that of the data. -/
def hasReport (d : Str) (p : Nat) : Bool :=
  (commonHeader d p).any fun h => h.packetType = rtcpRR && decide (p + rrSize ≤ d.length ∧ rrSize ≤ (1 + h.length) * 4)

def RtcpSide.analysed (ep : RtcpSide) : Bool := (ep.format = .h264 || ep.format = .jpeg) && ep.qos.isSome

def usesAt (d : Str) (ep : RtcpSide) (p : Nat) : List ReportUse :=
  if hasReport d p then .roundTrip p (p + 8) :: if ep.analysed then [.qos p (p + 8)] else [] else []

/-! ## Reads -/

section

variable {d : Str} {p rb : Nat} {m : Mblk} {ep ep' : RtcpSide} {now : UInt64} {times : Nat → UInt64}

theorem readBe_of_le {w : Nat} (h : p + w ≤ d.length) : readBe d p w = some (ofBe ((d.drop p).take w)) := if_pos h

theorem commonHeader_isSome : (commonHeader d p).isSome ↔ p + 4 ≤ d.length := by
  unfold commonHeader
  constructor
  · intro h
    obtain ⟨hd, hd'⟩ := isSome_iff_exists.mp h
    obtain ⟨first, -, h⟩ := bind_eq_some_iff.mp hd'
    obtain ⟨packetType, -, h⟩ := bind_eq_some_iff.mp h
    obtain ⟨length, hlen, -⟩ := map_eq_some_iff.mp h
    unfold readBe at hlen
    split at hlen
    · omega
    · cases hlen
  · intro h
    rw [readBe_of_le (by omega), bind_some, readBe_of_le (by omega), bind_some, readBe_of_le (by omega)]
    rfl

theorem getCommonHeader_eq (m : Mblk) : m.getCommonHeader = some (commonHeader m.data m.readPtr) := by
  unfold Mblk.getCommonHeader
  by_cases h : m.readPtr + 4 ≤ m.data.length
  · have hlong : ¬ m.data.length - m.readPtr < commonHeaderSize := by
      unfold commonHeaderSize
      omega
    obtain ⟨hd, hhd⟩ := isSome_iff_exists.mp (commonHeader_isSome.mpr h)
    rw [if_neg hlong, hhd]
    rfl
  · have hshort : m.data.length - m.readPtr < commonHeaderSize := by
      unfold commonHeaderSize
      omega
    have hnone : commonHeader m.data m.readPtr = none :=
      not_isSome_iff_eq_none.mp fun hs => h (commonHeader_isSome.mp hs)
    rw [if_pos hshort, hnone]

theorem getSize_of_some {h : CommonHeader} (hh : commonHeader m.data m.readPtr = some h) :
    m.getSize = some ((1 + h.length) * 4 : Int) := by
  rw [Mblk.getSize, getCommonHeader_eq, hh]
  rfl

theorem getSize_of_none (hh : commonHeader m.data m.readPtr = none) : m.getSize = some (-1) := by
  rw [Mblk.getSize, getCommonHeader_eq, hh]
  rfl

theorem nextPacket_eq (m : Mblk) :
    m.nextPacket = some ((nextElement m.data m.readPtr).map fun q => { m with readPtr := q }) := by
  unfold Mblk.nextPacket nextElement
  cases hh : commonHeader m.data m.readPtr with
  | none =>
    rw [getSize_of_none hh]
    rfl
  | some h =>
    rw [getSize_of_some hh, map_some, bind_some]
    by_cases hlt : m.readPtr + (1 + h.length) * 4 < m.data.length
    · have hint : (0 : Int) ≤ (1 + h.length) * 4 ∧ m.readPtr + ((1 + h.length) * 4 : Int) < m.data.length := by omega
      have hto : ((1 + h.length) * 4 : Int).toNat = (1 + h.length) * 4 := by omega
      rw [if_pos hint, if_pos hlt, hto]
      rfl
    · have hint : ¬ ((0 : Int) ≤ (1 + h.length) * 4 ∧ m.readPtr + ((1 + h.length) * 4 : Int) < m.data.length) := by omega
      rw [if_neg hint, if_neg hlt]
      rfl

theorem hasReport_iff : hasReport d p ↔ ∃ h, commonHeader d p = some h ∧ h.packetType = rtcpRR ∧
    p + rrSize ≤ d.length ∧ rrSize ≤ (1 + h.length) * 4 := by
  unfold hasReport
  cases hh : commonHeader d p with
  | none => simp
  | some h => simp

theorem isRR_of_some {h : CommonHeader} (hh : commonHeader m.data m.readPtr = some h) :
    m.isRR = some (decide (h.packetType = rtcpRR ∧ rrSize ≤ m.data.length - m.readPtr)) := by
  rw [Mblk.isRR, getCommonHeader_eq, hh]
  rfl

theorem isRR_of_none (hh : commonHeader m.data m.readPtr = none) : m.isRR = some false := by
  rw [Mblk.isRR, getCommonHeader_eq, hh]
  rfl

theorem getReportBlock_of_some {h : CommonHeader} (hh : commonHeader m.data m.readPtr = some h) :
    m.getReportBlock 0 = some (if rrSize ≤ (1 + h.length) * 4 then some (m.readPtr + 8) else none) := by
  unfold Mblk.getReportBlock
  rw [getSize_of_some hh, bind_some, hh]
  unfold rrSize commonHeaderSize reportBlockSize
  by_cases hroom : 4 + 4 + 24 ≤ (1 + h.length) * 4
  · rw [if_pos (by push_cast; omega), if_pos hroom]
  · rw [if_neg (by push_cast; omega), if_neg hroom]
    rfl

theorem computeRTT_spec (ep : RtcpSide) (now : UInt64) (h : rb + reportBlockSize ≤ d.length) :
    ∃ rtt, computeRTT d ep now rb = some { ep with dRTT := rtt } := by
  unfold reportBlockSize at h
  unfold computeRTT
  rw [readBe_of_le (by omega), bind_some, readBe_of_le (by omega), map_some]
  dsimp only
  split
  · split
    · exact ⟨_, rfl⟩
    · exact ⟨ep.dRTT, rfl⟩
  · exact ⟨ep.dRTT, rfl⟩

theorem procRTCP_spec (a : QosAnalyser) (rate : Nat) (rtt : Rat) (hb : m.getReportBlock 0 = some (some rb))
    (h : rb + reportBlockSize ≤ m.data.length) : ∃ r, a.procRTCP m rate rtt = some r := by
  unfold reportBlockSize at h
  unfold QosAnalyser.procRTCP
  rw [hb, bind_some]
  dsimp only
  rw [readBe_of_le (by omega), bind_some]
  split
  · rw [readBe_of_le (by omega), bind_some, readBe_of_le (by omega), bind_some, readBe_of_le (by omega)]
    exact ⟨_, rfl⟩
  · exact ⟨_, rfl⟩

theorem useReport_spec (now : UInt64) (ep : RtcpSide) (hb : m.getReportBlock 0 = some (some rb))
    (h : rb + reportBlockSize ≤ m.data.length) : ∃ ep', useReport m now ep rb =
        some (ep', .roundTrip m.readPtr rb :: if ep.analysed then [.qos m.readPtr rb] else []) ∧
      ep'.analysed = ep.analysed := by
  obtain ⟨rtt, hrtt⟩ := computeRTT_spec ep now h
  unfold useReport RtcpSide.analysed
  rw [hrtt, bind_some]
  by_cases hvideo : ep.format = .h264 ∨ ep.format = .jpeg
  · have hvideo' : (decide (ep.format = .h264) || decide (ep.format = .jpeg)) := by simpa using hvideo
    rw [if_pos hvideo, hvideo']
    cases hqos : ep.qos with
    | none => exact ⟨_, rfl, by rw [hvideo']⟩
    | some a =>
      obtain ⟨r, hr⟩ := procRTCP_spec a 90000 rtt hb h
      dsimp only
      rw [hr]
      exact ⟨_, rfl, by rw [hvideo']; rfl⟩
  · have hvideo' : (decide (ep.format = .h264) || decide (ep.format = .jpeg)) = false := by simpa using hvideo
    rw [if_neg hvideo, hvideo']
    exact ⟨_, rfl, by rw [hvideo']⟩

theorem rtcpBody_spec (m : Mblk) (now : UInt64) (ep : RtcpSide) :
    ∃ ep', rtcpBody m now ep = some (ep', usesAt m.data ep m.readPtr) ∧ ep'.analysed = ep.analysed := by
  unfold rtcpBody usesAt
  by_cases hrep : hasReport m.data m.readPtr
  · obtain ⟨h, hh, htype, hroom, hlen⟩ := hasReport_iff.mp hrep
    have hrr : h.packetType = rtcpRR ∧ rrSize ≤ m.data.length - m.readPtr := ⟨htype, by omega⟩
    have hblock := getReportBlock_of_some hh
    rw [if_pos hlen] at hblock
    rw [if_pos hrep, isRR_of_some hh, decide_eq_true hrr, bind_some, if_pos rfl, hblock, bind_some]
    exact useReport_spec now ep hblock hroom
  · rw [if_neg hrep]
    refine ⟨ep, ?_, rfl⟩
    cases hh : commonHeader m.data m.readPtr with
    | none =>
      rw [isRR_of_none hh]
      rfl
    | some h =>
      rw [isRR_of_some hh, bind_some]
      by_cases hrr : h.packetType = rtcpRR ∧ rrSize ≤ m.data.length - m.readPtr
      · -- the type is right, and there are enough bytes, but the declared length does not cover the block
        have hlen : ¬ rrSize ≤ (1 + h.length) * 4 := by
          intro hlen
          have hpos : 0 < rrSize := by decide
          exact hrep (hasReport_iff.mpr ⟨h, hh, hrr.1, by omega, hlen⟩)
        rw [decide_eq_true hrr, if_pos rfl, getReportBlock_of_some hh, if_neg hlen]
        rfl
      · rw [decide_eq_false hrr]
        rfl

/-! ## The walk -/

/-- **One turn** goes on to the next element, or the loop ends. -/
theorem rtcpTurn_spec (times : Nat → UInt64) (w : RtcpWalk) : ∃ ep, ep.analysed = w.ep.analysed ∧ rtcpTurn times w =
      ((nextElement w.mblk.data w.mblk.readPtr).map fun q => Sum.inl { w with
        mblk := ⟨w.mblk.data, q⟩, ep := ep, visited := w.visited ++ [w.mblk.readPtr],
        uses := w.uses ++ usesAt w.mblk.data w.ep w.mblk.readPtr }).getD
      (.inr (some { w with
        ep := ep, visited := w.visited ++ [w.mblk.readPtr],
        uses := w.uses ++ usesAt w.mblk.data w.ep w.mblk.readPtr })) := by
  obtain ⟨ep, hbody, hep⟩ := rtcpBody_spec w.mblk (times w.visited.length) w.ep
  refine ⟨ep, hep, ?_⟩
  unfold rtcpTurn
  rw [hbody, nextPacket_eq]
  cases nextElement w.mblk.data w.mblk.readPtr with
  | none => rfl
  | some q => rfl

theorem nextElement_spec {q : Nat} (h : nextElement d p = some q) : p + 4 ≤ q ∧ p + 4 ≤ d.length ∧ q < d.length := by
  obtain ⟨hd, hhd, h⟩ := bind_eq_some_iff.mp h
  split at h
  · cases h
    omega
  · cases h

theorem usesAt_congr (h : ep'.analysed = ep.analysed) (p : Nat) : usesAt d ep' p = usesAt d ep p := by
  unfold usesAt
  rw [h]

theorem elementsFrom_of_some {q : Nat} (h : nextElement d p = some q) (fuel : Nat) :
    elementsFrom d (fuel + 1) p = p :: elementsFrom d fuel q := by
  rw [elementsFrom, h]
  rfl

theorem elementsFrom_of_none (h : nextElement d p = none) (fuel : Nat) : elementsFrom d (fuel + 1) p = [p] := by
  rw [elementsFrom, h]
  rfl

/-- **The loop visits the elements** and uses their blocks. -/
theorem turns_elements (n : Nat) {w : RtcpWalk} {r : Option RtcpWalk} (h : turns (rtcpTurn times) n w = .inr r) :
    ∃ w', r = some w' ∧ w'.visited = w.visited ++ elementsFrom w.mblk.data n w.mblk.readPtr ∧
      w'.uses = w.uses ++ (elementsFrom w.mblk.data n w.mblk.readPtr).flatMap (usesAt w.mblk.data w.ep) := by
  induction n generalizing w with
  | zero => cases h
  | succ n ih =>
    obtain ⟨ep, hep, hturn⟩ := rtcpTurn_spec times w
    cases hnext : nextElement w.mblk.data w.mblk.readPtr with
    | none =>
      rw [hnext] at hturn
      rw [turns_succ_of_inr hturn] at h
      cases h
      rw [elementsFrom_of_none hnext, flatMap_singleton]
      exact ⟨_, rfl, rfl, rfl⟩
    | some q =>
      rw [hnext] at hturn
      rw [turns_succ_of_inl hturn] at h
      obtain ⟨w', hw', hvisited, huses⟩ := ih h
      have hcongr : usesAt w.mblk.data ep = usesAt w.mblk.data w.ep := funext fun p => usesAt_congr hep p
      refine ⟨w', hw', ?_, ?_⟩
      · rw [hvisited, elementsFrom_of_some hnext, append_assoc]
        rfl
      · rw [huses, elementsFrom_of_some hnext, flatMap_cons, append_assoc]
        rw [hcongr]

/-- **The loop ends**: every turn takes four bytes at least. -/
theorem turns_end (times : Nat → UInt64) (w : RtcpWalk) :
    ∃ r, turns (rtcpTurn times) ((w.mblk.data.length - w.mblk.readPtr) / 4 + 1) w = .inr r := by
  refine exists_returns_within (I := fun _ => True) (fun w : RtcpWalk => (w.mblk.data.length - w.mblk.readPtr) / 4) ?_
    trivial
  intro w w' _ hturn
  refine ⟨trivial, ?_⟩
  obtain ⟨ep, hep, hspec⟩ := rtcpTurn_spec times w
  rw [hturn] at hspec
  cases hnext : nextElement w.mblk.data w.mblk.readPtr with
  | none =>
    rw [hnext] at hspec
    cases hspec
  | some q =>
    rw [hnext] at hspec
    cases hspec
    obtain ⟨hq, -, hlt⟩ := nextElement_spec hnext
    dsimp only
    omega

theorem header_of_mem_dropLast (fuel : Nat) : ∀ q ∈ (elementsFrom d fuel p).dropLast, q + 4 ≤ d.length := by
  induction fuel generalizing p with
  | zero =>
    intro q hq
    cases hq
  | succ fuel ih =>
    intro q hq
    cases hnext : nextElement d p with
    | none =>
      rw [elementsFrom_of_none hnext] at hq
      cases hq
    | some q' =>
      rw [elementsFrom_of_some hnext] at hq
      by_cases hnil : elementsFrom d fuel q' = []
      · rw [hnil] at hq
        cases hq
      · rw [dropLast_cons_of_ne_nil hnil] at hq
        rcases mem_cons.mp hq with rfl | hmem
        · exact (nextElement_spec hnext).2.1
        · exact ih q hmem

theorem countP_elementsFrom (fuel : Nat) : (elementsFrom d fuel p).countP (fun q => q + 4 ≤ d.length) ≤ (d.length - p) / 4 := by
  induction fuel generalizing p with
  | zero => exact Nat.zero_le _
  | succ fuel ih =>
    have hhead : (if p + 4 ≤ d.length then 1 else 0) ≤ (d.length - p) / 4 := by
      split
      · omega
      · omega
    cases hnext : nextElement d p with
    | none =>
      rw [elementsFrom_of_none hnext, countP_singleton]
      simpa using hhead
    | some q =>
      obtain ⟨hq, hp, hlt⟩ := nextElement_spec hnext
      have hrest := ih (p := q)
      rw [elementsFrom_of_some hnext, countP_cons_of_pos (by simpa using hp)]
      omega

/-- The first header says version 2. -/
def goesIn (d : Str) : Bool := (commonHeader d 0).any fun h => h.version = 2

theorem procRTCPPacket_of_goesIn (h : goesIn d) (n : Nat) :
    procRTCPPacket times d ep n = turns (rtcpTurn times) n ⟨⟨d, 0⟩, ep, [], []⟩ := by
  obtain ⟨hd, hhd, hversion⟩ := (Option.any_eq_true _ _).mp h
  have hlong : ¬ d.length < commonHeaderSize :=
    Nat.not_lt.mpr (commonHeader_isSome.mp (isSome_of_eq_some hhd))
  unfold procRTCPPacket
  rw [if_neg hlong, hhd]
  exact if_neg (not_not.mpr (of_decide_eq_true hversion))

theorem procRTCPPacket_of_not_goesIn (h : goesIn d = false) (n : Nat) :
    procRTCPPacket times d ep n = .inr (some ⟨⟨d, 0⟩, ep, [], []⟩) := by
  unfold procRTCPPacket
  by_cases hshort : d.length < commonHeaderSize
  · exact if_pos hshort
  · obtain ⟨hd, hhd⟩ := isSome_iff_exists.mp (commonHeader_isSome.mpr (show 0 + 4 ≤ d.length from
      Nat.le_of_not_lt hshort))
    rw [goesIn, hhd] at h
    rw [if_neg hshort, hhd]
    exact if_pos (of_decide_eq_false h)

theorem procRTCPPacket_spec (times : Nat → UInt64) (d : Str) (ep : RtcpSide) :
    ∃ w, procRTCPPacket times d ep (d.length / 4 + 1) = .inr (some w) ∧
      w.visited = (if goesIn d then elements d else []) ∧
      w.uses = if goesIn d then (elements d).flatMap (usesAt d ep) else [] := by
  cases hgo : goesIn d with
  | false => exact ⟨_, procRTCPPacket_of_not_goesIn hgo _, rfl, rfl⟩
  | true =>
    obtain ⟨r, hr⟩ := turns_end times ⟨⟨d, 0⟩, ep, [], []⟩
    obtain ⟨w, rfl, hvisited, huses⟩ := turns_elements _ hr
    exact ⟨w, (procRTCPPacket_of_goesIn hgo _).trans hr, hvisited, huses⟩

theorem procRTCPPacket_unique {n n' : Nat} {r r' : Option RtcpWalk} (h : procRTCPPacket times d ep n = .inr r)
    (h' : procRTCPPacket times d ep n' = .inr r') : r = r' := by
  cases hgo : goesIn d with
  | false =>
    rw [procRTCPPacket_of_not_goesIn hgo] at h h'
    cases h
    cases h'
    rfl
  | true =>
    rw [procRTCPPacket_of_goesIn hgo] at h h'
    exact Returns.unique ⟨n, h⟩ ⟨n', h'⟩

end

/-- **The walk over a compound packet** reads inside of it and ends. -/
theorem rtcp_walk_safe (times : Nat → UInt64) (d : Str) (ep : RtcpSide) :
    ∃ w, procRTCPPacket times d ep (d.length / 4 + 1) = .inr (some w) ∧
      w.visited.countP (fun p => p + commonHeaderSize ≤ d.length) ≤ d.length / 4 ∧
      ∀ p ∈ w.visited.dropLast, p + commonHeaderSize ≤ d.length := by
  obtain ⟨w, hw, hvisited, -⟩ := procRTCPPacket_spec times d ep
  refine ⟨w, hw, ?_, ?_⟩
  · rw [hvisited]
    split
    · exact countP_elementsFrom _
    · exact Nat.zero_le _
  · intro p hp
    rw [hvisited] at hp
    split at hp
    · exact header_of_mem_dropLast _ p hp
    · cases hp

/-! ## Which blocks are used -/

/-- The block belongs to the element at `p`, a receiver report of version 2 that counts a block and whose length covers it.
-/
structure InReport (d : Str) (p rb : Nat) (h : CommonHeader) : Prop where
  element : p ∈ elements d
  header : commonHeader d p = some h
  version : h.version = 2
  type : h.packetType = rtcpRR
  counted : 1 ≤ h.rc
  start : p + 8 ≤ rb
  covered : rb + reportBlockSize ≤ p + (1 + h.length) * 4

def ReportUse.Valid (d : Str) : ReportUse → Prop
  | .roundTrip p rb | .qos p rb => ∃ h, InReport d p rb h

/-- Every element that has the type of a receiver report and room for a block says version 2 and counts a block, and the
first header says version 2. -/
def ReportsCounted (d : Str) : Prop :=
  goesIn d = true → ∀ p ∈ elements d, hasReport d p = true → ∀ h ∈ commonHeader d p, h.version = 2 ∧ 1 ≤ h.rc

/-- **The report blocks used are real** exactly if every element that looks like a receiver report is one. -/
theorem report_block_valid_iff (times : Nat → UInt64) (d : Str) (ep : RtcpSide) :
    (∀ n w, procRTCPPacket times d ep n = .inr (some w) → ∀ u ∈ w.uses, u.Valid d) ↔ ReportsCounted d := by
  obtain ⟨w₀, hw₀, -, huses⟩ := procRTCPPacket_spec times d ep
  constructor
  · intro hvalid hgo p hp hrep h hh
    have hmem : ReportUse.roundTrip p (p + 8) ∈ w₀.uses := by
      rw [huses, if_pos hgo]
      refine mem_flatMap.mpr ⟨p, hp, ?_⟩
      rw [usesAt, if_pos hrep]
      simp
    obtain ⟨h', hin⟩ := hvalid _ w₀ hw₀ _ hmem
    cases hh.symm.trans hin.header
    exact ⟨hin.version, hin.counted⟩
  · intro hcounted n w hw u hu
    cases procRTCPPacket_unique hw hw₀
    rw [huses] at hu
    split at hu
    · rename_i hgo
      obtain ⟨p, hp, hu⟩ := mem_flatMap.mp hu
      unfold usesAt at hu
      split at hu
      · rename_i hrep
        obtain ⟨h, hh, htype, hroom, hlen⟩ := hasReport_iff.mp hrep
        obtain ⟨hversion, hrc⟩ := hcounted hgo p hp hrep h hh
        have hin : InReport d p (p + 8) h := by
          refine ⟨hp, hh, hversion, htype, hrc, by omega, ?_⟩
          unfold rrSize commonHeaderSize at hlen
          omega
        rcases mem_cons.mp hu with rfl | hu
        · exact ⟨h, hin⟩
        · split at hu
          · cases mem_singleton.mp hu
            exact ⟨h, hin⟩
          · cases hu
      · cases hu
    · cases hu

def uncountedReport : Str := [0x80, 201, 0, 7, 0, 0, 0, 1] ++ List.replicate 24 1

def audioSide : RtcpSide := ⟨0, .ulaw, none⟩

theorem uncounted_block_used : ¬ ∀ n w, procRTCPPacket (fun _ => 0) uncountedReport audioSide n = .inr (some w) →
    ∀ u ∈ w.uses, u.Valid uncountedReport := by
  intro hvalid
  obtain ⟨w, hw, -, huses⟩ := procRTCPPacket_spec (fun _ => 0) uncountedReport audioSide
  have hmem : ReportUse.roundTrip 0 8 ∈ w.uses := by
    rw [huses]
    decide
  obtain ⟨h, hin⟩ := hvalid _ w hw _ hmem
  have hheader : commonHeader uncountedReport 0 = some ⟨0, 0, 2, 201, 7⟩ := by decide
  cases hheader.symm.trans hin.header
  exact absurd hin.counted (by decide)

/-! ## The round-trip time -/

/-- In units of `1/65536` seconds. -/
def roundTrip (now lastSR delay : UInt32) : Int := now.toNat - lastSR.toNat - delay.toNat

def SignRespected (now lastSR delay : UInt32) (ep ep' : RtcpSide) : Prop :=
  (0 ≤ roundTrip now lastSR delay → ep'.dRTT = roundTrip now lastSR delay / 65536) ∧
    (roundTrip now lastSR delay < 0 → ep'.dRTT = ep.dRTT)

section

variable {d : Str} {rb : Nat} {now : UInt64} {lastSR delay : UInt32}

theorem computeRTT_eq (ep : RtcpSide) (hl : readBe d (rb + 16) 4 = some lastSR.toNat)
    (hd : readBe d (rb + 20) 4 = some delay.toNat) (hl₀ : lastSR ≠ 0) (hd₀ : delay ≠ 0) :
    computeRTT d ep now rb = some { ep with dRTT := ((shortNtp now - lastSR - delay).toNat : Rat) / 65536 } := by
  have hl₁ : lastSR.toNat ≠ 0 := fun h => hl₀ (UInt32.toNat_inj.mp h)
  have hd₁ : delay.toNat ≠ 0 := fun h => hd₀ (UInt32.toNat_inj.mp h)
  have hpos : (0 : Rat) ≤ ((shortNtp now - lastSR - delay).toNat : Rat) := Rat.natCast_nonneg
  unfold computeRTT
  rw [hl, bind_some, hd, map_some, if_pos ⟨hl₁, hd₁⟩, UInt32.ofNat_toNat, UInt32.ofNat_toNat]
  rw [if_pos hpos]

theorem toNat_sub_sub {a b c : UInt32} (h : b.toNat + c.toNat ≤ a.toNat) : (a - b - c).toNat = a.toNat - b.toNat - c.toNat := by
  have hb := UInt32.toNat_sub_of_le a b (UInt32.le_iff_toNat_le.mpr (by omega))
  have hc := UInt32.toNat_sub_of_le (a - b) c (UInt32.le_iff_toNat_le.mpr (by omega))
  rw [hc, hb]

/-- **The sign of the round-trip time** is respected exactly if the difference is not negative. -/
theorem round_trip_sign_iff (hl : readBe d (rb + 16) 4 = some lastSR.toNat) (hd : readBe d (rb + 20) 4 = some delay.toNat)
    (hl₀ : lastSR ≠ 0) (hd₀ : delay ≠ 0) :
    (∀ ep ep', computeRTT d ep now rb = some ep' → SignRespected (shortNtp now) lastSR delay ep ep') ↔
      lastSR.toNat + delay.toNat ≤ (shortNtp now).toNat := by
  constructor
  · intro h
    by_contra hneg
    -- the new time is not the old one, for an endpoint with another one
    have hround : roundTrip (shortNtp now) lastSR delay < 0 := by
      unfold roundTrip
      omega
    have hkept := (h ⟨((shortNtp now - lastSR - delay).toNat : Rat) / 65536 + 1, .ulaw, none⟩ _
      (computeRTT_eq _ hl hd hl₀ hd₀)).2 hround
    grind
  · intro hle ep ep' hep
    rw [computeRTT_eq ep hl hd hl₀ hd₀] at hep
    cases hep
    have hround : roundTrip (shortNtp now) lastSR delay =
        (((shortNtp now).toNat - lastSR.toNat - delay.toNat : Nat) : Int) := by
      unfold roundTrip
      omega
    refine ⟨fun _ => ?_, fun hneg => ?_⟩
    · rw [hround, toNat_sub_sub hle]
      rfl
    · omega

end

def lateBlock : Str := List.replicate 16 0 ++ [0, 0, 0, 1, 0, 0, 0, 2]

theorem round_trip_sign_late : (shortNtp 0x60000).toNat = 6 ∧
    ∀ ep ep', computeRTT lateBlock ep 0x60000 0 = some ep' → SignRespected (shortNtp 0x60000) 1 2 ep ep' :=
  ⟨by decide, (round_trip_sign_iff (by decide) (by decide) (by decide) (by decide)).mpr (by decide)⟩

theorem negative_round_trip_taken :
    ∃ ep', computeRTT lateBlock audioSide 0 0 = some ep' ∧ ¬ SignRespected (shortNtp 0) 1 2 audioSide ep' := by
  have hrtt : computeRTT lateBlock audioSide 0 0 =
      some { audioSide with dRTT := ((shortNtp 0 - 1 - 2).toNat : Rat) / 65536 } :=
    computeRTT_eq audioSide (by decide) (by decide) (by decide) (by decide)
  refine ⟨_, hrtt, ?_⟩
  intro h
  have hkept : (((shortNtp 0 - 1 - 2).toNat : Rat) / 65536) = 0 := h.2 (by decide)
  have hfrac : (shortNtp 0 - 1 - 2).toNat = 4294967293 := by decide
  rw [hfrac] at hkept
  grind

end NuWicam.Rtsp
