import Mathlib.Algebra.Ring.Int.Defs
import NuWicam.Lib.BigEndian
import NuWicam.Lib.Turns
import NuWicam.Rtsp.Pmsg

/-!
# JPEG over RTP (`rtp-jpeg.c`, `send_rtp_packet`)

`jpeg_process_frame` walks over the segments of a frame up to its scan; `jpeg_send` cuts the scan data into packets. The
quantisation tables are positions in the frame. A read outside of it is `none`, and so is a piece of a packet without memory
behind it (`jpeg_reassembles_iff`). A loop that sends packets is given turn by turn, for every `max_data_size`, so that it may
send packets without data or never end; the length of a piece may be negative.
-/

namespace NuWicam.Rtsp

open Lib List Option

/-! ## Frames -/

/-- The bytes of a frame: the whole memory at `d`, of which the first `length` bytes are the frame. -/
structure JFrame where
  d : Str
  length : Nat
  fits : length ≤ d.length

/-- `struct rtp_jpeg`; the tables are positions in the frame. -/
structure RtpJpeg where
  type : Int
  width : Nat
  height : Nat
  lumaTable : Int
  chromaTable : Int
  quant : Nat → Option Nat
  scanData : Nat
  scanDataLen : Int
  initDone : Bool
  timestamp : Nat
  bHasDRI : Bool
  DRI : Nat

namespace JFrame

def byte (f : JFrame) (i : Nat) : Option UInt8 := f.d[i]?

def get16 (f : JFrame) (i : Nat) : Option Nat :=
  (f.byte i).bind fun a => (f.byte (i + 1)).map fun b => a.toNat * 256 + b.toNat

end JFrame

/-! ## `jpeg_process_frame` -/

/-- From the byte `i` of the segment on; false where it returns `-1` -/
def parseDQT (f : JFrame) (d : Nat) (len : Int) : Nat → Nat → RtpJpeg → Option (Bool × RtpJpeg)
  | 0, _, out => some (true, out)
  | fuel + 1, i, out =>
    if (i : Int) < len then
      (f.byte (d + i)).bind fun b =>
        if b &&& 0xF0 ≠ 0 then some (false, out)
        else parseDQT f d len fuel (i + 65)
          { out with quant := Function.update out.quant (b &&& 0xF).toNat (some (d + i + 1)) }
    else some (true, out)

def parseDRI (f : JFrame) (d : Nat) (out : RtpJpeg) : Option (Bool × RtpJpeg) :=
  (f.get16 d).map fun n => (true, { out with bHasDRI := true, DRI := n })

structure Component where
  id : UInt8
  sampling : UInt8
  table : UInt8

def JFrame.component (f : JFrame) (p : Nat) : Option Component :=
  (f.byte p).bind fun id => (f.byte (p + 1)).bind fun sampling => (f.byte (p + 2)).map fun table => ⟨id, sampling, table⟩

/-- A turn of the loop of `parse_SOF` -/
def parseComponent (c : Component) (out : RtpJpeg) : Bool × RtpJpeg :=
  if 16 ≤ c.table.toNat ∨ out.quant c.table.toNat = none then (false, out)
  else if c.id = 1 then
    if c.sampling = 0x11 then (true, { out with type := 0, lumaTable := c.table.toNat })
    else if c.sampling = 0x22 then (true, { out with type := 1, lumaTable := c.table.toNat })
    else if c.sampling = 0x21 then (true, { out with type := 0, lumaTable := c.table.toNat })
    else (false, out)
  else if c.id = 2 ∨ c.id = 3 then
    if c.sampling ≠ 0x11 then (false, out)
    else if out.chromaTable < 0 then (true, { out with chromaTable := c.table.toNat })
    else if out.chromaTable ≠ c.table.toNat then (false, out)
    else (true, out)
  else (false, out)

def parseComponents (f : JFrame) : List Nat → RtpJpeg → Option (Bool × RtpJpeg)
  | [], out => some (true, out)
  | p :: ps, out => (f.component p).bind fun c =>
    if (parseComponent c out).1 then parseComponents f ps (parseComponent c out).2 else some (parseComponent c out)

def parseSOF (f : JFrame) (d : Nat) (out : RtpJpeg) : Option (Bool × RtpJpeg) :=
  let out := { out with chromaTable := -1 }
  (f.byte d).bind fun precision =>
  if precision ≠ 8 then some (false, out)
  else (f.get16 (d + 1)).bind fun height => (f.get16 (d + 3)).bind fun width =>
    let out := { out with height := height, width := width }
    if height &&& 7 ≠ 0 ∨ width &&& 7 ≠ 0 then some (false, out)
    else
      let out := { out with height := height >>> 3, width := width >>> 3 }
      (f.byte (d + 5)).bind fun n =>
        if n ≠ 3 then some (false, out) else parseComponents f [d + 6, d + 9, d + 12] out

def parseSegment (f : JFrame) (marker : UInt8) (d : Nat) (len : Int) (out : RtpJpeg) : Option (Bool × RtpJpeg) :=
  if marker = 0xDB then parseDQT f d len len.toNat 0 out
  else if marker = 0xC0 then parseSOF f d out
  else if marker = 0xDD then parseDRI f d out
  else some (true, out)

/-- The length field of a segment; `SOI` has none -/
def JFrame.blen (f : JFrame) (marker : UInt8) (i : Nat) : Option Nat := if marker = 0xD8 then some 0 else f.get16 (i + 2)

/-- True where it returns `1` -/
def processLoop (f : JFrame) (now : Nat) : Nat → Nat → RtpJpeg → Option (Bool × RtpJpeg)
  | 0, _, out => some (false, { out with scanDataLen := 0 })
  | fuel + 1, i, out =>
    if i < f.length then
      (f.byte i).bind fun first =>
      if first ≠ 0xFF then some (false, { out with scanDataLen := 0 })
      else (f.byte (i + 1)).bind fun marker => (f.blen marker i).bind fun blen =>
        if marker = 0xDA then
          some (true, { out with
            initDone := true
            scanData := i + 2 + blen
            scanDataLen := (f.length : Int) - i - 2 - blen
            timestamp := now * 90 % 2 ^ 32 })
        else (parseSegment f marker (i + 4) ((blen : Int) - 2) out).bind fun r =>
          if r.1 then processLoop f now fuel (i + blen + 2) r.2 else some (false, { r.2 with scanDataLen := 0 })
    else some (false, { out with scanDataLen := 0 })

/-- `utils_get_ms_time` returns `now`; every turn of the loop goes on by two bytes at least. -/
def jpegProcessFrame (out : RtpJpeg) (f : JFrame) (now : Nat) : Option (Bool × RtpJpeg) :=
  processLoop f now (f.length + 1) 0 { out with bHasDRI := false, quant := fun _ => none }

/-! ## Loops that send packets -/

/-- The bytes of a piece of a packet; `none` if there is no memory behind it -/
abbrev Iov := Option Str

/-- The pieces that `send_rtp_packet` hands to the socket. -/
abbrev RtpPacket := List Iov

structure Iovec where
  base : Iov
  len : Int
deriving DecidableEq

def bytesAt (d : Str) (p len : Int) : Iov :=
  if 0 ≤ p ∧ 0 ≤ len ∧ p + len ≤ d.length then some ((d.drop p.toNat).take len.toNat) else none

structure RtpEndpoint where
  payload : Nat
  maxDataSize : Int
  ssrc : Nat
  startTimestamp : Nat
  lastTimestamp : Nat
  seqnum : Nat
  packetCount : Nat
  octetCount : Int

inductive SendEnd
  | sent
  | failed
  | reportFailed
deriving DecidableEq

def RtpEndpoint.rtphdr (ep : RtpEndpoint) (marker : Bool) : Str :=
  [(2 : UInt8) <<< 6, if marker then UInt8.ofNat ep.payload ||| 0x80 else UInt8.ofNat ep.payload] ++ be 2 ep.seqnum ++
    be 4 ep.lastTimestamp ++ be 4 ep.ssrc

/-- The first piece is the RTP header. -/
def sendRtpPacket (ep : RtpEndpoint) (v : List Iovec) (timestamp : Nat) (marker : Bool) (r : SendEnd) :
    Int × RtpEndpoint × List Iovec :=
  let ep := { ep with lastTimestamp := (ep.startTimestamp + timestamp) % 2 ^ 32 }
  let packet := ⟨some (ep.rtphdr marker), 12⟩ :: v
  let sent := { ep with
    octetCount := ep.octetCount + (packet.map Iovec.len).sum
    packetCount := ep.packetCount + 1
    seqnum := (ep.seqnum + 1) % 2 ^ 16 }
  match r with
  | .sent => (0, sent, packet)
  | .failed => (-1, ep, packet)
  | .reportFailed => (-1, sent, packet)

/-- The offset and number of the next packet, the endpoint, and what `send_rtp_packet` has handed to the socket. -/
structure Sending where
  i : Int
  n : Nat
  ep : RtpEndpoint
  handed : List (List Iovec)

def Sending.start (ep : RtpEndpoint) : Sending := ⟨0, 0, ep, []⟩

/-- The returned value comes with it. -/
def Sending.send (s : Sending) (v : List Iovec) (timestamp : Nat) (marker : Bool) (r : SendEnd) (plen : Int) :
    Int × Sending :=
  let x := sendRtpPacket s.ep v timestamp marker r
  (x.1, ⟨s.i + plen, s.n + 1, x.2.1, s.handed ++ [x.2.2]⟩)

def Sending.packets (s : Sending) : List RtpPacket := s.handed.map fun v => v.map Iovec.base

/-! ## `jpeg_send` -/

def jpegGetPayload (_payload : Nat) : Nat := 26

namespace RtpJpeg

/-- The 64 bytes at `quant[t]` -/
def table (f : JFrame) (quant : Nat → Option Nat) (t : Int) : Iov :=
  if 0 ≤ t ∧ t < 16 then (quant t.toNat).bind fun p => if p + 64 ≤ f.d.length then some ((f.d.drop p).take 64) else none
  else none

/-- The main header, with the offset `i` -/
def vhdr (out : RtpJpeg) (i : Nat) : Str :=
  [0] ++ be 3 i ++ [UInt8.ofInt (out.type + if out.bHasDRI then 64 else 0), 255, UInt8.ofNat out.width,
    UInt8.ofNat out.height]

def rhdr (out : RtpJpeg) : List Iov := if out.bHasDRI then [some (be 2 out.DRI ++ [0xFF, 0xFF])] else []

def qhdr : Str := [0, 0] ++ be 2 (2 * 64)

/-- `hdr_len` of the first packet -/
def firstHdrLen (out : RtpJpeg) : Int := 8 + (if out.bHasDRI then 4 else 0) + 4 + 64 + 64

def laterHdrs (out : RtpJpeg) : List Iovec := out.rhdr.map fun b => ⟨b, 4⟩

def firstHdrs (f : JFrame) (out : RtpJpeg) : List Iovec :=
  out.laterHdrs ++ [⟨some qhdr, 4⟩, ⟨table f out.quant out.lumaTable, 64⟩, ⟨table f out.quant out.chromaTable, 64⟩]

end RtpJpeg

/-- The headers after the main one, and their length. -/
structure JpegSending extends Sending where
  hdrs : List Iovec
  hdrLen : Int

def JpegSending.start (f : JFrame) (out : RtpJpeg) (ep : RtpEndpoint) : JpegSending :=
  ⟨.start ep, out.firstHdrs f, out.firstHdrLen⟩

def JpegSending.plen (out : RtpJpeg) (s : JpegSending) : Int :=
  if out.scanDataLen - s.i > s.ep.maxDataSize - s.hdrLen then s.ep.maxDataSize - s.hdrLen else out.scanDataLen - s.i

/-- The main header with the low 24 bits of the offset, the other headers and the data -/
def JpegSending.pieces (f : JFrame) (out : RtpJpeg) (s : JpegSending) : List Iovec :=
  ⟨some (out.vhdr (s.i % 2 ^ 24).toNat), 8⟩ :: s.hdrs ++
    [⟨bytesAt f.d (out.scanData + s.i) (s.plen out), s.plen out⟩]

def JpegSending.sendAt (f : JFrame) (out : RtpJpeg) (s : JpegSending) (r : SendEnd) : Int × Sending :=
  s.toSending.send (s.pieces f out) out.timestamp (s.plen out + s.i = out.scanDataLen) r (s.plen out)

/-- A turn of the loop of `jpeg_send`; the results of `send_rtp_packet` are an input. -/
def jpegTurn (f : JFrame) (out : RtpJpeg) (sends : Nat → SendEnd) (s : JpegSending) : JpegSending ⊕ (Int × Sending) :=
  if s.i < out.scanDataLen then
    let r := s.sendAt f out (sends s.n)
    if r.1 < 0 then .inr (-1, r.2) else .inl ⟨r.2, out.laterHdrs, 8⟩
  else .inr (0, s.toSending)

/-! ## The header of a frame -/

structure Seg where
  marker : UInt8
  pos : Nat
  len : Int

/-- The segments up to the scan, and where the scan data starts; `none` if there is no scan. -/
def JFrame.headerFrom (f : JFrame) : Nat → Nat → Option (List Seg × Nat)
  | 0, _ => none
  | fuel + 1, i =>
    if i < f.length ∧ f.byte i = some 0xFF then
      (f.byte (i + 1)).bind fun marker => (f.blen marker i).bind fun blen =>
        if marker = 0xDA then some ([], i + 2 + blen)
        else (f.headerFrom fuel (i + blen + 2)).map fun r => (⟨marker, i + 4, (blen : Int) - 2⟩ :: r.1, r.2)
    else none

def JFrame.header (f : JFrame) : Option (List Seg × Nat) := f.headerFrom (f.length + 1) 0

def JFrame.scan (f : JFrame) : Str := (f.header.map fun h => (f.d.take f.length).drop h.2).getD []

def JFrame.hasDRI (f : JFrame) : Bool := (f.header.map fun h => h.1.any fun s => s.marker == 0xDD).getD false

def Seg.tables (f : JFrame) (s : Seg) : List (Nat × Nat) :=
  if s.marker = 0xDB then
    (List.range ((s.len + 64) / 65).toNat).filterMap fun k =>
      (f.byte (s.pos + 65 * k)).map fun b => ((b &&& 0xF).toNat, s.pos + 65 * k + 1)
  else []

def Seg.components (f : JFrame) (s : Seg) : List Component :=
  if s.marker = 0xC0 then [s.pos + 6, s.pos + 9, s.pos + 12].filterMap f.component else []

def quantOf (q : Nat → Option Nat) (l : List (Nat × Nat)) : Nat → Option Nat :=
  l.foldl (fun q e => Function.update q e.1 (some e.2)) q

/-- The table that the last component with the id 1 names, or else what an earlier frame left. -/
def lumaOf (t : Int) (cs : List Component) : Int := cs.foldl (fun t c => if c.id = 1 then c.table.toNat else t) t

/-- That of the first component with the id 2 or 3, or `-1`. -/
def chromaOf (cs : List Component) : Int :=
  ((cs.find? fun c => c.id == 2 || c.id == 3).map fun c => (c.table.toNat : Int)).getD (-1)

/-- That of the last `SOF`, or else what an earlier frame left. -/
def chromaAfter (f : JFrame) (t : Int) (segs : List Seg) : Int :=
  segs.foldl (fun t s => if s.marker = 0xC0 then chromaOf (s.components f) else t) t

def HasTables (old : RtpJpeg) (f : JFrame) : Prop :=
  ∀ h ∈ f.header,
    (RtpJpeg.table f (quantOf (fun _ => none) (h.1.flatMap (Seg.tables f)))
      (lumaOf old.lumaTable (h.1.flatMap (Seg.components f)))).isSome ∧
    (RtpJpeg.table f (quantOf (fun _ => none) (h.1.flatMap (Seg.tables f)))
      (chromaAfter f old.chromaTable h.1)).isSome

instance (old : RtpJpeg) (f : JFrame) : Decidable (HasTables old f) := decidableForallMem _

/-! ## What an accepted frame leaves -/

structure Seg.Effect (f : JFrame) (s : Seg) (out out' : RtpJpeg) : Prop where
  quant : out'.quant = quantOf out.quant (s.tables f)
  luma : out'.lumaTable = lumaOf out.lumaTable (s.components f)
  chroma : out'.chromaTable = if s.marker = 0xC0 then chromaOf (s.components f) else out.chromaTable
  dri : out'.bHasDRI = (out.bHasDRI || s.marker == 0xDD)

section

variable {f : JFrame} {out out' : RtpJpeg}

theorem parseDQT_tables {d : Nat} {len : Int} : ∀ (fuel k : Nat) {out : RtpJpeg}, ((len + 64) / 65).toNat - k ≤ fuel →
    parseDQT f d len fuel (65 * k) out = some (true, out') → out' = { out with
      quant := quantOf out.quant ((List.range' k (((len + 64) / 65).toNat - k)).filterMap fun k =>
        (f.byte (d + 65 * k)).map fun b => ((b &&& 0xF).toNat, d + 65 * k + 1)) }
  | 0, k, out, hfuel, h => by
    cases h
    rw [Nat.le_zero.mp hfuel]
    rfl
  | fuel + 1, k, out, hfuel, h => by
    unfold parseDQT at h
    by_cases hlt : ((65 * k : Nat) : Int) < len
    · rw [if_pos hlt] at h
      obtain ⟨b, hb, h⟩ := bind_eq_some_iff.mp h
      split at h
      · cases h
      · have hn : ((len + 64) / 65).toNat - k = (((len + 64) / 65).toNat - (k + 1)) + 1 := by omega
        rw [parseDQT_tables fuel (k + 1) (by omega) h, hn, range'_succ, filterMap_cons, hb]
        rfl
    · rw [if_neg hlt] at h
      cases h
      have hn : ((len + 64) / 65).toNat - k = 0 := by omega
      rw [hn]
      rfl

theorem parseComponent_spec {c : Component} (h : (parseComponent c out).1) :
    (parseComponent c out).2.quant = out.quant ∧ (parseComponent c out).2.bHasDRI = out.bHasDRI ∧
      (parseComponent c out).2.lumaTable = (if c.id = 1 then (c.table.toNat : Int) else out.lumaTable) ∧
      (parseComponent c out).2.chromaTable =
        if out.chromaTable < 0 ∧ (c.id = 2 ∨ c.id = 3) then (c.table.toNat : Int) else out.chromaTable := by
  unfold parseComponent at h ⊢
  by_cases hundef : 16 ≤ c.table.toNat ∨ out.quant c.table.toNat = none
  · rw [if_pos hundef] at h
    cases h
  rw [if_neg hundef] at h ⊢
  by_cases hY : c.id = 1
  · have hC : ¬ (out.chromaTable < 0 ∧ (c.id = 2 ∨ c.id = 3)) := by
      rw [hY]
      exact fun hC => absurd hC.2 (by decide)
    rw [if_pos hY] at h
    rw [if_pos hY, if_pos hY, if_neg hC]
    split at h
    · rw [if_pos ‹_›]
      exact ⟨rfl, rfl, rfl, rfl⟩
    rw [if_neg ‹_›]
    split at h
    · rw [if_pos ‹_›]
      exact ⟨rfl, rfl, rfl, rfl⟩
    rw [if_neg ‹_›]
    split at h
    · rw [if_pos ‹_›]
      exact ⟨rfl, rfl, rfl, rfl⟩
    · cases h
  rw [if_neg hY] at h
  rw [if_neg hY, if_neg hY]
  by_cases hC : c.id = 2 ∨ c.id = 3
  · rw [if_pos hC] at h ⊢
    split at h
    · cases h
    rw [if_neg ‹_›]
    by_cases hneg : out.chromaTable < 0
    · rw [if_pos hneg, if_pos ⟨hneg, hC⟩]
      exact ⟨rfl, rfl, rfl, rfl⟩
    · have hkept : ¬ (out.chromaTable < 0 ∧ (c.id = 2 ∨ c.id = 3)) := fun hc => hneg hc.1
      rw [if_neg hneg] at h
      rw [if_neg hneg, if_neg hkept]
      split at h
      · cases h
      · rw [if_neg ‹_›]
        exact ⟨rfl, rfl, rfl, rfl⟩
  · rw [if_neg hC] at h
    cases h

theorem parseComponents_spec : ∀ (ps : List Nat) {out : RtpJpeg}, parseComponents f ps out = some (true, out') →
    out'.quant = out.quant ∧ out'.bHasDRI = out.bHasDRI ∧ out'.lumaTable = lumaOf out.lumaTable (ps.filterMap f.component) ∧
      out'.chromaTable = if out.chromaTable < 0 then
        (((ps.filterMap f.component).find? fun c => c.id == 2 || c.id == 3).map fun c => (c.table.toNat : Int)).getD
          out.chromaTable else out.chromaTable
  | [], out, h => by
    cases h
    exact ⟨rfl, rfl, rfl, (ite_self _).symm⟩
  | p :: ps, out, h => by
    obtain ⟨c, hc, h⟩ := bind_eq_some_iff.mp h
    split at h
    · rename_i hok
      obtain ⟨hquant, hdri, hluma, hchroma⟩ := parseComponent_spec hok
      obtain ⟨hquant', hdri', hluma', hchroma'⟩ := parseComponents_spec ps h
      rw [filterMap_cons, hc]
      refine ⟨hquant'.trans hquant, hdri'.trans hdri, ?_, ?_⟩
      · rw [hluma', hluma]
        rfl
      · rw [List.find?_cons]
        by_cases hneg : out.chromaTable < 0
        · by_cases hC : c.id = 2 ∨ c.id = 3
          · have hfound : (c.id == 2 || c.id == 3) := by simpa using hC
            have hpos : ¬ (c.table.toNat : Int) < 0 := by omega
            rw [if_pos ⟨hneg, hC⟩] at hchroma
            rw [hchroma', hchroma, if_neg hpos, if_pos hneg, hfound]
            rfl
          · have hmiss : (c.id == 2 || c.id == 3) = false := by simpa using hC
            have hkept : ¬ (out.chromaTable < 0 ∧ (c.id = 2 ∨ c.id = 3)) := fun hc => hC hc.2
            rw [if_neg hkept] at hchroma
            rw [hchroma', hchroma, if_pos hneg, if_pos hneg, hmiss]
        · have hkept : ¬ (out.chromaTable < 0 ∧ (c.id = 2 ∨ c.id = 3)) := fun hc => hneg hc.1
          rw [if_neg hkept] at hchroma
          rw [hchroma', hchroma, if_neg hneg, if_neg hneg]
    · rename_i hok
      rw [some.inj h] at hok
      exact (hok rfl).elim

theorem parseSOF_effect {pos : Nat} {len : Int} (h : parseSOF f pos out = some (true, out')) :
    Seg.Effect f ⟨0xC0, pos, len⟩ out out' := by
  obtain ⟨precision, _, h⟩ := bind_eq_some_iff.mp h
  split at h
  · cases h
  obtain ⟨height, _, h⟩ := bind_eq_some_iff.mp h
  obtain ⟨width, _, h⟩ := bind_eq_some_iff.mp h
  split at h
  · cases h
  obtain ⟨n, _, h⟩ := bind_eq_some_iff.mp h
  split at h
  · cases h
  obtain ⟨hquant, hdri, hluma, hchroma⟩ := parseComponents_spec _ h
  exact ⟨hquant, hluma, hchroma, hdri.trans (Bool.or_false _).symm⟩

/-- **One segment.** -/
theorem parseSegment_effect {marker : UInt8} {pos : Nat} {len : Int}
    (h : parseSegment f marker pos len out = some (true, out')) : Seg.Effect f ⟨marker, pos, len⟩ out out' := by
  unfold parseSegment at h
  split at h
  · rename_i hm
    subst hm
    have hout := parseDQT_tables len.toNat 0 (by omega) h
    rw [Nat.sub_zero, ← range_eq_range'] at hout
    subst hout
    exact ⟨rfl, rfl, rfl, (Bool.or_false _).symm⟩
  rename_i hDQT
  split at h
  · rename_i hm
    subst hm
    exact parseSOF_effect h
  rename_i hSOF
  have htables : Seg.tables f ⟨marker, pos, len⟩ = [] := if_neg hDQT
  have hcomps : Seg.components f ⟨marker, pos, len⟩ = [] := if_neg hSOF
  split at h
  · rename_i hm
    obtain ⟨n, _, hout⟩ := map_eq_some_iff.mp h
    cases hout
    refine ⟨by rw [htables]; rfl, by rw [hcomps]; rfl, (if_neg hSOF).symm, ?_⟩
    rw [hm]
    exact (Bool.or_true _).symm
  · rename_i hDRI
    cases h
    refine ⟨by rw [htables]; rfl, by rw [hcomps]; rfl, (if_neg hSOF).symm, ?_⟩
    rw [beq_eq_false_iff_ne.mpr hDRI, Bool.or_false]

/-- What the segments and a scan at `scan` leave of the state `out`. -/
structure Leaves (f : JFrame) (segs : List Seg) (scan : Nat) (out out' : RtpJpeg) : Prop where
  quant : out'.quant = quantOf out.quant (segs.flatMap (Seg.tables f))
  luma : out'.lumaTable = lumaOf out.lumaTable (segs.flatMap (Seg.components f))
  chroma : out'.chromaTable = chromaAfter f out.chromaTable segs
  dri : out'.bHasDRI = (out.bHasDRI || segs.any fun s => s.marker == 0xDD)
  scanData : out'.scanData = scan
  scanDataLen : out'.scanDataLen = (f.length : Int) - scan

theorem Leaves.cons {s : Seg} {segs : List Seg} {scan : Nat} {out₁ : RtpJpeg} (h : s.Effect f out out₁)
    (h' : Leaves f segs scan out₁ out') : Leaves f (s :: segs) scan out out' where
  quant := by rw [h'.quant, h.quant, flatMap_cons, quantOf, quantOf, quantOf, foldl_append]
  luma := by rw [h'.luma, h.luma, flatMap_cons, lumaOf, lumaOf, lumaOf, foldl_append]
  chroma := by rw [h'.chroma, h.chroma]; rfl
  dri := by rw [h'.dri, h.dri, any_cons, Bool.or_assoc]
  scanData := h'.scanData
  scanDataLen := h'.scanDataLen

inductive Parsed (f : JFrame) : List Seg → RtpJpeg → RtpJpeg → Prop
  | nil (out : RtpJpeg) : Parsed f [] out out
  | cons {s : Seg} {segs : List Seg} {out out₁ out' : RtpJpeg}
      (h : parseSegment f s.marker s.pos s.len out = some (true, out₁)) (h' : Parsed f segs out₁ out') :
      Parsed f (s :: segs) out out'

def RtpJpeg.atScan (out : RtpJpeg) (f : JFrame) (scan now : Nat) : RtpJpeg :=
  { out with
    initDone := true
    scanData := scan
    scanDataLen := (f.length : Int) - scan
    timestamp := now * 90 % 2 ^ 32 }

variable {now : Nat} {old : RtpJpeg}

theorem processLoop_parsed (fuel i : Nat) (h : processLoop f now fuel i out = some (true, out')) :
    ∃ segs scan out₁, f.headerFrom fuel i = some (segs, scan) ∧ Parsed f segs out out₁ ∧ out' = out₁.atScan f scan now := by
  induction fuel generalizing i out with
  | zero => cases h
  | succ fuel ih =>
    unfold processLoop at h
    split at h
    · rename_i hlt
      obtain ⟨first, hfirst, h⟩ := bind_eq_some_iff.mp h
      split at h
      · cases h
      rename_i hFF
      rw [not_not] at hFF
      subst hFF
      obtain ⟨marker, hmarker, h⟩ := bind_eq_some_iff.mp h
      obtain ⟨blen, hblen, h⟩ := bind_eq_some_iff.mp h
      unfold JFrame.headerFrom
      rw [if_pos ⟨hlt, hfirst⟩, hmarker, bind_some, hblen, bind_some]
      split at h
      · -- the scan
        rw [if_pos ‹_›]
        refine ⟨[], _, out, rfl, .nil out, ?_⟩
        rw [← (Prod.mk.inj (some.inj h)).2, RtpJpeg.atScan]
        congr 1
        omega
      · obtain ⟨⟨ok, out₁⟩, hseg, h⟩ := bind_eq_some_iff.mp h
        rw [if_neg ‹_›]
        cases ok with
        | false => cases h
        | true =>
          obtain ⟨segs, scan, out₂, hheader, hparsed, hout⟩ := ih _ h
          rw [hheader]
          exact ⟨_, _, out₂, rfl, .cons hseg hparsed, hout⟩
    · cases h

theorem accepted_parsed (h : jpegProcessFrame old f now = some (true, out)) : ∃ segs scan out₁, f.header = some (segs, scan) ∧
      Parsed f segs { old with bHasDRI := false, quant := fun _ => none } out₁ ∧ out = out₁.atScan f scan now :=
  processLoop_parsed _ _ h

theorem Parsed.leaves {segs : List Seg} (h : Parsed f segs out out') (scan now : Nat) :
    Leaves f segs scan out (out'.atScan f scan now) := by
  induction h with
  | nil out => exact ⟨rfl, rfl, rfl, (Bool.or_false _).symm, rfl, rfl⟩
  | cons h _ ih => exact .cons (parseSegment_effect h) ih

theorem accepted_header (h : jpegProcessFrame old f now = some (true, out)) : ∃ segs scan, f.header = some (segs, scan) ∧
      Leaves f segs scan { old with bHasDRI := false, quant := fun _ => none } out := by
  obtain ⟨segs, scan, out₁, hheader, hparsed, rfl⟩ := accepted_parsed h
  exact ⟨segs, scan, hheader, hparsed.leaves scan now⟩

theorem accepted_hasDRI (h : jpegProcessFrame old f now = some (true, out)) : f.hasDRI = out.bHasDRI := by
  obtain ⟨segs, scan, hheader, hout⟩ := accepted_header h
  rw [hout.dri, JFrame.hasDRI, hheader]
  rfl

theorem accepted_hasTables (h : jpegProcessFrame old f now = some (true, out)) :
    HasTables old f ↔ (RtpJpeg.table f out.quant out.lumaTable).isSome ∧
      (RtpJpeg.table f out.quant out.chromaTable).isSome := by
  obtain ⟨segs, scan, hheader, hout⟩ := accepted_header h
  rw [hout.quant, hout.luma, hout.chroma]
  refine ⟨fun h => h _ hheader, fun h x hx => ?_⟩
  cases hheader.symm.trans hx
  exact h

end

/-! ## What a receiver reads from a packet -/

namespace RtpPacket

def piece (p : RtpPacket) (k : Nat) : Str := (p[k]?.getD none).getD []

def marker (p : RtpPacket) : Bool := decide (128 ≤ ((p.piece 0).getD 1 0).toNat)

def seq (p : RtpPacket) : Nat := ofBe (((p.piece 0).drop 2).take 2)

def timestamp (p : RtpPacket) : Nat := ofBe (((p.piece 0).drop 4).take 4)

def offset (p : RtpPacket) : Nat := ofBe (((p.piece 1).drop 1).take 3)

def headers (p : RtpPacket) : List Iov := (p.drop 2).dropLast

def fragment (p : RtpPacket) : Str := (p.getLast?.getD none).getD []

end RtpPacket

/-- **What a receiver needs** to put the frame together. -/
structure Reassembles (f : JFrame) (out : RtpJpeg) (pkts : List RtpPacket) : Prop where
  start : ∀ p ∈ pkts.head?, p.offset = 0
  next : pkts.IsChain fun p q => q.offset = p.offset + p.fragment.length
  whole : pkts.flatMap RtpPacket.fragment = f.scan
  unmarked : ∀ p ∈ pkts.dropLast, p.marker = false
  marked : ∀ p ∈ pkts.getLast?, p.marker = true
  stamp : ∃ t, ∀ p ∈ pkts, p.timestamp = t
  seq : pkts.IsChain fun p q => q.seq = (p.seq + 1) % 2 ^ 16
  /-- the first packet has the tables, and all have the restart header if the frame has a restart interval -/
  headers : ∃ p rest luma chroma, pkts = p :: rest ∧ luma.length = 64 ∧ chroma.length = 64 ∧
    p.headers = (if f.hasDRI then [some (be 2 out.DRI ++ [0xFF, 0xFF])] else []) ++
      [some RtpJpeg.qhdr, some luma, some chroma] ∧
    ∀ q ∈ rest, q.headers = if f.hasDRI then [some (be 2 out.DRI ++ [0xFF, 0xFF])] else []

inductive Sent (out : RtpJpeg) (payload stamp total : Nat) : Nat → Nat → List Iov → Str → List RtpPacket → Prop
  | nil (seq i : Nat) (hdrs : List Iov) : Sent out payload stamp total seq i hdrs [] []
  | cons {ep : RtpEndpoint} {i : Nat} {hdrs : List Iov} {piece rest : Str} {pkts : List RtpPacket}
      (hpay : ep.payload = payload) (hstamp : ep.lastTimestamp = stamp) (hne : piece ≠ [])
      (h : Sent out payload stamp total ((ep.seqnum + 1) % 2 ^ 16) (i + piece.length) out.rhdr rest pkts) :
      Sent out payload stamp total ep.seqnum i hdrs (piece ++ rest)
        ((some (ep.rtphdr (i + piece.length = total)) :: some (out.vhdr (i % 2 ^ 24)) :: hdrs ++ [some piece]) :: pkts)

section

variable {f : JFrame} {out : RtpJpeg} {sends : Nat → SendEnd}

theorem sendRtpPacket_neg {ep : RtpEndpoint} {v : List Iovec} {timestamp : Nat} {marker : Bool} {r : SendEnd} :
    (sendRtpPacket ep v timestamp marker r).1 < 0 ↔ r ≠ .sent := by
  cases r <;> simp [sendRtpPacket]

namespace Sending

variable {s : Sending} {v : List Iovec} {timestamp : Nat} {marker : Bool} {r : SendEnd} {plen : Int}

theorem send_neg : (s.send v timestamp marker r plen).1 < 0 ↔ r ≠ .sent := sendRtpPacket_neg

@[simp] theorem send_i : (s.send v timestamp marker r plen).2.i = s.i + plen := rfl

@[simp] theorem send_maxDataSize : (s.send v timestamp marker r plen).2.ep.maxDataSize = s.ep.maxDataSize := by
  cases r <;> rfl

@[simp] theorem send_startTimestamp : (s.send v timestamp marker r plen).2.ep.startTimestamp = s.ep.startTimestamp := by
  cases r <;> rfl

def header (s : Sending) (timestamp : Nat) (marker : Bool) : Str :=
  RtpEndpoint.rtphdr { s.ep with lastTimestamp := (s.ep.startTimestamp + timestamp) % 2 ^ 32 } marker

theorem send_handed : (s.send v timestamp marker r plen).2.handed =
    s.handed ++ [⟨some (s.header timestamp marker), 12⟩ :: v] := by
  cases r <;> rfl

theorem send_packets : (s.send v timestamp marker r plen).2.packets =
    s.packets ++ [some (s.header timestamp marker) :: v.map Iovec.base] := by
  rw [packets, send_handed, map_append]
  rfl

end Sending

theorem bytesAt_natCast {d : Str} {p len : Nat} (h : p + len ≤ d.length) : bytesAt d p len = some ((d.drop p).take len) := by
  unfold bytesAt
  rw [if_pos (by omega), Int.toNat_natCast, Int.toNat_natCast]

variable {s : JpegSending} {i k : Nat}

theorem jpegTurn_of_lt (h : s.i < out.scanDataLen) : jpegTurn f out sends s =
    if sends s.n = .sent then .inl ⟨(s.sendAt f out (sends s.n)).2, out.laterHdrs, 8⟩
    else .inr (-1, (s.sendAt f out (sends s.n)).2) := by
  unfold jpegTurn JpegSending.sendAt
  rw [if_pos h]
  by_cases hsent : sends s.n = .sent
  · rw [if_pos hsent, if_neg fun hneg => Sending.send_neg.mp hneg hsent]
  · rw [if_neg hsent, if_pos (Sending.send_neg.mpr hsent)]

theorem jpegTurn_of_le (h : out.scanDataLen ≤ s.i) : jpegTurn f out sends s = .inr (0, s.toSending) :=
  if_neg (Int.not_lt.mpr h)

theorem RtpJpeg.map_base_laterHdrs (out : RtpJpeg) : out.laterHdrs.map Iovec.base = out.rhdr := by
  rw [laterHdrs, List.map_map]
  exact List.map_id' _

theorem JpegSending.map_base_pieces (hmem : out.scanData + out.scanDataLen.toNat ≤ f.d.length) (hi : s.i = i)
    (hk : s.plen out = k) (hle : i + k ≤ out.scanDataLen.toNat) : (s.pieces f out).map Iovec.base =
      some (out.vhdr (i % 2 ^ 24)) :: s.hdrs.map Iovec.base ++ [some ((f.d.drop (out.scanData + i)).take k)] := by
  have hpiece : bytesAt f.d (out.scanData + s.i) (s.plen out) = some ((f.d.drop (out.scanData + i)).take k) := by
    rw [hi, hk, ← Int.natCast_add]
    exact bytesAt_natCast (by omega)
  have hlow : (s.i % 2 ^ 24).toNat = i % 2 ^ 24 := by omega
  rw [pieces, hpiece, hlow, map_append]
  rfl

/-- The loop of `jpeg_send` from the byte `i` on: with room for data in every packet it returns, and the rest was sent. -/
theorem jpeg_sent (hsends : ∀ n, sends n = .sent) (hmem : out.scanData + out.scanDataLen.toNat ≤ f.d.length) (hi : s.i = i)
    (hroom : s.hdrLen < s.ep.maxDataSize) (hroom' : 8 < s.ep.maxDataSize) :
    ∃ s' pkts, Returns (jpegTurn f out sends) s (0, s') ∧ s'.packets = s.packets ++ pkts ∧
      Sent out s.ep.payload ((s.ep.startTimestamp + out.timestamp) % 2 ^ 32) out.scanDataLen.toNat s.ep.seqnum i
        (s.hdrs.map Iovec.base) ((f.d.drop (out.scanData + i)).take (out.scanDataLen.toNat - i)) pkts := by
  induction hn : out.scanDataLen.toNat - i using Nat.strongRecOn generalizing s i with
  | ind n ih =>
    by_cases hlt : s.i < out.scanDataLen
    · obtain ⟨k, hk, hpos, hle⟩ : ∃ k : Nat, s.plen out = k ∧ 0 < k ∧ i + k ≤ out.scanDataLen.toNat := by
        unfold JpegSending.plen
        split
        · exact ⟨(s.ep.maxDataSize - s.hdrLen).toNat, by omega, by omega, by omega⟩
        · exact ⟨(out.scanDataLen - s.i).toNat, by omega, by omega, by omega⟩
      have hturn : jpegTurn f out sends s = .inl ⟨(s.sendAt f out .sent).2, out.laterHdrs, 8⟩ := by
        rw [jpegTurn_of_lt hlt, if_pos (hsends s.n), hsends s.n]
      set piece := (f.d.drop (out.scanData + i)).take k with hpiece
      have hlen : piece.length = k := by
        rw [hpiece, length_take, length_drop]
        omega
      have hdata : (f.d.drop (out.scanData + i)).take n =
          piece ++ (f.d.drop (out.scanData + (i + k))).take (out.scanDataLen.toNat - (i + k)) := by
        rw [show n = k + (out.scanDataLen.toNat - (i + k)) by omega, take_add, drop_drop, Nat.add_assoc]
      have hnext : (s.sendAt f out .sent).2.i = ((i + k : Nat) : Int) := by
        rw [JpegSending.sendAt, Sending.send_i, hi, hk, Int.natCast_add]
      have hmark : decide (s.plen out + s.i = out.scanDataLen) = decide (i + piece.length = out.scanDataLen.toNat) := by
        exact decide_eq_decide.mpr (by omega)
      obtain ⟨s', pkts, hret, hpkts, hsent⟩ :=
        ih (out.scanDataLen.toNat - (i + k)) (by omega) (s := ⟨_, out.laterHdrs, 8⟩) hnext hroom' hroom' rfl
      refine ⟨s', (some (s.header out.timestamp (s.plen out + s.i = out.scanDataLen)) :: (s.pieces f out).map Iovec.base) ::
        pkts, hret.of_inl hturn, ?_, ?_⟩
      · rw [hpkts, JpegSending.sendAt, Sending.send_packets, append_assoc]
        rfl
      · rw [hdata, JpegSending.map_base_pieces hmem hi hk hle, hmark, ← hpiece, ← hlen]
        rw [out.map_base_laterHdrs, ← hlen] at hsent
        exact @Sent.cons out _ _ _ { s.ep with lastTimestamp := (s.ep.startTimestamp + out.timestamp) % 2 ^ 32 } _ _ _ _ _
          rfl rfl (ne_nil_of_length_pos (by omega)) hsent
    · refine ⟨s.toSending, [], ⟨1, turns_succ_of_inr (jpegTurn_of_le (Int.not_lt.mp hlt)) 0⟩, (append_nil _).symm, ?_⟩
      rw [show n = 0 by omega, take_zero]
      exact .nil ..

theorem RtpPacket.fragment_snoc (p : RtpPacket) (piece : Str) : RtpPacket.fragment (p ++ [some piece]) = piece := by
  rw [fragment, List.getLast?_concat]
  rfl

theorem RtpPacket.headers_eq (a b : Iov) (hdrs : List Iov) (piece : Str) :
    RtpPacket.headers (a :: b :: hdrs ++ [some piece]) = hdrs := dropLast_concat

section

variable {payload stamp total seq i : Nat} {hdrs : List Iov} {data : Str} {pkts : List RtpPacket}

theorem vhdr_offset (out : RtpJpeg) (h : i < 2 ^ 24) : ofBe (((out.vhdr (i % 2 ^ 24)).drop 1).take 3) = i := by
  have hread : ((out.vhdr i).drop 1).take 3 = be 3 i := by
    show (be 3 i ++ _).take 3 = be 3 i
    rw [take_left' (length_be 3 i)]
  rw [Nat.mod_eq_of_lt h, hread, ofBe_be]
  omega

/-- **The fragments cover the scan data.** -/
theorem Sent.tiles (h : Sent out payload stamp total seq i hdrs data pkts) (hsize : i + data.length < 2 ^ 24) :
    Tiles i data (pkts.map fun p => (p.offset, p.fragment)) := by
  induction h with
  | nil => exact .nil _
  | @cons ep i hdrs piece rest pkts hpay hstamp hne h ih =>
    rw [length_append] at hsize
    have hoff : RtpPacket.offset (some (ep.rtphdr (i + piece.length = total)) :: some (out.vhdr (i % 2 ^ 24)) :: hdrs ++ [some piece]) = i :=
      vhdr_offset out (by omega)
    rw [map_cons, hoff, RtpPacket.fragment_snoc]
    exact .cons (ih (by omega))

theorem Sent.headers_rest (h : Sent out payload stamp total seq i hdrs data pkts) (hhdrs : hdrs = out.rhdr) :
    ∀ q ∈ pkts, q.headers = out.rhdr := by
  induction h with
  | nil => exact fun q hq => (not_mem_nil hq).elim
  | cons hpay hstamp hne h ih =>
    intro q hq
    rcases mem_cons.mp hq with rfl | hq
    · rw [RtpPacket.headers_eq, hhdrs]
    · exact ih rfl q hq

theorem Sent.headers (h : Sent out payload stamp total seq i hdrs data pkts) (hne : data ≠ []) :
    ∃ p rest, pkts = p :: rest ∧ p.headers = hdrs ∧ ∀ q ∈ rest, q.headers = out.rhdr := by
  cases h with
  | nil => exact (hne rfl).elim
  | cons hpay hstamp hne' h => exact ⟨_, _, rfl, RtpPacket.headers_eq .., h.headers_rest rfl⟩

theorem rtphdr_seq (ep : RtpEndpoint) (m : Bool) : ofBe (((ep.rtphdr m).drop 2).take 2) = ep.seqnum % 2 ^ 16 := by
  exact ofBe_be 2 ep.seqnum

theorem rtphdr_stamp (ep : RtpEndpoint) (m : Bool) : ofBe (((ep.rtphdr m).drop 4).take 4) = ep.lastTimestamp % 2 ^ 32 := by
  exact ofBe_be 4 ep.lastTimestamp

theorem rtphdr_marker {ep : RtpEndpoint} (hpay : ep.payload = 26) (m : Bool) :
    decide (128 ≤ ((ep.rtphdr m).getD 1 0).toNat) = m := by
  have hbyte : (ep.rtphdr m).getD 1 0 = if m then UInt8.ofNat ep.payload ||| 0x80 else UInt8.ofNat ep.payload := rfl
  rw [hbyte, hpay]
  cases m <;> decide

theorem Sent.seq_head (h : Sent out payload stamp total seq i hdrs data pkts) : ∀ p ∈ pkts.head?, p.seq = seq % 2 ^ 16 := by
  cases h with
  | nil => exact fun p hp => by cases hp
  | cons hpay hstamp hne h =>
    intro p hp
    cases hp
    exact rtphdr_seq _ _

/-- **The sequence numbers are consecutive.** -/
theorem Sent.seq_chain (h : Sent out payload stamp total seq i hdrs data pkts) :
    pkts.IsChain fun p q => q.seq = (p.seq + 1) % 2 ^ 16 := by
  induction h with
  | nil => exact .nil
  | @cons ep i hdrs piece rest pkts hpay hstamp hne h ih =>
    refine ih.cons fun q hq => ?_
    have hp : RtpPacket.seq (some (ep.rtphdr (i + piece.length = total)) :: some (out.vhdr (i % 2 ^ 24)) :: hdrs ++ [some piece]) =
        ep.seqnum % 2 ^ 16 := rtphdr_seq ep _
    rw [h.seq_head q hq, hp]
    omega

theorem Sent.stamp_eq (h : Sent out payload stamp total seq i hdrs data pkts) : ∀ p ∈ pkts, p.timestamp = stamp % 2 ^ 32 := by
  induction h with
  | nil => exact fun p hp => (not_mem_nil hp).elim
  | cons hpay hstamp hne h ih =>
    intro p hp
    rcases mem_cons.mp hp with rfl | hp
    · rw [← hstamp]
      exact rtphdr_stamp _ _
    · exact ih p hp

theorem Sent.eq_nil (h : Sent out payload stamp total seq i hdrs data pkts) (hnil : pkts = []) : data = [] := by
  cases h with
  | nil => rfl
  | cons => cases hnil

theorem Sent.pkts_eq_nil (h : Sent out payload stamp total seq i hdrs data pkts) (hnil : data = []) : pkts = [] := by
  cases h with
  | nil => rfl
  | cons hpay hstamp hne h => exact absurd (append_eq_nil_iff.mp hnil).1 hne

/-- **The marker** is on the last packet, and on no other. -/
theorem Sent.marker (h : Sent out 26 stamp total seq i hdrs data pkts) (htotal : i + data.length = total) :
    (∀ p ∈ pkts.dropLast, p.marker = false) ∧ ∀ p ∈ pkts.getLast?, p.marker = true := by
  induction h with
  | nil => exact ⟨fun p hp => (not_mem_nil hp).elim, fun p hp => by cases hp⟩
  | @cons ep i hdrs piece rest pkts hpay hstamp hne h ih =>
    rw [length_append] at htotal
    obtain ⟨ihall, ihlast⟩ := ih (by omega)
    have hmark : RtpPacket.marker (some (ep.rtphdr (i + piece.length = total)) :: some (out.vhdr (i % 2 ^ 24)) :: hdrs ++ [some piece]) =
        decide (i + piece.length = total) := rtphdr_marker hpay _
    cases pkts with
    | nil =>
      -- the last packet
      have hrest := h.eq_nil rfl
      rw [hrest] at htotal
      refine ⟨fun p hp => (not_mem_nil hp).elim, fun p hp => ?_⟩
      rw [← some.inj hp]
      exact hmark.trans (decide_eq_true htotal)
    | cons q qs =>
      have hrest : rest ≠ [] := fun hrest => by
        rw [hrest] at h
        exact absurd (h.pkts_eq_nil rfl) (by simp)
      have hpos := length_pos_of_ne_nil hrest
      refine ⟨fun p hp => ?_, ihlast⟩
      rcases mem_cons.mp hp with rfl | hp
      · exact hmark.trans (decide_eq_false (by omega))
      · exact ihall p hp

end

theorem RtpJpeg.length_of_table {quant : Nat → Option Nat} {t : Int} {bytes : Str}
    (h : RtpJpeg.table f quant t = some bytes) : bytes.length = 64 := by
  unfold RtpJpeg.table at h
  split at h
  · obtain ⟨p, _, h⟩ := bind_eq_some_iff.mp h
    split at h
    · cases h
      rw [length_take, length_drop]
      omega
    · cases h
  · cases h

theorem jpeg_frame_sent {old : RtpJpeg} {now : Nat} {ep : RtpEndpoint} (hacc : jpegProcessFrame old f now = some (true, out))
    (hpos : 0 < out.scanDataLen) (hmax : out.firstHdrLen < ep.maxDataSize) (hsends : ∀ n, sends n = .sent) :
    ∃ s, Returns (jpegTurn f out sends) (.start f out ep) (0, s) ∧ f.scan.length = out.scanDataLen.toNat ∧
      Sent out ep.payload ((ep.startTimestamp + out.timestamp) % 2 ^ 32) out.scanDataLen.toNat ep.seqnum 0
        (out.rhdr ++ [some RtpJpeg.qhdr, RtpJpeg.table f out.quant out.lumaTable,
          RtpJpeg.table f out.quant out.chromaTable]) f.scan s.packets := by
  obtain ⟨segs, scan, hheader, hout⟩ := accepted_header hacc
  have hfits := f.fits
  have hlen := hout.scanDataLen
  have hmem : out.scanData + out.scanDataLen.toNat ≤ f.d.length := by
    rw [hout.scanData]
    omega
  have hscan : f.scan = (f.d.drop (out.scanData + 0)).take (out.scanDataLen.toNat - 0) := by
    have hend : out.scanDataLen.toNat - 0 = f.length - scan := by omega
    rw [JFrame.scan, hheader, hend, hout.scanData, Nat.add_zero, ← drop_take]
    rfl
  have hroom : 8 < ep.maxDataSize := by
    unfold RtpJpeg.firstHdrLen at hmax
    split at hmax <;> omega
  have hhdrs : (out.firstHdrs f).map Iovec.base = out.rhdr ++ [some RtpJpeg.qhdr,
      RtpJpeg.table f out.quant out.lumaTable, RtpJpeg.table f out.quant out.chromaTable] := by
    rw [RtpJpeg.firstHdrs, map_append, out.map_base_laterHdrs]
    rfl
  obtain ⟨s, pkts, hret, hpkts, hsent⟩ := jpeg_sent (s := .start f out ep) hsends hmem rfl hmax hroom
  refine ⟨s, hret, ?_, ?_⟩
  · rw [hscan, length_take, length_drop]
    omega
  · rw [hscan, hpkts, ← hhdrs]
    exact hsent

theorem Sent.tables {payload stamp total seq i : Nat} {data : Str} {pkts : List RtpPacket} {luma chroma : Iov}
    (hsent : Sent out payload stamp total seq i (out.rhdr ++ [some RtpJpeg.qhdr, luma, chroma]) data pkts)
    (hne : data ≠ []) (hdri : f.hasDRI = out.bHasDRI) (h : Reassembles f out pkts) : luma.isSome ∧ chroma.isSome := by
  obtain ⟨p, rest, hpkts, hfirst, -⟩ := hsent.headers hne
  obtain ⟨p', rest', luma', chroma', hcons, -, -, hheaders, -⟩ := h.headers
  cases hpkts.symm.trans hcons
  rw [hfirst, hdri] at hheaders
  have hpieces := append_cancel_left (hheaders)
  simp only [List.cons.injEq] at hpieces
  rw [hpieces.2.1, hpieces.2.2.1]
  exact ⟨rfl, rfl⟩

/-- **The packets give the frame back** exactly if its header gives both quantisation tables. -/
theorem jpeg_reassembles_iff {old : RtpJpeg} {now payload : Nat} {ep : RtpEndpoint}
    (hacc : jpegProcessFrame old f now = some (true, out)) (hpos : 0 < out.scanDataLen)
    (hsize : out.scanDataLen < 2 ^ 24) (hmax : out.firstHdrLen < ep.maxDataSize)
    (hpay : ep.payload = jpegGetPayload payload) (hsends : ∀ n, sends n = .sent) :
    (∃ s, Returns (jpegTurn f out sends) (.start f out ep) (0, s) ∧ Reassembles f out s.packets) ↔ HasTables old f := by
  obtain ⟨segs, scan, hheader, hout⟩ := accepted_header hacc
  obtain ⟨s, hret, hlen, hsent⟩ := jpeg_frame_sent hacc hpos hmax hsends
  rw [hpay] at hsent
  have hdri := accepted_hasDRI hacc
  have hrhdr : out.rhdr = if f.hasDRI then [some (be 2 out.DRI ++ [0xFF, 0xFF])] else [] := by rw [hdri, RtpJpeg.rhdr]
  have htables := accepted_hasTables hacc
  have hne : f.scan ≠ [] := ne_nil_of_length_pos (by omega)
  obtain ⟨p, rest, hpkts, hfirst, hrest⟩ := hsent.headers hne
  have htiles := hsent.tiles (by omega)
  rw [htables]
  constructor
  · rintro ⟨s', hret', h⟩
    cases hret.unique hret'
    exact hsent.tables hne hdri h
  · rintro ⟨hluma, hchroma⟩
    obtain ⟨luma, hluma⟩ := isSome_iff_exists.mp hluma
    obtain ⟨chroma, hchroma⟩ := isSome_iff_exists.mp hchroma
    obtain ⟨hunmarked, hmarked⟩ := hsent.marker (by omega)
    refine ⟨s, hret, ?_, ?_, ?_, hunmarked, hmarked, ⟨_, hsent.stamp_eq⟩, hsent.seq_chain, ?_⟩
    · intro q hq
      rw [hpkts] at hq htiles
      cases hq
      exact htiles.head _ rfl
    · exact (isChain_map _).mp htiles.chain
    · have hwhole := htiles.flatMap_snd
      rwa [flatMap_map] at hwhole
    · refine ⟨p, rest, luma, chroma, hpkts, RtpJpeg.length_of_table hluma, RtpJpeg.length_of_table hchroma, ?_, ?_⟩
      · rw [hfirst, ← hrhdr, hluma, hchroma]
      · rw [← hrhdr]
        exact hrest

end

def RtpJpeg.fresh : RtpJpeg := ⟨0, 0, 0, 0, 0, fun _ => none, 0, 0, false, 0, false, 0⟩

def jpegEndpoint : RtpEndpoint := ⟨26, 1400, 1, 0, 0, 65535, 0, 0⟩

def smallFrame : JFrame where
  d := [0xFF, 0xD8, 0xFF, 0xDB, 0, 67, 0] ++ List.replicate 64 1 ++ [0xFF, 0xC0, 0, 17, 8, 0, 8, 0, 16, 3,
    1, 0x21, 0, 2, 0x11, 0, 3, 0x11, 0, 0xFF, 0xDA, 0, 2, 7, 8, 9]
  length := 97
  fits := by decide

def bareFrame : JFrame := ⟨[0xFF, 0xD8, 0xFF, 0xDA, 0, 2, 7], 7, by decide⟩

theorem accepted_of_fst {old : RtpJpeg} {f : JFrame} {now : Nat}
    (h : (jpegProcessFrame old f now).map Prod.fst = some true) : ∃ out, jpegProcessFrame old f now = some (true, out) := by
  obtain ⟨⟨_, out⟩, hout, rfl⟩ := map_eq_some_iff.mp h
  exact ⟨out, hout⟩

theorem jpeg_reassembles_small : ∃ out, jpegProcessFrame .fresh smallFrame 1 = some (true, out) ∧
    ∃ s, Returns (jpegTurn smallFrame out fun _ => .sent) (.start smallFrame out jpegEndpoint) (0, s) ∧
      Reassembles smallFrame out s.packets := by
  obtain ⟨out, hout⟩ := accepted_of_fst (show (jpegProcessFrame .fresh smallFrame 1).map Prod.fst = some true by decide)
  have hfields : (jpegProcessFrame .fresh smallFrame 1).map (fun r => (r.2.scanDataLen, r.2.bHasDRI)) = some (3, false) := by
    decide
  rw [hout, map_some, some.injEq, Prod.mk.injEq] at hfields
  obtain ⟨hlen, hdri⟩ := hfields
  have hpay : jpegEndpoint.payload = jpegGetPayload 96 := rfl
  have hmax : out.firstHdrLen < jpegEndpoint.maxDataSize := by
    rw [RtpJpeg.firstHdrLen, hdri]
    decide
  exact ⟨out, hout, (jpeg_reassembles_iff hout (by rw [hlen]; decide) (by rw [hlen]; decide) hmax hpay fun _ => rfl).mpr
    (by decide)⟩

theorem bare_frame_sent : ∃ out, jpegProcessFrame .fresh bareFrame 1 = some (true, out) ∧ 0 < out.scanDataLen ∧
    out.scanDataLen < 2 ^ 24 ∧ out.firstHdrLen < jpegEndpoint.maxDataSize ∧
    ¬ ∃ s, Returns (jpegTurn bareFrame out fun _ => .sent) (.start bareFrame out jpegEndpoint) (0, s) ∧
      Reassembles bareFrame out s.packets := by
  obtain ⟨out, hout⟩ := accepted_of_fst (show (jpegProcessFrame .fresh bareFrame 1).map Prod.fst = some true by decide)
  have hfields : (jpegProcessFrame .fresh bareFrame 1).map (fun r => (r.2.scanDataLen, r.2.bHasDRI,
      RtpJpeg.table bareFrame r.2.quant r.2.lumaTable)) = some (1, false, none) := by
    decide
  rw [hout, map_some, some.injEq, Prod.mk.injEq, Prod.mk.injEq] at hfields
  obtain ⟨hlen, hdri, htable⟩ := hfields
  have hpos : 0 < out.scanDataLen := by
    rw [hlen]
    decide
  have hmax : out.firstHdrLen < jpegEndpoint.maxDataSize := by
    rw [RtpJpeg.firstHdrLen, hdri]
    decide
  refine ⟨out, hout, hpos, by rw [hlen]; decide, hmax, ?_⟩
  rintro ⟨s, hret, h⟩
  obtain ⟨s', hret', -, hsent⟩ := jpeg_frame_sent hout hpos hmax fun _ => rfl
  cases hret.unique hret'
  have hsome := (hsent.tables (by decide) (by rw [hdri]; decide) h).1
  rw [htable] at hsome
  cases hsome

end NuWicam.Rtsp
