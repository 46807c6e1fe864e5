import NuWicam.Rtsp.Jpeg
import NuWicam.Rtsp.Streams

/-!
# Raw audio over RTP (`rtp-rawaudio.c`)

The loop of `rawaudio_send` is given turn by turn (`rawaudioTurn`), as that of `jpeg_send` is.
-/

namespace NuWicam.Rtsp

open Lib List

/-! ## The functions of the source -/

/-- `new_rtp_media_rawaudio_stream` divides by the number of channels. -/
structure RtpRawaudio where
  /-- the memory at `rawaudio_data` -/
  rawaudioData : Str
  rawaudioLen : Int
  format : Format
  sampsize : Nat
  channels : Nat
  rate : Nat
  timestamp : Nat
  sampsize_pos : 0 < sampsize
  channels_pos : 0 < channels

/-- `get_framerate` gives the number of channels and the rate; `none` for the division by zero -/
def newRtpMediaRawaudioStream (format : Format) (channels rate : Nat) : Option RtpRawaudio :=
  if h : 0 < channels then
    some ⟨[], 0, format, if format = .pcm then 2 else 1, channels, rate / channels, 0, by split <;> decide, h⟩
  else none

namespace RtpRawaudio

def frameSize (out : RtpRawaudio) : Nat := out.channels * out.sampsize

def processFrame (out : RtpRawaudio) (f : JFrame) (timestamp : Nat) : RtpRawaudio :=
  { out with timestamp := timestamp, rawaudioData := f.d, rawaudioLen := f.length }

def plen (out : RtpRawaudio) (maxDataSize i : Int) : Int :=
  if out.rawaudioLen - i > maxDataSize then maxDataSize - maxDataSize.tmod (out.channels * out.sampsize)
  else out.rawaudioLen - i

/-- `out->timestamp + i / out->channels / out->sampsize`, as an `unsigned int` -/
def stampAt (out : RtpRawaudio) (i : Int) : Nat :=
  ((out.timestamp + (i.tdiv out.channels).tdiv out.sampsize) % 2 ^ 32).toNat

end RtpRawaudio

/-- The results of `send_rtp_packet` are an input. -/
def rawaudioTurn (out : RtpRawaudio) (sends : Nat → SendEnd) (s : Sending) : Sending ⊕ (Int × Sending) :=
  if s.i < out.rawaudioLen then
    let plen := out.plen s.ep.maxDataSize s.i
    let r := s.send [⟨bytesAt out.rawaudioData s.i plen, plen⟩] (out.stampAt s.i) false (sends s.n) plen
    if r.1 < 0 then .inr (-1, r.2) else .inl r.2
  else .inr (0, s)

/-! ## What a turn does -/

section

variable {out : RtpRawaudio} {sends : Nat → SendEnd} {s : Sending}

def RtpRawaudio.sendAt (out : RtpRawaudio) (s : Sending) (r : SendEnd) : Int × Sending :=
  s.send [⟨bytesAt out.rawaudioData s.i (out.plen s.ep.maxDataSize s.i), out.plen s.ep.maxDataSize s.i⟩]
    (out.stampAt s.i) false r (out.plen s.ep.maxDataSize s.i)

theorem rawaudioTurn_of_lt (h : s.i < out.rawaudioLen) : rawaudioTurn out sends s =
    if sends s.n = .sent then .inl (out.sendAt s (sends s.n)).2 else .inr (-1, (out.sendAt s (sends s.n)).2) := by
  unfold rawaudioTurn RtpRawaudio.sendAt
  rw [if_pos h]
  by_cases hsent : sends s.n = .sent
  · rw [if_pos hsent, if_neg fun hneg => Sending.send_neg.mp hneg hsent]
  · rw [if_neg hsent, if_pos (Sending.send_neg.mpr hsent)]

theorem rawaudioTurn_of_le (h : out.rawaudioLen ≤ s.i) : rawaudioTurn out sends s = .inr (0, s) :=
  if_neg (Int.not_lt.mpr h)

/-! ## The packets -/

/-- The packets carry `data` in whole sample frames of `size` bytes, and the timestamp of each is the first one plus the
sample frames before it. -/
structure AudioPackets (size first : Nat) (data : Str) (pkts : List RtpPacket) : Prop where
  whole : pkts.flatMap RtpPacket.fragment = data
  frames : ∀ p ∈ pkts, size ∣ p.fragment.length
  stamps : ∀ k p, pkts[k]? = some p →
    p.timestamp = (first + ((pkts.take k).flatMap RtpPacket.fragment).length / size) % 2 ^ 32

theorem AudioPackets.nil (size first : Nat) : AudioPackets size first [] [] where
  whole := rfl
  frames _ hp := by cases hp
  stamps _ _ hp := by cases hp

theorem AudioPackets.snoc {size first : Nat} {data : Str} {pkts : List RtpPacket} {p : RtpPacket}
    (h : AudioPackets size first data pkts) (hframes : size ∣ p.fragment.length)
    (hstamp : p.timestamp = (first + data.length / size) % 2 ^ 32) :
    AudioPackets size first (data ++ p.fragment) (pkts ++ [p]) where
  whole := by rw [flatMap_append, h.whole, flatMap_singleton]
  frames q hq := by
    rcases mem_append.mp hq with hq | hq
    · exact h.frames q hq
    · rw [mem_singleton.mp hq]
      exact hframes
  stamps k q hq := by
    by_cases hk : k < pkts.length
    · rw [List.getElem?_append_left hk] at hq
      rw [take_append_of_le_length (by omega)]
      exact h.stamps k q hq
    · rw [List.getElem?_append_right (by omega)] at hq
      have hlast : k - pkts.length = 0 ∧ q = p := by
        cases hd : k - pkts.length with
        | zero =>
          rw [hd] at hq
          exact ⟨rfl, (Option.some.inj hq).symm⟩
        | succ m =>
          rw [hd] at hq
          cases hq
      have hlen : k = pkts.length := by omega
      rw [hlast.2, hlen, take_left, h.whole]
      exact hstamp

theorem RtpRawaudio.frameSize_pos (out : RtpRawaudio) : 0 < out.frameSize :=
  Nat.mul_pos out.channels_pos out.sampsize_pos

theorem RtpRawaudio.sub_tmod (out : RtpRawaudio) {m : Int} (hm : 0 ≤ m) :
    0 ≤ m.tmod (out.channels * out.sampsize) ∧ m.tmod (out.channels * out.sampsize) < out.frameSize ∧
      (out.frameSize : Int) ∣ m - m.tmod (out.channels * out.sampsize) := by
  have hk : (0 : Int) < out.frameSize := Int.natCast_pos.mpr out.frameSize_pos
  have hcast : (out.channels * out.sampsize : Int) = (out.frameSize : Int) := (Int.natCast_mul ..).symm
  rw [hcast, Int.tmod_eq_emod_of_nonneg hm]
  exact ⟨Int.emod_nonneg m (Int.ne_of_gt hk), Int.emod_lt_of_pos m hk, Int.dvd_self_sub_emod⟩

theorem RtpRawaudio.plen_pos {m i : Int} (hm : (out.frameSize : Int) ≤ m) (h : i < out.rawaudioLen) :
    0 < out.plen m i ∧ out.plen m i ≤ out.rawaudioLen - i := by
  have hk : (0 : Int) < out.frameSize := Int.natCast_pos.mpr out.frameSize_pos
  obtain ⟨h₀, hlt, -⟩ := out.sub_tmod (m := m) (by omega)
  unfold RtpRawaudio.plen
  split <;> omega

theorem RtpRawaudio.dvd_plen {m i : Int} (hm : 0 ≤ m) (h : (out.frameSize : Int) ∣ out.rawaudioLen - i) :
    (out.frameSize : Int) ∣ out.plen m i := by
  unfold RtpRawaudio.plen
  split
  · exact (out.sub_tmod hm).2.2
  · exact h

theorem RtpRawaudio.stampAt_natCast (out : RtpRawaudio) (i : Nat) :
    out.stampAt i = (out.timestamp + i / out.frameSize) % 2 ^ 32 := by
  unfold stampAt frameSize
  rw [← Int.ofNat_tdiv, ← Int.ofNat_tdiv, Nat.div_div_eq_div_mul, ← Int.natCast_add]
  omega

structure AudioAt (out : RtpRawaudio) (ep : RtpEndpoint) (s : Sending) (i : Nat) : Prop where
  offset : s.i = i
  le : (i : Int) ≤ out.rawaudioLen
  aligned : out.frameSize ∣ i
  maxDataSize : s.ep.maxDataSize = ep.maxDataSize
  startTimestamp : s.ep.startTimestamp = ep.startTimestamp
  packets : AudioPackets out.frameSize (ep.startTimestamp + out.timestamp) (out.rawaudioData.take i) s.packets

/-- **A turn cuts off a piece** while something is left. -/
theorem AudioAt.sendAt {ep : RtpEndpoint} {i : Nat} (h : AudioAt out ep s i) (hlt : s.i < out.rawaudioLen)
    (hmem : out.rawaudioLen ≤ out.rawaudioData.length) (hmult : (out.frameSize : Int) ∣ out.rawaudioLen)
    (hmax : (out.frameSize : Int) ≤ ep.maxDataSize) (r : SendEnd) : ∃ j, i < j ∧ AudioAt out ep (out.sendAt s r).2 j := by
  obtain ⟨hi, hle, haligned, hsize, hstart, hpackets⟩ := h
  rw [hi] at hlt
  obtain ⟨hpos, hfits⟩ := RtpRawaudio.plen_pos hmax hlt
  have hdvd : (out.frameSize : Int) ∣ out.plen ep.maxDataSize i :=
    RtpRawaudio.dvd_plen (by omega) (Int.dvd_sub hmult (Int.natCast_dvd_natCast.mpr haligned))
  unfold RtpRawaudio.sendAt
  rw [hi, hsize]
  -- the piece has `n` bytes
  obtain ⟨n, hn⟩ := Int.eq_ofNat_of_zero_le (Int.le_of_lt hpos)
  rw [hn] at hpos hfits hdvd ⊢
  have hpiece : bytesAt out.rawaudioData i n = some ((out.rawaudioData.drop i).take n) := bytesAt_natCast (by omega)
  refine ⟨i + n, by omega, ?_, by omega, ?_, ?_, ?_, ?_⟩
  · rw [Sending.send_i, hi]
    rfl
  · exact Nat.dvd_add haligned (Int.natCast_dvd_natCast.mp hdvd)
  · rw [Sending.send_maxDataSize, hsize]
  · rw [Sending.send_startTimestamp, hstart]
  · rw [Sending.send_packets, hpiece, take_add]
    refine hpackets.snoc (p := [some _, some _]) ?_ ?_
    · show out.frameSize ∣ ((out.rawaudioData.drop i).take n).length
      rw [length_take, length_drop, Nat.min_eq_left (by omega)]
      omega
    · rw [length_take, Nat.min_eq_left (by omega)]
      refine (rtphdr_stamp _ _).trans ?_
      rw [hstart, out.stampAt_natCast]
      dsimp only
      omega

/-- **The loop sends all of the data**, if all packets are sent. -/
theorem rawaudio_returns {ep : RtpEndpoint} (hmem : out.rawaudioLen ≤ out.rawaudioData.length)
    (hpos : 0 ≤ out.rawaudioLen) (hmult : (out.frameSize : Int) ∣ out.rawaudioLen)
    (hmax : (out.frameSize : Int) ≤ ep.maxDataSize) (hsends : ∀ n, sends n = .sent) :
    ∃ s, Returns (rawaudioTurn out sends) (.start ep) (0, s) ∧
      AudioPackets out.frameSize (ep.startTimestamp + out.timestamp) (out.rawaudioData.take out.rawaudioLen.toNat)
        s.packets := by
  have hstart : ∃ i, AudioAt out ep (.start ep) i := ⟨0, rfl, hpos, Nat.dvd_zero _, rfl, rfl, .nil _ _⟩
  have hgo : ∀ s s', (∃ i, AudioAt out ep s i) → rawaudioTurn out sends s = .inl s' →
      (∃ i, AudioAt out ep s' i) ∧ (out.rawaudioLen - s'.i).toNat < (out.rawaudioLen - s.i).toNat := by
    rintro s s' ⟨i, hs⟩ hturn
    by_cases hlt : s.i < out.rawaudioLen
    · rw [rawaudioTurn_of_lt hlt, if_pos (hsends s.n)] at hturn
      obtain ⟨j, hij, hj⟩ := hs.sendAt hlt hmem hmult hmax (sends s.n)
      cases hturn
      have hle := hj.le
      refine ⟨⟨j, hj⟩, ?_⟩
      rw [hj.offset, hs.offset]
      omega
    · rw [rawaudioTurn_of_le (Int.not_lt.mp hlt)] at hturn
      cases hturn
  have hend : ∀ s r, (∃ i, AudioAt out ep s i) → rawaudioTurn out sends s = .inr r → r.1 = 0 ∧
      AudioPackets out.frameSize (ep.startTimestamp + out.timestamp) (out.rawaudioData.take out.rawaudioLen.toNat)
        r.2.packets := by
    rintro s r ⟨i, hs⟩ hturn
    by_cases hlt : s.i < out.rawaudioLen
    · rw [rawaudioTurn_of_lt hlt, if_pos (hsends s.n)] at hturn
      cases hturn
    · rw [rawaudioTurn_of_le (Int.not_lt.mp hlt)] at hturn
      cases hturn
      have hle := hs.le
      have hoff := hs.offset
      have hall : out.rawaudioLen.toNat = i := by omega
      exact ⟨rfl, hall ▸ hs.packets⟩
  obtain ⟨⟨ret, s⟩, hret⟩ := exists_returns_within _ hgo hstart
  obtain ⟨hzero, hpackets⟩ := turns_result (fun s s' hs ht => (hgo s s' hs ht).1) hend hstart hret
  subst hzero
  exact ⟨s, ⟨_, hret⟩, hpackets⟩

end

/-- **Raw audio**: the packets are the data of the frame, in whole sample frames, stamped by their position. -/
theorem rawaudio_packets (out : RtpRawaudio) (f : JFrame) (base : Nat) (ep : RtpEndpoint) (sends : Nat → SendEnd)
    (hmult : out.channels * out.sampsize ∣ f.length)
    (hmax : ((out.channels * out.sampsize : Nat) : Int) ≤ ep.maxDataSize) (hsends : ∀ n, sends n = .sent) :
    ∃ s, Returns (rawaudioTurn (out.processFrame f base) sends) (.start ep) (0, s) ∧
      AudioPackets (out.channels * out.sampsize) (ep.startTimestamp + base) (f.d.take f.length) s.packets :=
  rawaudio_returns (Int.ofNat_le.mpr f.fits) (Int.natCast_nonneg _)
    (Int.natCast_dvd_natCast.mpr hmult) hmax hsends

def stereoFrame : JFrame := ⟨List.range 16 |>.map UInt8.ofNat, 16, by decide⟩

def stereo : RtpRawaudio := ⟨[], 0, .pcm, 2, 2, 44100, 0, by decide, by decide⟩

theorem rawaudio_packets_stereo : ∃ s, Returns (rawaudioTurn (stereo.processFrame stereoFrame 7) fun _ => .sent)
      (.start ⟨96, 13, 1, 0xFFFFFFF8, 0, 65535, 0, 0⟩) (0, s) ∧
    AudioPackets (stereo.channels * stereo.sampsize) (0xFFFFFFF8 + 7) (stereoFrame.d.take stereoFrame.length) s.packets :=
  rawaudio_packets stereo stereoFrame 7 _ _ (by decide) (by decide) fun _ => rfl

end NuWicam.Rtsp
