import NuWicam.Rtsp.JpegHeader
import NuWicam.Rtsp.PacketSize

/-!
# The picture that a receiver is told of

`readMainHeader` is how a receiver reads the main header of a packet, and `JFrame.picture` is what the `SOF` segment of the
frame says. `picture_told_iff` says for which accepted frames the two agree.
-/

namespace NuWicam.Rtsp

open Lib List Option

inductive Sampling
  | s444
  | s422
  | s420
deriving DecidableEq

structure Picture where
  width : Nat
  height : Nat
  sampling : Sampling
  /-- there are restart markers -/
  restart : Bool
deriving DecidableEq

/-! ## The two sides -/

def samplingOfType : Nat → Option Sampling
  | 0 => some .s422
  | 1 => some .s420
  | _ => none

/-- The types from 64 to 127 are those from 0 to 63 with restart markers. -/
def readMainHeader (h : Str) : Option Picture :=
  let type := (h.getD 4 0).toNat
  if type < 128 then
    (samplingOfType (type % 64)).map fun x => ⟨(h.getD 6 0).toNat * 8, (h.getD 7 0).toNat * 8, x, decide (64 ≤ type)⟩
  else none

/-- The chrominance has `0x11`. -/
def samplingOfLuma (factors : UInt8) : Option Sampling :=
  if factors = 0x11 then some .s444 else if factors = 0x21 then some .s422 else if factors = 0x22 then some .s420 else none

def samplingOf (cs : List Component) : Option Sampling :=
  if (cs.map Component.id).isPerm [1, 2, 3] && cs.all fun c => c.id == 1 || c.sampling == 0x11 then
    (cs.find? fun c => c.id == 1).bind fun c => samplingOfLuma c.sampling
  else none

def JFrame.picture (f : JFrame) : Option Picture :=
  f.sof.bind fun s => (samplingOf (s.components f)).map fun x => ⟨f.word (s.pos + 3), f.word (s.pos + 1), x, f.hasDRI⟩

/-! ## When they agree -/

theorem typeOf_of_not_mem {cs : List Component} (h : (1 : UInt8) ∉ cs.map Component.id) (t : Int) : typeOf t cs = t := by
  induction cs generalizing t with
  | nil => rfl
  | cons c cs ih =>
    rw [map_cons, mem_cons, not_or] at h
    rw [typeOf, foldl_cons, if_neg (Ne.symm h.1)]
    exact ih h.2 t

theorem typeOf_eq {cs : List Component} {x : Sampling} (h : samplingOf cs = some x) (t : Int) :
    typeOf t cs = if x = .s420 then 1 else 0 := by
  unfold samplingOf at h
  obtain ⟨hids, h⟩ := ite_none_right_eq_some.mp h
  obtain ⟨c, hc, hx⟩ := bind_eq_some_iff.mp h
  obtain ⟨hY, before, after, rfl, hbefore⟩ := List.find?_eq_some_iff_append.mp hc
  rw [beq_iff_eq] at hY
  have hbefore' : (1 : UInt8) ∉ before.map Component.id := by
    intro hmem
    obtain ⟨b, hb, hid⟩ := List.mem_map.mp hmem
    have hno := hbefore b hb
    rw [hid] at hno
    exact absurd hno (by decide)
  -- the id 1 occurs once
  have hafter : (1 : UInt8) ∉ after.map Component.id := by
    have hcount := (isPerm_iff.mp (Bool.and_eq_true_iff.mp hids).1).count_eq 1
    rw [map_append, map_cons, count_append, count_cons, hY, count_eq_zero.mpr hbefore'] at hcount
    rw [← count_eq_zero]
    have hone : List.count (1 : UInt8) [1, 2, 3] = 1 := rfl
    rw [hone, beq_self_eq_true, if_pos rfl] at hcount
    omega
  rw [typeOf, foldl_append, foldl_cons, if_pos hY]
  change typeOf _ after = _
  rw [typeOf_of_not_mem hafter]
  unfold samplingOfLuma at hx
  grind

section

variable {f : JFrame} {out : RtpJpeg}

theorem readMainHeader_vhdr (out : RtpJpeg) (i : Nat) {x : Sampling} (htype : out.type = if x = .s420 then 1 else 0) :
    readMainHeader (out.vhdr i) =
      some ⟨out.width % 256 * 8, out.height % 256 * 8, if x = .s420 then .s420 else .s422, out.bHasDRI⟩ := by
  have h4 : (out.vhdr i).getD 4 0 = UInt8.ofInt (out.type + if out.bHasDRI then 64 else 0) := rfl
  have h6 : ((out.vhdr i).getD 6 0).toNat = out.width % 256 := UInt8.toNat_ofNat'
  have h7 : ((out.vhdr i).getD 7 0).toNat = out.height % 256 := UInt8.toNat_ofNat'
  unfold readMainHeader
  rw [h4, h6, h7, htype]
  cases out.bHasDRI <;> cases x <;> rfl

theorem accepted_picture {old : RtpJpeg} {now : Nat} {p : Picture} (h : jpegProcessFrame old f now = some (true, out))
    (hp : f.picture = some p) : out.width * 8 = p.width ∧ out.height * 8 = p.height ∧
      out.type = (if p.sampling = .s420 then 1 else 0) ∧ out.bHasDRI = p.restart := by
  have hdri := (accepted_hasDRI h).symm
  obtain ⟨segs, scan, out₁, hheader, hparsed, rfl⟩ := accepted_parsed h
  obtain ⟨s, hs, hp⟩ := bind_eq_some_iff.mp hp
  obtain ⟨x, hx, rfl⟩ := map_eq_some_iff.mp hp
  obtain ⟨hmarker, before, after, rfl, hafter⟩ := JFrame.sof_eq_some hheader hs
  obtain ⟨hwidth, hheight, t, htype⟩ := hparsed.picture hmarker hafter
  exact ⟨hwidth, hheight, htype.trans (typeOf_eq hx t), hdri⟩

theorem readMainHeader_iff {old : RtpJpeg} {now : Nat} {p : Picture} (h : jpegProcessFrame old f now = some (true, out))
    (hp : f.picture = some p) (i : Nat) : readMainHeader (out.vhdr i) = some p ↔
      p.width ≤ 2040 ∧ p.height ≤ 2040 ∧ p.sampling ≠ .s444 := by
  obtain ⟨hwidth, hheight, htype, hrestart⟩ := accepted_picture h hp
  have hsampling : (if p.sampling = .s420 then Sampling.s420 else .s422) = p.sampling ↔ p.sampling ≠ .s444 := by
    cases p.sampling <;> decide
  have hfits : ∀ {n m : Nat}, n * 8 = m → (n % 256 * 8 = m ↔ m ≤ 2040) := by
    intro n m h
    omega
  rw [readMainHeader_vhdr out i htype, some.injEq, ← hsampling, ← hfits hwidth, ← hfits hheight, hrestart]
  constructor
  · intro heq
    exact ⟨congrArg Picture.width heq, congrArg Picture.height heq, congrArg Picture.sampling heq⟩
  · rintro ⟨hw, hh, hs⟩
    rw [hw, hh, hs]

end

/-- The main header is the piece after the RTP header. -/
def Headed (out : RtpJpeg) (s : Sending) : Prop := ∀ v ∈ s.handed, ∃ i, v[1]? = some ⟨some (out.vhdr i), 8⟩

section

variable {out : RtpJpeg} {s : JpegSending}

theorem Headed.sendAt (h : Headed out s.toSending) (f : JFrame) (sends : Nat → SendEnd) :
    Headed out (s.sendAt f out (sends s.n)).2 := by
  intro v hv
  rw [JpegSending.sendAt, Sending.send_handed] at hv
  rcases mem_append.mp hv with hv | hv
  · exact h v hv
  · rw [mem_singleton.mp hv]
    exact ⟨_, rfl⟩

theorem Headed.turn (h : Headed out s.toSending) (f : JFrame) (sends : Nat → SendEnd) :
    (jpegTurn f out sends s).elim (fun s' => Headed out s'.toSending) fun r => Headed out r.2 := by
  by_cases hlt : s.i < out.scanDataLen
  · rw [jpegTurn_of_lt hlt]
    split
    · exact h.sendAt f sends
    · exact h.sendAt f sends
  · rw [jpegTurn_of_le (Int.not_lt.mp hlt)]
    exact h

end

/-- The main header is the piece after the RTP header in every packet of `jpeg_send`. -/
theorem jpeg_main_header (f : JFrame) (out : RtpJpeg) (sends : Nat → SendEnd) (ep : RtpEndpoint) :
    EveryPacket (jpegTurn f out sends) JpegSending.toSending (.start f out ep) fun v =>
      ∃ i, v[1]? = some ⟨some (out.vhdr i), 8⟩ := by
  have hgo : ∀ s s' : JpegSending, Headed out s.toSending → jpegTurn f out sends s = .inl s' → Headed out s'.toSending := by
    intro s s' hs h
    simpa [h] using hs.turn f sends
  have hend : ∀ (s : JpegSending) (r : Int × Sending), Headed out s.toSending → jpegTurn f out sends s = .inr r →
      Headed out r.2 := by
    intro s r hs h
    simpa [h] using hs.turn f sends
  have hstart : Headed out (Sending.start ep) := fun v hv => by cases hv
  exact fun n => ⟨fun t ht => turns_keeps hgo hstart ht, fun r hr => turns_result hgo hend hstart hr⟩

/-- **The picture is told** exactly if it is at most 2040 pixels wide and high, and not 4:4:4. -/
theorem picture_told_iff {old out : RtpJpeg} {f : JFrame} {now : Nat} (h : jpegProcessFrame old f now = some (true, out)) :
    (∀ i, ∃ p, f.picture = some p ∧ readMainHeader (out.vhdr i) = some p) ↔
      ∃ p, f.picture = some p ∧ p.width ≤ 2040 ∧ p.height ≤ 2040 ∧ p.sampling ≠ .s444 := by
  constructor
  · intro htold
    obtain ⟨p, hp, hread⟩ := htold 0
    exact ⟨p, hp, (readMainHeader_iff h hp 0).mp hread⟩
  · rintro ⟨p, hp, hfits⟩ i
    exact ⟨p, hp, (readMainHeader_iff h hp i).mpr hfits⟩

theorem picture_told_small : ∃ out, jpegProcessFrame .fresh smallFrame 1 = some (true, out) ∧
    ∀ i, ∃ p, smallFrame.picture = some p ∧ readMainHeader (out.vhdr i) = some p := by
  obtain ⟨out, hout⟩ := accepted_of_fst (show (jpegProcessFrame .fresh smallFrame 1).map Prod.fst = some true by decide)
  refine ⟨out, hout, (picture_told_iff hout).mpr ⟨⟨16, 8, .s422, false⟩, ?_, ?_⟩⟩
  · decide
  · decide

def framed (size : Str) (factors : UInt8) : JFrame :=
  .whole ([0xFF, 0xD8, 0xFF, 0xDB, 0, 67, 0] ++ List.replicate 64 1 ++ [0xFF, 0xC0, 0, 17, 8] ++ size ++
    [3, 1, factors, 0, 2, 0x11, 0, 3, 0x11, 0, 0xFF, 0xDA, 0, 2, 7])

theorem wide_and_full_pictures : (∃ out, jpegProcessFrame .fresh (framed [0, 8, 8, 0] 0x21) 1 = some (true, out) ∧
      ¬ ∀ i, ∃ p, (framed [0, 8, 8, 0] 0x21).picture = some p ∧ readMainHeader (out.vhdr i) = some p) ∧
    ∃ out, jpegProcessFrame .fresh (framed [0, 8, 0, 8] 0x11) 1 = some (true, out) ∧
      ¬ ∀ i, ∃ p, (framed [0, 8, 0, 8] 0x11).picture = some p ∧ readMainHeader (out.vhdr i) = some p := by
  constructor
  · obtain ⟨out, hout⟩ := accepted_of_fst
      (show (jpegProcessFrame .fresh (framed [0, 8, 8, 0] 0x21) 1).map Prod.fst = some true by decide)
    have hp : (framed [0, 8, 8, 0] 0x21).picture = some ⟨2048, 8, .s422, false⟩ := by decide
    refine ⟨out, hout, fun htold => ?_⟩
    obtain ⟨p, hp', hread⟩ := htold 0
    cases hp.symm.trans hp'
    exact absurd ((readMainHeader_iff hout hp 0).mp hread).1 (by decide)
  · obtain ⟨out, hout⟩ := accepted_of_fst
      (show (jpegProcessFrame .fresh (framed [0, 8, 0, 8] 0x11) 1).map Prod.fst = some true by decide)
    have hp : (framed [0, 8, 0, 8] 0x11).picture = some ⟨8, 8, .s444, false⟩ := by decide
    refine ⟨out, hout, fun htold => ?_⟩
    obtain ⟨p, hp', hread⟩ := htold 0
    cases hp.symm.trans hp'
    exact absurd rfl ((readMainHeader_iff hout hp 0).mp hread).2.2

end NuWicam.Rtsp
