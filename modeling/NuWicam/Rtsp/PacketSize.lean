import NuWicam.Rtsp.Live
import NuWicam.Rtsp.RawAudio

/-!
# Packet sizes and progress of the packetisers (`jpeg_send`, `rawaudio_send`, `set_mtu`)

Both loops run `for (i = 0; i < len; i += plen)` with a `plen` that comes from `max_data_size`, the number configured for
`mtu` (`SendLoop`).
-/

namespace NuWicam.Rtsp

open Lib List Option Int

/-! ## Loops that send -/

def dataLen (v : List Iovec) : Int := (v.getLast?.map Iovec.len).getD 0

def payloadLen (v : List Iovec) : Int := (v.tail.map Iovec.len).sum

/-- The packet `v` was passed on, with headers of the length `hdrs` and data of the length `plen`. -/
structure Passed (s s' : Sending) (v : List Iovec) (hdrs plen : Int) : Prop where
  offset : s'.i = s.i + plen
  handed : s'.handed = s.handed ++ [v]
  maxDataSize : s'.ep.maxDataSize = s.ep.maxDataSize
  data : dataLen v = plen
  payload : payloadLen v = hdrs + plen

/-- A loop `for (i = 0; i < len; i += plen)`: it returns when a packet is not sent, and goes on with `next` when it is. -/
structure SendLoop {τ : Type} (turn : τ → τ ⊕ (Int × Sending)) (sending : τ → Sending) (next : Sending → τ) (len : Int)
    (hdrs plen : τ → Int) : Prop where
  stop : ∀ t, len ≤ (sending t).i → turn t = .inr (0, sending t)
  go : ∀ t, (sending t).i < len → ∃ s v, Passed (sending t) s v (hdrs t) (plen t) ∧
    (turn t = .inr (-1, s) ∨ turn t = .inl (next s))
  next_sending : ∀ s, sending (next s) = s

def EndsWell {τ : Type} (turn : τ → τ ⊕ (Int × Sending)) (start : τ) : Prop :=
  ∃ r, Returns turn start r ∧ ∀ v ∈ r.2.handed, 0 < dataLen v

def EveryPacket {τ : Type} (turn : τ → τ ⊕ (Int × Sending)) (sending : τ → Sending) (start : τ)
    (P : List Iovec → Prop) : Prop :=
  ∀ n, (∀ t, turns turn n start = .inl t → ∀ v ∈ (sending t).handed, P v) ∧
    ∀ r, turns turn n start = .inr r → ∀ v ∈ r.2.handed, P v

section

variable {τ : Type} {turn : τ → τ ⊕ (Int × Sending)} {sending : τ → Sending} {next : Sending → τ} {len : Int}
  {hdrs plen : τ → Int} {start : τ} {I : τ → Prop} {P : List Iovec → Prop}

theorem SendLoop.of_inl (hL : SendLoop turn sending next len hdrs plen) {t t' : τ} (h : turn t = .inl t') :
    (sending t).i < len ∧ ∃ s v, t' = next s ∧ Passed (sending t) s v (hdrs t) (plen t) := by
  by_cases hlt : (sending t).i < len
  · obtain ⟨s, v, hp, hcases⟩ := hL.go t hlt
    rcases hcases with hturn | hturn
    · cases hturn.symm.trans h
    · cases hturn.symm.trans h
      exact ⟨hlt, s, v, rfl, hp⟩
  · cases (hL.stop t (not_lt.mp hlt)).symm.trans h

theorem SendLoop.of_inr (hL : SendLoop turn sending next len hdrs plen) {t : τ} {r : Int × Sending} (h : turn t = .inr r) :
    r.2 = sending t ∨ (sending t).i < len ∧ ∃ v, Passed (sending t) r.2 v (hdrs t) (plen t) := by
  by_cases hlt : (sending t).i < len
  · obtain ⟨s, v, hp, hcases⟩ := hL.go t hlt
    rcases hcases with hturn | hturn
    · cases hturn.symm.trans h
      exact .inr ⟨hlt, v, hp⟩
    · cases hturn.symm.trans h
  · cases (hL.stop t (not_lt.mp hlt)).symm.trans h
    exact .inl rfl

theorem Passed.forall_mem {s s' : Sending} {v : List Iovec} {h p : Int} (hp : Passed s s' v h p)
    (hall : ∀ v ∈ s.handed, P v) (hv : P v) : ∀ v ∈ s'.handed, P v := by
  intro w hw
  rw [hp.handed] at hw
  rcases mem_append.mp hw with hw | hw
  · exact hall w hw
  · rw [mem_singleton.mp hw]
    exact hv

/-- **Rule for all packets** of a loop. -/
theorem everyPacket_of (hL : SendLoop turn sending next len hdrs plen) (hstart : I start) (hnone : (sending start).handed = [])
    (hpacket : ∀ t s v, I t → (sending t).i < len → Passed (sending t) s v (hdrs t) (plen t) → P v)
    (hnext : ∀ t s v, I t → (sending t).i < len → Passed (sending t) s v (hdrs t) (plen t) → I (next s)) :
    EveryPacket turn sending start P := by
  have hgo : ∀ t t', (I t ∧ ∀ v ∈ (sending t).handed, P v) → turn t = .inl t' →
      I t' ∧ ∀ v ∈ (sending t').handed, P v := by
    rintro t t' ⟨ht, hall⟩ hturn
    obtain ⟨hlt, s, v, rfl, hp⟩ := hL.of_inl hturn
    rw [hL.next_sending]
    exact ⟨hnext t s v ht hlt hp, hp.forall_mem hall (hpacket t s v ht hlt hp)⟩
  have hend : ∀ t r, (I t ∧ ∀ v ∈ (sending t).handed, P v) → turn t = .inr r → ∀ v ∈ r.2.handed, P v := by
    rintro t r ⟨ht, hall⟩ hturn
    rcases hL.of_inr hturn with hr | ⟨hlt, v, hp⟩
    · rw [hr]
      exact hall
    · exact hp.forall_mem hall (hpacket t r.2 v ht hlt hp)
  have hbegin : I start ∧ ∀ v ∈ (sending start).handed, P v := by
    refine ⟨hstart, ?_⟩
    rw [hnone]
    exact fun v hv => by cases hv
  exact fun n => ⟨fun t ht => (turns_keeps hgo hbegin ht).2, fun r hr => turns_result hgo hend hbegin hr⟩

/-- **Rule for the end of a loop.** -/
theorem endsWell_of (hL : SendLoop turn sending next len hdrs plen) (hstart : I start)
    (hnone : (sending start).handed = []) (hpos : ∀ t, I t → (sending t).i < len → 0 < plen t)
    (hnext : ∀ t s v, I t → (sending t).i < len → Passed (sending t) s v (hdrs t) (plen t) → I (next s)) :
    EndsWell turn start := by
  have hgo : ∀ t t', I t → turn t = .inl t' →
      I t' ∧ (len - (sending t').i).toNat < (len - (sending t).i).toNat := by
    intro t t' ht hturn
    obtain ⟨hlt, s, v, rfl, hp⟩ := hL.of_inl hturn
    have hdata := hpos t ht hlt
    have hoffset := hp.offset
    refine ⟨hnext t s v ht hlt hp, ?_⟩
    rw [hL.next_sending]
    omega
  obtain ⟨r, hr⟩ := exists_returns_within _ hgo hstart
  have hall : EveryPacket turn sending start fun v => 0 < dataLen v :=
    everyPacket_of hL hstart hnone (fun t s v ht hlt hp => hp.data ▸ hpos t ht hlt) hnext
  exact ⟨r, ⟨_, hr⟩, (hall _).2 r hr⟩

theorem handed_kept (hL : SendLoop turn sending next len hdrs plen) {v : List Iovec} {t : τ} {r : Int × Sending} {n : Nat}
    (hv : v ∈ (sending t).handed) (h : turns turn n t = .inr r) : v ∈ r.2.handed := by
  refine turns_result (I := fun t => v ∈ (sending t).handed) (Q := fun r => v ∈ r.2.handed) ?_ ?_ hv h
  · intro t t' hv hturn
    obtain ⟨-, s, w, rfl, hp⟩ := hL.of_inl hturn
    rw [hL.next_sending, hp.handed]
    exact mem_append_left _ hv
  · intro t r hv hturn
    rcases hL.of_inr hturn with hr | ⟨-, w, hp⟩
    · rw [hr]
      exact hv
    · rw [hp.handed]
      exact mem_append_left _ hv

theorem not_endsWell (hL : SendLoop turn sending next len hdrs plen) (hlt : (sending start).i < len)
    (hempty : plen start ≤ 0) : ¬ EndsWell turn start := by
  rintro ⟨r, ⟨n, hn⟩, hall⟩
  obtain ⟨s, v, hp, hcases⟩ := hL.go start hlt
  have hv : v ∈ s.handed := by
    rw [hp.handed]
    simp
  have hbad : ¬ v ∈ r.2.handed := by
    intro hmem
    have hdata := hall v hmem
    rw [hp.data] at hdata
    omega
  cases n with
  | zero => cases hn
  | succ n =>
    rcases hcases with h | h
    · rw [turns_succ_of_inr h] at hn
      cases hn
      exact hbad hv
    · rw [turns_succ_of_inl h] at hn
      rw [← hL.next_sending s] at hv
      exact hbad (handed_kept hL hv hn)

end

/-! ## The two loops -/

theorem Sending.passed_send (s : Sending) (hdrs : List Iovec) (base : Iov) (plen : Int) (timestamp : Nat) (marker : Bool)
    (r : SendEnd) : ∃ v, Passed s (s.send (hdrs ++ [⟨base, plen⟩]) timestamp marker r plen).2 v (hdrs.map Iovec.len).sum
      plen := by
  refine ⟨⟨some (s.header timestamp marker), 12⟩ :: (hdrs ++ [⟨base, plen⟩]), send_i, send_handed, send_maxDataSize, ?_, ?_⟩
  · rw [dataLen, ← cons_append, List.getLast?_concat]
    rfl
  · rw [payloadLen, tail_cons, map_append, sum_append]
    simp

section

variable {f : JFrame} {out : RtpJpeg} {audio : RtpRawaudio} {sends : Nat → SendEnd} {ep : RtpEndpoint}

theorem rawaudio_sendLoop : SendLoop (rawaudioTurn audio sends) id id audio.rawaudioLen (fun _ => 0)
    fun s => audio.plen s.ep.maxDataSize s.i where
  stop s h := rawaudioTurn_of_le h
  go s h := by
    obtain ⟨v, hv⟩ := Sending.passed_send s []
      (bytesAt audio.rawaudioData s.i (audio.plen s.ep.maxDataSize s.i)) (audio.plen s.ep.maxDataSize s.i)
      (audio.stampAt s.i) false (sends s.n)
    refine ⟨(audio.sendAt s (sends s.n)).2, v, hv, ?_⟩
    rw [rawaudioTurn_of_lt (s := s) h]
    split
    · exact .inr rfl
    · exact .inl rfl
  next_sending _ := rfl

theorem JpegSending.passed_sendAt (s : JpegSending) (r : SendEnd) :
    ∃ v, Passed s.toSending (s.sendAt f out r).2 v (8 + (s.hdrs.map Iovec.len).sum) (s.plen out) := by
  have hpassed := Sending.passed_send s.toSending (⟨some (out.vhdr (s.i % 2 ^ 24).toNat), 8⟩ :: s.hdrs)
    (bytesAt f.d (out.scanData + s.i) (s.plen out)) (s.plen out) out.timestamp (s.plen out + s.i = out.scanDataLen) r
  exact hpassed

theorem jpeg_sendLoop : SendLoop (jpegTurn f out sends) JpegSending.toSending (fun s => ⟨s, out.laterHdrs, 8⟩)
    out.scanDataLen (fun s => 8 + (s.hdrs.map Iovec.len).sum) (JpegSending.plen out) where
  stop s h := jpegTurn_of_le h
  go s h := by
    obtain ⟨v, hv⟩ := JpegSending.passed_sendAt s (sends s.n)
    refine ⟨(s.sendAt f out (sends s.n)).2, v, hv, ?_⟩
    rw [jpegTurn_of_lt h]
    split
    · exact .inr rfl
    · exact .inl rfl
  next_sending _ := rfl

theorem RtpJpeg.firstHdrLen_eq (out : RtpJpeg) : out.firstHdrLen = if out.bHasDRI then 144 else 140 := by
  unfold firstHdrLen
  split <;> decide

/-! ## Progress -/

theorem jpeg_endsWell_iff : EndsWell (jpegTurn f out sends) (.start f out ep) ↔
    out.scanDataLen ≤ 0 ∨ out.firstHdrLen < ep.maxDataSize := by
  have h8 : 8 ≤ out.firstHdrLen := by
    rw [out.firstHdrLen_eq]
    split <;> omega
  constructor
  · intro h
    by_contra hno
    rw [not_or, not_le, not_lt] at hno
    refine not_endsWell jpeg_sendLoop hno.1 ?_ h
    show JpegSending.plen out ⟨.start ep, _, out.firstHdrLen⟩ ≤ 0
    unfold JpegSending.plen Sending.start
    dsimp only
    split <;> omega
  · intro h
    refine endsWell_of (I := fun s => s.i < out.scanDataLen → s.hdrLen < s.ep.maxDataSize ∧ 8 < s.ep.maxDataSize)
      jpeg_sendLoop ?_ rfl ?_ ?_
    · intro hlt
      have hpos : 0 < out.scanDataLen := hlt
      have hroom : out.firstHdrLen < ep.maxDataSize := h.resolve_left (not_le.mpr hpos)
      exact ⟨hroom, lt_of_le_of_lt h8 hroom⟩
    · intro s hs hlt
      obtain ⟨hroom, -⟩ := hs hlt
      unfold JpegSending.plen
      split <;> omega
    · intro s s' v hs hlt hp _
      have hroom := (hs hlt).2
      rw [← hp.maxDataSize] at hroom
      exact ⟨hroom, hroom⟩

theorem RtpRawaudio.sub_tmod_nonpos (audio : RtpRawaudio) {m : Int}
    (h : m < ((audio.channels * audio.sampsize : Nat) : Int)) : m - m.tmod (audio.channels * audio.sampsize) ≤ 0 := by
  by_cases hm : 0 ≤ m
  · have hself : m.tmod ((audio.channels * audio.sampsize : Nat) : Int) = m := tmod_eq_of_lt hm h
    rw [natCast_mul] at hself
    omega
  · obtain ⟨n, rfl⟩ : ∃ n : Nat, m = -n := ⟨(-m).toNat, by omega⟩
    have hle := Nat.mod_le n (audio.channels * audio.sampsize)
    rw [← natCast_mul, neg_tmod, ← ofNat_tmod]
    omega

theorem RtpRawaudio.plen_pos_of (s : Sending) (hi : 0 ≤ s.i) (hlt : s.i < audio.rawaudioLen)
    (h : audio.rawaudioLen ≤ s.ep.maxDataSize ∨ ((audio.channels * audio.sampsize : Nat) : Int) ≤ s.ep.maxDataSize) :
    0 < audio.plen s.ep.maxDataSize s.i := by
  rcases h with hfits | hframe
  · rw [RtpRawaudio.plen, if_neg (by omega)]
    omega
  · exact (RtpRawaudio.plen_pos hframe hlt).1

theorem rawaudio_endsWell_iff : EndsWell (rawaudioTurn audio sends) (.start ep) ↔
    audio.rawaudioLen ≤ 0 ∨ audio.rawaudioLen ≤ ep.maxDataSize ∨
      ((audio.channels * audio.sampsize : Nat) : Int) ≤ ep.maxDataSize := by
  constructor
  · intro h
    by_contra hno
    rw [not_or, not_or, not_le, not_le, not_le] at hno
    obtain ⟨hpos, hlong, hsmall⟩ := hno
    have hlt : (id (Sending.start ep)).i < audio.rawaudioLen := hpos
    refine not_endsWell rawaudio_sendLoop hlt ?_ h
    have hcut : audio.rawaudioLen - 0 > ep.maxDataSize := by omega
    show audio.plen ep.maxDataSize 0 ≤ 0
    rw [RtpRawaudio.plen, if_pos hcut]
    exact audio.sub_tmod_nonpos hsmall
  · intro h
    have hpos : ∀ s : Sending, s.ep.maxDataSize = ep.maxDataSize ∧ 0 ≤ s.i → s.i < audio.rawaudioLen →
        0 < audio.plen s.ep.maxDataSize s.i := by
      intro s hs hlt
      have hroom := h.resolve_left (by omega)
      rw [← hs.1] at hroom
      exact RtpRawaudio.plen_pos_of s hs.2 hlt hroom
    refine endsWell_of (I := fun s => s.ep.maxDataSize = ep.maxDataSize ∧ 0 ≤ s.i) rawaudio_sendLoop ⟨rfl, le_refl 0⟩
      rfl hpos ?_
    intro s s' v hs hlt hp
    have hdata := hpos s hs hlt
    have hoffset := hp.offset
    refine ⟨hp.maxDataSize.trans hs.1, ?_⟩
    show 0 ≤ s'.i
    dsimp only [id] at hoffset
    omega

/-! ### Loops that do not end -/

theorem rawaudio_never_returns (h₀ : 0 ≤ ep.maxDataSize)
    (hsmall : ep.maxDataSize < ((audio.channels * audio.sampsize : Nat) : Int)) (hlong : ep.maxDataSize < audio.rawaudioLen)
    (hsends : ∀ n, sends n = .sent) (r : Int × Sending) : ¬ Returns (rawaudioTurn audio sends) (.start ep) r := by
  refine not_returns (I := fun s => s.ep.maxDataSize = ep.maxDataSize ∧ s.i = 0) ?_ ⟨rfl, rfl⟩ r
  rintro s ⟨hmax, hi⟩
  have hself : ep.maxDataSize.tmod ((audio.channels * audio.sampsize : Nat) : Int) = ep.maxDataSize :=
    tmod_eq_of_lt h₀ hsmall
  rw [natCast_mul] at hself
  have hplen : audio.plen s.ep.maxDataSize s.i = 0 := by
    rw [RtpRawaudio.plen, hmax, hi, if_pos (by omega), hself, sub_self]
  refine ⟨_, (rawaudioTurn_of_lt (by omega)).trans (if_pos (hsends s.n)), ?_, ?_⟩
  · rw [RtpRawaudio.sendAt, Sending.send_maxDataSize, hmax]
  · rw [RtpRawaudio.sendAt, Sending.send_i, hplen, hi]
    rfl

theorem jpeg_never_returns (hsmall : ep.maxDataSize ≤ 8) (hpos : 0 < out.scanDataLen) (hsends : ∀ n, sends n = .sent)
    (r : Int × Sending) : ¬ Returns (jpegTurn f out sends) (.start f out ep) r := by
  have h8 : 8 ≤ out.firstHdrLen := by
    rw [out.firstHdrLen_eq]
    split <;> omega
  refine not_returns (I := fun s => s.ep.maxDataSize = ep.maxDataSize ∧ 8 ≤ s.hdrLen ∧ s.i ≤ 0) ?_
    ⟨rfl, h8, le_refl 0⟩ r
  rintro s ⟨hmax, hhdr, hi⟩
  have hlt : s.i < out.scanDataLen := by omega
  have hplen : s.plen out ≤ 0 := by
    unfold JpegSending.plen
    split <;> omega
  refine ⟨_, (jpegTurn_of_lt hlt).trans (if_pos (hsends s.n)), ?_, le_refl 8, ?_⟩
  · rw [JpegSending.sendAt, Sending.send_maxDataSize, hmax]
  · rw [JpegSending.sendAt, Sending.send_i]
    omega

end

def RtpEndpoint.setup (ep : RtpEndpoint) (src : LiveSource) : RtpEndpoint :=
  { ep with maxDataSize := src.i32MaxRTPTransSize }

/-- **The packetisers end**, after packets with data, exactly if the configured size has room for some. -/
theorem packetisers_end_iff (src : LiveSource) (mtu : Int) (ep : RtpEndpoint) (f : JFrame) (out : RtpJpeg)
    (audio : RtpRawaudio) (sends : Nat → SendEnd) :
    (EndsWell (jpegTurn f out sends) (.start f out (ep.setup (src.configure (.mtu mtu)))) ↔
      out.scanDataLen ≤ 0 ∨ (if out.bHasDRI then 144 else 140) < mtu) ∧
    (EndsWell (rawaudioTurn audio sends) (.start (ep.setup (src.configure (.mtu mtu)))) ↔
      audio.rawaudioLen ≤ 0 ∨ audio.rawaudioLen ≤ mtu ∨ ((audio.channels * audio.sampsize : Nat) : Int) ≤ mtu) := by
  refine ⟨?_, rawaudio_endsWell_iff⟩
  rw [← out.firstHdrLen_eq]
  exact jpeg_endsWell_iff

theorem packetisers_stuck : (∃ out, jpegProcessFrame .fresh smallFrame 1 = some (true, out) ∧
      ∀ r, ¬ Returns (jpegTurn smallFrame out fun _ => .sent) (.start smallFrame out
        (jpegEndpoint.setup (LiveSource.startBlock.configure (.mtu 8)))) r) ∧
    ∀ r, ¬ Returns (rawaudioTurn (stereo.processFrame stereoFrame 0) fun _ => .sent)
      (.start (jpegEndpoint.setup (LiveSource.startBlock.configure (.mtu 3)))) r := by
  constructor
  · obtain ⟨out, hout⟩ := accepted_of_fst (show (jpegProcessFrame .fresh smallFrame 1).map Prod.fst = some true by decide)
    have hlen : (jpegProcessFrame .fresh smallFrame 1).map (fun r => r.2.scanDataLen) = some 3 := by decide
    rw [hout, map_some, some.injEq] at hlen
    exact ⟨out, hout, jpeg_never_returns (le_refl 8) (by rw [hlen]; decide) fun _ => rfl⟩
  · exact rawaudio_never_returns (by decide) (by decide)
      (by decide) fun _ => rfl

/-! ## Sizes -/

section

variable {f : JFrame} {out : RtpJpeg} {audio : RtpRawaudio} {sends : Nat → SendEnd} {ep : RtpEndpoint}

theorem rawaudio_bounded (h₀ : 0 ≤ ep.maxDataSize) :
    EveryPacket (rawaudioTurn audio sends) id (.start ep) fun v => payloadLen v ≤ ep.maxDataSize := by
  refine everyPacket_of (I := fun s => s.ep.maxDataSize = ep.maxDataSize) rawaudio_sendLoop rfl rfl ?_ ?_
  · intro s s' v hmax hlt hp
    rw [hp.payload, hmax]
    have hcut := (audio.sub_tmod h₀).1
    unfold RtpRawaudio.plen
    split <;> omega
  · intro s s' v hmax hlt hp
    exact hp.maxDataSize.trans hmax

theorem sum_laterHdrs (out : RtpJpeg) : (out.laterHdrs.map Iovec.len).sum = if out.bHasDRI then 4 else 0 := by
  unfold RtpJpeg.laterHdrs RtpJpeg.rhdr
  split <;> rfl

theorem sum_firstHdrs (f : JFrame) (out : RtpJpeg) : 8 + ((out.firstHdrs f).map Iovec.len).sum = out.firstHdrLen := by
  rw [RtpJpeg.firstHdrs, map_append, sum_append, sum_laterHdrs, out.firstHdrLen_eq]
  split <;> simp

inductive JpegAt (f : JFrame) (out : RtpJpeg) (ep : RtpEndpoint) (s : JpegSending) : Prop
  | first (hmax : s.ep.maxDataSize = ep.maxDataSize) (hi : s.i = 0) (hlen : s.hdrLen = out.firstHdrLen)
      (hhdrs : s.hdrs = out.firstHdrs f)
  | later (hmax : s.ep.maxDataSize = ep.maxDataSize) (hlen : s.hdrLen = 8) (hhdrs : s.hdrs = out.laterHdrs)
      (hroom : out.bHasDRI = true → 12 + (out.scanDataLen - s.i) ≤ ep.maxDataSize)

theorem jpeg_bounded (h : out.bHasDRI = false ∨ out.scanDataLen ≤ 2 * ep.maxDataSize - 156) :
    EveryPacket (jpegTurn f out sends) JpegSending.toSending (.start f out ep) fun v =>
      payloadLen v ≤ ep.maxDataSize := by
  have hfirst := out.firstHdrLen_eq
  have hsum := sum_laterHdrs out
  refine everyPacket_of (I := JpegAt f out ep) jpeg_sendLoop (.first rfl rfl rfl rfl) rfl ?_ ?_
  · intro s s' v hs hlt hp
    rw [hp.payload]
    unfold JpegSending.plen
    cases hs with
    | first hmax' hi hlen hhdrs =>
      rw [hhdrs, sum_firstHdrs, hlen, hmax']
      split <;> omega
    | later hmax' hlen hhdrs hroom =>
      rw [hhdrs, hsum, hlen, hmax']
      cases hdri : out.bHasDRI with
      | false =>
        rw [if_neg Bool.false_ne_true]
        split <;> omega
      | true =>
        have hrest := hroom hdri
        split <;> omega
  · intro s s' v hs hlt hp
    have hoffset := hp.offset
    have hmax'' := hp.maxDataSize
    unfold JpegSending.plen at hoffset
    cases hs with
    | first hmax' hi hlen hhdrs =>
      refine .later (hmax''.trans hmax') rfl rfl fun hdri => ?_
      have hshort := h.resolve_left (by rw [hdri]; decide)
      dsimp only
      split at hoffset <;> omega
    | later hmax' hlen hhdrs hroom =>
      refine .later (hmax''.trans hmax') rfl rfl fun hdri => ?_
      have hrest := hroom hdri
      dsimp only
      split at hoffset <;> omega

theorem jpegTurn_sent {s : JpegSending} (hsent : sends s.n = .sent) (hlt : s.i < out.scanDataLen) :
    ∃ s' v, Passed s.toSending s' v (8 + (s.hdrs.map Iovec.len).sum) (s.plen out) ∧
      jpegTurn f out sends s = .inl ⟨s', out.laterHdrs, 8⟩ := by
  obtain ⟨v, hv⟩ := JpegSending.passed_sendAt s (sends s.n)
  exact ⟨_, v, hv, (jpegTurn_of_lt hlt).trans (if_pos hsent)⟩

theorem jpeg_overlong (hmax : out.firstHdrLen < ep.maxDataSize) (hdri : out.bHasDRI)
    (hlong : 2 * ep.maxDataSize - 156 < out.scanDataLen) (hsends : ∀ n, sends n = .sent) :
    ¬ EveryPacket (jpegTurn f out sends) JpegSending.toSending (.start f out ep) fun v =>
      payloadLen v ≤ ep.maxDataSize := by
  intro h
  have hfirst := out.firstHdrLen_eq
  rw [hdri, if_pos rfl] at hfirst
  have hlt₀ : (JpegSending.start f out ep).i < out.scanDataLen := show (0 : Int) < out.scanDataLen by omega
  obtain ⟨s₁, v₁, hp₁, hturn₁⟩ := jpegTurn_sent (f := f) (hsends _) hlt₀
  -- the first packet takes all that has room beside its headers
  have hcut : out.scanDataLen - 0 > ep.maxDataSize - out.firstHdrLen := by omega
  have hplen₁ : JpegSending.plen out (.start f out ep) = ep.maxDataSize - out.firstHdrLen := if_pos hcut
  have hi₁ : s₁.i = ep.maxDataSize - 144 := by
    rw [hp₁.offset, hplen₁, hfirst]
    exact zero_add _
  have hmax₁ : s₁.ep.maxDataSize = ep.maxDataSize := hp₁.maxDataSize
  have hlt₁ : s₁.i < out.scanDataLen := by omega
  obtain ⟨s₂, v₂, hp₂, hturn₂⟩ := jpegTurn_sent (f := f) (s := ⟨s₁, out.laterHdrs, 8⟩) (hsends _) hlt₁
  have htwo : turns (jpegTurn f out sends) 2 (.start f out ep) = .inl ⟨s₂, out.laterHdrs, 8⟩ := by
    rw [turns_succ_of_inl hturn₁, turns_succ_of_inl hturn₂]
    rfl
  have hmem : v₂ ∈ s₂.handed := by
    rw [hp₂.handed]
    simp
  have hbound : payloadLen v₂ ≤ ep.maxDataSize := (h 2).1 _ htwo v₂ hmem
  have hplen₂ : JpegSending.plen out ⟨s₁, out.laterHdrs, 8⟩ =
      if out.scanDataLen - s₁.i > s₁.ep.maxDataSize - 8 then s₁.ep.maxDataSize - 8 else out.scanDataLen - s₁.i := rfl
  rw [hp₂.payload, hplen₂, sum_laterHdrs, hdri, if_pos rfl, hi₁, hmax₁] at hbound
  split at hbound <;> omega

end

/-- **No payload is too long** exactly without a restart header, or with scan data for two packets at most. -/
theorem payload_bounded_iff (f : JFrame) (out : RtpJpeg) (audio : RtpRawaudio) (ep : RtpEndpoint)
    (hmax : out.firstHdrLen < ep.maxDataSize) :
    ((∀ sends, EveryPacket (jpegTurn f out sends) JpegSending.toSending (.start f out ep) fun v =>
        payloadLen v ≤ ep.maxDataSize) ↔
      out.bHasDRI = false ∨ out.scanDataLen ≤ 2 * ep.maxDataSize - 156) ∧
    ∀ (ep' : RtpEndpoint) (sends : Nat → SendEnd), 0 ≤ ep'.maxDataSize →
      EveryPacket (rawaudioTurn audio sends) id (.start ep') fun v => payloadLen v ≤ ep'.maxDataSize := by
  refine ⟨⟨fun h => ?_, fun h sends => jpeg_bounded h⟩, fun ep' sends h₀ => rawaudio_bounded h₀⟩
  by_contra hno
  rw [not_or, not_le, Bool.not_eq_false] at hno
  exact jpeg_overlong hmax hno.1 hno.2 (fun _ => rfl) (h fun _ => .sent)

theorem payload_bounded_small : ∃ out, jpegProcessFrame .fresh smallFrame 1 = some (true, out) ∧
    out.firstHdrLen < jpegEndpoint.maxDataSize ∧
    ∀ sends, EveryPacket (jpegTurn smallFrame out sends) JpegSending.toSending (.start smallFrame out jpegEndpoint) fun v =>
      payloadLen v ≤ jpegEndpoint.maxDataSize := by
  obtain ⟨out, hout⟩ := accepted_of_fst (show (jpegProcessFrame .fresh smallFrame 1).map Prod.fst = some true by decide)
  have hdri : (jpegProcessFrame .fresh smallFrame 1).map (fun r => r.2.bHasDRI) = some false := by decide
  rw [hout, map_some, some.injEq] at hdri
  have hmax : out.firstHdrLen < jpegEndpoint.maxDataSize := by
    rw [out.firstHdrLen_eq, hdri]
    decide
  exact ⟨out, hout, hmax, (payload_bounded_iff smallFrame out stereo jpegEndpoint hmax).1.mpr (.inl hdri)⟩

def restartFrame : JFrame where
  d := [0xFF, 0xD8, 0xFF, 0xDB, 0, 67, 0] ++ List.replicate 64 1 ++ [0xFF, 0xC0, 0, 17, 8, 0, 8, 0, 16, 3,
    1, 0x21, 0, 2, 0x11, 0, 3, 0x11, 0, 0xFF, 0xDD, 0, 4, 0, 1, 0xFF, 0xDA, 0, 2] ++ List.replicate 200 5
  length := 300
  fits := by
    rw [List.length_append, List.length_append, List.length_append, List.length_replicate, List.length_replicate]
    decide

theorem restart_frame_overlong : ∃ out, jpegProcessFrame .fresh restartFrame 1 = some (true, out) ∧
    out.firstHdrLen < ({ jpegEndpoint with maxDataSize := 145 } : RtpEndpoint).maxDataSize ∧
    ¬ EveryPacket (jpegTurn restartFrame out fun _ => .sent) JpegSending.toSending
      (.start restartFrame out { jpegEndpoint with maxDataSize := 145 }) fun v => payloadLen v ≤ 145 := by
  obtain ⟨out, hout⟩ := accepted_of_fst
    (show (jpegProcessFrame .fresh restartFrame 1).map Prod.fst = some true by decide)
  have hfields : (jpegProcessFrame .fresh restartFrame 1).map (fun r => (r.2.bHasDRI, r.2.scanDataLen)) =
      some (true, 200) := by decide
  rw [hout, map_some, some.injEq, Prod.mk.injEq] at hfields
  obtain ⟨hdri, hlen⟩ := hfields
  have hmax : out.firstHdrLen < ({ jpegEndpoint with maxDataSize := 145 } : RtpEndpoint).maxDataSize := by
    rw [out.firstHdrLen_eq, hdri]
    decide
  exact ⟨out, hout, hmax, jpeg_overlong hmax hdri (by rw [hlen]; decide) fun _ => rfl⟩

end NuWicam.Rtsp
