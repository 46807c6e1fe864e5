import NuWicam.Rtsp.Digest
import Mathlib.Data.Nat.ModEq
import Mathlib.Tactic.IntervalCases
import Mathlib.Tactic.Ring

/-!
# The age of a nonce (`create_nonce`, `get_hex_u32`, `check_digest_response`)

`get_hex_u32` reads the time back with `hex[i] - 0` in the place of `hex[i] - '0'`. A digit `0` to `9` so sets the two low bits
of the digit before it (`stray`), and the time is read back right only if they are set anyway (`Intact`).
-/

namespace NuWicam.Rtsp

open Lib List

/-! ## The decoder on digits -/

/-- `'0'` to `'9'` are `0x30` to `0x39`. -/
def stray (d : Nat) : Nat := if d < 10 then 3 else 0

/-- On the values of the digits, in numbers of any size. -/
def orLoop : Nat → List Nat → Nat
  | v, [] => v
  | v, d :: ds => orLoop ((v ||| stray d) * 16 + d) ds

def hexValue : Nat → List Nat → Nat
  | v, [] => v
  | v, d :: ds => hexValue (v * 16 + d) ds

def IntactDigits : Nat → List Nat → Prop
  | _, [] => True
  | v, d :: ds => (d < 10 → v % 4 = 3) ∧ IntactDigits (v * 16 + d) ds

theorem or_three (v : Nat) : v ||| 3 = v / 4 * 4 + 3 := by
  have hsplit : v = 2 ^ 2 * (v / 4) ||| v % 4 := by
    rw [← Nat.two_pow_add_eq_or_of_lt (by omega)]
    omega
  have hlow : ∀ r < 4, r ||| 3 = 3 := by decide
  calc v ||| 3 = 2 ^ 2 * (v / 4) ||| (v % 4 ||| 3) := by rw [← Nat.or_assoc, ← hsplit]
    _ = 2 ^ 2 * (v / 4) ||| 3 := by rw [hlow _ (by omega)]
    _ = v / 4 * 4 + 3 := by rw [← Nat.two_pow_add_eq_or_of_lt (by decide)]; omega

theorem or_stray_eq (v d : Nat) : v ||| stray d = if d < 10 then v / 4 * 4 + 3 else v := by
  unfold stray
  split
  · exact or_three v
  · exact Nat.or_zero v

variable {d : Nat} (t : UInt32) (rest : Str)

theorem or_stray_eq_iff {v : Nat} : v ||| stray d = v ↔ (d < 10 → v % 4 = 3) := by
  rw [or_stray_eq]
  split <;> omega

theorem hexValue_lt : ∀ (ds : List Nat) {v w : Nat}, v < w → hexValue v ds < hexValue w ds
  | [], _, _, h => h
  | d :: ds, _, _, h => hexValue_lt ds (by omega)

theorem hexValue_le_orLoop : ∀ (ds : List Nat) (v : Nat), hexValue v ds ≤ orLoop v ds
  | [], _ => Nat.le_refl _
  | d :: ds, v => by
    have ih := hexValue_le_orLoop ds ((v ||| stray d) * 16 + d)
    rcases Nat.lt_or_eq_of_le (Nat.left_le_or (n := v) (m := stray d)) with hlt | heq
    · exact Nat.le_trans (Nat.le_of_lt (hexValue_lt ds (by omega))) ih
    · rw [← heq] at ih
      rwa [hexValue, orLoop, ← heq]

theorem orLoop_eq_iff : ∀ (ds : List Nat) (v : Nat), orLoop v ds = hexValue v ds ↔ IntactDigits v ds
  | [], _ => ⟨fun _ => trivial, fun _ => rfl⟩
  | d :: ds, v => by
    rw [IntactDigits, ← or_stray_eq_iff, ← orLoop_eq_iff ds, orLoop, hexValue]
    constructor
    · intro h
      rcases Nat.lt_or_eq_of_le (Nat.left_le_or (n := v) (m := stray d)) with hlt | heq
      · have hmore := hexValue_lt ds (by omega : v * 16 + d < (v ||| stray d) * 16 + d)
        have := hexValue_le_orLoop ds ((v ||| stray d) * 16 + d)
        omega
      · exact ⟨heq.symm, by rw [← heq] at h; exact h⟩
    · rintro ⟨heq, h⟩
      rw [heq]
      exact h

theorem orLoop_lt : ∀ (ds : List Nat) (v : Nat), (∀ d ∈ ds, d < 16) → orLoop v ds < (v / 4 * 4 + 4) * 16 ^ ds.length
  | [], v, _ => by simp only [orLoop, List.length_nil, Nat.pow_zero]; omega
  | d :: ds, v, h => by
    have hd := h d (by simp)
    have ih := orLoop_lt ds ((v ||| stray d) * 16 + d) fun x hx => h x (mem_cons_of_mem _ hx)
    have hle : ((v ||| stray d) * 16 + d) / 4 * 4 + 4 ≤ (v / 4 * 4 + 4) * 16 := by
      rw [or_stray_eq]
      split <;> omega
    calc orLoop v (d :: ds) < (((v ||| stray d) * 16 + d) / 4 * 4 + 4) * 16 ^ ds.length := ih
      _ ≤ (v / 4 * 4 + 4) * 16 * 16 ^ ds.length := Nat.mul_le_mul_right _ hle
      _ = (v / 4 * 4 + 4) * 16 ^ (d :: ds).length := by rw [length_cons, Nat.pow_succ]; ring

theorem orLoop_mod : ∀ (ds : List Nat) (k : Nat) {v w : Nat}, v % 2 ^ k = w % 2 ^ k →
    orLoop v ds % 2 ^ (k + 4 * ds.length) = orLoop w ds % 2 ^ (k + 4 * ds.length)
  | [], _, _, _, h => h
  | d :: ds, k, v, w, h => by
    have hor : (v ||| stray d) % 2 ^ k = (w ||| stray d) % 2 ^ k := by
      rw [Nat.or_mod_two_pow, h, ← Nat.or_mod_two_pow]
    have hstep : ((v ||| stray d) * 16 + d) % 2 ^ (k + 4) = ((w ||| stray d) * 16 + d) % 2 ^ (k + 4) := by
      apply Nat.ModEq.add_right
      rw [Nat.pow_add]
      exact Nat.ModEq.mul_right' 16 hor
    have ih := orLoop_mod ds (k + 4) hstep
    rwa [length_cons, show k + 4 * (ds.length + 1) = k + 4 + 4 * ds.length by omega]

/-! ## The decoder on text -/

theorem hexLoop_hexDigit (hd : d < 16) (val : UInt32) (cs : Str) :
    hexLoop val (hexDigit d :: cs) = hexLoop ((val <<< 4) ||| UInt32.ofNat (stray d * 16 + d)) cs := by
  interval_cases d <;> rfl

theorem step_eq_or (hd : d < 16) (v : Nat) : (v ||| stray d) * 16 + d = v * 16 ||| (stray d * 16 + d) := by
  have hd4 : d < 2 ^ 4 := hd
  have hshift : (v ||| stray d) * 2 ^ 4 = v * 2 ^ 4 ||| stray d * 2 ^ 4 := by
    simp only [← Nat.shiftLeft_eq, Nat.shiftLeft_or_distrib]
  have hlow : 2 ^ 4 * stray d ||| d = 2 ^ 4 * stray d + d := (Nat.two_pow_add_eq_or_of_lt hd4 _).symm
  calc (v ||| stray d) * 16 + d = 2 ^ 4 * (v ||| stray d) ||| d := by
        rw [← Nat.two_pow_add_eq_or_of_lt hd4]; omega
    _ = v * 2 ^ 4 ||| (2 ^ 4 * stray d ||| d) := by rw [Nat.mul_comm, hshift, Nat.or_assoc, Nat.mul_comm (stray d)]
    _ = v * 16 ||| (stray d * 16 + d) := by rw [hlow, Nat.mul_comm (2 ^ 4) (stray d)]; rfl

theorem toNat_hexStep (hd : d < 16) (val : UInt32) :
    ((val <<< 4) ||| UInt32.ofNat (stray d * 16 + d)).toNat = ((val.toNat ||| stray d) * 16 + d) % 2 ^ 32 := by
  have hcode : (UInt32.ofNat (stray d * 16 + d)).toNat = (stray d * 16 + d) % 2 ^ 32 := rfl
  rw [UInt32.toNat_or, UInt32.toNat_shiftLeft, hcode, show (4 : UInt32).toNat % 32 = 4 from rfl, Nat.shiftLeft_eq,
    ← Nat.or_mod_two_pow, step_eq_or hd]

theorem toNat_hexLoop : ∀ (ds : List Nat) (val : UInt32), (∀ d ∈ ds, d < 16) →
    (hexLoop val (ds.map hexDigit)).toNat = orLoop val.toNat ds % 2 ^ 32
  | [], val, _ => (Nat.mod_eq_of_lt val.toNat_lt).symm
  | d :: ds, val, h => by
    have hd := h d (by simp)
    have ih := toNat_hexLoop ds ((val <<< 4) ||| UInt32.ofNat (stray d * 16 + d)) fun x hx =>
      h x (mem_cons_of_mem _ hx)
    rw [map_cons, hexLoop_hexDigit hd, ih, toNat_hexStep hd, orLoop]
    have hmod := orLoop_mod ds 32 (Nat.mod_mod ((val.toNat ||| stray d) * 16 + d) (2 ^ 32))
    exact Nat.ModEq.of_dvd (Nat.pow_dvd_pow 2 (Nat.le_add_right 32 _)) hmod

def lowDigits (t : Nat) : List Nat :=
  [t / 16 ^ 6 % 16, t / 16 ^ 5 % 16, t / 16 ^ 4 % 16, t / 16 ^ 3 % 16, t / 16 ^ 2 % 16, t / 16 % 16, t % 16]

theorem lowDigits_lt (t : Nat) : ∀ d ∈ lowDigits t, d < 16 := by
  intro d hd
  simp only [lowDigits, mem_cons, not_mem_nil, or_false] at hd
  omega

theorem hexValue_lowDigits (t : Nat) : hexValue (t / 16 ^ 7) (lowDigits t) = t := by
  simp only [lowDigits, hexValue]
  omega

theorem hexBytes_put32 : hexBytes (put32 t) = (t.toNat / 16 ^ 7 :: lowDigits t.toNat).map hexDigit := by
  have ht := t.toNat_lt
  have hbytes : (put32 t).map UInt8.toNat =
      [t.toNat / 2 ^ 24 % 2 ^ 8, t.toNat / 2 ^ 16 % 2 ^ 8, t.toNat / 2 ^ 8 % 2 ^ 8, t.toNat % 2 ^ 8] := by
    simp only [put32, map_cons, map_nil, UInt32.toNat_toUInt8, UInt32.toNat_shiftRight,
      Nat.shiftRight_eq_div_pow]
    rfl
  have hdigits : hexBytes (put32 t) =
      (((put32 t).map UInt8.toNat).flatMap fun b => [b / 16, b % 16]).map hexDigit := by
    simp [hexBytes, map_flatMap, flatMap_map]
  rw [hdigits, hbytes]
  congr 1
  simp only [flatMap_cons, flatMap_nil, append_nil, cons_append, nil_append, lowDigits,
    List.cons.injEq, and_true]
  omega

theorem toNat_getHexU32 : (getHexU32 (hexBytes (put32 t) ++ rest)).toNat = orLoop (t.toNat / 16 ^ 7) (lowDigits t.toNat) := by
  have hlen : (hexBytes (put32 t)).length = 8 := by rw [length_hexBytes]; rfl
  have hlow := lowDigits_lt t.toNat
  have ht := t.toNat_lt
  have hall : ∀ d ∈ t.toNat / 16 ^ 7 :: lowDigits t.toNat, d < 16 := by
    intro d hd
    rcases mem_cons.mp hd with rfl | hd
    · omega
    · exact hlow d hd
  rw [getHexU32, take_left' hlen, hexBytes_put32, toNat_hexLoop _ _ hall, orLoop]
  -- what the first digit adds is shifted out
  have hfirst : (((0 : UInt32).toNat ||| stray (t.toNat / 16 ^ 7)) * 16 + t.toNat / 16 ^ 7) % 2 ^ 4 =
      (t.toNat / 16 ^ 7) % 2 ^ 4 := by omega
  have hmod := orLoop_mod (lowDigits t.toNat) 4 hfirst
  have hlt := orLoop_lt (lowDigits t.toNat) (t.toNat / 16 ^ 7) hlow
  have hlen7 : (lowDigits t.toNat).length = 7 := rfl
  rw [hlen7] at hmod hlt
  omega

/-! ## Freshness -/

/-- Every digit `0` to `9` among the last seven hexadecimal digits of `t` comes after a digit whose two low bits are
set: `3`, `7`, `b` or `f`. -/
def Intact (t : UInt32) : Prop := ∀ i < 7, t.toNat / 16 ^ i % 16 < 10 → t.toNat / 16 ^ (i + 1) % 4 = 3

instance (t : UInt32) : Decidable (Intact t) := inferInstanceAs (Decidable (∀ i < 7, _))

theorem intactDigits_iff : IntactDigits (t.toNat / 16 ^ 7) (lowDigits t.toNat) ↔ Intact t := by
  have hstep : ∀ i, t.toNat / 16 ^ (i + 1) * 16 + t.toNat / 16 ^ i % 16 = t.toNat / 16 ^ i := by
    intro i
    rw [Nat.pow_succ, ← Nat.div_div_eq_div_mul]
    omega
  simp only [lowDigits, IntactDigits, hstep 6, hstep 5, hstep 4, hstep 3, hstep 2, and_true]
  constructor
  · rintro ⟨h6, h5, h4, h3, h2, h1, h0⟩ i hi
    interval_cases i
    · intro h
      omega
    · intro h
      omega
    · exact h2
    · exact h3
    · exact h4
    · exact h5
    · exact h6
  · intro h
    refine ⟨h 6 (by decide), h 5 (by decide), h 4 (by decide), h 3 (by decide), h 2 (by decide), ?_, ?_⟩
    · intro h1
      have := h 1 (by decide) (by omega)
      omega
    · intro h0
      have := h 0 (by decide) (by omega)
      omega

theorem getHexU32_eq_iff : getHexU32 (hexBytes (put32 t) ++ rest) = t ↔ Intact t := by
  rw [← UInt32.toNat_inj, toNat_getHexU32, ← intactDigits_iff, ← orLoop_eq_iff, hexValue_lowDigits]

theorem le_getHexU32 : t.toNat ≤ (getHexU32 (hexBytes (put32 t) ++ rest)).toNat := by
  have h := hexValue_le_orLoop (lowDigits t.toNat) (t.toNat / 16 ^ 7)
  rwa [hexValue_lowDigits, ← toNat_getHexU32 t rest] at h

theorem lt_of_getHexU32 (h : 2 ^ 32 ≤ (getHexU32 (hexBytes (put32 t) ++ rest)).toNat + 15) : 15 < t.toNat := by
  have hlt := orLoop_lt (lowDigits t.toNat) (t.toNat / 16 ^ 7) (lowDigits_lt _)
  rw [← toNat_getHexU32 t rest, show (lowDigits t.toNat).length = 7 from rfl] at hlt
  omega

/-- The response is the one expected for the nonce, for the user, realm and password given. -/
def Answers (md5 : Md5) (m : Pmsg) (realm username password nonce : Str) : Prop :=
  ∃ hdr auth, getHeader m (bytes "authorization") = some hdr ∧ parseAuthHeader hdr = some auth ∧ auth.realm = realm ∧
    (username ≠ [] → caseEq auth.username username = true) ∧ (auth.uri = [] → m.uri.length < 512) ∧
    caseEq auth.response (expectedResponse md5 auth m username password) = true ∧ auth.nonce = nonce

section Check

variable {md5 : Md5} {m : Pmsg} {realm username password nonce : Str}

theorem checkDigestResponse_answers (h : Answers md5 m realm username password nonce) (secret : Option Str) (now : UInt32) :
    checkDigestResponse md5 secret now m realm username password = checkNonce md5 secret now nonce := by
  obtain ⟨hdr, auth, hhdr, hparse, hrealm, huser, huri, hresp, rfl⟩ := h
  have huser' : ¬ (0 < username.length ∧ caseEq auth.username username = false) := by
    rintro ⟨hpos, hne⟩
    rw [huser (length_pos_iff.mp hpos)] at hne
    cases hne
  have huri' : ¬ (auth.uri = [] ∧ 512 ≤ m.uri.length) := by
    rintro ⟨hnil, hlong⟩
    have := huri hnil
    omega
  simp only [checkDigestResponse, hhdr, hparse]
  rw [if_neg (not_not.mpr hrealm), if_neg huser', if_neg huri', hresp, if_neg (by decide)]

theorem length_token {random : Str} (t : UInt32) (hrandom : random.length = 12) :
    (hexBytes (put32 t ++ random)).length = 32 := by
  rw [length_hexBytes, length_append, hrandom]
  rfl

theorem checkNonce_createNonce {secret random : Str} (t : UInt32) (hrandom : random.length = 12) (now : UInt32) :
    checkNonce md5 (some secret) now (createNonce md5 secret t random) =
      if now > getHexU32 (hexBytes (put32 t) ++ hexBytes random) + 15 then 0 else 1 := by
  have htoken := length_token t hrandom
  have hlen : (createNonce md5 secret t random).length = 64 := by
    simp [createNonce, md5Hash, htoken, length_hexBytes, md5.length_hash]
  have htake : (createNonce md5 secret t random).take 32 = hexBytes (put32 t ++ random) := take_left' htoken
  have hdrop : (createNonce md5 secret t random).drop 32 = md5Hash md5 [hexBytes (put32 t ++ random), secret] :=
    drop_left' htoken
  simp [checkNonce, hlen, htake, hdrop, hexBytes_append]

end Check

theorem window_iff : (∀ now : UInt32, t ≤ now →
      (¬ now > getHexU32 (hexBytes (put32 t) ++ rest) + 15 ↔ now.toNat ≤ t.toNat + 15)) ↔
        Intact t ∧ t.toNat + 15 < 2 ^ 32 := by
  have hle := le_getHexU32 t rest
  have hsmall := lt_of_getHexU32 t rest
  have hiff := getHexU32_eq_iff t rest
  generalize getHexU32 (hexBytes (put32 t) ++ rest) = r at hle hsmall hiff
  have hsum : (r + 15).toNat = (r.toNat + 15) % 2 ^ 32 := UInt32.toNat_add r 15
  have hr := r.toNat_lt
  simp only [gt_iff_lt, UInt32.lt_iff_toNat_lt, UInt32.le_iff_toNat_le, hsum]
  constructor
  · intro h
    -- the time of issue itself lies in the window, so `r + 15` does not wrap around
    have hnow := (h t (by omega)).mpr (by omega)
    -- and the last time that is accepted is `r + 15`
    have hlast := (h (r + 15) (by rw [hsum]; omega)).mp (by rw [hsum]; omega)
    exact ⟨hiff.mp (UInt32.toNat_inj.mp (by omega)), by omega⟩
  · rintro ⟨hint, hfit⟩ now _
    rw [hiff.mpr hint, Nat.mod_eq_of_lt hfit]
    omega

/-- **Freshness**: a nonce is good for 15 s, exactly if its digits are intact and the sum is a 32-bit number. -/
theorem nonce_fresh_iff (md5 : Md5) {m : Pmsg} {realm username password secret random : Str} {t : UInt32}
    (hrandom : random.length = 12) (hm : Answers md5 m realm username password (createNonce md5 secret t random)) :
    ((∀ now : UInt32, t ≤ now → checkDigestResponse md5 (some secret) now m realm username password =
        if now.toNat ≤ t.toNat + 15 then 1 else 0) ↔ Intact t ∧ t.toNat + 15 < 2 ^ 32) ∧
      (getHexU32 ((createNonce md5 secret t random).take 32) = t ↔ Intact t) := by
  have htoken := length_token t hrandom
  constructor
  · rw [← window_iff t (hexBytes random)]
    refine forall_congr' fun now => imp_congr_right fun _ => ?_
    rw [checkDigestResponse_answers hm, checkNonce_createNonce t hrandom]
    by_cases hold : now > getHexU32 (hexBytes (put32 t) ++ hexBytes random) + 15 <;>
      by_cases hnow : now.toNat ≤ t.toNat + 15 <;> simp [hold, hnow]
  · rw [← getHexU32_eq_iff t (hexBytes random), ← hexBytes_append, createNonce, take_left' htoken]

/-! ## A client -/

def clientHeader (username realm nonce uri response : Str) : Str :=
  bytes "Digest username=\"" ++ username ++ bytes "\", realm=\"" ++ realm ++ bytes "\", nonce=\"" ++ nonce ++
    bytes "\", uri=\"" ++ uri ++ bytes "\", response=\"" ++ response ++ bytes "\""

/-- Computed for `headerUri`, by the user `me` with the password `1234`. -/
def clientRequest (nonce uri headerUri : Str) : Pmsg :=
  let auth : DigestAuthInfo := ⟨bytes "cam", headerUri, nonce, [], bytes "me", []⟩
  let response := createResponse .ofLibrary auth (bytes "DESCRIBE") (bytes "1234")
  ⟨.req (bytes "DESCRIBE") uri, bytes "RTSP/1.0",
    [(bytes "CSeq", bytes "2"),
     (bytes "Authorization", clientHeader (bytes "me") (bytes "cam") nonce headerUri response)]⟩

def sampleNonce (t : UInt32) : Str :=
  createNonce .ofLibrary (bytes "00112233445566") t [1, 2, 3, 4, 5, 6, 7, 8, 9, 10, 11, 12]

theorem nonce_fresh_intact :
    Answers .ofLibrary (clientRequest (sampleNonce 0x6aaaaaaa) (bytes "rtsp://c/live") (bytes "rtsp://c/live"))
      (bytes "cam") (bytes "Me") (bytes "1234") (sampleNonce 0x6aaaaaaa) ∧
    ∀ now : UInt32, 0x6aaaaaaa ≤ now → checkDigestResponse .ofLibrary (some (bytes "00112233445566")) now
      (clientRequest (sampleNonce 0x6aaaaaaa) (bytes "rtsp://c/live") (bytes "rtsp://c/live")) (bytes "cam")
      (bytes "Me") (bytes "1234") = if now.toNat ≤ (0x6aaaaaaa : UInt32).toNat + 15 then 1 else 0 := by
  have hanswers : Answers .ofLibrary
      (clientRequest (sampleNonce 0x6aaaaaaa) (bytes "rtsp://c/live") (bytes "rtsp://c/live")) (bytes "cam")
      (bytes "Me") (bytes "1234") (sampleNonce 0x6aaaaaaa) :=
    ⟨_, ⟨bytes "cam", bytes "rtsp://c/live", sampleNonce 0x6aaaaaaa, [], bytes "me",
      bytes "43d7221a4b0cf30fa2a40728946bc9b7"⟩, rfl, by decide +kernel, rfl, fun _ => by decide +kernel,
      fun h => by simp [bytes] at h, by decide +kernel, rfl⟩
  exact ⟨hanswers, (nonce_fresh_iff .ofLibrary rfl hanswers).1.mpr ⟨by decide, by decide⟩⟩

theorem nonce_stale_accepted : getHexU32 ((sampleNonce 0x5a000000).take 32) = 0x5b333330 ∧
      (∀ now ∈ [(0x5a000000 : UInt32) + 16, 0x5a000000 + 86400],
        checkDigestResponse .ofLibrary (some (bytes "00112233445566")) now
          (clientRequest (sampleNonce 0x5a000000) (bytes "rtsp://c/live") (bytes "rtsp://c/live")) (bytes "cam")
          (bytes "Me") (bytes "1234") = 1) :=
  ⟨by decide +kernel, forall_mem_cons.mpr ⟨by decide +kernel, forall_mem_singleton.mpr (by decide +kernel)⟩⟩

end NuWicam.Rtsp
