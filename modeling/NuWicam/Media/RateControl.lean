import Mathlib.Algebra.Ring.Nat
import Mathlib.Logic.Function.Basic
import NuWicam.Lib.Run

/-!
# The rate control of the JPEG encoder (`JpegEnc.c`, `jpeg_loop`)

`s_au32BRCTable` estimates the frame size for each of the scales 1 to 15; an index outside of it is `none`. `qScale_optimal`
is about the chosen scale, `rate_control_iff` about the indices and the scales credited, `estimates_iff` about the averages,
where the sum with an unknown entry wraps.
-/

namespace NuWicam.Media

open Lib List Option Function

/-! ## The table -/

def maxQScale : UInt32 := 15

def invalidFrameSize : UInt32 := 0xFFFFFFFF

/-- `s_au32BRCTable`, with the entries 0 to 15 -/
abbrev BrcTable := UInt32 → UInt32

namespace BrcTable

def getEntry (t : BrcTable) (i : UInt32) : Option UInt32 := if i ≤ maxQScale then some (t i) else none

def setEntry (t : BrcTable) (i v : UInt32) : Option BrcTable :=
  if i ≤ maxQScale then some (update t i v) else none

/-- `BRCInitTable` -/
def initTable (t : BrcTable) (q size : UInt32) : Bool × BrcTable :=
  if q > maxQScale then (false, t) else (true, update t q size)

def initial : BrcTable :=
  (List.range 15).foldl (fun t i => (initTable t (UInt32.ofNat (i + 1)) invalidFrameSize).2) fun _ => 0

/-- `table[dst] = (table[src] + size) / 2` -/
def average (size : UInt32) (t : BrcTable) (n : UInt32 × UInt32) : Option BrcTable :=
  (t.getEntry n.2).bind fun e => t.setEntry n.1 ((e + size) / 2)

/-- The entries that are estimated for a scale, each with the entry that it averages with -/
def neighbours (q : UInt32) : List (UInt32 × UInt32) :=
  if q = maxQScale then [(maxQScale - 1, maxQScale - 2)]
  else if q = maxQScale - 1 then [(maxQScale, maxQScale), (q - 1, q - 2)]
  else if q = 1 then [(2, 3)]
  else if q = 2 then [(1, 1), (3, 4)]
  else [(q + 1, q + 2), (q - 1, q - 2)]

/-- `BRCUpdateTable` -/
def updateTable (t : BrcTable) (q size : UInt32) : Option (Bool × BrcTable) :=
  if q > maxQScale then some (false, t)
  else (t.setEntry q size).bind fun t => ((neighbours q).foldlM (average size) t).map (true, ·)

/-- The loop of `BRCGetQScale` from the index `i` on -/
def findScale (t : BrcTable) (size : UInt32) : Nat → Option UInt32
  | 0 => some 0
  | i + 1 => (t.getEntry (UInt32.ofNat (i + 1))).bind fun e =>
    if e > size then some (UInt32.ofNat (i + 1)) else findScale t size i

/-- `if ((i > 1) && (table[i - 1] == INVALID_FRAME_SIZE)) table[i - 1] = size` -/
def guess (t : BrcTable) (i size : UInt32) : Option BrcTable :=
  if i > 1 then (t.getEntry (i - 1)).bind fun e => if e = invalidFrameSize then t.setEntry (i - 1) size else some t
  else some t

/-- `BRCGetQScale`, with the scale that it chooses; a frame rate of 0 is a division by 0 -/
def getQScale (t : BrcTable) (bitRate frameRate : UInt32) : Option (UInt32 × BrcTable) :=
  if frameRate = 0 then none
  else
    let size := bitRate / 8 / frameRate
    (findScale t size 15).bind fun i => (guess t i size).map fun t => (if i < maxQScale then i + 1 else i, t)

end BrcTable

/-! ## The encoder -/

structure Picture where
  pAddr : Bool
  dataSize : UInt32

structure EncoderRate where
  bitRate : UInt32
  frameRate : UInt32

inductive BrcCall
  | choose (q : UInt32)
  | credit (q size : UInt32)
  deriving DecidableEq

/-- The variables of the encoder: the table, `s_u32QScale`, `s_u32JpegBufSize`, the driver's `src_bufsize`, `dst_bufsize` and
`qscaling`, the offset and size of the encoded frame; and the calls of the rate control -/
structure JpegState where
  table : BrcTable
  qScale : UInt32
  bufSize : UInt32
  srcBufsize : UInt32
  dstBufsize : UInt32
  qscaling : UInt32
  dataOffset : UInt32
  dataSize : UInt32
  calls : List BrcCall

def JpegState.init (bufSize : UInt32) : JpegState := ⟨.initial, 0, bufSize, 0, 0, 10, 0, 0, []⟩

def Picture.Fits (bufSize : UInt32) (src : Picture) : Prop := src.pAddr = true ∨ src.dataSize + 300000 ≤ bufSize

instance (bufSize : UInt32) (src : Picture) : Decidable (src.Fits bufSize) := inferInstanceAs (Decidable (_ ∨ _))

/-- It clears the parameters first, and goes no further if the buffer of the driver is not enough. -/
def jpegEnc (dst : EncoderRate) (src : Picture) (s : JpegState) : Option (Int × JpegState) :=
  let s := { s with srcBufsize := 0, dstBufsize := 0, qscaling := 0 }
  if src.Fits s.bufSize then
    let size := if src.pAddr then 1024 else src.dataSize
    (s.table.getQScale dst.bitRate dst.frameRate).map fun (q, table) =>
      (0, { s with table, qScale := q, srcBufsize := size, dstBufsize := s.bufSize - size, qscaling := q,
                   calls := s.calls ++ [.choose q] })
  else some (-1, s)

/-- The read from the device gives the size of the encoded frame, or fails. -/
def waitJpegEncDone (read : Option UInt32) (s : JpegState) : Option (Int × JpegState) :=
  match read with
  | none => some (-1, s)
  | some size => (s.table.updateTable s.qScale size).map fun (_, table) =>
    (size.toBitVec.toInt, { s with table, dataOffset := s.srcBufsize, dataSize := size,
                                   calls := s.calls ++ [.credit s.qScale size] })

/-- The picture, if there is one, and what the device then has for it -/
structure JpegTurn where
  picture : Option Picture
  read : Option UInt32

/-- It does not look at what `JpegEnc` returns. -/
def jpegTurn (dst : EncoderRate) (s : JpegState) : JpegTurn → Option JpegState
  | ⟨none, _⟩ => some s
  | ⟨some src, read⟩ => (jpegEnc dst src s).bind fun r => (waitJpegEncDone read r.2).map Prod.snd

/-! ## Indices of the table -/

def IsScale (q : UInt32) : Prop := 1 ≤ q ∧ q ≤ maxQScale

theorem IsScale.exists_eq {q : UInt32} (hq : IsScale q) : ∃ n : Fin 15, q = UInt32.ofNat (n + 1) := by
  obtain ⟨h₁, h₁₅⟩ := hq
  change 1 ≤ q.toNat at h₁
  change q.toNat ≤ 15 at h₁₅
  refine ⟨⟨q.toNat - 1, by omega⟩, ?_⟩
  rw [Nat.sub_add_cancel h₁, UInt32.ofNat_toNat]

namespace BrcTable

variable {t t' : BrcTable} {q size i : UInt32}

@[simp] theorem getEntry_of_le (h : i ≤ maxQScale) : t.getEntry i = some (t i) := if_pos h

@[simp] theorem setEntry_of_le (h : i ≤ maxQScale) (v : UInt32) : t.setEntry i v = some (update t i v) := if_pos h

theorem average_eq {n : UInt32 × UInt32} (hdst : n.1 ≤ maxQScale) (hsrc : n.2 ≤ maxQScale) :
    average size t n = some (update t n.1 ((t n.2 + size) / 2)) := by
  rw [average, getEntry_of_le hsrc, bind_some, setEntry_of_le hdst]

theorem neighbours_le (hq : IsScale q) : ∀ n ∈ neighbours q, n.1 ≤ maxQScale ∧ n.2 ≤ maxQScale := by
  have hall : ∀ k : Fin 15, (neighbours (UInt32.ofNat (k + 1))).all
      (fun n => decide (n.1 ≤ maxQScale) && decide (n.2 ≤ maxQScale)) := by decide
  obtain ⟨k, rfl⟩ := hq.exists_eq
  simpa using hall k

theorem foldlM_average_spec (t : BrcTable) (size : UInt32) {l : List (UInt32 × UInt32)}
    (hl : ∀ n ∈ l, n.1 ≤ maxQScale ∧ n.2 ≤ maxQScale) (hpair : l.Pairwise fun m n => m.1 ≠ n.1 ∧ m.1 ≠ n.2) :
    ∃ t', l.foldlM (average size) t = some t' ∧ (∀ n ∈ l, t' n.1 = (t n.2 + size) / 2) ∧
      ∀ i, (∀ n ∈ l, n.1 ≠ i) → t' i = t i := by
  induction l generalizing t with
  | nil => exact ⟨t, rfl, fun n hn => absurd hn not_mem_nil, fun _ _ => rfl⟩
  | cons m l ih =>
    obtain ⟨⟨hdst, hsrc⟩, hl⟩ := forall_mem_cons.mp hl
    obtain ⟨hm, hpair⟩ := pairwise_cons.mp hpair
    rw [foldlM_cons, average_eq hdst hsrc]
    obtain ⟨t', hfold, hmem, hrest⟩ := ih (update t m.1 ((t m.2 + size) / 2)) hl hpair
    refine ⟨t', hfold, forall_mem_cons.mpr ⟨?_, fun n hn => ?_⟩, fun i hi => ?_⟩
    · rw [hrest m.1 fun n hn => (hm n hn).1.symm, update_self]
    · rw [hmem n hn, update_of_ne (hm n hn).2.symm]
    · obtain ⟨hmi, hi⟩ := forall_mem_cons.mp hi
      rw [hrest i hi, update_of_ne (Ne.symm hmi)]

theorem neighbours_pairwise (hq : IsScale q) : (neighbours q).Pairwise (fun m n => m.1 ≠ n.1 ∧ m.1 ≠ n.2) ∧
    ∀ n ∈ neighbours q, n.2 ≠ q := by
  have hpair : ∀ k : Fin 15, (neighbours (UInt32.ofNat (k + 1))).Pairwise (fun m n => m.1 ≠ n.1 ∧ m.1 ≠ n.2) := by decide
  have hall : ∀ k : Fin 15, (neighbours (UInt32.ofNat (k + 1))).all
      (fun n => decide (n.2 ≠ UInt32.ofNat (k + 1))) := by decide
  obtain ⟨k, rfl⟩ := hq.exists_eq
  refine ⟨hpair k, ?_⟩
  simpa using hall k

theorem updateTable_spec (t : BrcTable) (hq : IsScale q) (size : UInt32) : ∃ t', t.updateTable q size = some (true, t') ∧
    ∀ n ∈ neighbours q, t' n.1 = (t n.2 + size) / 2 := by
  obtain ⟨hpair, hne⟩ := neighbours_pairwise hq
  obtain ⟨t', hfold, hmem, -⟩ := foldlM_average_spec (update t q size) size (neighbours_le hq) hpair
  refine ⟨t', ?_, fun n hn => ?_⟩
  · rw [updateTable, if_neg (UInt32.not_lt.mpr hq.2), setEntry_of_le hq.2, bind_some, hfold, map_some]
  · rw [hmem n hn, update_of_ne (hne n hn)]

theorem updateTable_zero (t : BrcTable) (size : UInt32) : t.updateTable 0 size = none := rfl

theorem findScale_spec (t : BrcTable) (size : UInt32) : ∀ n ≤ 15, ∃ i, t.findScale size n = some i ∧ i.toNat ≤ n ∧
    (0 < i → size < t i) ∧ ∀ p, i < p → p.toNat ≤ n → t p ≤ size
  | 0, _ => ⟨0, rfl, Nat.le_refl 0, fun h => absurd h (by decide), fun p hp hle =>
      absurd (UInt32.lt_iff_toNat_lt.mp hp) (Nat.not_lt.mpr hle)⟩
  | n + 1, hn => by
    have hnat : (UInt32.ofNat (n + 1)).toNat = n + 1 := UInt32.toNat_ofNat_of_lt' (by change n + 1 < 2 ^ 32; omega)
    rw [findScale, getEntry_of_le (UInt32.le_iff_toNat_le.mpr (Nat.le_trans (Nat.le_of_eq hnat) hn)), bind_some]
    split
    · next hexceeds =>
      refine ⟨_, rfl, by omega, fun _ => hexceeds, fun p hp hle => ?_⟩
      rw [UInt32.lt_iff_toNat_lt, hnat] at hp
      omega
    · next hwithin =>
      obtain ⟨i, hfind, hi, hstop, habove⟩ := findScale_spec t size n (by omega)
      refine ⟨i, hfind, by omega, hstop, fun p hp hle => ?_⟩
      by_cases hlast : p.toNat = n + 1
      · rw [← UInt32.ofNat_toNat (x := p), hlast]
        exact UInt32.not_lt.mp hwithin
      · exact habove p hp (by omega)

theorem guess_of_le (t : BrcTable) (hi : i ≤ maxQScale) (size : UInt32) : ∃ t', t.guess i size = some t' ∧
    (t' = t ∨ t' = update t (i - 1) size) := by
  unfold guess
  by_cases h₁ : i > 1
  · have hpred : i - 1 ≤ maxQScale := by
      rw [UInt32.le_iff_toNat_le] at hi ⊢
      rw [UInt32.toNat_sub_of_le _ _ (UInt32.le_of_lt h₁)]
      omega
    rw [if_pos h₁, getEntry_of_le hpred, bind_some, setEntry_of_le hpred]
    by_cases he : t (i - 1) = invalidFrameSize
    · exact ⟨_, if_pos he, .inr rfl⟩
    · exact ⟨_, if_neg he, .inl rfl⟩
  · exact ⟨t, if_neg h₁, .inl rfl⟩

theorem toNat_succ (h : i < maxQScale) : (i + 1).toNat = i.toNat + 1 := by
  change i.toNat < 15 at h
  exact Nat.mod_eq_of_lt (by change i.toNat + 1 < 2 ^ 32; omega)

theorem next_isScale (hi : i ≤ maxQScale) : IsScale (if i < maxQScale then i + 1 else i) := by
  by_cases h : i < maxQScale
  · rw [if_pos h]
    refine ⟨UInt32.le_iff_toNat_le.mpr ?_, UInt32.le_iff_toNat_le.mpr ?_⟩ <;> rw [toNat_succ h]
    · exact Nat.le_add_left _ _
    · exact UInt32.lt_iff_toNat_lt.mp h
  · rw [if_neg h]
    exact ⟨UInt32.le_trans (by decide) (UInt32.not_lt.mp h), hi⟩

/-- The estimates of scale `q` and of all above it are within the budget. -/
def Within (t : BrcTable) (budget q : UInt32) : Prop := IsScale q ∧ ∀ p, q ≤ p → p ≤ maxQScale → t p ≤ budget

/-- **The best scale**: the least one that is within the budget, or the last one if that is not. -/
def Best (t : BrcTable) (budget q : UInt32) : Prop :=
  if t maxQScale ≤ budget then t.Within budget q ∧ ∀ p, t.Within budget p → q ≤ p else q = maxQScale

theorem next_best (hi : i ≤ maxQScale) (hstop : 0 < i → size < t i) (habove : ∀ p, i < p → p.toNat ≤ 15 → t p ≤ size) :
    t.Best size (if i < maxQScale then i + 1 else i) := by
  have hscale := next_isScale hi
  unfold Best
  split
  · next hlast =>
    have hlt : i < maxQScale := by
      refine UInt32.lt_of_le_of_ne hi fun heq => ?_
      subst heq
      exact UInt32.lt_irrefl _ (UInt32.lt_of_lt_of_le (hstop (by decide)) hlast)
    rw [if_pos hlt] at hscale ⊢
    refine ⟨⟨hscale, fun p hp hmax => habove p ?_ (UInt32.le_iff_toNat_le.mp hmax)⟩, fun p hp => ?_⟩
    · rw [UInt32.le_iff_toNat_le, toNat_succ hlt] at hp
      exact UInt32.lt_iff_toNat_lt.mpr hp
    · -- a scale up to `i` has the entry `i`, which exceeds the size, above it
      rw [UInt32.le_iff_toNat_le, toNat_succ hlt]
      refine UInt32.lt_iff_toNat_lt.mp (UInt32.not_le.mp fun hle => ?_)
      have hpos : 0 < i := UInt32.lt_of_lt_of_le (by decide) (UInt32.le_trans hp.1.1 hle)
      exact UInt32.not_lt.mpr (hp.2 i hle hi) (hstop hpos)
  · next hlast =>
    have hnot : ¬ i < maxQScale := fun hlt => hlast (habove maxQScale hlt (Nat.le_refl 15))
    rw [if_neg hnot]
    exact UInt32.le_antisymm hi (UInt32.not_lt.mp hnot)

theorem getQScale_spec (t : BrcTable) (bitRate : UInt32) {frameRate : UInt32} (hrate : frameRate ≠ 0) :
    ∃ q t', t.getQScale bitRate frameRate = some (q, t') ∧ IsScale q ∧
      (t' = t ∨ ∃ i, t' = update t i (bitRate / 8 / frameRate)) ∧ t.Best (bitRate / 8 / frameRate) q := by
  obtain ⟨i, hfind, hle, hstop, habove⟩ := t.findScale_spec (bitRate / 8 / frameRate) 15 (by omega)
  have hi : i ≤ maxQScale := UInt32.le_iff_toNat_le.mpr hle
  obtain ⟨t', hguess, ht'⟩ := t.guess_of_le hi (bitRate / 8 / frameRate)
  refine ⟨_, t', ?_, next_isScale hi, ht'.imp_right fun h => ⟨_, h⟩, next_best hi hstop habove⟩
  rw [getQScale, if_neg hrate]
  dsimp only
  rw [hfind, bind_some, hguess, map_some]

theorem Best.isScale (h : t.Best size q) : IsScale q := by
  unfold Best at h
  split at h
  · exact h.1.1
  · rw [h]
    exact ⟨by decide, UInt32.le_refl _⟩

theorem Best.antitone {size' q' : UInt32} (h : t.Best size q) (h' : t.Best size' q') (hsize : size ≤ size') : q' ≤ q := by
  have hscale := h'.isScale
  unfold Best at h h'
  split at h
  · next hlast =>
    rw [if_pos (UInt32.le_trans hlast hsize)] at h'
    exact h'.2 q ⟨h.1.1, fun p hp hmax => UInt32.le_trans (h.1.2 p hp hmax) hsize⟩
  · exact h ▸ hscale.2

/-- **The choice is optimal for the table**, and with a higher bit rate not a larger one. -/
theorem qScale_optimal (t : BrcTable) (bitRate : UInt32) {frameRate : UInt32} (hrate : 0 < frameRate) :
    ∃ q t', t.getQScale bitRate frameRate = some (q, t') ∧ t.Best (bitRate / 8 / frameRate) q ∧
      ∀ bitRate' q' t'', bitRate ≤ bitRate' → t.getQScale bitRate' frameRate = some (q', t'') → q' ≤ q := by
  have hne : frameRate ≠ 0 := fun h => UInt32.lt_irrefl 0 (h ▸ hrate)
  obtain ⟨q, t', hget, -, -, hbest⟩ := t.getQScale_spec bitRate hne
  refine ⟨q, t', hget, hbest, fun bitRate' q' t'' hle hget' => ?_⟩
  obtain ⟨_, _, hget'', -, -, hbest'⟩ := t.getQScale_spec bitRate' hne
  cases hget'.symm.trans hget''
  refine hbest.antitone hbest' ?_
  exact Nat.div_le_div_right (Nat.div_le_div_right hle)

theorem qScale_optimal_initial : ∃ q t', initial.getQScale 3000000 30 = some (q, t') ∧ initial.Best (3000000 / 8 / 30) q ∧
    ∀ bitRate' q' t'', 3000000 ≤ bitRate' → initial.getQScale bitRate' 30 = some (q', t'') → q' ≤ q :=
  qScale_optimal initial 3000000 (by decide)

end BrcTable

/-! ## Runs of the encoder -/

def CreditsChosen (calls : List BrcCall) : Prop :=
  ∀ (i : Nat) (q size : UInt32), calls[i]? = some (.credit q size) → IsScale q ∧ ∃ j < i, calls[j]? = some (.choose q)

/-- **A right run of the rate control**: all indices are in the table, and all sizes are credited to a chosen scale. -/
def RateControlSafe (dst : EncoderRate) (bufSize : UInt32) (turns : List JpegTurn) : Prop :=
  ∃ s, run (jpegTurn dst) (.init bufSize) turns = some s ∧ CreditsChosen s.calls

def ReadsEncoded (bufSize : UInt32) : List JpegTurn → Prop
  | [] => True
  | ⟨none, _⟩ :: turns => ReadsEncoded bufSize turns
  | ⟨some src, read⟩ :: turns => src.Fits bufSize ∨ read = none ∧ ReadsEncoded bufSize turns

theorem CreditsChosen.append {calls : List BrcCall} {call : BrcCall} (h : CreditsChosen calls)
    (hcall : ∀ q size, call = .credit q size → IsScale q ∧ .choose q ∈ calls) : CreditsChosen (calls ++ [call]) := by
  intro i q size hi
  rcases Nat.lt_or_ge i calls.length with hlt | hge
  · rw [List.getElem?_append_left hlt] at hi
    obtain ⟨hq, j, hj, hchoose⟩ := h i q size hi
    exact ⟨hq, j, hj, by rw [List.getElem?_append_left (by omega), hchoose]⟩
  · rw [List.getElem?_append_right hge] at hi
    obtain ⟨hq, hmem⟩ := hcall q size (mem_singleton.mp (List.mem_of_getElem? hi)).symm
    obtain ⟨j, hj, hchoose⟩ := getElem_of_mem hmem
    exact ⟨hq, j, by omega, by rw [List.getElem?_append_left hj, List.getElem?_eq_getElem hj, hchoose]⟩

structure JpegState.Steady (bufSize : UInt32) (s : JpegState) : Prop where
  bufSize_eq : s.bufSize = bufSize
  scale : IsScale s.qScale
  chosen : .choose s.qScale ∈ s.calls
  credits : CreditsChosen s.calls

structure JpegState.Unset (bufSize : UInt32) (s : JpegState) : Prop where
  bufSize_eq : s.bufSize = bufSize
  scale : s.qScale = 0
  calls : s.calls = []

section

variable {dst : EncoderRate} {src : Picture} {bufSize : UInt32} {s : JpegState}

theorem jpegEnc_of_fits (hrate : dst.frameRate ≠ 0) (hsize : s.bufSize = bufSize) (hfits : src.Fits bufSize)
    (hs : CreditsChosen s.calls) : ∃ r s', jpegEnc dst src s = some (r, s') ∧ s'.Steady bufSize := by
  obtain ⟨q, table, hget, hq, -⟩ := s.table.getQScale_spec dst.bitRate hrate
  subst hsize
  unfold jpegEnc
  rw [if_pos hfits, hget, map_some]
  exact ⟨_, _, rfl, rfl, hq, by simp, hs.append fun _ _ h => by cases h⟩

theorem jpegEnc_of_not_fits (hsize : s.bufSize = bufSize) (hfits : ¬ src.Fits bufSize) :
    jpegEnc dst src s = some (-1, { s with srcBufsize := 0, dstBufsize := 0, qscaling := 0 }) := by
  subst hsize
  unfold jpegEnc
  rw [if_neg hfits]

theorem waitJpegEncDone_of_steady (hs : s.Steady bufSize) (read : Option UInt32) :
    ∃ r s', waitJpegEncDone read s = some (r, s') ∧ s'.Steady bufSize := by
  cases read with
  | none => exact ⟨_, s, rfl, hs⟩
  | some size =>
    obtain ⟨table, htable, -⟩ := s.table.updateTable_spec hs.scale size
    rw [waitJpegEncDone, htable, map_some]
    refine ⟨_, _, rfl, hs.bufSize_eq, hs.scale, mem_append_left _ hs.chosen, hs.credits.append ?_⟩
    intro q size' hcall
    obtain ⟨rfl, -⟩ := BrcCall.credit.inj hcall
    exact ⟨hs.scale, hs.chosen⟩

/-- **One turn** after a scale was chosen. -/
theorem jpegTurn_of_steady (hrate : dst.frameRate ≠ 0) (hs : s.Steady bufSize) (turn : JpegTurn) :
    ∃ s', jpegTurn dst s turn = some s' ∧ s'.Steady bufSize := by
  obtain ⟨picture, read⟩ := turn
  cases picture with
  | none => exact ⟨s, rfl, hs⟩
  | some src =>
    obtain ⟨r, s₁, henc, hs₁⟩ : ∃ r s₁, jpegEnc dst src s = some (r, s₁) ∧ s₁.Steady bufSize := by
      by_cases hfits : src.Fits bufSize
      · exact jpegEnc_of_fits hrate hs.bufSize_eq hfits hs.credits
      · exact ⟨_, _, jpegEnc_of_not_fits hs.bufSize_eq hfits, hs.bufSize_eq, hs.scale, hs.chosen, hs.credits⟩
    obtain ⟨r', s', hwait, hs'⟩ := waitJpegEncDone_of_steady hs₁ read
    exact ⟨s', by rw [jpegTurn, henc, bind_some, hwait, map_some], hs'⟩

/-- **All turns** after a scale was chosen. -/
theorem run_of_steady (hrate : dst.frameRate ≠ 0) (hs : s.Steady bufSize) (turns : List JpegTurn) :
    ∃ s', run (jpegTurn dst) s turns = some s' ∧ CreditsChosen s'.calls := by
  obtain ⟨s', hrun, hs'⟩ := run_total (D := fun _ => True) (fun s turn hs _ => jpegTurn_of_steady hrate hs turn) hs
    fun turn (_ : turn ∈ turns) => trivial
  exact ⟨s', hrun, hs'.credits⟩

/-- **All turns until a scale is chosen.** -/
theorem run_of_unset (hrate : dst.frameRate ≠ 0) (hs : s.Unset bufSize) (turns : List JpegTurn) :
    (∃ s', run (jpegTurn dst) s turns = some s' ∧ CreditsChosen s'.calls) ↔ ReadsEncoded bufSize turns := by
  have hcredits : ∀ s : JpegState, s.Unset bufSize → CreditsChosen s.calls := by
    intro s hs i q size hi
    rw [hs.calls] at hi
    cases hi
  induction turns generalizing s with
  | nil => exact iff_of_true ⟨s, rfl, hcredits s hs⟩ trivial
  | cons turn turns ih =>
    obtain ⟨picture, read⟩ := turn
    cases picture with
    | none => exact ih hs
    | some src =>
      rw [ReadsEncoded, run, jpegTurn]
      by_cases hfits : src.Fits bufSize
      · obtain ⟨r, s₁, henc, hs₁⟩ := jpegEnc_of_fits hrate hs.bufSize_eq hfits (hcredits s hs)
        obtain ⟨r', s₂, hwait, hs₂⟩ := waitJpegEncDone_of_steady hs₁ read
        rw [henc, bind_some, hwait, map_some, bind_some]
        exact iff_of_true (run_of_steady hrate hs₂ turns) (.inl hfits)
      · rw [jpegEnc_of_not_fits hs.bufSize_eq hfits, bind_some]
        cases read with
        | none =>
          have hs' : JpegState.Unset bufSize { s with srcBufsize := 0, dstBufsize := 0, qscaling := 0 } :=
            ⟨hs.bufSize_eq, hs.scale, hs.calls⟩
          refine (ih hs').trans ?_
          exact ⟨fun h => .inr ⟨rfl, h⟩, fun h => (h.resolve_left hfits).2⟩
        | some size =>
          rw [waitJpegEncDone, hs.scale, BrcTable.updateTable_zero]
          refine iff_of_false ?_ ?_
          · rintro ⟨s', hrun, -⟩
            cases hrun
          · rintro (h | ⟨h, -⟩)
            · exact hfits h
            · cases h

end

/-- **The rate control** keeps to its table exactly if no frame is encoded before the driver has room for a picture. -/
theorem rate_control_iff (dst : EncoderRate) (hrate : 0 < dst.frameRate) (bufSize : UInt32) (turns : List JpegTurn) :
    RateControlSafe dst bufSize turns ↔ ReadsEncoded bufSize turns :=
  run_of_unset (UInt32.ne_of_lt hrate).symm ⟨rfl, rfl, rfl⟩ turns

theorem rate_control_room : RateControlSafe ⟨3000000, 30⟩ 500000 [⟨some ⟨false, 400000⟩, none⟩,
    ⟨some ⟨true, 400000⟩, some 20000⟩] :=
  (rate_control_iff ⟨3000000, 30⟩ (by decide) 500000 _).mpr (.inr ⟨rfl, .inl (.inl rfl)⟩)

theorem rate_control_first : ¬ RateControlSafe ⟨3000000, 30⟩ 500000 [⟨some ⟨false, 400000⟩, some 20000⟩] := by
  rintro ⟨s, hrun, -⟩
  cases hrun

/-! ## The estimates -/

inductive BrcOp
  | getQScale (bitRate frameRate : UInt32)
  | update (q size : UInt32)

/-- A size is credited to a scale, and is below `2^31`. -/
def BrcOp.Regular : BrcOp → Prop
  | .getQScale _ _ => True
  | .update q size => IsScale q ∧ size.toNat < 2 ^ 31

namespace BrcTable

def step (t : BrcTable) : BrcOp → Option BrcTable
  | .getQScale bitRate frameRate => (t.getQScale bitRate frameRate).map Prod.snd
  | .update q size => (t.updateTable q size).map Prod.snd

def Reachable (t : BrcTable) : Prop := ∃ ops, (∀ op ∈ ops, BrcOp.Regular op) ∧ run step initial ops = some t

/-- **Right estimates**: each neighbour gets the average of the size and its entry, which lies between the two; with an
unknown entry it is not below the size. -/
def EstimatesExact (t : BrcTable) (q size : UInt32) : Prop :=
  ∃ t', t.updateTable q size = some (true, t') ∧ ∀ n ∈ neighbours q,
    (t' n.1).toNat = ((t n.2).toNat + size.toNat) / 2 ∧
    min (t n.2).toNat size.toNat ≤ (t' n.1).toNat ∧ (t' n.1).toNat ≤ max (t n.2).toNat size.toNat ∧
    (t n.2 = invalidFrameSize → size ≤ t' n.1)

/-- **The invariant of the table**: every entry is unknown, or below `2^31`. -/
def Bounded (t : BrcTable) : Prop := ∀ i, t i = invalidFrameSize ∨ (t i).toNat < 2 ^ 31

section

variable {t t' : BrcTable} {q size : UInt32}

theorem Bounded.update (ht : t.Bounded) (i : UInt32) {v : UInt32} (hv : v = invalidFrameSize ∨ v.toNat < 2 ^ 31) :
    Bounded (update t i v) := by
  intro j
  by_cases hj : j = i
  · rw [hj, update_self]
    exact hv
  · rw [update_of_ne hj]
    exact ht j

theorem bounded_initial : initial.Bounded := by
  refine List.foldlRecOn (motive := Bounded) _ _ (fun i => .inr (by decide)) fun t ht i _ => ?_
  unfold initTable
  split
  · exact ht
  · exact ht.update _ (.inl rfl)

theorem toNat_average (e size : UInt32) : ((e + size) / 2).toNat = (e.toNat + size.toNat) % 2 ^ 32 / 2 := by
  rfl

theorem average_lt (e size : UInt32) : ((e + size) / 2).toNat < 2 ^ 31 := by
  rw [toNat_average]
  omega

theorem Bounded.foldlM_average (ht : t.Bounded) {l : List (UInt32 × UInt32)}
    (hfold : l.foldlM (average size) t = some t') : t'.Bounded := by
  induction l generalizing t with
  | nil => exact some.inj hfold ▸ ht
  | cons n l ih =>
    obtain ⟨t₁, haverage, hfold⟩ := bind_eq_some_iff.mp hfold
    obtain ⟨e, -, hset⟩ := bind_eq_some_iff.mp haverage
    obtain ⟨-, hset⟩ := ite_none_right_eq_some.mp hset
    exact ih (some.inj hset ▸ ht.update _ (.inr (average_lt e size))) hfold

/-- **One step** keeps the bounds. -/
theorem Bounded.step (ht : t.Bounded) {op : BrcOp} (hop : op.Regular) (hstep : t.step op = some t') : t'.Bounded := by
  cases op with
  | getQScale bitRate frameRate =>
    obtain ⟨r, hget, rfl⟩ := map_eq_some_iff.mp hstep
    by_cases hrate : frameRate = 0
    · rw [getQScale, if_pos hrate] at hget
      cases hget
    · obtain ⟨q, t₁, hget', -, ht₁, -⟩ := t.getQScale_spec bitRate hrate
      rw [hget, some.injEq] at hget'
      subst hget'
      rcases ht₁ with rfl | ⟨i, rfl⟩
      · exact ht
      · refine ht.update i (.inr ?_)
        refine Nat.lt_of_le_of_lt (Nat.div_le_self _ _) ?_
        have := bitRate.toNat_lt
        change bitRate.toNat / 8 < 2 ^ 31
        omega
  | update q size =>
    obtain ⟨hq, hsize⟩ := hop
    obtain ⟨r, hupdate, rfl⟩ := map_eq_some_iff.mp hstep
    rw [updateTable, if_neg (UInt32.not_lt.mpr hq.2), setEntry_of_le hq.2, bind_some] at hupdate
    obtain ⟨t₁, hfold, rfl⟩ := map_eq_some_iff.mp hupdate
    exact (ht.update q (.inr hsize)).foldlM_average hfold

/-- **All reachable tables** are within the bounds. -/
theorem Reachable.bounded (ht : t.Reachable) : t.Bounded := by
  obtain ⟨ops, hops, hrun⟩ := ht
  exact (always_of_eachStep (fun _ _ _ hs hop hstep => hs.step hop hstep) bounded_initial
    (eachStep_of_forall hops _)).last hrun

end

end BrcTable

/-- **The estimates are averages** exactly if none is averaged with an unknown entry. -/
theorem estimates_iff {t : BrcTable} (ht : t.Reachable) {q size : UInt32} (hq : IsScale q) (hsize : size.toNat < 2 ^ 31) :
    t.EstimatesExact q size ↔ ∀ n ∈ BrcTable.neighbours q, t n.2 = invalidFrameSize → size = 0 := by
  obtain ⟨t', hupdate, hmem⟩ := t.updateTable_spec hq size
  have hunknown : invalidFrameSize.toNat = 2 ^ 32 - 1 := rfl
  constructor
  · rintro ⟨t₁, hupdate', hexact⟩ n hn hentry
    rw [hupdate, some.injEq, Prod.mk.injEq] at hupdate'
    obtain ⟨-, rfl⟩ := hupdate'
    have heq := (hexact n hn).1
    rw [hmem n hn, BrcTable.toNat_average, hentry, hunknown] at heq
    exact UInt32.toNat_inj.mp (show size.toNat = 0 by omega)
  · intro hknown
    refine ⟨t', hupdate, fun n hn => ?_⟩
    have heq : (t' n.1).toNat = ((t n.2).toNat + size.toNat) / 2 := by
      rw [hmem n hn, BrcTable.toNat_average]
      rcases ht.bounded n.2 with hentry | hlt
      · rw [hentry, hunknown, hknown n hn hentry]
        rfl
      · rw [Nat.mod_eq_of_lt (by omega)]
    refine ⟨heq, by omega, by omega, fun hentry => ?_⟩
    rw [hknown n hn hentry]
    exact UInt32.le_iff_toNat_le.mpr (Nat.zero_le _)

theorem estimates_known : BrcTable.EstimatesExact
    (update (update (update BrcTable.initial 3 100) 4 49) 2 49) 1 10 := by
  refine (estimates_iff ⟨[.update 3 100], ?_, rfl⟩ ⟨by decide, by decide⟩ (by decide)).mpr ?_
  · exact forall_mem_singleton.mpr ⟨⟨by decide, by decide⟩, by decide⟩
  · exact forall_mem_singleton.mpr fun h => absurd h (by decide)

theorem estimates_wrap : BrcTable.Reachable BrcTable.initial ∧
    (BrcTable.initial.updateTable 3 100).map (fun r => (r.2 3, r.2 4, r.2 2)) = some (100, 49, 49) ∧
    ¬ BrcTable.initial.EstimatesExact 3 100 := by
  refine ⟨⟨[], fun op hop => absurd hop not_mem_nil, rfl⟩, rfl, ?_⟩
  rintro ⟨t', hupdate, hexact⟩
  have hentry : (BrcTable.initial.updateTable 3 100).map (fun r => (r.2 4).toNat) = some 49 := rfl
  rw [hupdate, map_some, some.injEq] at hentry
  have heq := (hexact (4, 5) (by decide)).1
  rw [hentry] at heq
  exact absurd heq (by decide)

end NuWicam.Media
