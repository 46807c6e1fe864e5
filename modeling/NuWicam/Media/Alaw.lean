import NuWicam.Lib.CString
import Mathlib.Data.List.Induction
import Mathlib.Tactic.IntervalCases

/-!
# The A-law encoder (`encoder-alaw.c`)

`alawEncode_within`: the code of a sample is that of the A-law step which the sample is in. `alaw_loop` encodes what
`OSS_RecRead` returns and counts the samples, also those of frames that it drops (`alawLoop_stamped`).
-/

namespace NuWicam.Media.Alaw

open Lib List UInt32

/-! ## A sample -/

def segAend : List Int := [0x1F, 0x3F, 0x7F, 0xFF, 0x1FF, 0x3FF, 0x7FF, 0xFFF]

/-- The index of the first entry that is not below `val`, or the size -/
def search (val : Int) (table : List Int) : Nat := table.findIdx fun e => decide (val ≤ e)

def alawEncode (pcmVal : Int16) : UInt8 :=
  let v := pcmVal.toInt >>> (3 : Nat)
  let mask : UInt8 := if 0 ≤ v then 0xD5 else 0x55
  let v := if 0 ≤ v then v else -v - 1
  let seg := search v segAend
  if 8 ≤ seg then 0x7F ^^^ mask
  else (UInt8.ofNat seg <<< 4 ||| UInt8.ofNat (v.toNat >>> (if seg < 2 then 1 else seg) &&& 0xF)) ^^^ mask

/-! An A-law code has a sign, a segment and a place in the segment; every other bit of it is inverted. -/

def sign (c : UInt8) : Int := if (c ^^^ 0x55) &&& 0x80 = 0 then -1 else 1

def segment (c : UInt8) : Nat := ((c ^^^ 0x55) &&& 0x70).toNat / 16

def place (c : UInt8) : Nat := ((c ^^^ 0x55) &&& 0x0F).toNat

/-- The first two segments have steps of 16, and each one after that steps twice as wide. -/
def width (c : UInt8) : Int := 8 * 2 ^ max 1 (segment c)

/-- The middle of the step -/
def level (c : UInt8) : Int := sign c * (width c * (place c + if segment c = 0 then 0 else 16) + width c / 2)

theorem search_spec {w : Int} (h : w ≤ 4095) :
    ∃ s < 8, search w segAend = s ∧ (s = 0 ∨ 2 ^ (s + 4) ≤ w) ∧ w < 2 ^ (s + 5) := by
  simp only [search, segAend, findIdx_cons, findIdx_nil, cond_eq_ite, decide_eq_true_eq]
  split_ifs <;> exact ⟨_, by decide, rfl, by omega⟩

theorem fields_eq : ∀ s < 8, ∀ q < 16, ∀ positive : Bool,
    let c := (UInt8.ofNat s <<< 4 ||| UInt8.ofNat q) ^^^ if positive then 0xD5 else 0x55
    sign c = (if positive then 1 else -1) ∧ segment c = s ∧ place c = q := by
  decide

/-- **A-law**: every sample lies within half a step of the level of its code. -/
theorem alawEncode_within (pcmVal : Int16) :
    level (alawEncode pcmVal) - width (alawEncode pcmVal) / 2 ≤ pcmVal.toInt ∧
      pcmVal.toInt < level (alawEncode pcmVal) + width (alawEncode pcmVal) / 2 := by
  have hmax := pcmVal.toInt_lt
  have hmin := pcmVal.le_toInt
  obtain ⟨v, hv⟩ : ∃ v, v = pcmVal.toInt >>> (3 : Nat) := ⟨_, rfl⟩
  obtain ⟨w, hw⟩ : ∃ w, w = if 0 ≤ v then v else -v - 1 := ⟨_, rfl⟩
  have hdiv : v = pcmVal.toInt / 8 := hv.trans (Int.shiftRight_eq_div_pow _ 3)
  obtain ⟨s, hs, hsearch, hlow, hhigh⟩ := search_spec (w := w) (by split_ifs at hw <;> omega)
  obtain ⟨q, hq⟩ : ∃ q, q = w.toNat / 2 ^ (if s < 2 then 1 else s) % 16 := ⟨_, rfl⟩
  have hcode : alawEncode pcmVal = (UInt8.ofNat s <<< 4 ||| UInt8.ofNat q) ^^^ if decide (0 ≤ v) then 0xD5 else 0x55 := by
    rw [hq, ← Nat.shiftRight_eq_div_pow, ← Nat.and_two_pow_sub_one_eq_mod _ 4]
    simp only [alawEncode, ← hv, ← hw, hsearch, if_neg (Nat.not_le.mpr hs), decide_eq_true_eq]
  obtain ⟨hsign, hseg, hplace⟩ := fields_eq s hs q (by omega) (decide (0 ≤ v))
  simp only [← hcode] at hsign hseg hplace
  unfold level width
  rw [hsign, hseg, hplace]
  simp only [decide_eq_true_eq]
  interval_cases s <;> simp at hq hlow hhigh ⊢ <;> split_ifs at hw ⊢ <;> omega

/-! ## `alaw_loop` -/

/-- The 16-bit samples of a buffer -/
def samples : Str → List Int16
  | a :: b :: d => (a.toUInt16 ||| b.toUInt16 <<< 8).toInt16 :: samples d
  | _ => []

/-- What a turn finds: the data of `OSS_RecRead` unless it fails, `running`, and whether `new_frame` has a frame -/
structure Turn where
  data : Option Str
  running : Bool
  free : Bool

/-- `timestamp`, and the timestamps and data of the frames that were delivered -/
structure Loop where
  timestamp : UInt32
  frames : List (UInt32 × Str)

def alawTurn (maxFrameSize : Nat) (x : Loop) (t : Turn) : Loop :=
  match t.data with
  | none => x
  | some data =>
    if t.running then
      let size := data.length / 2
      let timestamp := x.timestamp + ofNat size
      if maxFrameSize < size ∨ t.free = false then { x with timestamp }
      else ⟨timestamp, x.frames ++ [(timestamp, (samples data).map alawEncode)]⟩
    else x

def alawLoop (maxFrameSize : Nat) (ts : List Turn) : Loop := ts.foldl (alawTurn maxFrameSize) ⟨0, []⟩

/-- What is recorded while the encoder runs -/
def Turn.recorded (t : Turn) : List Int16 := if t.running then samples (t.data.getD []) else []

/-- The frame has samples of `ss`, up to the one that its timestamp counts. -/
def Timed (ss : List Int16) (f : UInt32 × Str) : Prop :=
  ∃ as bs, as ++ bs <+: ss ∧ f = (ofNat (as ++ bs).length, bs.map alawEncode)

structure Stamped (ss : List Int16) (x : Loop) : Prop where
  timestamp : x.timestamp = ofNat ss.length
  frames : ∀ f ∈ x.frames, Timed ss f

theorem length_samples : ∀ d : Str, (samples d).length = d.length / 2
  | [] | [_] => by simp [samples]
  | a :: b :: d => by
    rw [samples, length_cons, length_samples d, length_cons, length_cons]
    omega

/-- **One turn** keeps the timestamps. -/
theorem Stamped.turn {ss : List Int16} {x : Loop} (h : Stamped ss x) (maxFrameSize : Nat) (t : Turn) :
    Stamped (ss ++ t.recorded) (alawTurn maxFrameSize x t) := by
  unfold Turn.recorded alawTurn
  cases t.data with
  | none => simpa [samples] using h
  | some data =>
    cases t.running with
    | false => simpa using h
    | true =>
      have hstamp : x.timestamp + ofNat (data.length / 2) = ofNat (ss ++ samples data).length := by
        rw [h.timestamp, length_append, length_samples, ofNat_add]
      have hold : ∀ f ∈ x.frames, Timed (ss ++ samples data) f := fun f hf => by
        obtain ⟨as, bs, hpre, heq⟩ := h.frames f hf
        exact ⟨as, bs, hpre.trans (prefix_append ..), heq⟩
      simp only [if_true, Option.getD_some, hstamp]
      split
      · exact ⟨rfl, hold⟩
      · exact ⟨rfl, forall_mem_append.mpr ⟨hold, forall_mem_singleton.mpr ⟨ss, samples data, prefix_rfl, rfl⟩⟩⟩

/-- **Every frame has the samples that its timestamp says**, whatever is dropped in between. -/
theorem alawLoop_stamped (maxFrameSize : Nat) (ts : List Turn) :
    Stamped (ts.flatMap Turn.recorded) (alawLoop maxFrameSize ts) := by
  induction ts using reverseRecOn with
  | nil => exact ⟨rfl, fun f hf => by cases hf⟩
  | append_singleton ts t ih =>
    rw [flatMap_append, flatMap_singleton, alawLoop, foldl_append]
    exact ih.turn maxFrameSize t

end NuWicam.Media.Alaw
