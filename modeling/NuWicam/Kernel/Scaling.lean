import Mathlib.Data.Nat.GCD.Basic

/-!
# The scaling factors of the two pipes (`DevVin1.c`)

`PreviewPipeSize` and `EncodePipeSize` reduce the requested size and that of the crop window by their greatest common divisor
and pass the two factors as `UINT8`, while the sizes have up to twelve bits (`pipeSize_exact_iff`).
-/

namespace NuWicam.Kernel

open Option

/-! ## The source -/

def nvtBit (first last : Nat) : BitVec 32 := (0xFFFFFFFF#32 >>> (31 - first)) &&& (0xFFFFFFFF#32 <<< last)

inductive Pipe
  | bothDisable
  | planar
  | packet
  | bothEnable
  deriving DecidableEq

structure ScaleRegs where
  vpecws : BitVec 32
  vpepkds : BitVec 32
  vpepnds : BitVec 32

/-- `videoIn_GetCropWinSize`: the height and the width -/
def getCropWinSize (r : ScaleRegs) : Nat × Nat :=
  (((r.vpecws &&& nvtBit 26 16) >>> 16).toNat, (r.vpecws &&& nvtBit 11 0).toNat)

/-- `videoIn_SetStride`: what is written to `REG_VSTRIDE` -/
def setStride (pacStride plaStride : BitVec 32) : BitVec 32 :=
  ((plaStride <<< 16) &&& nvtBit 27 16) ||| (pacStride &&& nvtBit 11 0)

/-- `videoIn_GetStride`: the strides of the packet pipe and of the planar pipe -/
def getStride (vstride : BitVec 32) : BitVec 32 × BitVec 32 := (vstride &&& nvtBit 11 0, (vstride &&& nvtBit 27 16) >>> 16)

inductive Direction
  | vertical
  | horizontal
  deriving DecidableEq

def Direction.place : Direction → Nat
  | .vertical => 16
  | .horizontal => 0

/-- `DSVN | DSVM` and `DSHN | DSHM` -/
def Direction.mask : Direction → BitVec 32
  | .vertical => nvtBit 31 24 ||| nvtBit 23 16
  | .horizontal => nvtBit 15 8 ||| nvtBit 7 0

/-- `Successful`, and `E_VIDEOIN_INVALID_PIPE` as an `INT32` -/
def successful : Int := 0
def invalidPipe : Int := 0xFFFF3007 - 0x100000000

def withFactors (d : Direction) (reg : BitVec 32) (n m : BitVec 8) : BitVec 32 :=
  (reg &&& ~~~d.mask) ||| ((n.setWidth 32 <<< (d.place + 8)) ||| (m.setWidth 32 <<< d.place))

/-- `videoIn_SetVerticalScaleFactor` and `videoIn_SetHorizontalScaleFactor` -/
def setScaleFactor (d : Direction) (pipe : Pipe) (n m : BitVec 8) (r : ScaleRegs) : Int × ScaleRegs :=
  match pipe with
  | .packet => (successful, { r with vpepkds := withFactors d r.vpepkds n m })
  | .planar => (successful, { r with vpepnds := withFactors d r.vpepnds n m })
  | _ => (invalidPipe, r)

/-- The smaller number is the second one here; it divides by zero if one of them is zero. -/
def vinGCD (m1 m2 : Nat) : Option Nat :=
  if m1 < m2 then
    if m1 = 0 then none
    else if m2 % m1 = 0 then some m1
    else vinGCD m1 (m2 % m1)
  else
    if m2 = 0 then none
    else if m1 % m2 = 0 then some m2
    else vinGCD m2 (m1 % m2)
termination_by min m1 m2
decreasing_by
  · have hlt := Nat.mod_lt m2 (show 0 < m1 by omega)
    omega
  · have hlt := Nat.mod_lt m1 (show 0 < m2 by omega)
    omega

def scaleDirection (d : Direction) (pipe : Pipe) (size crop : Nat) (r : ScaleRegs) : Option (Int × ScaleRegs) :=
  (vinGCD size (crop % 2 ^ 16)).map fun g => setScaleFactor d pipe (BitVec.ofNat 8 (size / g)) (BitVec.ofNat 8 (crop / g)) r

/-- `videoIn_PreviewPipeSize`; `none` is a division by zero. -/
def previewPipeSize (height width : Nat) (r : ScaleRegs) : Option (Int × ScaleRegs) := do
  let crop := getCropWinSize r
  let (err, r) ← scaleDirection .vertical .packet height crop.1 r
  if err ≠ successful then return (err, r)
  let (_, r) ← scaleDirection .horizontal .packet width crop.2 r
  return (successful, r)

/-- `videoIn_EncodePipeSize` -/
def encodePipeSize (height width : Nat) (r : ScaleRegs) : Option (Int × ScaleRegs) := do
  let crop := getCropWinSize r
  let (err, r) ← scaleDirection .vertical .planar height crop.1 r
  if err ≠ successful then return (err, r)
  scaleDirection .horizontal .planar width crop.2 r

/-! ## The greatest common divisor -/

theorem vinGCD_eq {m1 m2 : Nat} (h1 : 0 < m1) (h2 : 0 < m2) : vinGCD m1 m2 = some (Nat.gcd m1 m2) := by
  fun_induction vinGCD m1 m2 with
  | case1 m2 hlt => omega
  | case2 m1 m2 hlt hzero hmod => rw [Nat.gcd_eq_left (by omega)]
  | case3 m1 m2 hlt hzero hmod ih => rw [ih h1 (by omega), Nat.gcd_rec m1 m2, Nat.gcd_comm]
  | case4 m1 hlt => omega
  | case5 m1 m2 hlt hzero hmod => rw [Nat.gcd_eq_right (by omega)]
  | case6 m1 m2 hlt hzero hmod ih => rw [ih h2 (by omega), Nat.gcd_comm m1, Nat.gcd_rec m2 m1, Nat.gcd_comm]

/-! ## The fields -/

section Fields

variable {d d' : Direction} {reg : BitVec 32} {n m : BitVec 8}

def numerator (d : Direction) (reg : BitVec 32) : BitVec 8 := reg.extractLsb' (d.place + 8) 8

def denominator (d : Direction) (reg : BitVec 32) : BitVec 8 := reg.extractLsb' d.place 8

theorem bit_cases {i : Nat} (hi : i < 8) : i = 0 ∨ i = 1 ∨ i = 2 ∨ i = 3 ∨ i = 4 ∨ i = 5 ∨ i = 6 ∨ i = 7 := by omega

theorem mask_vertical : ~~~Direction.vertical.mask = 0x0000FFFF#32 := by decide

theorem mask_horizontal : ~~~Direction.horizontal.mask = 0xFFFF0000#32 := by decide

theorem withFactors_same : numerator d (withFactors d reg n m) = n ∧ denominator d (withFactors d reg n m) = m := by
  unfold numerator denominator withFactors
  cases d with
  | vertical =>
    rw [mask_vertical]
    constructor <;> ext i hi <;>
      obtain rfl | rfl | rfl | rfl | rfl | rfl | rfl | rfl := bit_cases hi <;> simp [Direction.place]
  | horizontal =>
    rw [mask_horizontal]
    constructor <;> ext i hi <;>
      obtain rfl | rfl | rfl | rfl | rfl | rfl | rfl | rfl := bit_cases hi <;> simp [Direction.place]

theorem withFactors_other (hne : d ≠ d') : numerator d' (withFactors d reg n m) = numerator d' reg ∧
    denominator d' (withFactors d reg n m) = denominator d' reg := by
  unfold numerator denominator withFactors
  cases d <;> cases d' <;> first | exact absurd rfl hne | skip
  · rw [mask_vertical]
    constructor <;> ext i hi <;>
      obtain rfl | rfl | rfl | rfl | rfl | rfl | rfl | rfl := bit_cases hi <;> simp [Direction.place]
  · rw [mask_horizontal]
    constructor <;> ext i hi <;>
      obtain rfl | rfl | rfl | rfl | rfl | rfl | rfl | rfl := bit_cases hi <;> simp [Direction.place]

end Fields

/-! ## The strides -/

def packetStride (vstride : BitVec 32) : BitVec 12 := vstride.extractLsb' 0 12

def planarStride (vstride : BitVec 32) : BitVec 12 := vstride.extractLsb' 16 12

theorem mask_strides : nvtBit 27 16 = 0x0FFF0000#32 ∧ nvtBit 11 0 = 0x00000FFF#32 := by decide

theorem packetStride_setStride (pac pla : BitVec 32) : (packetStride (setStride pac pla)).toNat = pac.toNat % 2 ^ 12 := by
  have hfield : packetStride (setStride pac pla) = pac.extractLsb' 0 12 := by
    rw [packetStride, setStride, mask_strides.1, mask_strides.2]
    have hpla : ∀ i < 12, (0x0FFF0000#32).getLsbD i = false := by decide
    have hpac : ∀ i < 12, (0x00000FFF#32).getLsbD i := by decide
    ext i hi
    simp [hpla i hi, hpac i hi]
  rw [hfield, BitVec.extractLsb'_toNat]
  simp

theorem planarStride_setStride (pac pla : BitVec 32) : (planarStride (setStride pac pla)).toNat = pla.toNat % 2 ^ 12 := by
  have hfield : planarStride (setStride pac pla) = pla.extractLsb' 0 12 := by
    rw [planarStride, setStride, mask_strides.1, mask_strides.2]
    have hpla : ∀ i < 12, (0x0FFF0000#32).getLsbD (16 + i) := by decide
    have hpac : ∀ i < 12, (0x00000FFF#32).getLsbD (16 + i) = false := by decide
    ext i hi
    simp [hpla i hi, hpac i hi]
    omega
  rw [hfield, BitVec.extractLsb'_toNat]
  simp

/-! ## The ratio -/

def ScalesTo (d : Direction) (reg : BitVec 32) (crop size : Nat) : Prop :=
  (numerator d reg).toNat * crop = (denominator d reg).toNat * size ∧
    0 < (numerator d reg).toNat ∧ (numerator d reg).toNat ≤ (denominator d reg).toNat

instance (d : Direction) (reg : BitVec 32) (crop size : Nat) : Decidable (ScalesTo d reg crop size) :=
  inferInstanceAs (Decidable (_ ∧ _))

theorem reduced_exact_iff {n m : Nat} (hcop : Nat.Coprime n m) (hpos : 0 < n) (hle : n ≤ m) :
    (n % 256 * m = m % 256 * n ∧ 0 < n % 256 ∧ n % 256 ≤ m % 256) ↔ m < 256 := by
  constructor
  · rintro ⟨heq, hn, hm⟩
    have hdvd : m ∣ m % 256 * n := ⟨n % 256, by rw [← heq, Nat.mul_comm]⟩
    have hself : m ∣ m % 256 := hcop.symm.dvd_of_dvd_mul_right hdvd
    have hle := Nat.le_of_dvd (Nat.lt_of_lt_of_le hn hm) hself
    omega
  · intro hlt
    rw [Nat.mod_eq_of_lt hlt, Nat.mod_eq_of_lt (by omega)]
    exact ⟨Nat.mul_comm n m, hpos, hle⟩

variable {size crop : Nat} {d : Direction}

theorem exact_iff (hpos : 0 < size) (hle : size ≤ crop) :
    (size / Nat.gcd size crop % 256 * crop = crop / Nat.gcd size crop % 256 * size ∧
      0 < size / Nat.gcd size crop % 256 ∧ size / Nat.gcd size crop % 256 ≤ crop / Nat.gcd size crop % 256) ↔
      crop / Nat.gcd size crop < 256 := by
  have hg : 0 < Nat.gcd size crop := Nat.gcd_pos_of_pos_left crop hpos
  have hsize : size / Nat.gcd size crop * Nat.gcd size crop = size := Nat.div_mul_cancel (Nat.gcd_dvd_left size crop)
  have hcrop : crop / Nat.gcd size crop * Nat.gcd size crop = crop := Nat.div_mul_cancel (Nat.gcd_dvd_right size crop)
  have hcop := Nat.coprime_div_gcd_div_gcd hg
  have hn : 0 < size / Nat.gcd size crop := Nat.div_pos (Nat.gcd_le_left crop hpos) hg
  rw [← reduced_exact_iff hcop hn (Nat.div_le_div_right hle)]
  refine and_congr_left fun _ => Iff.symm ?_
  rw [← Nat.mul_left_inj (Nat.pos_iff_ne_zero.mp hg), Nat.mul_assoc, Nat.mul_assoc, hsize, hcrop]

theorem scaleDirection_eq {pipe : Pipe} (r : ScaleRegs) (hpos : 0 < size) (hle : size ≤ crop)
    (hcrop : crop < 2 ^ 16) : scaleDirection d pipe size crop r = some (setScaleFactor d pipe
      (BitVec.ofNat 8 (size / Nat.gcd size crop)) (BitVec.ofNat 8 (crop / Nat.gcd size crop)) r) := by
  rw [scaleDirection, Nat.mod_eq_of_lt hcrop, vinGCD_eq hpos (by omega), map_some]

theorem scaleDirection_returns {pipe : Pipe} {r : ScaleRegs}
    (hpipe : pipe = .packet ∨ pipe = .planar) (hsize : 0 < size) (hcrop : 0 < crop) (hlt : crop < 2 ^ 16) :
    ∃ r', scaleDirection d pipe size crop r = some (successful, r') ∧ r'.vpecws = r.vpecws := by
  rw [scaleDirection, Nat.mod_eq_of_lt hlt, vinGCD_eq hsize hcrop, map_some]
  rcases hpipe with rfl | rfl
  · exact ⟨_, rfl, rfl⟩
  · exact ⟨_, rfl, rfl⟩

theorem scalesTo_iff {reg : BitVec 32} (hpos : 0 < size) (hle : size ≤ crop)
    (hn : numerator d reg = BitVec.ofNat 8 (size / Nat.gcd size crop))
    (hm : denominator d reg = BitVec.ofNat 8 (crop / Nat.gcd size crop)) :
    ScalesTo d reg crop size ↔ crop / Nat.gcd size crop < 256 := by
  rw [ScalesTo, hn, hm, BitVec.toNat_ofNat, BitVec.toNat_ofNat]
  exact exact_iff hpos hle

def ScaleRegs.factors (r : ScaleRegs) : Pipe → BitVec 32
  | .planar => r.vpepnds
  | _ => r.vpepkds

/-- **A routine scales exactly**: it divides by nothing that is zero, and its factors scale the crop window to the requested
size. -/
def ScalesExactly (pipe : Pipe) (height width : Nat) (r : ScaleRegs) (result : Option (Int × ScaleRegs)) : Prop :=
  ∃ p, result = some p ∧ ScalesTo .vertical (p.2.factors pipe) (getCropWinSize r).1 height ∧
    ScalesTo .horizontal (p.2.factors pipe) (getCropWinSize r).2 width

theorem getCropWinSize_lt (r : ScaleRegs) : (getCropWinSize r).1 < 2 ^ 16 ∧ (getCropWinSize r).2 < 2 ^ 16 := by
  have hheight : nvtBit 26 16 = 0x07FF0000#32 := by decide
  have hwidth : nvtBit 11 0 = 0xFFF#32 := by decide
  simp only [getCropWinSize, hheight, hwidth, BitVec.toNat_ushiftRight, BitVec.toNat_and]
  constructor
  · rw [Nat.shiftRight_eq_div_pow]
    exact Nat.div_lt_of_lt_mul (Nat.lt_of_le_of_lt Nat.and_le_right (by decide))
  · exact Nat.lt_of_le_of_lt Nat.and_le_right (by decide)

section

variable {height width : Nat} {r : ScaleRegs} (hh : 0 < height) (hw : 0 < width) (hch : 0 < (getCropWinSize r).1)
  (hcw : 0 < (getCropWinSize r).2)

include hh hw hch hcw

theorem previewPipeSize_returns : ∃ r', previewPipeSize height width r = some (successful, r') ∧ r'.vpecws = r.vpecws := by
  obtain ⟨hhlt, hwlt⟩ := getCropWinSize_lt r
  obtain ⟨r₁, h₁, hkept₁⟩ := scaleDirection_returns (d := .vertical) (r := r) (.inl rfl) hh hch hhlt
  obtain ⟨r₂, h₂, hkept₂⟩ := scaleDirection_returns (d := .horizontal) (r := r₁) (.inl rfl) hw hcw hwlt
  refine ⟨r₂, ?_, hkept₂.trans hkept₁⟩
  simp only [previewPipeSize, h₁, h₂, bind_eq_bind, bind_some, ne_eq, not_true_eq_false, if_false]
  rfl

theorem encodePipeSize_returns : ∃ r', encodePipeSize height width r = some (successful, r') ∧ r'.vpecws = r.vpecws := by
  obtain ⟨hhlt, hwlt⟩ := getCropWinSize_lt r
  obtain ⟨r₁, h₁, hkept₁⟩ := scaleDirection_returns (d := .vertical) (r := r) (.inr rfl) hh hch hhlt
  obtain ⟨r₂, h₂, hkept₂⟩ := scaleDirection_returns (d := .horizontal) (r := r₁) (.inr rfl) hw hcw hwlt
  refine ⟨r₂, ?_, hkept₂.trans hkept₁⟩
  simp [encodePipeSize, h₁, h₂]

end

def CropFits (height width : Nat) (crop : Nat × Nat) : Prop :=
  crop.1 / Nat.gcd height crop.1 < 256 ∧ crop.2 / Nat.gcd width crop.2 < 256

instance (height width : Nat) (crop : Nat × Nat) : Decidable (CropFits height width crop) :=
  inferInstanceAs (Decidable (_ ∧ _))

section

variable {height width : Nat} {r : ScaleRegs}

def withReduced (d : Direction) (reg : BitVec 32) (size crop : Nat) : BitVec 32 :=
  withFactors d reg (BitVec.ofNat 8 (size / Nat.gcd size crop)) (BitVec.ofNat 8 (crop / Nat.gcd size crop))

theorem both_scalesTo_iff (reg : BitVec 32) {crop : Nat × Nat} (hh : 0 < height) (hhle : height ≤ crop.1) (hw : 0 < width)
    (hwle : width ≤ crop.2) :
    (ScalesTo .vertical (withReduced .horizontal (withReduced .vertical reg height crop.1) width crop.2) crop.1 height ∧
      ScalesTo .horizontal (withReduced .horizontal (withReduced .vertical reg height crop.1) width crop.2) crop.2 width) ↔
      CropFits height width crop := by
  refine and_congr (scalesTo_iff hh hhle ?_ ?_) (scalesTo_iff hw hwle withFactors_same.1 withFactors_same.2)
  · exact (withFactors_other (by decide)).1.trans withFactors_same.1
  · exact (withFactors_other (by decide)).2.trans withFactors_same.2

variable (hh : 0 < height) (hhle : height ≤ (getCropWinSize r).1) (hw : 0 < width) (hwle : width ≤ (getCropWinSize r).2)

include hh hhle hw hwle

theorem previewPipeSize_exact_iff :
    ScalesExactly .packet height width r (previewPipeSize height width r) ↔ CropFits height width (getCropWinSize r) := by
  obtain ⟨hhcrop, hwcrop⟩ := getCropWinSize_lt r
  rw [← both_scalesTo_iff r.vpepkds hh hhle hw hwle, previewPipeSize]
  simp only [scaleDirection_eq _ hh hhle hhcrop, scaleDirection_eq _ hw hwle hwcrop, setScaleFactor, bind_eq_bind,
    bind_some, ne_eq, not_true_eq_false, if_false]
  exact ⟨fun ⟨p, hp, h⟩ => by cases hp; exact h, fun h => ⟨_, rfl, h⟩⟩

theorem encodePipeSize_exact_iff :
    ScalesExactly .planar height width r (encodePipeSize height width r) ↔ CropFits height width (getCropWinSize r) := by
  obtain ⟨hhcrop, hwcrop⟩ := getCropWinSize_lt r
  rw [← both_scalesTo_iff r.vpepnds hh hhle hw hwle, encodePipeSize]
  simp only [scaleDirection_eq _ hh hhle hhcrop, scaleDirection_eq _ hw hwle hwcrop, setScaleFactor, bind_eq_bind,
    bind_some, ne_eq, not_true_eq_false, if_false]
  exact ⟨fun ⟨p, hp, h⟩ => by cases hp; exact h, fun h => ⟨_, rfl, h⟩⟩

end

/-- **Scaling is exact** exactly if the reduced crop window is below 256. -/
theorem pipeSize_exact_iff (height width : Nat) (r : ScaleRegs) (hh : 0 < height) (hhle : height ≤ (getCropWinSize r).1)
    (hw : 0 < width) (hwle : width ≤ (getCropWinSize r).2) :
    (vinGCD height (getCropWinSize r).1 ≠ none ∧ vinGCD width (getCropWinSize r).2 ≠ none) ∧
      (ScalesExactly .packet height width r (previewPipeSize height width r) ↔ CropFits height width (getCropWinSize r)) ∧
      (ScalesExactly .planar height width r (encodePipeSize height width r) ↔
        CropFits height width (getCropWinSize r)) := by
  refine ⟨⟨?_, ?_⟩, previewPipeSize_exact_iff hh hhle hw hwle, encodePipeSize_exact_iff hh hhle hw hwle⟩
  · rw [vinGCD_eq hh (by omega)]
    simp
  · rw [vinGCD_eq hw (by omega)]
    simp

def vgaCrop : ScaleRegs := ⟨0x01E00280, 0, 0⟩

theorem pipeSize_exact_half : ScalesExactly .packet 240 320 vgaCrop (previewPipeSize 240 320 vgaCrop) ∧
    ScalesExactly .planar 240 320 vgaCrop (encodePipeSize 240 320 vgaCrop) := by
  obtain ⟨-, hpreview, hencode⟩ :=
    pipeSize_exact_iff 240 320 vgaCrop (by decide) (by decide) (by decide) (by decide)
  exact ⟨hpreview.mpr (by decide), hencode.mpr (by decide)⟩

theorem pipeSize_narrow_inexact : (480 ≤ (getCropWinSize vgaCrop).1 ∧ 639 ≤ (getCropWinSize vgaCrop).2) ∧
    ¬ ScalesExactly .packet 480 639 vgaCrop (previewPipeSize 480 639 vgaCrop) ∧
    ¬ ScalesExactly .planar 480 639 vgaCrop (encodePipeSize 480 639 vgaCrop) := by
  have hsize : 480 ≤ (getCropWinSize vgaCrop).1 ∧ 639 ≤ (getCropWinSize vgaCrop).2 := by decide
  have hpreview := previewPipeSize_exact_iff (by decide) hsize.1 (by decide) hsize.2
  have hencode := encodePipeSize_exact_iff (by decide) hsize.1 (by decide) hsize.2
  exact ⟨hsize, mt hpreview.mp (by decide), mt hencode.mp (by decide)⟩

end NuWicam.Kernel
