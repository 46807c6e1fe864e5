import NuWicam.Kernel.Capture
import NuWicam.Kernel.Scaling

/-!
# Where the planes of a frame are (`vin_ioctl.c`)

`VIDIOCMCAPTURE` and `VIDIOC_S_CROP` choose the size to encode and compute the addresses of the planes, the latter from the
crop window for YUV420P. A call is `none` where it divides by zero or uses an index outside of the buffers. The start of the
crop window is left out. The state before a `VIDIOCMCAPTURE` is the one that the sensor's `change_image_resolution` leaves.
-/

namespace NuWicam.Kernel

open Option

/-! ## The source -/

/-- The rectangle of `struct v4l2_crop`, without its position -/
structure CropSize where
  width : Int32
  height : Int32

structure Pipes where
  vin : Vin
  regs : ScaleRegs
  /-- `REG_VSTRIDE` -/
  vstride : BitVec 32
  /-- the arguments of the last call of `EncodePipeSize` -/
  pipeHeight : UInt16
  pipeWidth : UInt16
  /-- `videowin.height` and `videowin.width` -/
  winHeight : UInt32
  winWidth : UInt32

/-- `videoIn_SetCropWinSize` -/
def setCropWinSize (height width : BitVec 32) (r : ScaleRegs) : ScaleRegs :=
  { r with vpecws := (r.vpecws &&& ~~~(nvtBit 26 16 ||| nvtBit 11 0)) ||| ((height <<< 16) ||| width) }

/-- `u32Height` and `u32Width`: the crop window, or the frame that `VIDIOCMCAPTURE` asked for -/
def chosenSize (s : Vin) : Int32 × Int32 :=
  if s.cropWidth < s.videommap.width then (s.cropHeight, s.cropWidth) else (s.videommap.height, s.videommap.width)

def Pipes.program (s : Pipes) (size : Int32 × Int32) : Option Pipes :=
  let height := size.1.toUInt32.toUInt16
  let width := size.2.toUInt32.toUInt16
  (encodePipeSize height.toNat width.toNat s.regs).map fun result =>
    { s with
      regs := result.2
      vstride := setStride (getStride s.vstride).1 size.2.toUInt32.toBitVec
      pipeHeight := height
      pipeWidth := width }

/-- `vin_ioctl_grab_frames` with the registers -/
def vinIoctlGrabFramesPipes (b : Buffers) (s : Pipes) (m : VideoMmap) : Option Pipes := do
  let vin ← vinIoctlGrabFrames b s.vin m
  if m.format.isSome ∧ s.vin.i32FrameNumber = -1 then Pipes.program { s with vin } (chosenSize vin)
  else some { s with vin }

/-- The planes of a YUV420P frame, with `int`s -/
def cropPlanes (crop : CropSize) (addr : UInt32) : PlanarBuf :=
  let u := addr + (crop.height * crop.width).toUInt32
  ⟨addr, u, u + (crop.height * crop.width / 4).toUInt32⟩

def croppedPlanes (b : Buffers) (s : Vin) (crop : CropSize) : Buf → PlanarBuf :=
  match s.videommap.format with
  | some .yuv422P => fun i => planesAt .yuv422P (chosenSize s).2.toUInt32 (chosenSize s).1.toUInt32 (b.phys i)
  | some .yuv420P => fun i => cropPlanes crop (b.phys i)
  | none => s.planarAddr

def vinIoctlSetCroppingWindow (b : Buffers) (s : Pipes) (crop : CropSize) : Option Pipes := do
  let vin := { s.vin with cropWidth := crop.width, cropHeight := crop.height }
  let regs := setCropWinSize crop.height.toUInt32.toBitVec crop.width.toUInt32.toBitVec s.regs
  let (_, regs) ← previewPipeSize s.winHeight.toUInt16.toNat s.winWidth.toUInt16.toNat regs
  let s ← Pipes.program { s with vin, regs } (chosenSize vin)
  return { s with vin := { vin with planarAddr := croppedPlanes b vin crop } }

inductive LayoutCall
  | mcapture (m : VideoMmap)
  | sCrop (crop : CropSize)

def layoutStep (b : Buffers) (s : Pipes) : LayoutCall → Option Pipes
  | .mcapture m => vinIoctlGrabFramesPipes b s m
  | .sCrop crop => vinIoctlSetCroppingWindow b s crop

/-- The planar format that a call lays out frames for. `VIDIOCMCAPTURE` does so only if no capture is in progress. -/
def LayoutCall.format (s : Pipes) : LayoutCall → Option PlanarFormat
  | .mcapture m => if s.vin.i32FrameNumber = -1 then m.format else none
  | .sCrop _ => s.vin.videommap.format

/-! ## The layout -/

def PlanarFormat.chroma : PlanarFormat → Nat
  | .yuv422P => 2
  | .yuv420P => 4

def layoutAt (format : PlanarFormat) (area : Nat) (addr : UInt32) : PlanarBuf :=
  let u := addr + UInt32.ofNat area
  ⟨addr, u, u + UInt32.ofNat (area / format.chroma)⟩

/-- **The layout of the encode pipe**: the stride is its width, and the planes of every buffer are those of its area. -/
def LaidOut (b : Buffers) (format : PlanarFormat) (s : Pipes) : Prop :=
  (planarStride s.vstride).toNat = s.pipeWidth.toNat ∧
    ∀ i, s.vin.planarAddr i = layoutAt format (s.pipeHeight.toNat * s.pipeWidth.toNat) (b.phys i)

def LayoutCall.settings (s : Pipes) : LayoutCall → Vin
  | .mcapture m => { s.vin with videommap := m }
  | .sCrop crop => { s.vin with cropWidth := crop.width, cropHeight := crop.height }

/-- The area from which the planes are computed -/
def LayoutCall.area (format : PlanarFormat) (s : Pipes) (call : LayoutCall) : UInt32 :=
  match call, format with
  | .sCrop crop, .yuv420P => (crop.height * crop.width).toUInt32
  | call, _ => (chosenSize (call.settings s)).1.toUInt32 * (chosenSize (call.settings s)).2.toUInt32

/-- **The size fits**: in 16 bits its width is below 4096, and the area that is taken is that of the size in 16 bits. -/
def LayoutFits (format : PlanarFormat) (s : Pipes) (call : LayoutCall) : Prop :=
  let size := chosenSize (call.settings s)
  size.2.toUInt32.toNat % 2 ^ 16 < 2 ^ 12 ∧
    (call.area format s).toNat = size.1.toUInt32.toNat % 2 ^ 16 * (size.2.toUInt32.toNat % 2 ^ 16)

instance (format : PlanarFormat) (s : Pipes) (call : LayoutCall) : Decidable (LayoutFits format s call) :=
  inferInstanceAs (Decidable (_ ∧ _))

/-! ## The planes of an area -/

section Area

variable {format : PlanarFormat} {area : Nat} {addr p q : UInt32}

theorem eq_layoutAt_iff : (⟨addr, addr + p, addr + p + q⟩ : PlanarBuf) = layoutAt format area addr ↔
    p = UInt32.ofNat area ∧ q = UInt32.ofNat (area / format.chroma) := by
  simp only [layoutAt, PlanarBuf.mk.injEq, true_and]
  refine ⟨fun ⟨hu, hv⟩ => ?_, fun ⟨hp, hq⟩ => by rw [hp, hq]; exact ⟨rfl, rfl⟩⟩
  have hp : p = UInt32.ofNat area := (UInt32.add_right_inj addr).mp hu
  rw [hp] at hv
  exact ⟨hp, (UInt32.add_right_inj _).mp hv⟩

theorem eq_ofNat_iff (harea : area < 2 ^ 32) : p = UInt32.ofNat area ↔ p.toNat = area := by
  rw [← UInt32.toNat_inj, UInt32.toNat_ofNat_of_lt' harea]

theorem planesAt_iff {width height : UInt32} (harea : area < 2 ^ 32) :
    planesAt format width height addr = layoutAt format area addr ↔ (height * width).toNat = area := by
  unfold planesAt
  rw [eq_layoutAt_iff, eq_ofNat_iff harea]
  refine and_iff_left_of_imp fun hprod => ?_
  rw [eq_ofNat_iff (Nat.lt_of_le_of_lt (Nat.div_le_self _ _) harea), UInt32.toNat_div, hprod]
  cases format <;> rfl

theorem cropPlanes_iff {crop : CropSize} (harea : area < 2 ^ 31) :
    cropPlanes crop addr = layoutAt .yuv420P area addr ↔ (crop.height * crop.width).toUInt32.toNat = area := by
  rw [cropPlanes, eq_layoutAt_iff, eq_ofNat_iff (by omega)]
  refine and_iff_left_of_imp fun hprod => ?_
  have hint : crop.height * crop.width = Int32.ofNat area := by
    have huint : (crop.height * crop.width).toUInt32 = (Int32.ofNat area).toUInt32 := by
      rw [Int32.toUInt32_ofNat', eq_ofNat_iff (by omega), hprod]
    exact Int32.toBitVec_inj.mp (congrArg UInt32.toBitVec huint)
  have hquarter := Int32.ofNat_div harea (show 4 < 2 ^ 31 by decide)
  rw [hint, PlanarFormat.chroma, ← Int32.toUInt32_ofNat', hquarter]
  rfl

end Area

/-! ## The calls -/

section Calls

variable {b : Buffers} {s s' : Pipes} {format : PlanarFormat}

theorem program_spec {size : Int32 × Int32} (h : s.program size = some s') :
    s'.vin = s.vin ∧ s'.pipeHeight.toNat = size.1.toUInt32.toNat % 2 ^ 16 ∧
      s'.pipeWidth.toNat = size.2.toUInt32.toNat % 2 ^ 16 ∧
      (planarStride s'.vstride).toNat = size.2.toUInt32.toNat % 2 ^ 12 := by
  obtain ⟨result, -, rfl⟩ := map_eq_some_iff.mp h
  exact ⟨rfl, UInt32.toNat_toUInt16 _, UInt32.toNat_toUInt16 _, planarStride_setStride _ _⟩

theorem laidOut_program {size : Int32 × Int32} (h : s.program size = some s') (v : Vin) :
    LaidOut b format { s' with vin := v } ↔ size.2.toUInt32.toNat % 2 ^ 16 < 2 ^ 12 ∧
      ∀ i, v.planarAddr i =
        layoutAt format (size.1.toUInt32.toNat % 2 ^ 16 * (size.2.toUInt32.toNat % 2 ^ 16)) (b.phys i) := by
  obtain ⟨-, hh, hw, hstride⟩ := program_spec h
  rw [LaidOut, hh, hw, hstride]
  refine and_congr_left fun _ => ?_
  omega

theorem area_lt {h w : Nat} (hw : w % 2 ^ 16 < 2 ^ 12) : h % 2 ^ 16 * (w % 2 ^ 16) < 2 ^ 31 := by
  have hle : h % 2 ^ 16 * (w % 2 ^ 16) ≤ 2 ^ 16 * 2 ^ 12 :=
    Nat.mul_le_mul (by omega) (by omega)
  omega

theorem vinIoctlGrabFrames_layout {v v' : Vin} {m : VideoMmap} (hfmt : m.format = some format)
    (hidle : v.i32FrameNumber = -1) (h : vinIoctlGrabFrames b v m = some v') :
    chosenSize v' = chosenSize { v with videommap := m } ∧
      ∀ i, v'.planarAddr i = planesAt format (chosenSize { v with videommap := m }).2.toUInt32
        (chosenSize { v with videommap := m }).1.toUInt32 (b.phys i) := by
  unfold vinIoctlGrabFrames at h
  rw [hfmt] at h
  dsimp only at h
  split at h
  case isFalse => cases h
  case isTrue =>
    cases h
    refine ⟨rfl, fun i => ?_⟩
    unfold chosenSize
    split <;> rfl

theorem mcapture_layout_iff {m : VideoMmap} (hfmt : (LayoutCall.mcapture m).format s = some format)
    (h : vinIoctlGrabFramesPipes b s m = some s') : LaidOut b format s' ↔ LayoutFits format s (.mcapture m) := by
  have hidle : s.vin.i32FrameNumber = -1 := by
    by_contra hbusy
    rw [LayoutCall.format, if_neg hbusy] at hfmt
    cases hfmt
  rw [LayoutCall.format, if_pos hidle] at hfmt
  obtain ⟨v, hv, hprog⟩ := bind_eq_some_iff.mp h
  rw [if_pos ⟨by rw [hfmt]; rfl, hidle⟩] at hprog
  obtain ⟨hsize, haddr⟩ := vinIoctlGrabFrames_layout hfmt hidle hv
  rw [hsize] at hprog
  have hvin := (program_spec hprog).1
  refine (laidOut_program hprog s'.vin).trans (and_congr_right fun hwidth => ?_)
  have harea := area_lt (h := (chosenSize { s.vin with videommap := m }).1.toUInt32.toNat) hwidth
  simp only [hvin, haddr, planesAt_iff (Nat.lt_trans harea (by decide)), forall_const]
  rfl

theorem croppedPlanes_iff {crop : CropSize} {area : Nat} (hfmt : s.vin.videommap.format = some format) (harea : area < 2 ^ 31) :
    (∀ i, croppedPlanes b ((LayoutCall.sCrop crop).settings s) crop i = layoutAt format area (b.phys i)) ↔
      ((LayoutCall.sCrop crop).area format s).toNat = area := by
  have hfmt' : ((LayoutCall.sCrop crop).settings s).videommap.format = some format := hfmt
  unfold croppedPlanes
  rw [hfmt']
  cases format with
  | yuv422P =>
    simp only [planesAt_iff (Nat.lt_trans harea (by decide)), forall_const]
    rfl
  | yuv420P =>
    simp only [cropPlanes_iff harea, forall_const]
    rfl

theorem sCrop_layout_iff {crop : CropSize} (hfmt : s.vin.videommap.format = some format)
    (h : vinIoctlSetCroppingWindow b s crop = some s') : LaidOut b format s' ↔ LayoutFits format s (.sCrop crop) := by
  obtain ⟨preview, -, h⟩ := bind_eq_some_iff.mp h
  obtain ⟨s₁, hprog, h⟩ := bind_eq_some_iff.mp h
  cases h
  refine (laidOut_program hprog _).trans (and_congr_right fun hwidth => ?_)
  exact croppedPlanes_iff hfmt (area_lt hwidth)

theorem sCrop_returns (b : Buffers) (s : Pipes) (crop : CropSize) (hph : 0 < s.winHeight.toUInt16.toNat)
    (hpw : 0 < s.winWidth.toUInt16.toNat)
    (hh : 0 < (chosenSize ((LayoutCall.sCrop crop).settings s)).1.toUInt32.toUInt16.toNat)
    (hw : 0 < (chosenSize ((LayoutCall.sCrop crop).settings s)).2.toUInt32.toUInt16.toNat)
    (hch : 0 < (getCropWinSize (setCropWinSize crop.height.toUInt32.toBitVec crop.width.toUInt32.toBitVec s.regs)).1)
    (hcw : 0 < (getCropWinSize (setCropWinSize crop.height.toUInt32.toBitVec crop.width.toUInt32.toBitVec s.regs)).2) :
    ∃ s', layoutStep b s (.sCrop crop) = some s' := by
  obtain ⟨r₁, hr₁, hkept⟩ := previewPipeSize_returns hph hpw hch hcw
  have hcrop : getCropWinSize r₁ =
      getCropWinSize (setCropWinSize crop.height.toUInt32.toBitVec crop.width.toUInt32.toBitVec s.regs) := by
    rw [getCropWinSize, getCropWinSize, hkept]
  rw [← hcrop] at hch hcw
  obtain ⟨r₂, hr₂, -⟩ := encodePipeSize_returns hh hw hch hcw
  exact ⟨_, bind_eq_some_iff.mpr ⟨_, hr₁, bind_eq_some_iff.mpr ⟨_, map_eq_some_iff.mpr ⟨_, hr₂, rfl⟩, rfl⟩⟩⟩

end Calls

/-- **The planes lie where the size puts them** exactly if it fits and its own area was taken. -/
theorem layout_iff (b : Buffers) (s s' : Pipes) (call : LayoutCall) (format : PlanarFormat)
    (hfmt : call.format s = some format) (h : layoutStep b s call = some s') :
    LaidOut b format s' ↔ LayoutFits format s call := by
  cases call with
  | mcapture m => exact mcapture_layout_iff hfmt h
  | sCrop crop => exact sCrop_layout_iff hfmt h

def encodingVga (format : PlanarFormat) : Pipes where
  vin := Vin.opened ⟨0, 0, 0⟩ ⟨0, 0, 0⟩ 0 ⟨0, 480, 640, some format⟩ 640 480
  regs := ⟨0x01E00280, 0, 0⟩
  vstride := 0
  pipeHeight := 480
  pipeWidth := 640
  winHeight := 240
  winWidth := 320

-- a larger crop window and YUV422P
theorem layout_wide_yuv422P : ∃ s', layoutStep vgaBuffers (encodingVga .yuv422P) (.sCrop ⟨1280, 720⟩) = some s' ∧
    LaidOut vgaBuffers .yuv422P s' := by
  obtain ⟨s', hs'⟩ := sCrop_returns vgaBuffers (encodingVga .yuv422P) ⟨1280, 720⟩ (by decide) (by decide) (by decide)
    (by decide) (by decide) (by decide)
  exact ⟨s', hs', (layout_iff vgaBuffers _ s' _ .yuv422P rfl hs').mpr (by decide)⟩

theorem layout_wide_yuv420P : ∃ s', layoutStep vgaBuffers (encodingVga .yuv420P) (.sCrop ⟨1280, 720⟩) = some s' ∧
    ¬ LaidOut vgaBuffers .yuv420P s' := by
  obtain ⟨s', hs'⟩ := sCrop_returns vgaBuffers (encodingVga .yuv420P) ⟨1280, 720⟩ (by decide) (by decide) (by decide)
    (by decide) (by decide) (by decide)
  exact ⟨s', hs', mt (sCrop_layout_iff rfl hs').mp (by decide)⟩

end NuWicam.Kernel
