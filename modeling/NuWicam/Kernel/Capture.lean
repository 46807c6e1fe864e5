import NuWicam.Lib.Run
import Mathlib.Logic.Function.Basic

/-!
# The capture driver with three encode buffers (`videoin.c`, `vin_ioctl.c`)

At the end of a frame `irq_handler` marks the buffer as captured and points the registers at the next one, unless
`VIDIOCSYNC` was last called for that. A step is `none` where the source uses an index from the user outside of the buffers.
The preview pipe and the scaling registers are left out; what the sensor's `change_image_resolution`, which `VIDIOCMCAPTURE`
calls first, makes of the crop window is an event of its own.
-/

namespace NuWicam.Kernel

open Lib Function UInt32

/-! ## The source -/

inductive FrameState
  | ready
  | grabbing
  | captureDone
deriving DecidableEq, Repr

/-- `planar_buf_t` -/
structure PlanarBuf where
  y : UInt32
  u : UInt32
  v : UInt32
deriving DecidableEq, Repr

abbrev Buf := Fin 3

def Buf.next (i : Buf) : Buf := i + 1

/-- The addresses of the encode buffers, `u32PhysAddr`, and of the preview buffers. `videoin_init` gives up if the first
is `0`. -/
structure Buffers where
  phys : Buf → UInt32
  preview : Buf → UInt32
  distinct : ∀ {i j}, phys i = phys j → i = j
  first : phys 0 ≠ 0

inductive PlanarFormat
  | yuv422P
  | yuv420P
deriving DecidableEq, Repr

/-- `struct video_mmap`; the format is `none` if it is neither of the two planar ones. -/
structure VideoMmap where
  frame : UInt32
  height : Int32
  width : Int32
  format : Option PlanarFormat

/-- The planar pipe's part of `videoin_priv_t` and of the registers. -/
structure Vin where
  frameState : Buf → FrameState
  /-- `pFramePlanarAddr` -/
  planarAddr : Buf → PlanarBuf
  /-- the registers of the base addresses of the planar pipe -/
  base : PlanarBuf
  /-- `w55fa93_JPG_Y_ADDR` and those of the other planes -/
  jpgAddr : PlanarBuf
  /-- `w55fa93_VIN_PAC_BUFFER` -/
  pacBuffer : UInt32
  grabSync : UInt32
  i32FrameNumber : Int32
  i32StopCapture : Bool
  videommap : VideoMmap
  cropWidth : Int32
  cropHeight : Int32

def Vin.switched (s : Vin) (b : Buffers) (i : Buf) : Vin :=
  { s with
    pacBuffer := b.preview i
    frameState := update (update s.frameState i .captureDone) (i + 1) .grabbing
    base := s.planarAddr (i + 1) }

def Vin.stayed (s : Vin) (i : Buf) : Vin := { s with frameState := update s.frameState i .grabbing }

/-- `irq_handler`. After a frame in the last buffer the address for the JPEG engine is not set. -/
def irqHandler (b : Buffers) (s : Vin) : Vin :=
  if s.base.y = (s.planarAddr 0).y then
    if s.grabSync ≠ 1 then { s.switched b 0 with jpgAddr := s.planarAddr 0 } else s.stayed 0
  else if s.base.y = (s.planarAddr 1).y then
    if s.grabSync ≠ 2 then { s.switched b 1 with jpgAddr := s.planarAddr 1 } else s.stayed 1
  else if s.base.y = (s.planarAddr 2).y then
    if s.grabSync ≠ 0 then s.switched b 2 else s.stayed 2
  else s

/-- `EFAULT`, `EAGAIN` -/
def eFault : Int := 14
def eAgain : Int := 11

def vinIoctlSync (s : Vin) (arg : UInt32) : Option (Vin × Int) :=
  if h : arg.toNat < 3 then
    some ({ s with grabSync := arg }, if s.frameState ⟨arg.toNat, h⟩ ≠ .captureDone then -eAgain else 0)
  else none

def planesAt (format : PlanarFormat) (width height addr : UInt32) : PlanarBuf :=
  let u := addr + height * width
  ⟨addr, u, u + height * width / (match format with | .yuv422P => 2 | .yuv420P => 4)⟩

def vinIoctlGrabFrames (b : Buffers) (s : Vin) (m : VideoMmap) : Option Vin :=
  match m.format with
  | none => some s
  | some format =>
    if h : m.frame.toNat < 3 then
      let s := { s with
        videommap := m
        frameState := update s.frameState ⟨m.frame.toNat, h⟩ .ready }
      if s.i32FrameNumber = -1 then
        let width := if s.cropWidth < m.width then s.cropWidth else m.width
        let height := if s.cropWidth < m.width then s.cropHeight else m.height
        some { s with
          i32FrameNumber := m.frame.toInt32
          planarAddr := fun i => planesAt format width.toUInt32 height.toUInt32 (b.phys i)
          frameState := update s.frameState ⟨m.frame.toNat, h⟩ .grabbing }
      else some s
    else none

def vinSetInit (s : Vin) : Vin := { s with frameState := fun _ => .ready, i32FrameNumber := -1 }

def vinIoctlStartEndCapture (s : Vin) (arg : UInt32) : Vin :=
  if arg = 0 then { vinSetInit s with base := s.planarAddr 0, i32StopCapture := false }
  else if arg = 1 then { vinSetInit s with i32StopCapture := true }
  else s

inductive CaptureEvent
  | irq
  | sync (arg : UInt32)
  | syncFault (left : UInt32)
  | mcapture (m : VideoMmap)
  | mcaptureFault (left : VideoMmap)
  | changeResolution (cropWidth cropHeight : Int32)
  | capture (arg : UInt32)

def captureStep (b : Buffers) (s : Vin) : CaptureEvent → Option Vin
  | .irq => some (irqHandler b s)
  | .sync arg => (vinIoctlSync s arg).map (·.1)
  | .syncFault left => some { s with grabSync := left }
  | .mcapture m => vinIoctlGrabFrames b s m
  | .mcaptureFault left => some { s with videommap := left }
  | .changeResolution cropWidth cropHeight => some { s with cropWidth, cropHeight }
  | .capture arg => some (vinIoctlStartEndCapture s arg)

def Vin.opened (base jpgAddr : PlanarBuf) (pacBuffer : UInt32) (videommap : VideoMmap) (cropWidth cropHeight : Int32) :
    Vin where
  frameState _ := .ready
  planarAddr _ := ⟨0, 0, 0⟩
  base := base
  jpgAddr := jpgAddr
  pacBuffer := pacBuffer
  grabSync := -1
  i32FrameNumber := -1
  i32StopCapture := false
  videommap := videommap
  cropWidth := cropWidth
  cropHeight := cropHeight

/-! ## What a step can do -/

/-- The buffer has the number that `VIDIOCSYNC` was last called with. -/
def Vin.Syncs (s : Vin) (k : Buf) : Prop := s.grabSync = ofNat k

variable {b : Buffers} {s s' : Vin}

theorem irqHandler_cases (b : Buffers) (s : Vin) : irqHandler b s = s ∨
    ∃ i : Buf, s.base.y = (s.planarAddr i).y ∧ (i ≠ 0 → s.base.y ≠ (s.planarAddr 0).y) ∧
      (irqHandler b s = s.stayed i ∨
        ¬ s.Syncs (i + 1) ∧ ∃ jpg, irqHandler b s = { s.switched b i with jpgAddr := jpg }) := by
  unfold irqHandler
  by_cases h0 : s.base.y = (s.planarAddr 0).y
  · rw [if_pos h0]
    refine .inr ⟨0, h0, fun h => absurd rfl h, ?_⟩
    split
    · exact .inr ⟨‹_›, _, rfl⟩
    · exact .inl rfl
  rw [if_neg h0]
  by_cases h1 : s.base.y = (s.planarAddr 1).y
  · rw [if_pos h1]
    refine .inr ⟨1, h1, fun _ => h0, ?_⟩
    split
    · exact .inr ⟨‹_›, _, rfl⟩
    · exact .inl rfl
  rw [if_neg h1]
  by_cases h2 : s.base.y = (s.planarAddr 2).y
  · rw [if_pos h2]
    refine .inr ⟨2, h2, fun _ => h0, ?_⟩
    split
    · exact .inr ⟨‹_›, s.jpgAddr, rfl⟩
    · exact .inl rfl
  exact .inl (if_neg h2)

theorem vinIoctlSync_cases {arg : UInt32} {r : Int} (h : vinIoctlSync s arg = some (s', r)) : s' = { s with grabSync := arg } ∧
      ∀ k : Buf, arg = ofNat k → r = 0 → s.frameState k = .captureDone := by
  unfold vinIoctlSync at h
  split at h
  case isFalse => cases h
  case isTrue harg =>
    simp only [Option.some.injEq, Prod.mk.injEq] at h
    refine ⟨h.1.symm, fun k hk hr => ?_⟩
    have hn : arg.toNat = k.val := by
      rw [hk, toNat_ofNat_of_lt' (Nat.lt_trans k.isLt (by decide))]
    by_contra hne
    rw [if_pos (by simpa only [hn] using hne), hr] at h
    exact absurd h.2 (by decide)

theorem vinIoctlGrabFrames_cases {m : VideoMmap} (h : vinIoctlGrabFrames b s m = some s') :
    s'.base = s.base ∧ s'.grabSync = s.grabSync ∧ (∀ k, s'.frameState k = .captureDone → s.frameState k = .captureDone) ∧
    (s'.planarAddr = s.planarAddr ∨ ∀ i, (s'.planarAddr i).y = b.phys i) := by
  have hupd : ∀ (st : Buf → FrameState) (i k : Buf) (x : FrameState), x ≠ .captureDone →
      update st i x k = .captureDone → st k = .captureDone := by
    intro st i k x hx hk
    by_cases hki : k = i
    · rw [hki, update_self] at hk
      exact absurd hk hx
    · rwa [update_of_ne hki] at hk
  unfold vinIoctlGrabFrames at h
  split at h
  case h_1 => cases h; exact ⟨rfl, rfl, fun _ hk => hk, .inl rfl⟩
  case h_2 =>
    split at h
    case isFalse => cases h
    case isTrue =>
      dsimp only at h
      split at h
      · cases h
        exact ⟨rfl, rfl, fun k hk => hupd _ _ _ _ (by decide) (hupd _ _ _ _ (by decide) hk), .inr fun _ => rfl⟩
      · cases h
        exact ⟨rfl, rfl, fun k hk => hupd _ _ _ _ (by decide) hk, .inl rfl⟩

/-! ## A captured buffer is not written to -/

def Tabled (b : Buffers) (s : Vin) : Prop :=
  (∀ i, (s.planarAddr i).y = b.phys i) ∨ ∀ i, (s.planarAddr i).y = 0

def Unwritten (b : Buffers) (s : Vin) (k : Buf) : Prop := s.base.y ≠ b.phys k

structure CaptureWf (b : Buffers) (s : Vin) : Prop where
  table : Tabled b s
  captured : ∀ k, s.frameState k = .captureDone → Unwritten b s k

/-- Between a `VIDIOCSYNC` for the buffer and the next one. -/
structure Held (b : Buffers) (k : Buf) (s : Vin) : Prop where
  table : Tabled b s
  syncs : s.Syncs k
  unwritten : Unwritten b s k

theorem first_of_unset (hz : ∀ i, (s.planarAddr i).y = 0) {i : Buf} (hi : s.base.y = (s.planarAddr i).y)
    (h0 : i ≠ 0 → s.base.y ≠ (s.planarAddr 0).y) : i = 0 := by
  by_contra hne
  exact h0 hne (by rw [hi, hz, hz])

theorem irqHandler_captureWf (h : CaptureWf b s) : CaptureWf b (irqHandler b s) := by
  obtain heq | ⟨i, hi, h0, heq | ⟨-, jpg, heq⟩⟩ := irqHandler_cases b s
  · rwa [heq]
  · rw [heq]
    refine ⟨h.table, fun k hk => ?_⟩
    by_cases hki : k = i
    · rw [hki] at hk
      exact absurd (hk.symm.trans (update_self ..)) (by decide)
    · exact h.captured k ((update_of_ne hki ..).symm.trans hk)
  · rw [heq]
    refine ⟨h.table, fun k hk => ?_⟩
    have hnext : k ≠ i + 1 := fun hk' => by
      rw [hk'] at hk
      exact absurd (hk.symm.trans (update_self ..)) (by decide)
    have hold : k ≠ i → s.frameState k = .captureDone := fun hki =>
      ((update_of_ne hnext ..).trans (update_of_ne hki ..)).symm.trans hk
    show (s.planarAddr (i + 1)).y ≠ b.phys k
    obtain ht | hz := h.table
    · rw [ht]
      exact fun heq => hnext (b.distinct heq).symm
    · -- the registers keep the address `0`, which is not that of the first buffer
      rw [hz]
      by_cases hki : k = i
      · rw [hki, first_of_unset hz hi h0]
        exact b.first.symm
      · have hun : s.base.y ≠ b.phys k := h.captured k (hold hki)
        rwa [hi, hz] at hun

theorem irqHandler_held {k : Buf} (h : Held b k s) : Held b k (irqHandler b s) := by
  obtain heq | ⟨i, hi, h0, heq | ⟨hsync, jpg, heq⟩⟩ := irqHandler_cases b s
  · rwa [heq]
  · rw [heq]
    exact ⟨h.table, h.syncs, h.unwritten⟩
  · rw [heq]
    refine ⟨h.table, h.syncs, ?_⟩
    show (s.planarAddr (i + 1)).y ≠ b.phys k
    obtain ht | hz := h.table
    · rw [ht]
      intro heq
      rw [b.distinct heq] at hsync
      exact hsync h.syncs
    · have hun : s.base.y ≠ b.phys k := h.unwritten
      rw [hi, hz] at hun
      rwa [hz]

theorem vinIoctlGrabFrames_tabled {m : VideoMmap} (h : vinIoctlGrabFrames b s m = some s') (ht : Tabled b s) : Tabled b s' := by
  obtain ⟨-, -, -, hta | hta⟩ := vinIoctlGrabFrames_cases h
  · rwa [Tabled, hta]
  · exact .inl hta

/-- **One step** keeps the captured buffers apart from the written one. -/
theorem captureStep_captureWf (e : CaptureEvent) (h : CaptureWf b s) (hs : captureStep b s e = some s') : CaptureWf b s' := by
  cases e with
  | irq => cases hs; exact irqHandler_captureWf h
  | sync arg =>
    obtain ⟨⟨s₁, r⟩, hsync, rfl⟩ := Option.map_eq_some_iff.mp hs
    rw [(vinIoctlSync_cases hsync).1]
    exact ⟨h.table, h.captured⟩
  | syncFault left => cases hs; exact ⟨h.table, h.captured⟩
  | mcapture m =>
    obtain ⟨hbase, -, hst, -⟩ := vinIoctlGrabFrames_cases hs
    exact ⟨vinIoctlGrabFrames_tabled hs h.table, fun k hk => by
      have hun := h.captured k (hst k hk)
      rwa [Unwritten, hbase]⟩
  | mcaptureFault left => cases hs; exact ⟨h.table, h.captured⟩
  | changeResolution width height => cases hs; exact ⟨h.table, h.captured⟩
  | capture arg =>
    cases hs
    unfold vinIoctlStartEndCapture
    split
    · exact ⟨h.table, fun k hk => by cases hk⟩
    · split
      · exact ⟨h.table, fun k hk => by cases hk⟩
      · exact h

/-- Neither a `VIDIOCSYNC` nor the start of the capture. -/
def CaptureEvent.Quiet : CaptureEvent → Prop
  | .sync _ | .syncFault _ => False
  | .capture arg => arg ≠ 0
  | .irq | .mcapture _ | .mcaptureFault _ | .changeResolution _ _ => True

/-- **One step** without a sync or start keeps a buffer held. -/
theorem captureStep_held {k : Buf} (e : CaptureEvent) (h : Held b k s) (hq : e.Quiet)
    (hs : captureStep b s e = some s') : Held b k s' := by
  cases e with
  | irq => cases hs; exact irqHandler_held h
  | sync arg => exact hq.elim
  | syncFault left => exact hq.elim
  | mcapture m =>
    obtain ⟨hbase, hsync, -, -⟩ := vinIoctlGrabFrames_cases hs
    have hun := h.unwritten
    have hk := h.syncs
    exact ⟨vinIoctlGrabFrames_tabled hs h.table, by rwa [Vin.Syncs, hsync], by rwa [Unwritten, hbase]⟩
  | mcaptureFault left => cases hs; exact ⟨h.table, h.syncs, h.unwritten⟩
  | changeResolution width height => cases hs; exact ⟨h.table, h.syncs, h.unwritten⟩
  | capture arg =>
    cases hs
    unfold vinIoctlStartEndCapture
    rw [if_neg hq]
    split
    · exact ⟨h.table, h.syncs, h.unwritten⟩
    · exact h

theorem held_of_sync {k : Buf} (h : CaptureWf b s) (hsync : vinIoctlSync s (ofNat k) = some (s', 0)) : Held b k s' := by
  obtain ⟨rfl, hdone⟩ := vinIoctlSync_cases hsync
  exact ⟨h.table, rfl, h.captured k (hdone k rfl rfl)⟩

/-- **Captured frames are not overwritten** before the next `VIDIOCSYNC` or start. -/
theorem capture_not_overwritten (b : Buffers) (base jpgAddr : PlanarBuf) (pacBuffer : UInt32) (videommap : VideoMmap)
    (cropWidth cropHeight : Int32) (es : List CaptureEvent) : Always (captureStep b)
      (fun s =>
        (∀ k, s.frameState k = .captureDone → Unwritten b s k) ∧
        ∀ (k : Buf) (s' : Vin), vinIoctlSync s (ofNat k) = some (s', 0) →
          ∀ fs : List CaptureEvent, (∀ e ∈ fs, e.Quiet) → Always (captureStep b) (Unwritten b · k) s' fs)
      (Vin.opened base jpgAddr pacBuffer videommap cropWidth cropHeight) es := by
  have hwf : Always (captureStep b) (CaptureWf b) (Vin.opened base jpgAddr pacBuffer videommap cropWidth cropHeight) es :=
    always_of_step (fun _ e _ h hs => captureStep_captureWf e h hs) ⟨.inr fun _ => rfl, nofun⟩
  refine hwf.mono fun s h => ⟨h.captured, fun k s' hsync fs hq => ?_⟩
  have hheld : Always (captureStep b) (Held b k) s' fs :=
    always_of_eachStep (fun _ e _ h hq hs => captureStep_held e h hq hs) (held_of_sync h hsync)
      (eachStep_of_forall hq s')
  exact hheld.mono fun _ h => h.unwritten

def Buffers.ofBase (addr size : UInt32) (preview : Buf → UInt32) (h0 : addr ≠ 0) (h1 : addr ≠ addr + size)
    (h2 : addr ≠ addr + size + size) (h3 : addr + size ≠ addr + size + size) : Buffers where
  preview := preview
  phys i := if i = 0 then addr else if i = 1 then addr + size else addr + size + size
  distinct := by
    intro i j h
    match i, j with
    | 0, 0 | 1, 1 | 2, 2 => rfl
    | 0, 1 => exact absurd h h1
    | 1, 0 => exact absurd h.symm h1
    | 0, 2 => exact absurd h h2
    | 2, 0 => exact absurd h.symm h2
    | 1, 2 => exact absurd h h3
    | 2, 1 => exact absurd h.symm h3
  first := h0

def vgaBuffers : Buffers :=
  .ofBase 0x400000 0x96000 (fun i => 0x800000 + 0x96000 * ofNat i) (by decide) (by decide) (by decide) (by decide)

end NuWicam.Kernel
