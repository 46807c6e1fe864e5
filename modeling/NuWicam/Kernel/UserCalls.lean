import NuWicam.Kernel.Scaling
import NuWicam.Kernel.Locks

/-!
# The calls of a user of the capture device (`videoin.c`, `vin_ioctl.c`)

A call has the indices that it uses into the two arrays of buffers and the number of bytes it copies to the user, and is
`none` where it divides by zero. Frames, locks and planes are those of `Capture`, `Locks` and `PlaneLayout`. The palette is
left out; what the sensor's `change_image_resolution`, which `VIDIOCMCAPTURE` calls, makes of the registers is a step of its
own.
-/

namespace NuWicam.Kernel.User

open Lib

/-! ## The configuration -/

/-- `VIDEOIN_PREVIEW_BUFFER_NUM` and `PAGE_SIZE` -/
def previewBufferNum : Nat := 3
def pageSize : Nat := 4096

/-- What is allocated for a preview buffer: `u32VinPreBufSize + PAGE_SIZE` -/
def previewSize (packetWidth packetHeight : UInt32) : Nat := (packetWidth * packetHeight * 2).toNat + pageSize

/-- What the build, the sensor and `videoin_init` give: `VIDEOIN_ENCODE_BUFFER_NUM`, `LCDWIDTH` (that of the panel, or 160
without one), `i32packet_width`, `i32packet_height`, `u16MaxImgWidth`, `u16MaxImgHeight`, `CONFIG_PLANAR_YUV422_YUV420_DEV1`,
and the preview buffers. -/
structure Config where
  encodeNum : Nat
  lcdWidth : UInt32
  packetWidth : UInt32
  packetHeight : UInt32
  maxImgWidth : UInt16
  maxImgHeight : UInt16
  planarYuv422 : Bool
  previewPhys : Nat → UInt32
  encodeNum_pos : 0 < encodeNum
  encodeNum_le : encodeNum ≤ 3
  preview_lt : ∀ i < previewBufferNum, (previewPhys i).toNat + previewSize packetWidth packetHeight < 2 ^ 32

/-- What is allocated for an encode buffer: `u32VinEncBufSize + PAGE_SIZE` -/
def Config.encodeSize (c : Config) : Nat :=
  let area := c.maxImgHeight.toUInt32 * c.maxImgWidth.toUInt32
  (if c.planarYuv422 then area * 2 else area * 3 / 2).toNat + pageSize

/-! ## The state and the calls -/

structure VideoWindow where
  x : UInt32
  y : UInt32
  width : UInt32
  height : UInt32
  chromakey : UInt32
  flags : UInt32
  clips : UInt32
  clipcount : Int32
  deriving DecidableEq

/-- The part of `videoin_priv_t` that the calls share, and two registers -/
structure Vin where
  i32FrameNumber : Int
  i32ReadFrameNum : Int
  grabSync : UInt32
  i32MappingBuf : Int32
  videommapFrame : UInt32
  videowin : VideoWindow
  i32IsEnablePreview : Bool
  /-- `pFramePackerAddr` -/
  packerAddr : Nat → UInt32
  regs : ScaleRegs
  vstride : BitVec 32

inductive Access
  | encode (index : Int)
  | preview (index : Int)
  deriving DecidableEq

structure Outcome where
  state : Vin
  accesses : List Access
  copied : Nat

/-- Another format than the two planar ones is refused before anything is stored. -/
def grabFrames (s : Vin) (planar : Bool) (frame : UInt32) : Outcome :=
  if planar then
    let s := { s with videommapFrame := frame }
    if s.i32FrameNumber = -1 then
      ⟨{ s with i32FrameNumber := frame.toInt32.toInt }, [.encode frame.toNat, .encode frame.toInt32.toInt], 0⟩
    else ⟨s, [.encode frame.toNat], 0⟩
  else ⟨s, [], 0⟩

/-- `vin_ioctl_sync` -/
def sync (s : Vin) (arg : UInt32) : Outcome := ⟨{ s with grabSync := arg }, [.encode arg.toNat], 0⟩

/-- `vin_ioctl_set_mapping_buffer`, with what it returns: the number is stored first. -/
def setMappingBuffer (c : Config) (s : Vin) (arg : Int32) : Outcome × Int :=
  (⟨{ s with i32MappingBuf := arg }, [], 0⟩, if (c.encodeNum + previewBufferNum : Int) ≤ arg.toInt then -eInval else 0)

/-- `vin_ioctl_query_packet_info` and `vin_ioctl_query_planar_info` -/
def queryPacketInfo (s : Vin) : Outcome := ⟨s, [.preview s.grabSync.toNat], 0⟩
def queryPlanarInfo (s : Vin) : Outcome := ⟨s, [.encode s.grabSync.toNat], 0⟩

/-- `videoin_mmap` -/
def mmap (c : Config) (s : Vin) : Outcome :=
  if s.i32MappingBuf.toInt < c.encodeNum then ⟨s, [.encode s.i32MappingBuf.toInt], 0⟩
  else ⟨s, [.preview (s.i32MappingBuf.toInt - c.encodeNum)], 0⟩

def VideoWindow.bytes (w : VideoWindow) : UInt32 := w.height * w.width * 16 / 8

/-- `videoin_read`; `fault` if the copy to the user fails -/
def read (c : Config) (s : Vin) (count : UInt32) (fault : Bool) : Outcome :=
  let size := if count ≤ s.videowin.bytes then count else s.videowin.bytes
  if fault then ⟨s, [.encode s.i32ReadFrameNum], size.toNat⟩
  else if s.i32FrameNumber = -1 then
    ⟨{ s with
        i32FrameNumber := s.i32ReadFrameNum
        i32ReadFrameNum := (s.i32ReadFrameNum + 1).tmod c.encodeNum },
      [.encode s.i32ReadFrameNum, .encode s.i32ReadFrameNum], size.toNat⟩
  else ⟨{ s with i32ReadFrameNum := (s.i32ReadFrameNum + 1).tmod c.encodeNum }, [.encode s.i32ReadFrameNum], size.toNat⟩

def Refused (c : Config) (w : VideoWindow) : Prop := c.packetWidth < w.width ∨ c.packetHeight < w.height

instance (c : Config) (w : VideoWindow) : Decidable (Refused c w) := inferInstanceAs (Decidable (_ ∨ _))

/-- `vin_ioctl_set_overlay_window`: the window is stored first. -/
def setOverlayWindow (c : Config) (s : Vin) (w : VideoWindow) : Option Outcome :=
  let s := { s with videowin := w }
  if Refused c w then some ⟨s, [], 0⟩
  else (previewPipeSize w.height.toUInt16.toNat w.width.toUInt16.toNat s.regs).map fun result =>
    ⟨{ s with
        packerAddr := fun i => c.previewPhys i + c.packetWidth * w.y * 2 + w.x * 2
        vstride := setStride (if s.i32IsEnablePreview then c.lcdWidth.toBitVec else w.width.toBitVec) (getStride s.vstride).2
        regs := result.2 },
      (List.range previewBufferNum).map fun i : Nat => .preview i, 0⟩

/-- `vin_ioctl_start_end_capture`, which starts or stops, and `vin_set_init` -/
def startEndCapture (s : Vin) (arg : UInt32) : Outcome :=
  if arg = 0 ∨ arg = 1 then ⟨{ s with i32FrameNumber := -1, i32ReadFrameNum := 0 }, [], 0⟩ else ⟨s, [], 0⟩

inductive Call
  | mcapture (planar : Bool) (frame : UInt32)
  | mcaptureFault (left : UInt32)
  | changeResolution (regs : ScaleRegs)
  | sync (arg : UInt32)
  | syncFault (left : UInt32)
  | sMapBuf (arg : Int32)
  | sMapBufFault (left : Int32)
  | gPacketInfo
  | gPlanarInfo
  | read (count : UInt32) (fault : Bool)
  | mmap
  | sWin (window : VideoWindow)
  | capture (arg : UInt32)

def call (c : Config) (s : Vin) : Call → Option Outcome
  | .mcapture planar frame => some (grabFrames s planar frame)
  | .mcaptureFault left => some ⟨{ s with videommapFrame := left }, [], 0⟩
  | .changeResolution regs => some ⟨{ s with regs }, [], 0⟩
  | .sync arg => some (sync s arg)
  | .syncFault left => some ⟨{ s with grabSync := left }, [], 0⟩
  | .sMapBuf arg => some (setMappingBuffer c s arg).1
  | .sMapBufFault left => some ⟨{ s with i32MappingBuf := left }, [], 0⟩
  | .gPacketInfo => some (queryPacketInfo s)
  | .gPlanarInfo => some (queryPlanarInfo s)
  | .read count fault => some (read c s count fault)
  | .mmap => some (mmap c s)
  | .sWin window => setOverlayWindow c s window
  | .capture arg => some (startEndCapture s arg)

def step (c : Config) (s : Vin) (e : Call) : Option Vin := (call c s e).map (·.state)

/-- It leaves the buffer to map, the window and the registers. -/
def opened (i32MappingBuf : Int32) (videowin : VideoWindow) (i32IsEnablePreview : Bool) (packerAddr : Nat → UInt32)
    (regs : ScaleRegs) (vstride : BitVec 32) : Vin where
  i32FrameNumber := -1
  i32ReadFrameNum := 0
  grabSync := -1
  i32MappingBuf := i32MappingBuf
  videommapFrame := 0
  videowin := videowin
  i32IsEnablePreview := i32IsEnablePreview
  packerAddr := packerAddr
  regs := regs
  vstride := vstride

/-- A window with the other fields of `videoin_init` -/
def VideoWindow.plain (x y width height : UInt32) : VideoWindow := ⟨x, y, width, height, -1, 0, 0, 0⟩

def vgaConfig : Config where
  encodeNum := 3
  lcdWidth := 160
  packetWidth := 160
  packetHeight := 120
  maxImgWidth := 640
  maxImgHeight := 480
  planarYuv422 := true
  previewPhys i := 0x800000 + 0x10000 * UInt32.ofNat i
  encodeNum_pos := by decide
  encodeNum_le := by decide
  preview_lt := by decide

def vgaOpened : Vin := opened 0 (.plain 0 0 160 120) false vgaConfig.previewPhys ⟨0x01E00280, 0, 0⟩ 0

end NuWicam.Kernel.User
