import NuWicam.Lib.Semaphore
import NuWicam.Kernel.Capture

/-!
# The locks of the JPEG device and of the capture device (`jpegcodec.c`, `videoin.c`)

The calls of any number of processes run side by side, statement by statement, and anything may change the device in between.
`jpegcodec_read` with `O_NONBLOCK` gives the semaphore without having taken it, and `jpegcodec_write` and `videoin_read` keep
it if the copy from or to the user fails (`locks_balanced`).
-/

namespace NuWicam.Kernel

open Lib Bool

/-! ## The source -/

inductive JpegState
  | idle
  | encoding
  | encodedImage
  | decoding
  | decodedHeader
  | decodedImage
  | decodeError
  | memShortage
  | decodeParamError
  | encodeParamError
  | closed
deriving DecidableEq, Repr

def JpegState.isFinished : JpegState → Bool
  | .decodedImage | .decodeError | .encodedImage => true
  | _ => false

structure JpegDev where
  state : JpegState
  encode : UInt32
  buffercount : UInt32
  bufferend : UInt32
  bufferendBak : UInt32
  decInWaitBufferEmpty : UInt32
  decInWaitBufferSize : UInt32

structure FileCall where
  nonblock : Bool
  count : UInt32

def eNoMem : Int := 12
def eInval : Int := 22

inductive ReadPc
  | entry
  | testEnd
  | testState
  | waiting
  | down
  | store
  | alloc
  | copy (size : UInt32)
  | out (ret : Int)
  | out1 (ret : Int)

inductive WritePc
  | entry
  | testState
  | waiting
  | down
  | copy
  | up

inductive JpegCall
  | read (f : FileCall) (pc : ReadPc)
  | write (f : FileCall) (pc : WritePc)

/-- `sizeof(jpeg_info_t) + sizeof(__u32) * priv->buffercount` -/
def JpegDev.infoSize (d : JpegDev) : UInt32 := 24 + 4 * d.buffercount

/-- There is nothing to wait for after the first test. -/
def JpegDev.newBuffer (d : JpegDev) : Bool := d.bufferendBak ≠ d.bufferend
def JpegDev.hasResult (d : JpegDev) : Bool := d.state.isFinished || d.state = .memShortage

/-- `ok` says whether `kmalloc` and `copy_to_user` succeed. -/
def jpegcodecRead (d : JpegDev) (f : FileCall) (ok : Bool) : ReadPc → JpegDev × CallState JpegCall Int
  | .entry => (d, .running (.read f (if d.encode ≠ 0 ∧ 1 < d.buffercount then .testEnd else .testState)))
  | .testEnd =>
    (d, .running (.read f (if d.newBuffer then .down else if f.nonblock then .out1 (-eAgain) else .waiting)))
  | .testState =>
    (d, .running (.read f (if d.hasResult then .down else if f.nonblock then .out1 (-eAgain) else .waiting)))
  | .waiting => (d, .running (.read f .down))
  | .down => (d, .running (.read f .store))
  | .store => ({ d with bufferendBak := d.bufferend }, .running (.read f .alloc))
  | .alloc =>
    (d, .running (.read f
      (if ok then if f.count ≠ d.infoSize then .out (-eInval) else .copy d.infoSize else .out1 (-eNoMem))))
  | .copy size => (d, .running (.read f (.out (if ok then size.toNat else -eFault))))
  | .out ret => (d, .running (.read f (.out1 ret)))
  | .out1 ret => (d, .returned ret)

/-- `ok` says whether `copy_from_user` succeeds; if not, the call returns at once. -/
def jpegcodecWrite (d : JpegDev) (f : FileCall) (ok : Bool) : WritePc → JpegDev × CallState JpegCall Int
  | .entry =>
    (d, .running (.write f
      (if d.encode = 0 ∧ d.decInWaitBufferSize ≠ 0 ∧ d.decInWaitBufferEmpty = 1 then .down else .testState)))
  | .testState =>
    (d, if d.state.isFinished then .running (.write f .down)
      else if f.nonblock then .returned (-eAgain) else .running (.write f .waiting))
  | .waiting => (d, .running (.write f .down))
  | .down => (d, .running (.write f .copy))
  | .copy => (d, if ok then .running (.write f .up) else .returned (-eFault))
  | .up => (d, .returned f.count.toNat)

def jpegCode : SemCode JpegDev JpegCall Int Bool where
  entry
    | .read _ .entry | .write _ .entry => true
    | _ => false
  op
    | .read _ .down | .write _ .down => .down
    | .read _ (.out1 _) | .write _ .up => .up
    | _ => .skip
  next d p ok :=
    match p with
    | .read f pc => jpegcodecRead d f ok pc
    | .write f pc => jpegcodecWrite d f ok pc

structure VinDev where
  frameState : Buf → FrameState
  i32ReadFrameNum : Buf
  i32FrameNumber : Int32
  winWidth : UInt32
  winHeight : UInt32

inductive VinPc
  | entry
  | sleeping
  | size
  | down (size : UInt32)
  | copy (size : UInt32)
  | up (size : UInt32)
  | finish (size : UInt32)

structure VinCall where
  count : UInt32
  pc : VinPc

def VinDev.nextFrame (d : VinDev) : VinDev :=
  let free := Function.update d.frameState d.i32ReadFrameNum .ready
  if d.i32FrameNumber = -1 then
    { d with
      i32FrameNumber := .ofNat d.i32ReadFrameNum
      frameState := Function.update free d.i32ReadFrameNum .grabbing
      i32ReadFrameNum := d.i32ReadFrameNum.next }
  else { d with frameState := free, i32ReadFrameNum := d.i32ReadFrameNum.next }

/-- `ok` says whether `copy_to_user` succeeds; if not, the call returns at once. -/
def videoinRead (d : VinDev) (count : UInt32) (ok : Bool) : VinPc → VinDev × CallState VinCall Int
  | .entry =>
    (d, .running ⟨count, if d.frameState d.i32ReadFrameNum ≠ .captureDone then .sleeping else .size⟩)
  | .sleeping => (d, .running ⟨count, .size⟩)
  | .size => (d, .running ⟨count, .down (d.winHeight * d.winWidth * 16 / 8)⟩)
  | .down size => (d, .running ⟨count, .copy (if count ≤ size then count else size)⟩)
  | .copy size => (d, if ok then .running ⟨count, .up size⟩ else .returned (-eFault))
  | .up size => (d, .running ⟨count, .finish size⟩)
  | .finish size => (d.nextFrame, .returned size.toInt32.toInt)

def vinCode : SemCode VinDev VinCall Int Bool where
  entry
    | ⟨_, .entry⟩ => true
    | _ => false
  op
    | ⟨_, .down _⟩ => .down
    | ⟨_, .up _⟩ => .up
    | _ => .skip
  next d p ok := videoinRead d p.count ok p.pc

/-! ## Who holds the semaphore -/

/-- From the statement after `down` to the one with `up`. -/
def JpegCall.holds : JpegCall → Bool
  | .read _ .store | .read _ .alloc | .read _ (.copy _) | .read _ (.out _) | .read _ (.out1 _) => true
  | .write _ .copy | .write _ .up => true
  | _ => false

def VinCall.holds : VinCall → Bool
  | ⟨_, .copy _⟩ | ⟨_, .up _⟩ => true
  | _ => false

/-- A `jpegcodec_read` that finds nothing to read may wait, and the copy of a `jpegcodec_write` succeeds. -/
def JpegCall.clean (d : JpegDev) (ok : Bool) : JpegCall → Bool
  | .read f .testEnd => d.newBuffer || !f.nonblock
  | .read f .testState => d.hasResult || !f.nonblock
  | .write _ .copy => ok
  | _ => true

def VinCall.clean (ok : Bool) : VinCall → Bool
  | ⟨_, .copy _⟩ => ok
  | _ => true

theorem jpegCode_accounted_iff (d : JpegDev) (p : JpegCall) (ok : Bool) :
    jpegCode.Accounted JpegCall.holds d p ok ↔ p.clean d ok = true := by
  match p with
  | .read f .entry =>
    refine iff_of_true ?_ rfl
    show CallState.holding _ (jpegcodecRead d f ok .entry).2 = false
    simp only [jpegcodecRead]
    split <;> rfl
  | .read f .testEnd =>
    show CallState.holding _ (jpegcodecRead d f ok .testEnd).2 = false ↔ (d.newBuffer || !f.nonblock)
    simp only [jpegcodecRead]
    cases d.newBuffer <;> cases f.nonblock <;> simp [JpegCall.holds]
  | .read f .testState =>
    show CallState.holding _ (jpegcodecRead d f ok .testState).2 = false ↔ (d.hasResult || !f.nonblock)
    simp only [jpegcodecRead]
    cases d.hasResult <;> cases f.nonblock <;> simp [JpegCall.holds]
  | .read f .alloc =>
    refine iff_of_true ?_ rfl
    show CallState.holding _ (jpegcodecRead d f ok .alloc).2
    simp only [jpegcodecRead]
    cases ok
    · rfl
    · show JpegCall.holds (.read f (if f.count ≠ d.infoSize then .out (-eInval) else .copy d.infoSize))
      split <;> rfl
  | .read _ .waiting | .read _ .store | .read _ (.copy _) | .read _ (.out _) => exact iff_of_true rfl rfl
  | .read _ .down | .read _ (.out1 _) => exact iff_of_true ⟨rfl, rfl⟩ rfl
  | .write f .entry =>
    refine iff_of_true ?_ rfl
    show CallState.holding _ (jpegcodecWrite d f ok .entry).2 = false
    simp only [jpegcodecWrite]
    split <;> rfl
  | .write f .testState =>
    refine iff_of_true ?_ rfl
    show CallState.holding _ (jpegcodecWrite d f ok .testState).2 = false
    simp only [jpegcodecWrite]
    cases d.state.isFinished <;> cases f.nonblock <;> rfl
  | .write _ .waiting => exact iff_of_true rfl rfl
  | .write _ .down | .write _ .up => exact iff_of_true ⟨rfl, rfl⟩ rfl
  | .write f .copy =>
    cases ok
    · exact iff_of_false false_ne_true false_ne_true
    · exact iff_of_true rfl rfl

theorem vinCode_accounted_iff (d : VinDev) (p : VinCall) (ok : Bool) :
    vinCode.Accounted VinCall.holds d p ok ↔ p.clean ok = true := by
  match p with
  | ⟨count, .entry⟩ =>
    refine iff_of_true ?_ rfl
    show CallState.holding _ (videoinRead d count ok .entry).2 = false
    simp only [videoinRead]
    split <;> rfl
  | ⟨_, .sleeping⟩ | ⟨_, .size⟩ | ⟨_, .finish _⟩ => exact iff_of_true rfl rfl
  | ⟨_, .down _⟩ | ⟨_, .up _⟩ => exact iff_of_true ⟨rfl, rfl⟩ rfl
  | ⟨count, .copy size⟩ =>
    cases ok
    · exact iff_of_false false_ne_true false_ne_true
    · exact iff_of_true rfl rfl

theorem jpegCode_entry (p : JpegCall) (h : jpegCode.entry p) : p.holds = false := by
  match p, h with
  | .read _ .entry, _ | .write _ .entry, _ => rfl

theorem vinCode_entry (p : VinCall) (h : vinCode.entry p) : p.holds = false := by
  match p, h with
  | ⟨_, .entry⟩, _ => rfl

/-! ## Both devices -/

abbrev Drivers := Sem JpegDev JpegCall Int × Sem VinDev VinCall Int

abbrev DriverEvent := SemEvent JpegDev JpegCall Bool ⊕ SemEvent VinDev VinCall Bool

def driverStep : Drivers → DriverEvent → Option Drivers := sideBySide jpegCode.step vinCode.step

/-- After `init_MUTEX`. -/
def Drivers.init (jpeg : JpegDev) (vin : VinDev) : Drivers := (.init 1 jpeg, .init 1 vin)

def CleanStep : Drivers → DriverEvent → Prop :=
  OnEach (OnMoves fun d p ok => p.clean d ok = true) (OnMoves fun _ p ok => p.clean ok = true)

instance (s : Drivers) : ∀ e : DriverEvent, Decidable (CleanStep s e)
  | .inl e => inferInstanceAs (Decidable (OnMoves (fun d p ok => JpegCall.clean d ok p = true) s.1 e))
  | .inr e => inferInstanceAs (Decidable (OnMoves (fun _ p ok => VinCall.clean ok p = true) s.2 e))

/-- The semaphore is never above `1`, it is `1` whenever no call is in progress, and one call at most is between its
`down` and its `up`. -/
structure Balanced {D P R : Type*} (holds : P → Bool) (s : Sem D P R) : Prop where
  count_le : s.count ≤ 1
  count_idle : s.Idle → s.count = 1
  holders_le : s.holders holds ≤ 1

theorem balanced_of_accounts {D P R : Type*} {holds : P → Bool} {s : Sem D P R} (h : s.Accounts holds 1) :
    Balanced holds s := ⟨h.count_le, h.count_idle, h.holders_le⟩

/-- **The locks are balanced** in every run without one of the two kinds of exits. -/
theorem locks_balanced (jpeg : JpegDev) (vin : VinDev) (es : List DriverEvent)
    (h : EachStep driverStep CleanStep (Drivers.init jpeg vin) es) :
    Always driverStep (fun s => Balanced JpegCall.holds s.1 ∧ Balanced VinCall.holds s.2) (Drivers.init jpeg vin)
      es := by
  have hacc : Always driverStep (fun s => s.1.Accounts JpegCall.holds 1 ∧ s.2.Accounts VinCall.holds 1)
      (Drivers.init jpeg vin) es := by
    refine always_sideBySide (fun s e s' hs hc => ?_) (fun s e s' hs hc => ?_)
      ⟨Sem.init_accounts _ 1 jpeg, Sem.init_accounts _ 1 vin⟩ h
    · exact SemCode.step_accounts jpegCode_entry hs (hc.mono fun d p ok => (jpegCode_accounted_iff d p ok).mpr)
    · exact SemCode.step_accounts vinCode_entry hs (hc.mono fun d p ok => (vinCode_accounted_iff d p ok).mpr)
  exact hacc.mono fun s hs => ⟨balanced_of_accounts hs.1, balanced_of_accounts hs.2⟩

/-! ## Runs of both kinds -/

def JpegDev.opened : JpegDev := ⟨.idle, 1, 1, 0, 0, 0, 0⟩
def VinDev.opened (first : Buf) : VinDev := ⟨fun _ => .ready, first, -1, 320, 240⟩

def twoReads : List DriverEvent :=
  [.inl (.call (.read ⟨false, 28⟩ .entry)), .inr (.call ⟨100, .entry⟩),
   .inl (.move 0 true), .inl (.move 0 true), .inr (.move 0 true), .inr (.move 0 true), .inr (.move 0 true),
   .inl (.change ⟨.encodedImage, 1, 1, 0, 0, 0, 0⟩), .inl (.move 0 true), .inl (.move 0 true), .inr (.move 0 true),
   .inr (.move 0 true), .inl (.move 0 true), .inl (.move 0 true), .inl (.move 0 false), .inl (.move 0 true),
   .inr (.move 0 true), .inl (.move 0 true), .inr (.move 0 true)]

theorem twoReads_balanced : EachStep driverStep CleanStep (Drivers.init .opened (.opened 0)) twoReads ∧
    Always driverStep (fun s => Balanced JpegCall.holds s.1 ∧ Balanced VinCall.holds s.2)
      (Drivers.init .opened (.opened 0)) twoReads := by
  have hclean : EachStep driverStep CleanStep (Drivers.init .opened (.opened 0)) twoReads := by decide
  exact ⟨hclean, locks_balanced .opened (.opened 0) twoReads hclean⟩

/-- A `jpegcodec_read` with `O_NONBLOCK` before the first picture. -/
def nonblockRead : List DriverEvent :=
  [.inl (.call (.read ⟨true, 28⟩ .entry)), .inl (.move 0 true), .inl (.move 0 true), .inl (.move 0 true)]

def faultyCopies : List DriverEvent :=
  [.inl (.change ⟨.encodedImage, 1, 1, 0, 0, 0, 0⟩), .inl (.call (.write ⟨false, 16⟩ .entry)), .inl (.move 0 true),
   .inl (.move 0 true), .inl (.move 0 true), .inl (.move 0 false),
   .inr (.call ⟨100, .entry⟩), .inr (.move 0 true), .inr (.move 0 true), .inr (.move 0 true), .inr (.move 0 true),
   .inr (.move 0 false)]

theorem locks_unbalanced :
    (∃ s, run driverStep (Drivers.init .opened (.opened 0)) nonblockRead = some s ∧ s.1.Idle ∧ s.1.count = 2) ∧
    (∃ s, run driverStep (Drivers.init .opened (.opened 0)) faultyCopies = some s ∧
      s.1.Idle ∧ s.2.Idle ∧ s.1.count = 0 ∧ s.2.count = 0) ∧
    ¬ Always driverStep (fun s => Balanced JpegCall.holds s.1 ∧ Balanced VinCall.holds s.2)
      (Drivers.init .opened (.opened 0)) nonblockRead := by
  refine ⟨⟨_, rfl, List.forall_mem_singleton.mpr rfl, rfl⟩,
    ⟨_, rfl, List.forall_mem_singleton.mpr rfl, List.forall_mem_singleton.mpr rfl, rfl, rfl⟩, fun h => ?_⟩
  have hle : 2 ≤ 1 := (h.last rfl).1.count_le
  omega

end NuWicam.Kernel
