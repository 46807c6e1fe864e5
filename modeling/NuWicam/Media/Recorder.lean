import Mathlib.Algebra.BigOperators.Group.List.Basic
import Mathlib.Algebra.Ring.Int.Defs
import Mathlib.Algebra.Ring.Nat
import NuWicam.Lib.Run
import NuWicam.Lib.Turns

/-!
# The staging buffers of the audio recorder (`OSS.c`)

Blocks from the driver go to a buffer and leave it in frames of another size. Lost blocks are replaced by zeros, which are
only counted, and what comes after them is kept in a second buffer. The index of each block, which the source computes from
the clock, is an input, and so is what `read` returns. Signed arithmetic is exact.
-/

namespace NuWicam.Media

open Lib List Option

/-! ## The functions of the source -/

/-- `s_sRecData`: the sizes of frames and buffers, and what the buffers hold -/
structure RecData where
  drvFrameSize : Nat
  outFrameSize : Nat
  preSize : Nat
  postSize : Nat
  pre : List UInt8
  zero : Nat
  post : List UInt8
  prevFrames : Int

inductive OssErr
  | none
  | io
  | notReady
  deriving DecidableEq

inductive DrvRead
  | tooFew
  | error
  | data (bytes : List UInt8) (frames : Int)

/-- A block for `PutAudioToBuf`: its index, the zeros before it, its bytes, and the levels of the two buffers after it -/
structure RecBlock where
  index : Int
  zeros : Nat
  bytes : List UInt8
  preLen : Nat
  postLen : Nat

namespace RecData

/-- `OSS_RecOpen`, for the rate of the context and the block size of the driver -/
def recOpen (sampleRate drvFrameSize : Nat) : RecData :=
  let tempBufLen := if sampleRate > drvFrameSize then sampleRate else drvFrameSize
  ⟨drvFrameSize, sampleRate, tempBufLen * 2 % 2 ^ 32, tempBufLen * 2 % 2 ^ 32, [], 0, [], -1⟩

/-- `OSS_RecSetFrameSize` -/
def recSetFrameSize (d : RecData) (size : Nat) : RecData := { d with outFrameSize := size }

def putAudioToBuf (d : RecData) (bytes : List UInt8) : RecData :=
  if d.zero ≠ 0 then { d with post := d.post ++ bytes } else { d with pre := d.pre ++ bytes }

/-- `u32TotalBytesInBuf` -/
def totalBytesInBuf (d : RecData) : Nat := (d.pre.length + d.zero + d.post.length) % 2 ^ 32

def takePre (d : RecData) (n : Nat) : List UInt8 × RecData := (d.pre.take n, { d with pre := d.pre.drop n })

def takeZero (d : RecData) (n : Nat) : List UInt8 × RecData :=
  (List.replicate (min n d.zero) 0, { d with zero := d.zero - min n d.zero })

def takePost (d : RecData) (n : Nat) : List UInt8 × RecData := (d.post.take n, { d with post := d.post.drop n })

def takeNext (d : RecData) (n : Nat) : List UInt8 × RecData :=
  if d.pre ≠ [] then
    if d.zero = 0 ∧ d.post ≠ [] then d.takePost n else d.takePre n
  else if d.zero ≠ 0 then d.takeZero n
  else d.takePost n

/-- A turn of the loop of `GetAudioFromBuf`, with the bytes so far -/
def getTurn (len : Nat) (s : List UInt8 × RecData) : (List UInt8 × RecData) ⊕ (List UInt8 × RecData) :=
  if s.1.length < len then
    let r := s.2.takeNext (len - s.1.length)
    .inl (s.1 ++ r.1, r.2)
  else .inr s

/-- A turn that copies no byte would be followed by the same turn again, so `len + 1` turns are enough. -/
def getAudioFromBuf (d : RecData) (len : Nat) : Option (Bool × List UInt8 × RecData) :=
  if d.totalBytesInBuf < len then some (false, [], d)
  else (turns (getTurn len) (len + 1) ([], d)).elim (fun _ => none) fun r => some (true, r)

/-- The zeros for lost blocks: `(i32Frames - (i32PrevFrames - 1)) * u32DrvFrameSize` -/
def lostZeros (d : RecData) (frames : Int) : Nat := ((frames - (d.prevFrames - 1)) * d.drvFrameSize % 2 ^ 32).toNat

/-- `i32PrevFrames = i32Frames` and the call of `PutAudioToBuf` -/
def storeAudio (d : RecData) (frames : Int) (zeros : Nat) (bytes : List UInt8) : Option RecBlock × RecData :=
  let d := { d with prevFrames := frames }.putAudioToBuf bytes
  (some ⟨frames, zeros, bytes, d.pre.length, d.post.length⟩, d)

/-- What `OSS_RecRead` does with the bytes before it comes to `get_audio` -/
def acceptAudio (d : RecData) (bytes : List UInt8) (frames : Int) : Option RecBlock × RecData :=
  let frames := if frames = d.prevFrames then d.prevFrames + 1 else frames
  if frames ≥ d.prevFrames + 1 then
    if frames - d.prevFrames > 1 then
      if d.post ≠ [] then (none, { d with prevFrames := frames })
      else storeAudio { d with zero := d.lostZeros frames } frames (d.lostZeros frames) bytes
    else d.storeAudio frames 0 bytes
  else (none, d)

def getAudio (r : Option RecBlock × RecData) : Option (OssErr × List UInt8 × Option RecBlock × RecData) :=
  (getAudioFromBuf r.2 r.2.outFrameSize).map fun g => (if g.1 then .none else .notReady, g.2.1, r.1, g.2.2)

/-- With the bytes that it returns and the block that it has accepted -/
def recRead (d : RecData) : DrvRead → Option (OssErr × List UInt8 × Option RecBlock × RecData)
  | .tooFew => some (.io, [], none, d)
  | .error =>
    if d.totalBytesInBuf < d.outFrameSize then some (.notReady, [], none, d) else getAudio (none, d)
  | .data [] _ => some (.io, [], none, d)
  | .data (b :: bytes) frames => getAudio (d.acceptAudio (b :: bytes) frames)

end RecData

structure RecLog where
  data : RecData
  returned : List UInt8
  accepted : List RecBlock

inductive RecCall
  | setFrameSize (size : Nat)
  | read (r : DrvRead)

namespace RecLog

def recOpen (sampleRate drvFrameSize : Nat) : RecLog := ⟨.recOpen sampleRate drvFrameSize, [], []⟩

def step (l : RecLog) : RecCall → Option RecLog
  | .setFrameSize size => some { l with data := l.data.recSetFrameSize size }
  | .read r => (l.data.recRead r).map fun o => ⟨o.2.2.2, l.returned ++ o.2.1, l.accepted ++ o.2.2.1.toList⟩

end RecLog

/-! ## The order of the bytes -/

namespace RecData

/-- **What the three buffers hold**, in the order in which it is returned: the second buffer comes last while there are zeros,
and first when there are none. -/
def staged (d : RecData) : List UInt8 :=
  if d.zero = 0 then d.post ++ d.pre else d.pre ++ (List.replicate d.zero 0 ++ d.post)

def Ordered (d : RecData) : Prop := d.zero ≠ 0 → d.post ≠ []

variable {d d' : RecData} {n len : Nat}

theorem staged_of_zero (hz : d.zero = 0) : d.staged = d.post ++ d.pre := if_pos hz

theorem staged_of_zeros (hz : d.zero ≠ 0) : d.staged = d.pre ++ (List.replicate d.zero 0 ++ d.post) := if_neg hz

theorem length_staged (d : RecData) : d.staged.length = d.pre.length + d.zero + d.post.length := by
  by_cases hz : d.zero = 0
  · rw [staged_of_zero hz, length_append]
    omega
  · rw [staged_of_zeros hz, length_append, length_append, length_replicate]
    omega

/-- The bytes `out` are the next ones. -/
structure Copied (d : RecData) (out : List UInt8) (d' : RecData) : Prop where
  order : out ++ d'.staged = d.staged
  ordered : d'.Ordered
  pre_le : d'.pre.length ≤ d.pre.length
  post_le : d'.post.length ≤ d.post.length
  drvFrameSize : d'.drvFrameSize = d.drvFrameSize
  preSize : d'.preSize = d.preSize
  postSize : d'.postSize = d.postSize
  prevFrames : d'.prevFrames = d.prevFrames

theorem Copied.nil (ho : d.Ordered) : Copied d [] d :=
  ⟨nil_append _, ho, by omega, by omega, rfl, rfl, rfl, rfl⟩

theorem Copied.append {d₁ : RecData} {out out' : List UInt8} (h : Copied d out d₁) (h' : Copied d₁ out' d') :
    Copied d (out ++ out') d' :=
  ⟨by rw [append_assoc, h'.order, h.order], h'.ordered, Nat.le_trans h'.pre_le h.pre_le,
    Nat.le_trans h'.post_le h.post_le, h'.drvFrameSize.trans h.drvFrameSize, h'.preSize.trans h.preSize,
    h'.postSize.trans h.postSize, h'.prevFrames.trans h.prevFrames⟩

theorem copied_takePre (ho : d.Ordered) (h : d.zero = 0 → d.post = []) (n : Nat) :
    Copied d (d.takePre n).1 (d.takePre n).2 := by
  refine ⟨?_, ho, (drop_sublist n d.pre).length_le, Nat.le_refl _, rfl, rfl, rfl, rfl⟩
  by_cases hz : d.zero = 0
  · rw [staged_of_zero hz, staged_of_zero (d := (d.takePre n).2) hz]
    change d.pre.take n ++ (d.post ++ d.pre.drop n) = d.post ++ d.pre
    rw [h hz, nil_append, nil_append, take_append_drop]
  · rw [staged_of_zeros hz, staged_of_zeros (d := (d.takePre n).2) hz, ← append_assoc]
    exact congrArg (· ++ _) (take_append_drop n d.pre)

theorem copied_takeZero (ho : d.Ordered) (hpre : d.pre = []) (hz : d.zero ≠ 0) (n : Nat) :
    Copied d (d.takeZero n).1 (d.takeZero n).2 := by
  refine ⟨?_, fun _ => ho hz, Nat.le_refl _, Nat.le_refl _, rfl, rfl, rfl, rfl⟩
  have hsplit : List.replicate (min n d.zero) (0 : UInt8) ++ List.replicate (d.zero - min n d.zero) 0 =
      List.replicate d.zero 0 := by
    rw [← replicate_add]
    congr 1
    omega
  rw [staged_of_zeros hz, hpre, nil_append, ← hsplit]
  by_cases hrest : d.zero - min n d.zero = 0
  · rw [staged_of_zero (d := (d.takeZero n).2) hrest, hrest, replicate_zero, append_nil]
    exact congrArg (List.replicate (min n d.zero) 0 ++ ·) ((congrArg (d.post ++ ·) hpre).trans (append_nil _))
  · rw [staged_of_zeros (d := (d.takeZero n).2) hrest, append_assoc]
    exact congrArg (List.replicate (min n d.zero) 0 ++ ·) (congrArg (· ++ _) hpre)

theorem copied_takePost (hz : d.zero = 0) (n : Nat) : Copied d (d.takePost n).1 (d.takePost n).2 := by
  refine ⟨?_, fun h => absurd hz h, Nat.le_refl _, (drop_sublist n d.post).length_le, rfl, rfl, rfl, rfl⟩
  rw [staged_of_zero hz, staged_of_zero (d := (d.takePost n).2) hz, ← append_assoc]
  exact congrArg (· ++ d.pre) (take_append_drop n d.post)

/-- **One copy** takes some of the next bytes. -/
theorem takeNext_spec (ho : d.Ordered) (hn : 0 < n) (hne : d.staged ≠ []) :
    Copied d (d.takeNext n).1 (d.takeNext n).2 ∧ (d.takeNext n).1 ≠ [] ∧ (d.takeNext n).1.length ≤ n := by
  have htake : ∀ l : List UInt8, l ≠ [] → l.take n ≠ [] := by
    intro l hl
    simp [hl, Nat.ne_of_gt hn]
  unfold takeNext
  by_cases hpre : d.pre = []
  · rw [if_neg (not_not.mpr hpre)]
    by_cases hz : d.zero = 0
    · rw [if_neg (not_not.mpr hz)]
      rw [staged_of_zero hz, hpre, append_nil] at hne
      exact ⟨copied_takePost hz n, htake _ hne, length_take_le ..⟩
    · rw [if_pos hz]
      refine ⟨copied_takeZero ho hpre hz n, ?_, ?_⟩
      · refine length_pos_iff.mp ?_
        rw [takeZero, length_replicate]
        omega
      · rw [takeZero, length_replicate]
        omega
  · rw [if_pos hpre]
    by_cases hz : d.zero = 0 ∧ d.post ≠ []
    · rw [if_pos hz]
      exact ⟨copied_takePost hz.1 n, htake _ hz.2, length_take_le ..⟩
    · rw [if_neg hz]
      refine ⟨copied_takePre ho (fun h => ?_) n, htake _ hpre, length_take_le ..⟩
      exact not_not.mp fun hpost => hz ⟨h, hpost⟩

/-- **The whole loop** returns as many bytes as are asked for, if there are. -/
theorem turns_getTurn (fuel : Nat) (out : List UInt8) (ho : d.Ordered) (hout : out.length ≤ len)
    (hlen : len ≤ out.length + d.staged.length) (hfuel : len < out.length + fuel) :
    ∃ more d', turns (getTurn len) fuel (out, d) = .inr (out ++ more, d') ∧ Copied d more d' := by
  induction fuel generalizing out d with
  | zero => omega
  | succ fuel ih =>
    by_cases hlt : out.length < len
    · have hne : d.staged ≠ [] := by
        intro h
        rw [h, length_nil] at hlen
        omega
      obtain ⟨hcopied, hsome, hle⟩ := takeNext_spec (n := len - out.length) ho (by omega) hne
      have hpos := length_pos_iff.mpr hsome
      have hstaged := congrArg List.length hcopied.order
      rw [length_append] at hstaged
      have hturn : getTurn len (out, d) =
          .inl (out ++ (d.takeNext (len - out.length)).1, (d.takeNext (len - out.length)).2) := if_pos hlt
      obtain ⟨more, d', hturns, hmore⟩ := ih (out ++ (d.takeNext (len - out.length)).1) hcopied.ordered
        (by rw [length_append]; omega) (by rw [length_append]; omega) (by rw [length_append]; omega)
      refine ⟨(d.takeNext (len - out.length)).1 ++ more, d', ?_, hcopied.append hmore⟩
      rw [turns_succ_of_inl hturn, hturns, append_assoc]
    · have hturn : getTurn len (out, d) = .inr (out, d) := if_neg hlt
      refine ⟨[], d, ?_, .nil ho⟩
      rw [turns_succ_of_inr hturn, append_nil]

theorem getAudioFromBuf_spec (ho : d.Ordered) (len : Nat) :
    ∃ ok out d', d.getAudioFromBuf len = some (ok, out, d') ∧ Copied d out d' := by
  unfold getAudioFromBuf
  by_cases htotal : d.totalBytesInBuf < len
  · exact ⟨false, [], d, if_pos htotal, .nil ho⟩
  · have hlen : len ≤ d.staged.length := by
      rw [length_staged]
      exact Nat.le_trans (Nat.not_lt.mp htotal) (Nat.mod_le _ _)
    obtain ⟨more, d', hturns, hcopied⟩ := turns_getTurn (len + 1) [] ho (Nat.zero_le len)
      (by rw [length_nil]; omega) (by rw [length_nil]; omega)
    refine ⟨true, more, d', ?_, hcopied⟩
    rw [if_neg htotal, hturns, Sum.elim_inr, nil_append]

/-! ### Blocks that are accepted -/

variable {bytes : List UInt8} {frames : Int}

theorem acceptAudio_of_lt (h : frames < d.prevFrames) : d.acceptAudio bytes frames = (none, d) := by
  unfold acceptAudio
  rw [if_neg (by omega : frames ≠ d.prevFrames), if_neg (by omega)]

theorem acceptAudio_next (h : d.prevFrames ≤ frames) (h' : frames ≤ d.prevFrames + 1) :
    d.acceptAudio bytes frames = d.storeAudio (d.prevFrames + 1) 0 bytes := by
  have hframes : (if frames = d.prevFrames then d.prevFrames + 1 else frames) = d.prevFrames + 1 := by
    split <;> omega
  unfold acceptAudio
  rw [hframes, if_pos (by omega), if_neg (by omega)]

theorem acceptAudio_skip (h : d.prevFrames + 1 < frames) (hpost : d.post ≠ []) :
    d.acceptAudio bytes frames = (none, { d with prevFrames := frames }) := by
  unfold acceptAudio
  rw [if_neg (by omega : frames ≠ d.prevFrames), if_pos (by omega), if_pos (by omega), if_pos hpost]

theorem acceptAudio_lost (h : d.prevFrames + 1 < frames) (hpost : d.post = []) : d.acceptAudio bytes frames =
      storeAudio { d with zero := d.lostZeros frames } frames (d.lostZeros frames) bytes := by
  unfold acceptAudio
  rw [if_neg (by omega : frames ≠ d.prevFrames), if_pos (by omega), if_pos (by omega), if_neg (not_not.mpr hpost)]

def enter (d : RecData) : RecCall → Option RecBlock × RecData
  | .setFrameSize size => (none, d.recSetFrameSize size)
  | .read (.data (b :: bytes) frames) => d.acceptAudio (b :: bytes) frames
  | .read _ => (none, d)

end RecData

def RecBlock.content (b : RecBlock) : List UInt8 := List.replicate b.zeros 0 ++ b.bytes

namespace RecData

variable {d : RecData} {bytes : List UInt8} {frames : Int}

theorem staged_putAudioToBuf (d : RecData) (bytes : List UInt8) : (d.putAudioToBuf bytes).staged = d.staged ++ bytes := by
  unfold putAudioToBuf
  by_cases hz : d.zero = 0
  · rw [if_neg (not_not.mpr hz), staged_of_zero hz, staged_of_zero (d := { d with pre := d.pre ++ bytes }) hz,
      append_assoc]
  · rw [if_pos hz, staged_of_zeros hz, staged_of_zeros (d := { d with post := d.post ++ bytes }) hz]
    simp

theorem ordered_putAudioToBuf (d : RecData) (hne : bytes ≠ []) : (d.putAudioToBuf bytes).Ordered := by
  unfold putAudioToBuf
  by_cases hz : d.zero = 0
  · rw [if_neg (not_not.mpr hz)]
    exact fun h => absurd hz h
  · rw [if_pos hz]
    exact fun _ => append_ne_nil_of_right_ne_nil _ hne

theorem staged_zeros (ho : d.Ordered) (hpost : d.post = []) (n : Nat) :
    staged { d with zero := n } = d.staged ++ List.replicate n 0 := by
  have hz : d.zero = 0 := not_not.mp fun h => ho h hpost
  rw [staged_of_zero hz, hpost, nil_append]
  by_cases hn : n = 0
  · rw [staged_of_zero hn, hn]
    simp
  · rw [staged_of_zeros hn]
    simp

theorem staged_storeAudio (d : RecData) (frames : Int) (zeros : Nat) (bytes : List UInt8) :
    (d.storeAudio frames zeros bytes).2.staged = d.staged ++ bytes := staged_putAudioToBuf _ bytes

theorem staged_acceptAudio (ho : d.Ordered) (hne : bytes ≠ []) :
    (d.acceptAudio bytes frames).2.staged = d.staged ++ ((d.acceptAudio bytes frames).1.toList.map RecBlock.content).flatten ∧
      (d.acceptAudio bytes frames).2.Ordered := by
  rcases Int.lt_or_le frames d.prevFrames with hlt | hge
  · rw [acceptAudio_of_lt hlt]
    exact ⟨(append_nil _).symm, ho⟩
  rcases Int.lt_or_le (d.prevFrames + 1) frames with hlost | hnext
  · by_cases hpost : d.post = []
    · rw [acceptAudio_lost hlost hpost]
      refine ⟨?_, ordered_putAudioToBuf _ hne⟩
      rw [staged_storeAudio, staged_zeros ho hpost]
      simp [storeAudio, RecBlock.content]
    · rw [acceptAudio_skip hlost hpost]
      exact ⟨(append_nil _).symm, ho⟩
  · rw [acceptAudio_next hge hnext]
    refine ⟨?_, ordered_putAudioToBuf _ hne⟩
    rw [staged_storeAudio]
    simp [storeAudio, RecBlock.content]

theorem staged_enter (ho : d.Ordered) (c : RecCall) :
    (d.enter c).2.staged = d.staged ++ ((d.enter c).1.toList.map RecBlock.content).flatten ∧ (d.enter c).2.Ordered := by
  have hsame : d.staged = d.staged ++ ((none : Option RecBlock).toList.map RecBlock.content).flatten :=
    (append_nil _).symm
  cases c with
  | setFrameSize size => exact ⟨hsame, ho⟩
  | read r =>
    cases r with
    | tooFew => exact ⟨hsame, ho⟩
    | error => exact ⟨hsame, ho⟩
    | data bytes frames =>
      cases bytes with
      | nil => exact ⟨hsame, ho⟩
      | cons b bytes => exact staged_acceptAudio ho (by simp)

theorem getAudio_spec {r : Option RecBlock × RecData} (ho : r.2.Ordered) :
    ∃ err out d', getAudio r = some (err, out, r.1, d') ∧ Copied r.2 out d' := by
  obtain ⟨ok, out, d', hget, hcopied⟩ := getAudioFromBuf_spec ho r.2.outFrameSize
  exact ⟨_, out, d', by rw [getAudio, hget, map_some], hcopied⟩

/-- **One read** enters what it has read and copies the next bytes out. -/
theorem recRead_spec (ho : d.Ordered) (r : DrvRead) : ∃ err out d', d.recRead r = some (err, out, (d.enter (.read r)).1, d') ∧
    Copied (d.enter (.read r)).2 out d' := by
  have ho' := (staged_enter ho (.read r)).2
  cases r with
  | tooFew => exact ⟨_, _, _, rfl, .nil ho'⟩
  | error =>
    rw [recRead]
    by_cases htotal : d.totalBytesInBuf < d.outFrameSize
    · exact ⟨_, _, _, if_pos htotal, .nil ho'⟩
    · rw [if_neg htotal]
      exact getAudio_spec ho'
  | data bytes frames =>
    cases bytes with
    | nil => exact ⟨_, _, _, rfl, .nil ho'⟩
    | cons b bytes => exact getAudio_spec ho'

end RecData

namespace RecLog

theorem step_spec {l : RecLog} (ho : l.data.Ordered) (c : RecCall) : ∃ out d', l.step c =
      some ⟨d', l.returned ++ out, l.accepted ++ (l.data.enter c).1.toList⟩ ∧ (l.data.enter c).2.Copied out d' := by
  cases c with
  | setFrameSize size =>
    refine ⟨[], l.data.recSetFrameSize size, ?_, .nil ho⟩
    rw [step, append_nil]
    exact congrArg some (congrArg (RecLog.mk _ _) (append_nil _).symm)
  | read r =>
    obtain ⟨err, out, d', hread, hcopied⟩ := RecData.recRead_spec ho r
    exact ⟨out, d', by rw [step, hread, map_some], hcopied⟩

/-- **The order of the bytes.** -/
structure InOrder (l : RecLog) : Prop where
  ordered : l.data.Ordered
  eq : l.returned ++ l.data.staged = (l.accepted.map RecBlock.content).flatten

/-- **One call** keeps the order. -/
theorem InOrder.step {l : RecLog} (h : l.InOrder) (c : RecCall) : ∃ l', l.step c = some l' ∧ l'.InOrder := by
  obtain ⟨out, d', hstep, hcopied⟩ := step_spec h.ordered c
  refine ⟨_, hstep, hcopied.ordered, ?_⟩
  rw [append_assoc, hcopied.order, (RecData.staged_enter h.ordered c).1, ← append_assoc, h.eq, map_append,
    flatten_append]

end RecLog

theorem RecLog.exists_run (sampleRate drvFrameSize : Nat) (calls : List RecCall) :
    ∃ l, run RecLog.step (.recOpen sampleRate drvFrameSize) calls = some l ∧ l.InOrder := by
  have hopen : (RecLog.recOpen sampleRate drvFrameSize).InOrder := ⟨fun h => absurd rfl h, rfl⟩
  exact run_total (D := fun _ => True) (fun _ c h _ => RecLog.InOrder.step h c) hopen fun _ _ => trivial

/-- **Audio is returned in order**, each block behind the zeros inserted before it. -/
theorem audio_in_order (sampleRate drvFrameSize : Nat) (calls : List RecCall) :
    ∃ l, run RecLog.step (.recOpen sampleRate drvFrameSize) calls = some l ∧
      l.returned ++ l.data.staged = (l.accepted.map RecBlock.content).flatten := by
  obtain ⟨l, hrun, h⟩ := RecLog.exists_run sampleRate drvFrameSize calls
  exact ⟨l, hrun, h.eq⟩

/-! ## The levels of the buffers -/

namespace RecData

def zerosBefore (d : RecData) (frames : Int) : Nat := if d.prevFrames + 1 < frames then d.lostZeros frames else d.zero

/-- **There is room for a block**: it is discarded or skipped, or its buffer, the second one as soon as there are zeros, has
room for all its bytes. -/
def HasRoom (d : RecData) : RecCall → Prop
  | .read (.data (b :: bytes) frames) => frames < d.prevFrames ∨ (d.prevFrames + 1 < frames ∧ d.post ≠ []) ∨
      (d.zerosBefore frames = 0 ∧ d.pre.length + (b :: bytes).length ≤ d.preSize) ∨
      (d.zerosBefore frames ≠ 0 ∧ d.post.length + (b :: bytes).length ≤ d.postSize)
  | _ => True

theorem putAudioToBuf_levels (d : RecData) (bytes : List UInt8) :
    (d.zero = 0 ∧ (d.putAudioToBuf bytes).pre.length = d.pre.length + bytes.length ∧ (d.putAudioToBuf bytes).post = d.post ∨
      d.zero ≠ 0 ∧ (d.putAudioToBuf bytes).pre = d.pre ∧
        (d.putAudioToBuf bytes).post.length = d.post.length + bytes.length) ∧
    (d.putAudioToBuf bytes).preSize = d.preSize ∧ (d.putAudioToBuf bytes).postSize = d.postSize := by
  unfold putAudioToBuf
  by_cases hz : d.zero = 0
  · rw [if_neg (not_not.mpr hz)]
    exact ⟨.inl ⟨hz, length_append, rfl⟩, rfl, rfl⟩
  · rw [if_pos hz]
    exact ⟨.inr ⟨hz, rfl, length_append⟩, rfl, rfl⟩

inductive Enters (d : RecData) (c : RecCall) : Option RecBlock → RecData → Prop
  | nothing {d' : RecData} (hpre : d'.pre = d.pre) (hpost : d'.post = d.post)
      (hsize : d'.preSize = d.preSize ∧ d'.postSize = d.postSize)
      (hroom : d.HasRoom c) : Enters d c none d'
  | block {b : RecBlock} {d' : RecData} (hpre : b.preLen = d'.pre.length) (hpost : b.postLen = d'.post.length)
      (hle : d.pre.length ≤ b.preLen ∧ d.post.length ≤ b.postLen)
      (hsize : d'.preSize = d.preSize ∧ d'.postSize = d.postSize)
      (hroom : d.pre.length ≤ d.preSize → d.post.length ≤ d.postSize →
        (d.HasRoom c ↔ b.preLen ≤ d.preSize ∧ b.postLen ≤ d.postSize)) : Enters d c (some b) d'

theorem enters_storeAudio {d d₁ : RecData} {b : UInt8} {bytes : List UInt8} {frames index : Int} {zeros : Nat}
    (hd₁ : d₁ = { d with zero := d.zerosBefore frames }) (hge : d.prevFrames ≤ frames)
    (hskip : ¬ (d.prevFrames + 1 < frames ∧ d.post ≠ [])) :
    Enters d (.read (.data (b :: bytes) frames)) (d₁.storeAudio index zeros (b :: bytes)).1
      (d₁.storeAudio index zeros (b :: bytes)).2 := by
  subst hd₁
  obtain ⟨hlevels, hsize⟩ := putAudioToBuf_levels { d with zero := d.zerosBefore frames, prevFrames := index } (b :: bytes)
  refine .block rfl rfl ?_ hsize fun hpre hpost => ?_
  · dsimp
    rcases hlevels with ⟨-, hpre, hpost⟩ | ⟨-, hpre, hpost⟩
    · exact ⟨hpre ▸ Nat.le_add_right _ _, Nat.le_of_eq (congrArg List.length hpost).symm⟩
    · exact ⟨Nat.le_of_eq (congrArg List.length hpre).symm, hpost ▸ Nat.le_add_right _ _⟩
  · dsimp
    rw [HasRoom, or_iff_right (Int.not_lt.mpr hge), or_iff_right hskip]
    rcases hlevels with ⟨hz, hpre', hpost'⟩ | ⟨hz, hpre', hpost'⟩
    · rw [hpre', hpost', and_iff_left hpost, or_iff_left fun h => h.1 hz, and_iff_right hz]
    · rw [hpre', hpost', and_iff_right hpre, or_iff_right fun h => hz h.1, and_iff_right hz]

theorem enters_enter (d : RecData) (c : RecCall) : Enters d c (d.enter c).1 (d.enter c).2 := by
  cases c with
  | setFrameSize size => exact .nothing rfl rfl ⟨rfl, rfl⟩ trivial
  | read r =>
    cases r with
    | tooFew => exact .nothing rfl rfl ⟨rfl, rfl⟩ trivial
    | error => exact .nothing rfl rfl ⟨rfl, rfl⟩ trivial
    | data bytes frames =>
      cases bytes with
      | nil => exact .nothing rfl rfl ⟨rfl, rfl⟩ trivial
      | cons b bytes =>
        rw [enter]
        rcases Int.lt_or_le frames d.prevFrames with hlt | hge
        · rw [acceptAudio_of_lt hlt]
          exact .nothing rfl rfl ⟨rfl, rfl⟩ (.inl hlt)
        rcases Int.lt_or_le (d.prevFrames + 1) frames with hlost | hnext
        · by_cases hpost : d.post = []
          · rw [acceptAudio_lost hlost hpost]
            exact enters_storeAudio (by rw [zerosBefore, if_pos hlost]) hge fun h => h.2 hpost
          · rw [acceptAudio_skip hlost hpost]
            exact .nothing rfl rfl ⟨rfl, rfl⟩ (.inr (.inl ⟨hlost, hpost⟩))
        · rw [acceptAudio_next hge hnext]
          exact enters_storeAudio (by rw [zerosBefore, if_neg (Int.not_lt.mpr hnext)]) hge
            fun h => absurd h.1 (Int.not_lt.mpr hnext)

end RecData

namespace RecLog

/-- **No buffer overflows**: after each block that was stored, and now, both levels are at most the sizes of the buffers. -/
structure NoOverflow (l : RecLog) : Prop where
  stored : ∀ b ∈ l.accepted, b.preLen ≤ l.data.preSize ∧ b.postLen ≤ l.data.postSize
  pre : l.data.pre.length ≤ l.data.preSize
  post : l.data.post.length ≤ l.data.postSize

structure Levels (l : RecLog) : Prop where
  ordered : l.data.Ordered
  below : (l.data.pre = [] ∧ l.data.post = []) ∨
    ∃ b ∈ l.accepted, l.data.pre.length ≤ b.preLen ∧ l.data.post.length ≤ b.postLen

variable {l l' : RecLog} {c : RecCall}

theorem Levels.noOverflow_iff (h : l.Levels) :
    l.NoOverflow ↔ ∀ b ∈ l.accepted, b.preLen ≤ l.data.preSize ∧ b.postLen ≤ l.data.postSize := by
  refine ⟨NoOverflow.stored, fun hstored => ?_⟩
  rcases h.below with ⟨hpre, hpost⟩ | ⟨b, hb, hpre, hpost⟩
  · exact ⟨hstored, by simp [hpre], by simp [hpost]⟩
  · exact ⟨hstored, Nat.le_trans hpre (hstored b hb).1, Nat.le_trans hpost (hstored b hb).2⟩

/-- **One call** overflows no buffer exactly when there is room. -/
theorem Levels.step (h : l.Levels) (hstep : l.step c = some l') :
    l'.Levels ∧ (l'.NoOverflow ↔ l.NoOverflow ∧ l.data.HasRoom c) := by
  obtain ⟨out, d', hstep', hcopied⟩ := step_spec h.ordered c
  rw [hstep', Option.some.injEq] at hstep
  subst hstep
  have henters := l.data.enters_enter c
  generalize (l.data.enter c).1 = block, (l.data.enter c).2 = d₁ at henters hcopied ⊢
  have hpre := hcopied.pre_le
  have hpost := hcopied.post_le
  cases henters with
  | nothing hpre₁ hpost₁ hsize hroom =>
    have h' : RecLog.Levels ⟨d', l.returned ++ out, l.accepted ++ (none : Option RecBlock).toList⟩ := by
      refine ⟨hcopied.ordered, ?_⟩
      rw [hpre₁] at hpre
      rw [hpost₁] at hpost
      rcases h.below with ⟨hnil, hnil'⟩ | ⟨b, hb, hble, hble'⟩
      · rw [hnil, length_nil, Nat.le_zero, length_eq_zero_iff] at hpre
        rw [hnil', length_nil, Nat.le_zero, length_eq_zero_iff] at hpost
        exact .inl ⟨hpre, hpost⟩
      · exact .inr ⟨b, mem_append_left _ hb, Nat.le_trans hpre hble, Nat.le_trans hpost hble'⟩
    refine ⟨h', ?_⟩
    rw [h'.noOverflow_iff, h.noOverflow_iff, and_iff_left hroom, hcopied.preSize, hcopied.postSize, hsize.1, hsize.2,
      toList_none, append_nil]
  | block hpre₁ hpost₁ hle hsize hroom =>
    rename_i b
    have h' : RecLog.Levels ⟨d', l.returned ++ out, l.accepted ++ (some b).toList⟩ :=
      ⟨hcopied.ordered, .inr ⟨b, by simp, hpre₁ ▸ hpre, hpost₁ ▸ hpost⟩⟩
    refine ⟨h', ?_⟩
    rw [h'.noOverflow_iff, hcopied.preSize, hcopied.postSize, hsize.1, hsize.2, toList_some]
    rw [forall_mem_append, forall_mem_singleton, ← h.noOverflow_iff]
    exact and_congr_right fun hno => (hroom hno.pre hno.post).symm

end RecLog

/-- **No buffer of the recorder overflows** exactly if each stored block finds room. -/
theorem audio_levels_iff (sampleRate drvFrameSize : Nat) (calls : List RecCall) :
    ∃ l, run RecLog.step (.recOpen sampleRate drvFrameSize) calls = some l ∧
      (l.NoOverflow ↔ EachStep RecLog.step (fun l c => l.data.HasRoom c) (.recOpen sampleRate drvFrameSize) calls) := by
  have hopen : (RecLog.recOpen sampleRate drvFrameSize).Levels := ⟨fun h => absurd rfl h, .inl ⟨rfl, rfl⟩⟩
  obtain ⟨l, hrun, -⟩ := RecLog.exists_run sampleRate drvFrameSize calls
  refine ⟨l, hrun, ?_⟩
  have hstart : (RecLog.recOpen sampleRate drvFrameSize).NoOverflow :=
    hopen.noOverflow_iff.mpr fun b hb => absurd hb not_mem_nil
  rw [run_iff_eachStep (A := fun _ _ => True) (fun _ _ _ h _ hstep => (RecLog.Levels.step h hstep).1)
    (fun _ _ _ h _ hstep => (RecLog.Levels.step h hstep).2) hopen (eachStep_of_forall (fun _ _ => trivial) _) hrun,
    and_iff_right hstart]

def lossyReads : List RecCall :=
  [.read (.data [1, 2] 0), .read (.data [3, 4] 5), .read (.data [5, 6] 6), .read (.data [7, 8] 7)]

theorem audio_levels_overflow : ∃ l, run RecLog.step (.recOpen 2 2) lossyReads = some l ∧
    l.data.postSize = 4 ∧ l.data.post = [3, 4, 5, 6, 7, 8] ∧ ¬ l.NoOverflow := by
  have hrun : run RecLog.step (.recOpen 2 2) lossyReads = some _ := rfl
  refine ⟨_, hrun, rfl, rfl, fun h => ?_⟩
  exact absurd h.post (by decide)

/-! ## The time of the bytes -/

/-- Every read returns as many bytes as a frame of the driver has. -/
def RecCall.FullRead (drvFrameSize : Nat) : RecCall → Prop
  | .setFrameSize _ => True
  | .read .tooFew => True
  | .read .error => False
  | .read (.data bytes _) => bytes.length = drvFrameSize ∧ bytes.length < 2 ^ 31

def RecData.Lost (d : RecData) : RecCall → Prop
  | .read (.data (_ :: _) frames) => d.prevFrames + 1 < frames
  | _ => False

def lastIndex : Int → List RecBlock → Int
  | m, [] => m
  | _, b :: bs => lastIndex b.index bs

/-- Each block has as many zeros before it as bytes were lost since the block before it, or the index `m`. -/
def GapsExact (drvFrameSize : Nat) : Int → List RecBlock → Prop
  | _, [] => True
  | m, b :: bs => (b.zeros : Int) = (b.index - m - 1) * drvFrameSize ∧ GapsExact drvFrameSize b.index bs

def enteredBytes (bs : List RecBlock) : Nat := (bs.map fun b => b.zeros + b.bytes.length).sum

/-- **Audio keeps time**: all gaps are filled, and there are as many bytes as the last index says. -/
structure RecLog.InTime (drvFrameSize : Nat) (l : RecLog) : Prop where
  gaps : GapsExact drvFrameSize (-1) l.accepted
  total : (enteredBytes l.accepted : Int) = (lastIndex (-1) l.accepted + 1) * drvFrameSize

section

variable {drvFrameSize : Nat} {m : Int} {b : RecBlock}

theorem lastIndex_append (m : Int) (bs : List RecBlock) (b : RecBlock) : lastIndex m (bs ++ [b]) = b.index := by
  induction bs generalizing m with
  | nil => rfl
  | cons b' bs ih => exact ih b'.index

theorem gapsExact_append (bs : List RecBlock) : GapsExact drvFrameSize m (bs ++ [b]) ↔
    GapsExact drvFrameSize m bs ∧ (b.zeros : Int) = (b.index - lastIndex m bs - 1) * drvFrameSize := by
  induction bs generalizing m with
  | nil => simp [GapsExact, lastIndex]
  | cons b' bs ih => simp [GapsExact, lastIndex, ih, and_assoc]

theorem lostZeros_ne {d : RecData} (frames : Int) (hpos : 0 < d.drvFrameSize) (hlt : d.drvFrameSize < 2 ^ 31) :
    (d.lostZeros frames : Int) ≠ (frames - d.prevFrames - 1) * d.drvFrameSize := by
  intro heq
  have hsum : (frames - (d.prevFrames - 1)) * (d.drvFrameSize : Int) =
      (frames - d.prevFrames - 1) * d.drvFrameSize + 2 * d.drvFrameSize := by
    rw [← Int.add_mul]
    congr 1
    omega
  rw [RecData.lostZeros, hsum, Int.toNat_of_nonneg (by omega)] at heq
  generalize (frames - d.prevFrames - 1) * (d.drvFrameSize : Int) = x at heq
  omega

/-- `i32PrevFrames` is the last index. -/
structure RecLog.Indexed (drvFrameSize : Nat) (l : RecLog) : Prop where
  ordered : l.data.Ordered
  drvFrameSize_eq : l.data.drvFrameSize = drvFrameSize
  prevFrames_eq : l.data.prevFrames = lastIndex (-1) l.accepted

theorem inTime_append {l : RecLog} {d : RecData} {returned : List UInt8} (hb : b.bytes.length = drvFrameSize) :
    RecLog.InTime drvFrameSize ⟨d, returned, l.accepted ++ [b]⟩ ↔ RecLog.InTime drvFrameSize l ∧
      (b.zeros : Int) = (b.index - lastIndex (-1) l.accepted - 1) * drvFrameSize := by
  have htotal : (enteredBytes (l.accepted ++ [b]) : Int) = enteredBytes l.accepted + b.zeros + drvFrameSize := by
    simp [enteredBytes, hb, Int.add_assoc]
  have hindex : (b.index + 1) * (drvFrameSize : Int) =
      (lastIndex (-1) l.accepted + 1) * drvFrameSize + (b.index - lastIndex (-1) l.accepted - 1) * drvFrameSize +
        drvFrameSize := by
    simp only [Int.add_mul, Int.sub_mul, Int.one_mul]
    omega
  constructor
  · rintro ⟨hgaps, htotal'⟩
    obtain ⟨hgaps, hzeros⟩ := (gapsExact_append l.accepted).mp hgaps
    refine ⟨⟨hgaps, ?_⟩, hzeros⟩
    rw [htotal, lastIndex_append, hindex] at htotal'
    omega
  · rintro ⟨⟨hgaps, htotal'⟩, hzeros⟩
    refine ⟨(gapsExact_append l.accepted).mpr ⟨hgaps, hzeros⟩, ?_⟩
    rw [htotal, lastIndex_append, hindex]
    omega

end

namespace RecData

variable {d : RecData} {drvFrameSize : Nat} {c : RecCall}

@[simp] theorem putAudioToBuf_prevFrames (d : RecData) (bytes : List UInt8) :
    (d.putAudioToBuf bytes).prevFrames = d.prevFrames := by
  unfold putAudioToBuf
  split <;> rfl

@[simp] theorem putAudioToBuf_drvFrameSize (d : RecData) (bytes : List UInt8) :
    (d.putAudioToBuf bytes).drvFrameSize = d.drvFrameSize := by
  unfold putAudioToBuf
  split <;> rfl

inductive EntersAt (d : RecData) (c : RecCall) : Option RecBlock → RecData → Prop
  | nothing {d' : RecData} (hprev : d'.prevFrames = d.prevFrames) (hlost : ¬ d.Lost c) : EntersAt d c none d'
  | block {b : RecBlock} {d' : RecData} (hprev : d'.prevFrames = b.index) (hfull : b.bytes.length = d.drvFrameSize)
      (hsize : 0 < d.drvFrameSize ∧ d.drvFrameSize < 2 ^ 31)
      (hzeros : ¬ d.Lost c ∧ b.index = d.prevFrames + 1 ∧ b.zeros = 0 ∨ d.Lost c ∧ b.zeros = d.lostZeros b.index) :
      EntersAt d c (some b) d'

theorem entersAt_enter (hfull : c.FullRead d.drvFrameSize) (hpost : d.Lost c → d.post = []) :
    EntersAt d c (d.enter c).1 (d.enter c).2 ∧ (d.enter c).2.drvFrameSize = d.drvFrameSize := by
  cases c with
  | setFrameSize size => exact ⟨.nothing rfl not_false, rfl⟩
  | read r =>
    cases r with
    | tooFew => exact ⟨.nothing rfl not_false, rfl⟩
    | error => exact absurd hfull not_false
    | data bytes frames =>
      cases bytes with
      | nil => exact ⟨.nothing rfl not_false, rfl⟩
      | cons b bytes =>
        obtain ⟨hlen, hlt⟩ := hfull
        have hsize : 0 < d.drvFrameSize ∧ d.drvFrameSize < 2 ^ 31 := ⟨hlen ▸ Nat.succ_pos _, hlen ▸ hlt⟩
        rw [enter]
        rcases Int.lt_or_le frames d.prevFrames with hlt | hge
        · rw [acceptAudio_of_lt hlt]
          exact ⟨.nothing rfl fun h => absurd h (Int.not_lt.mpr (by omega)), rfl⟩
        rcases Int.lt_or_le (d.prevFrames + 1) frames with hlost | hnext
        · rw [acceptAudio_lost hlost (hpost hlost)]
          exact ⟨.block (putAudioToBuf_prevFrames ..) hlen hsize (.inr ⟨hlost, rfl⟩), putAudioToBuf_drvFrameSize ..⟩
        · rw [acceptAudio_next hge hnext]
          exact ⟨.block (putAudioToBuf_prevFrames ..) hlen hsize (.inl ⟨Int.not_lt.mpr hnext, rfl, rfl⟩),
            putAudioToBuf_drvFrameSize ..⟩

end RecData

namespace RecLog

variable {drvFrameSize : Nat} {l l' : RecLog} {c : RecCall}

/-- **One call** with a full read keeps the indices. -/
theorem Indexed.step (h : l.Indexed drvFrameSize) (hfull : c.FullRead drvFrameSize) (hpost : l.data.Lost c → l.data.post = [])
    (hstep : l.step c = some l') :
    l'.Indexed drvFrameSize ∧ (l'.InTime drvFrameSize ↔ l.InTime drvFrameSize ∧ ¬ l.data.Lost c) := by
  obtain ⟨out, d', hstep', hcopied⟩ := step_spec h.ordered c
  rw [hstep', Option.some.injEq] at hstep
  subst hstep
  obtain ⟨ho, rfl, hprev⟩ := h
  obtain ⟨henters, hdrv⟩ := RecData.entersAt_enter hfull hpost
  generalize (l.data.enter c).1 = block, (l.data.enter c).2 = d₁ at henters hdrv hcopied ⊢
  cases henters with
  | nothing hprev₁ hlost =>
    refine ⟨⟨hcopied.ordered, hcopied.drvFrameSize.trans hdrv, ?_⟩, ?_⟩
    · rw [hcopied.prevFrames, hprev₁, hprev, toList_none, append_nil]
    · rw [and_iff_left hlost, toList_none, append_nil]
      exact ⟨fun h => ⟨h.gaps, h.total⟩, fun h => ⟨h.gaps, h.total⟩⟩
  | block hprev₁ hlen hsize hzeros =>
    refine ⟨⟨hcopied.ordered, hcopied.drvFrameSize.trans hdrv, ?_⟩, ?_⟩
    · rw [hcopied.prevFrames, hprev₁, toList_some, lastIndex_append]
    · rw [toList_some, inTime_append hlen, ← hprev]
      refine and_congr_right fun _ => ?_
      rcases hzeros with ⟨hlost, hindex, hzeros⟩ | ⟨hlost, hzeros⟩
      · refine iff_of_true ?_ hlost
        rw [hzeros, hindex, show l.data.prevFrames + 1 - l.data.prevFrames - 1 = 0 by omega, Int.zero_mul]
        rfl
      · refine iff_of_false ?_ (not_not.mpr hlost)
        rw [hzeros]
        exact lostZeros_ne _ hsize.1 hsize.2

end RecLog

/-- **The time of the audio** is right exactly if no block is ever lost. -/
theorem audio_time_iff (sampleRate drvFrameSize : Nat) (calls : List RecCall)
    (hfull : ∀ c ∈ calls, RecCall.FullRead drvFrameSize c)
    (hpost : EachStep RecLog.step (fun l c => l.data.Lost c → l.data.post = []) (.recOpen sampleRate drvFrameSize) calls) :
    ∃ l, run RecLog.step (.recOpen sampleRate drvFrameSize) calls = some l ∧ (l.InTime drvFrameSize ↔
      EachStep RecLog.step (fun l c => ¬ l.data.Lost c) (.recOpen sampleRate drvFrameSize) calls) := by
  obtain ⟨l, hrun, -⟩ := RecLog.exists_run sampleRate drvFrameSize calls
  refine ⟨l, hrun, ?_⟩
  have hopen : (RecLog.recOpen sampleRate drvFrameSize).Indexed drvFrameSize := ⟨fun h => absurd rfl h, rfl, rfl⟩
  have hstart : (RecLog.recOpen sampleRate drvFrameSize).InTime drvFrameSize := by
    refine ⟨trivial, ?_⟩
    simp [enteredBytes, RecLog.recOpen, lastIndex]
  rw [run_iff_eachStep (fun _ _ _ h ha hstep => (RecLog.Indexed.step h ha.1 ha.2 hstep).1)
    (fun _ _ _ h ha hstep => (RecLog.Indexed.step h ha.1 ha.2 hstep).2) hopen ((eachStep_of_forall hfull _).and hpost) hrun,
    and_iff_right hstart]

instance (d : RecData) : ∀ c, Decidable (d.Lost c)
  | .read (.data (_ :: _) _) => inferInstanceAs (Decidable (_ < _))
  | .read (.data [] _) => inferInstanceAs (Decidable False)
  | .read .tooFew => inferInstanceAs (Decidable False)
  | .read .error => inferInstanceAs (Decidable False)
  | .setFrameSize _ => inferInstanceAs (Decidable False)

theorem audio_time_no_loss : ∃ l, run RecLog.step (.recOpen 2 2) [.read (.data [1, 2] 0), .read (.data [3, 4] 1)] = some l ∧
    l.InTime 2 := by
  obtain ⟨l, hrun, hiff⟩ := audio_time_iff 2 2 [.read (.data [1, 2] 0), .read (.data [3, 4] 1)]
    (by simp [RecCall.FullRead]) (by decide)
  exact ⟨l, hrun, hiff.mpr (by decide)⟩

theorem audio_time_drift : (∀ c ∈ lossyReads.take 2, RecCall.FullRead 2 c) ∧
    EachStep RecLog.step (fun l c => l.data.Lost c → l.data.post = []) (.recOpen 2 2) (lossyReads.take 2) ∧
    ∃ l, run RecLog.step (.recOpen 2 2) (lossyReads.take 2) = some l ∧
      l.accepted.map RecBlock.zeros = [0, 12] ∧ enteredBytes l.accepted = 16 ∧ lastIndex (-1) l.accepted = 5 ∧ ¬ l.InTime 2 := by
  refine ⟨by simp [lossyReads, RecCall.FullRead], by decide, ?_⟩
  have hrun : run RecLog.step (.recOpen 2 2) (lossyReads.take 2) = some _ := rfl
  refine ⟨_, hrun, rfl, rfl, rfl, fun h => ?_⟩
  exact absurd h.total (by decide)

end NuWicam.Media
