import NuWicam.Lib.Run
import Mathlib.Logic.Function.Basic

/-!
# Streams and their destinations (`stream.c`)

A converter is a destination of one stream that gives its frames to another. When a destination starts or stops waiting, the
producer is told: a source is told to run or to stop, and a converter's own destination starts or stops waiting in turn
(`demand_propagates`).
-/

namespace NuWicam.Rtsp

open Lib List Function

/-! ## The functions of the source -/

inductive Format
  | empty
  | rawRgb24
  | rawUyvy
  | rawBgr24
  | rawYuyv
  | pcm
  | mpeg4
  | jpeg
  | mpv
  | h263
  | h264
  | mpa
  | alaw
  | adpcm
  | ulaw
  | aac
  | g726
deriving DecidableEq, Repr

inductive Producer
  | source (running : Option Int)
  | converter (input : Nat)
deriving DecidableEq, Repr

/-- `struct stream`. Pointers are numbers. -/
structure Stream where
  name : List UInt8
  format : Format
  destList : List Nat
  /-- `set_running` and `private` -/
  producer : Producer
deriving DecidableEq, Repr

/-- `struct stream_destination` -/
structure Dest where
  stream : Nat
  waiting : Bool
  /-- `d`, for a converter's destination -/
  output : Option Nat
deriving DecidableEq, Repr

/-- All streams and destinations, the numbers of the next ones, and `stream_list`. -/
structure Streams where
  stream : Nat → Stream
  streams : Nat
  dest : Nat → Dest
  dests : Nat
  streamList : List Nat

def formatMatch (format : Format) (formats : List Format) : Bool := formats.isEmpty || formats.any (format == ·)

def insertAfter (base s : Nat) : List Nat → List Nat
  | [] => []
  | x :: xs => if x = base then x :: s :: xs else x :: insertAfter base s xs

namespace Streams

def newDest (g : Streams) (s : Nat) (output : Option Nat) : Streams :=
  { g with
    dest := update g.dest g.dests ⟨s, false, output⟩
    dests := g.dests + 1
    stream := update g.stream s { g.stream s with destList := g.dests :: (g.stream s).destList } }

def addStream (g : Streams) (x : Stream) (streamList : List Nat) : Streams :=
  { g with stream := update g.stream g.streams x, streams := g.streams + 1, streamList := streamList }

/-- The caller sets a `set_running` next. -/
def newStream (g : Streams) (name : List UInt8) (format : Format) : Streams :=
  g.addStream ⟨name, format, [], .source none⟩ (g.streams :: g.streamList)

def newConvertStream (g : Streams) (base : Nat) (format : Format) : Streams :=
  (g.addStream ⟨(g.stream base).name, format, [], .converter g.dests⟩ (insertAfter base g.streams g.streamList)).newDest
    base (some g.streams)

/-- `connect_to_stream`, with the destination that it returns -/
def connectToStream (g : Streams) (name : List UInt8) (formats : List Format) : Streams × Option Nat :=
  match g.streamList.find? fun s => (g.stream s).name = name && formatMatch (g.stream s).format formats with
  | some s => (g.newDest s none, some g.dests)
  | none =>
    match g.streamList.find? fun s =>
      (g.stream s).name = name && (g.stream s).format == .rawUyvy && formatMatch .rawRgb24 formats with
    | some s =>
      let g' := g.newConvertStream s .rawRgb24
      (g'.newDest g.streams none, some g'.dests)
    | none => (g, none)

def setFlag (g : Streams) (d : Nat) (waiting : Bool) : Streams :=
  { g with dest := update g.dest d { g.dest d with waiting := waiting } }

def listened (g : Streams) (s : Nat) : Bool := (g.stream s).destList.any fun d => (g.dest d).waiting

def giveValue (g : Streams) (s : Nat) (running : Int) : Streams :=
  { g with stream := update g.stream s { g.stream s with producer := .source (some running) } }

/-- A source takes the value, and a converter calls `set_waiting`. -/
def setRunning (setWaiting : Streams → Nat → Int → Option Streams) (g : Streams) (s : Nat) (running : Int) :
    Option Streams :=
  match (g.stream s).producer with
  | .source _ => some (g.giveValue s running)
  | .converter input => setWaiting g input running

/-- The number of streams is enough fuel. -/
def setWaiting : Nat → Streams → Nat → Int → Option Streams
  | 0, _, _, _ => none
  | fuel + 1, g, d, waiting =>
    if (g.dest d).waiting then
      if waiting ≠ 0 then some g
      else if (g.setFlag d false).listened (g.dest d).stream then some (g.setFlag d false)
      else setRunning (setWaiting fuel) (g.setFlag d false) (g.dest d).stream waiting
    else if waiting = 0 then some g
    else setRunning (setWaiting fuel) (g.setFlag d true) (g.dest d).stream waiting

end Streams

inductive StreamOp
  | newStream (name : List UInt8) (format : Format)
  | newConvertStream (base : Nat) (format : Format)
  | connectToStream (name : List UInt8) (formats : List Format)
  | setWaiting (dest : Nat) (waiting : Int)
deriving DecidableEq, Repr

namespace Streams

def step (g : Streams) : StreamOp → Option Streams
  | .newStream name format => some (g.newStream name format)
  | .newConvertStream base format => if base < g.streams then some (g.newConvertStream base format) else none
  | .connectToStream name formats => some (g.connectToStream name formats).1
  | .setWaiting d waiting =>
    if d < g.dests ∧ (g.dest d).output = none then setWaiting g.streams g d waiting else none

def start : Streams := ⟨fun _ => ⟨[], .empty, [], .source none⟩, 0, fun _ => ⟨0, false, none⟩, 0, []⟩

end Streams

/-! ## The graph -/

namespace Streams

structure Listed (g : Streams) : Prop where
  listed : ∀ s ∈ g.streamList, s < g.streams
  mem_destList : ∀ s d, d ∈ (g.stream s).destList ↔ d < g.dests ∧ (g.dest d).stream = s
  stream_lt : ∀ d < g.dests, (g.dest d).stream < g.streams

/-- A converter's destination and its output know each other, and the output is newer than the stream that the converter
reads. -/
structure Wf (g : Streams) : Prop extends Listed g where
  converter : ∀ s i, (g.stream s).producer = .converter i →
    s < g.streams ∧ i < g.dests ∧ (g.dest i).output = some s ∧ (g.dest i).stream < s
  output : ∀ d < g.dests, ∀ s, (g.dest d).output = some s → (g.stream s).producer = .converter d

structure SameShape (g g' : Streams) : Prop where
  streams : g'.streams = g.streams
  dests : g'.dests = g.dests
  streamList : g'.streamList = g.streamList
  destList : ∀ s, (g'.stream s).destList = (g.stream s).destList
  converter : ∀ s i, (g'.stream s).producer = .converter i ↔ (g.stream s).producer = .converter i
  stream : ∀ d, (g'.dest d).stream = (g.dest d).stream
  output : ∀ d, (g'.dest d).output = (g.dest d).output

section

variable {g g' g'' : Streams} {s d i fuel : Nat} {waiting : Int}

theorem SameShape.rfl : SameShape g g :=
  ⟨Eq.refl _, Eq.refl _, Eq.refl _, fun _ => Eq.refl _, fun _ _ => Iff.rfl, fun _ => Eq.refl _, fun _ => Eq.refl _⟩

theorem SameShape.trans (h : SameShape g g') (h' : SameShape g' g'') : SameShape g g'' where
  streams := h'.streams.trans h.streams
  dests := h'.dests.trans h.dests
  streamList := h'.streamList.trans h.streamList
  destList s := (h'.destList s).trans (h.destList s)
  converter s i := (h'.converter s i).trans (h.converter s i)
  stream d := (h'.stream d).trans (h.stream d)
  output d := (h'.output d).trans (h.output d)

theorem Wf.congr (hw : g.Wf) (h : SameShape g g') : g'.Wf where
  listed := by
    rw [h.streamList, h.streams]
    exact hw.listed
  mem_destList s d := by
    rw [h.destList, h.dests, h.stream]
    exact hw.mem_destList s d
  stream_lt d hd := by
    rw [h.dests] at hd
    rw [h.stream, h.streams]
    exact hw.stream_lt d hd
  converter s i hi := by
    rw [h.streams, h.dests, h.output, h.stream]
    exact hw.converter s i ((h.converter s i).mp hi)
  output d hd s hs := by
    rw [h.dests] at hd
    rw [h.output] at hs
    exact (h.converter s d).mpr (hw.output d hd s hs)

/-! ## What producers are told -/

/-- The value that a source was given, the flag of a converter's destination. -/
def told (g : Streams) (s : Nat) : Bool :=
  match (g.stream s).producer with
  | .source running => running.any (· ≠ 0)
  | .converter input => (g.dest input).waiting

def Fed (g : Streams) : Prop := ∀ s, g.told s = g.listened s

theorem told_source {running : Option Int} (h : (g.stream s).producer = .source running) : g.told s = running.any (· ≠ 0) := by
  unfold told
  rw [h]

theorem told_converter (h : (g.stream s).producer = .converter i) : g.told s = (g.dest i).waiting := by
  unfold told
  rw [h]

theorem dest_setFlag (g : Streams) (d : Nat) (b : Bool) (e : Nat) :
    (g.setFlag d b).dest e = if e = d then { g.dest d with waiting := b } else g.dest e :=
  update_apply ..

theorem sameShape_setFlag (g : Streams) (d : Nat) (b : Bool) : SameShape g (g.setFlag d b) := by
  refine ⟨Eq.refl _, Eq.refl _, Eq.refl _, fun _ => Eq.refl _, fun _ _ => Iff.rfl, fun e => ?_, fun e => ?_⟩
  · rw [dest_setFlag]
    split
    · rename_i he
      rw [he]
    · rfl
  · rw [dest_setFlag]
    split
    · rename_i he
      rw [he]
    · rfl

theorem waiting_setFlag (g : Streams) (d : Nat) (b : Bool) (e : Nat) :
    ((g.setFlag d b).dest e).waiting = if e = d then b else (g.dest e).waiting := by
  rw [dest_setFlag]
  split <;> rfl

theorem listened_setFlag (hw : g.Wf) (b : Bool) (hs : s ≠ (g.dest d).stream) : (g.setFlag d b).listened s = g.listened s := by
  unfold listened
  rw [Bool.eq_iff_iff, List.any_eq_true, List.any_eq_true]
  refine exists_congr fun e => and_congr_right fun he => ?_
  have hne : e ≠ d := by
    rintro rfl
    exact hs ((hw.mem_destList s e).mp he).2.symm
  rw [waiting_setFlag, if_neg hne]

theorem listened_of_waiting (hw : g.Wf) (hd : d < g.dests) (h : (g.dest d).waiting) : g.listened (g.dest d).stream = true :=
  List.any_eq_true.mpr ⟨d, (hw.mem_destList _ d).mpr ⟨hd, rfl⟩, h⟩

theorem Wf.output_unique (hw : g.Wf) {s' : Nat} (h : (g.stream s).producer = .converter i)
    (h' : (g.stream s').producer = .converter i) : s' = s := by
  have hs := (hw.converter s i h).2.2.1
  have hs' := (hw.converter s' i h').2.2.1
  rw [hs] at hs'
  exact (Option.some.inj hs').symm

def FedBut (g : Streams) (s : Nat) : Prop := ∀ s' ≠ s, g.told s' = g.listened s'

theorem told_setFlag (g : Streams) (d : Nat) (b : Bool) (s : Nat) :
    (g.setFlag d b).told s = if (g.stream s).producer = .converter d then b else g.told s := by
  cases hp : (g.stream s).producer with
  | source running =>
    rw [if_neg Producer.noConfusion, told_source hp]
    exact told_source (g := g.setFlag d b) hp
  | converter i =>
    rw [told_converter (g := g.setFlag d b) hp, told_converter hp, waiting_setFlag]
    by_cases hi : i = d
    · rw [if_pos hi, if_pos (congrArg _ hi)]
    · rw [if_neg hi, if_neg fun h => hi (Producer.converter.inj h)]

theorem fedBut_setFlag (hw : g.Wf) {b : Bool} (hown : ∀ s, (g.stream s).producer = .converter d → g.listened s = b)
    (hrest : ∀ s, (g.stream s).producer ≠ .converter d → g.told s = g.listened s) :
    (g.setFlag d b).FedBut (g.dest d).stream := by
  intro s hs
  rw [listened_setFlag hw b hs, told_setFlag]
  split
  · exact (hown s ‹_›).symm
  · exact hrest s ‹_›

theorem Wf.not_own (hw : g.Wf) : (g.stream (g.dest d).stream).producer ≠ .converter d := by
  intro h
  exact Nat.lt_irrefl _ (hw.converter _ d h).2.2.2

theorem FedBut.fed (h : g.FedBut s) (hs : g.told s = g.listened s) : g.Fed := by
  intro s'
  by_cases heq : s' = s
  · rw [heq]
    exact hs
  · exact h s' heq

/-- Only flags and what sources were told change, sources take `0` or the value of the call, and every producer knows what is
wanted. -/
structure Propagated (g : Streams) (waiting : Int) (g' : Streams) : Prop where
  shape : SameShape g g'
  fed : g'.Fed
  values : ∀ s v, (g'.stream s).producer = .source (some v) →
    (g.stream s).producer = .source (some v) ∨ v = 0 ∨ v = waiting

theorem stream_giveValue (g : Streams) (s : Nat) (running : Int) (s' : Nat) : (g.giveValue s running).stream s' =
    if s' = s then { g.stream s with producer := .source (some running) } else g.stream s' :=
  update_apply ..

theorem destList_giveValue (g : Streams) (s : Nat) (running : Int) (s' : Nat) :
    ((g.giveValue s running).stream s').destList = (g.stream s').destList := by
  rw [stream_giveValue]
  split
  · rename_i hs
    rw [hs]
  · rfl

theorem propagated_giveValue {running : Option Int} (hp : (g.stream s).producer = .source running) (hbut : g.FedBut s)
    (hs : g.listened s = decide (waiting ≠ 0)) : Propagated g waiting (g.giveValue s waiting) where
  shape := by
    refine ⟨rfl, rfl, rfl, destList_giveValue g s waiting, fun s' i => ?_, fun _ => rfl, fun _ => rfl⟩
    rw [stream_giveValue]
    split
    · rename_i heq
      rw [heq, hp]
      exact ⟨Producer.noConfusion, Producer.noConfusion⟩
    · exact Iff.rfl
  fed := by
    have hlistened : ∀ s', (g.giveValue s waiting).listened s' = g.listened s' := by
      intro s'
      unfold listened
      rw [destList_giveValue]
      rfl
    have hbut' : (g.giveValue s waiting).FedBut s := by
      intro s' hne
      rw [hlistened, ← hbut s' hne]
      unfold told
      rw [stream_giveValue, if_neg hne]
      rfl
    refine hbut'.fed ?_
    have hgiven : ((g.giveValue s waiting).stream s).producer = .source (some waiting) := by
      rw [stream_giveValue, if_pos rfl]
    rw [told_source hgiven, hlistened, hs]
    rfl
  values := by
    intro s' v hv
    rw [stream_giveValue] at hv
    split at hv
    · cases hv
      exact .inr (.inr rfl)
    · exact .inl hv

theorem setRunning_spec {setWaiting : Streams → Nat → Int → Option Streams} (hw : g.Wf) (hbut : g.FedBut s)
    (hs : g.listened s = decide (waiting ≠ 0))
    (hset : ∀ i, (g.stream s).producer = .converter i → (∀ s', (g.stream s').producer = .converter i →
      g.listened s' = decide (waiting ≠ 0)) → (∀ s', (g.stream s').producer ≠ .converter i → g.told s' = g.listened s') →
      ∃ g', setWaiting g i waiting = some g' ∧ Propagated g waiting g') :
    ∃ g', setRunning setWaiting g s waiting = some g' ∧ Propagated g waiting g' := by
  unfold setRunning
  cases hp : (g.stream s).producer with
  | converter i =>
    refine hset i hp (fun s' hs' => ?_) fun s' hs' => hbut s' ?_
    · rw [hw.output_unique hp hs']
      exact hs
    · rintro rfl
      exact hs' hp
  | source running => exact ⟨_, rfl, propagated_giveValue hp hbut hs⟩

theorem Propagated.of_setFlag {b : Bool} (h : Propagated (g.setFlag d b) waiting g') : Propagated g waiting g' :=
  ⟨(sameShape_setFlag g d b).trans h.shape, h.fed, h.values⟩

theorem setWaiting_spec (hw : g.Wf) (hd : d < g.dests) (hfuel : (g.dest d).stream < fuel)
    (hown : ∀ s, (g.stream s).producer = .converter d → g.listened s = decide (waiting ≠ 0))
    (hrest : ∀ s, (g.stream s).producer ≠ .converter d → g.told s = g.listened s) :
    ∃ g', setWaiting fuel g d waiting = some g' ∧ Propagated g waiting g' := by
  induction fuel generalizing g d with
  | zero => exact absurd hfuel (by omega)
  | succ fuel ih =>
    -- nothing is to be done if the flag is what it should be
    have hsame : (g.dest d).waiting = decide (waiting ≠ 0) → Propagated g waiting g := by
      intro hflag
      refine ⟨SameShape.rfl, fun s => ?_, fun s v hv => .inl hv⟩
      by_cases hp : (g.stream s).producer = .converter d
      · rw [told_converter hp, hflag, hown s hp]
      · exact hrest s hp
    have hset := fedBut_setFlag hw hown hrest
    have hw' := hw.congr (sameShape_setFlag g d (decide (waiting ≠ 0)))
    have hrun : (g.setFlag d (decide (waiting ≠ 0))).listened (g.dest d).stream = decide (waiting ≠ 0) →
        ∃ g', setRunning (setWaiting fuel) (g.setFlag d (decide (waiting ≠ 0))) (g.dest d).stream waiting = some g' ∧
          Propagated g waiting g' := by
      intro hs
      obtain ⟨g', hg', hprop⟩ := setRunning_spec hw' hset hs fun i hi hown' hrest' => by
        obtain ⟨-, hilt, -, hlt⟩ := hw'.converter _ i hi
        exact ih hw' hilt (by omega) hown' hrest'
      exact ⟨g', hg', hprop.of_setFlag⟩
    unfold setWaiting
    by_cases hzero : waiting = 0
    · have hoff : decide (waiting ≠ 0) = false := decide_eq_false fun h => h hzero
      rw [hoff] at hset hsame hrun
      cases hflag : (g.dest d).waiting with
      | false =>
        rw [if_neg Bool.noConfusion, if_pos hzero]
        exact ⟨g, rfl, hsame hflag⟩
      | true =>
        rw [if_pos rfl, if_neg fun h => h hzero]
        by_cases hother : (g.setFlag d false).listened (g.dest d).stream
        · -- others are still listening
          rw [if_pos hother]
          refine ⟨_, rfl, sameShape_setFlag g d false, hset.fed ?_, fun s v hv => .inl hv⟩
          rw [told_setFlag, if_neg hw.not_own, hrest _ hw.not_own, hother]
          exact listened_of_waiting hw hd hflag
        · rw [if_neg hother]
          exact hrun (Bool.not_eq_true _ ▸ hother)
    · have hon : decide (waiting ≠ 0) := decide_eq_true hzero
      rw [hon] at hset hsame hrun
      cases hflag : (g.dest d).waiting with
      | true =>
        rw [if_pos rfl, if_pos hzero]
        exact ⟨g, rfl, hsame hflag⟩
      | false =>
        rw [if_neg Bool.noConfusion, if_neg hzero]
        refine hrun ?_
        have hshape := sameShape_setFlag g d true
        have hnow := listened_of_waiting (hw.congr hshape) hd (d := d) (by rw [waiting_setFlag, if_pos rfl])
        rwa [hshape.stream] at hnow

/-! ## New streams and destinations -/

theorem stream_addStream (g : Streams) (x : Stream) (l : List Nat) (s : Nat) :
    (g.addStream x l).stream s = if s = g.streams then x else g.stream s :=
  update_apply ..

theorem Listed.destList_eq_nil (h : g.Listed) : (g.stream g.streams).destList = [] := by
  refine eq_nil_iff_forall_not_mem.mpr fun d hd => ?_
  obtain ⟨hlt, hstream⟩ := (h.mem_destList _ d).mp hd
  exact Nat.lt_irrefl _ (hstream ▸ h.stream_lt d hlt)

theorem destList_addStream (h : g.Listed) {x : Stream} (hx : x.destList = []) (l : List Nat) (s : Nat) :
    ((g.addStream x l).stream s).destList = (g.stream s).destList := by
  rw [stream_addStream]
  split
  · rename_i hs
    rw [hs, hx, h.destList_eq_nil]
  · rfl

theorem Listed.addStream (h : g.Listed) {x : Stream} (hx : x.destList = []) {l : List Nat}
    (hl : ∀ s ∈ l, s < g.streams + 1) : (g.addStream x l).Listed where
  listed := hl
  mem_destList s d := by
    rw [destList_addStream h hx]
    exact h.mem_destList s d
  stream_lt d hd := Nat.lt_succ_of_lt (h.stream_lt d hd)

theorem listened_addStream (h : g.Listed) {x : Stream} (hx : x.destList = []) (l : List Nat) (s : Nat) :
    (g.addStream x l).listened s = g.listened s := by
  unfold listened
  rw [destList_addStream h hx]
  rfl

theorem told_addStream (x : Stream) (l : List Nat) (hs : s ≠ g.streams) : (g.addStream x l).told s = g.told s := by
  unfold told
  rw [stream_addStream, if_neg hs]
  rfl

theorem dest_newDest (g : Streams) (s : Nat) (o : Option Nat) (d : Nat) :
    (g.newDest s o).dest d = if d = g.dests then ⟨s, false, o⟩ else g.dest d :=
  update_apply ..

theorem stream_newDest (g : Streams) (s : Nat) (o : Option Nat) (s' : Nat) : (g.newDest s o).stream s' =
    if s' = s then { g.stream s with destList := g.dests :: (g.stream s).destList } else g.stream s' :=
  update_apply ..

theorem producer_newDest (g : Streams) (s : Nat) (o : Option Nat) (s' : Nat) :
    ((g.newDest s o).stream s').producer = (g.stream s').producer := by
  rw [stream_newDest]
  split
  · rename_i hs
    rw [hs]
  · rfl

theorem mem_newDest {o : Option Nat} {s' : Nat} : d ∈ ((g.newDest s o).stream s').destList ↔
    d ∈ (g.stream s').destList ∨ s' = s ∧ d = g.dests := by
  rw [stream_newDest]
  split
  · rename_i hs
    subst hs
    rw [mem_cons]
    exact ⟨fun h => h.elim (fun h => .inr ⟨rfl, h⟩) .inl, fun h => h.elim .inr fun h => .inl h.2⟩
  · rename_i hs
    exact ⟨.inl, fun h => h.elim id fun h => absurd h.1 hs⟩

theorem Listed.newDest (h : g.Listed) (hs : s < g.streams) (o : Option Nat) : (g.newDest s o).Listed where
  listed := h.listed
  mem_destList s' d := by
    rw [mem_newDest, h.mem_destList, dest_newDest]
    show _ ↔ d < g.dests + 1 ∧ _
    split
    · rename_i hd
      subst hd
      exact ⟨fun h => h.elim (fun h => absurd h.1 (by omega)) fun h => ⟨by omega, h.1.symm⟩,
        fun h => .inr ⟨h.2.symm, rfl⟩⟩
    · rename_i hd
      refine ⟨fun h => ?_, fun h => .inl ⟨by omega, h.2⟩⟩
      rcases h with ⟨hlt, hstream⟩ | ⟨-, heq⟩
      · exact ⟨by omega, hstream⟩
      · exact absurd heq hd
  stream_lt d hd := by
    rw [dest_newDest]
    split
    · exact hs
    · rename_i hne
      have hlt : d < g.dests + 1 := hd
      exact h.stream_lt d (by omega)

theorem listened_newDest (h : g.Listed) (s : Nat) (o : Option Nat) (s' : Nat) :
    (g.newDest s o).listened s' = g.listened s' := by
  unfold listened
  rw [Bool.eq_iff_iff, List.any_eq_true, List.any_eq_true]
  refine exists_congr fun d => ?_
  rw [mem_newDest, dest_newDest]
  split
  · rename_i hd
    have hnot : d ∉ (g.stream s').destList := fun hmem => Nat.lt_irrefl _ (hd ▸ ((h.mem_destList s' d).mp hmem).1)
    refine ⟨fun hw => ?_, fun hw => absurd hw.1 hnot⟩
    cases hw.2
  · rename_i hd
    exact ⟨fun hw => ⟨hw.1.resolve_right fun h => hd h.2, hw.2⟩, fun hw => ⟨.inl hw.1, hw.2⟩⟩

theorem told_newDest (g : Streams) (s : Nat) (o : Option Nat) (s' : Nat) : (g.newDest s o).told s' =
    if (g.stream s').producer = .converter g.dests then false else g.told s' := by
  have hp := producer_newDest g s o s'
  cases hq : (g.stream s').producer with
  | source running =>
    rw [if_neg Producer.noConfusion, told_source (hp.trans hq), told_source hq]
  | converter i =>
    rw [told_converter (hp.trans hq), told_converter hq, dest_newDest]
    by_cases hi : i = g.dests
    · rw [if_pos hi, if_pos (congrArg _ hi)]
    · rw [if_neg hi, if_neg fun h => hi (Producer.converter.inj h)]

/-! ## Every call -/

structure Sound (g : Streams) : Prop extends Wf g where
  fed : g.Fed

theorem sound_newStream (h : g.Sound) (name : List UInt8) (format : Format) : (g.newStream name format).Sound where
  toListed := h.toListed.addStream rfl fun s hs => by
    rcases mem_cons.mp hs with rfl | hs
    · omega
    · exact Nat.lt_succ_of_lt (h.listed s hs)
  converter s i hi := by
    unfold newStream at hi
    rw [stream_addStream] at hi
    split at hi
    · cases hi
    · obtain ⟨hs, hrest⟩ := h.converter s i hi
      exact ⟨Nat.lt_succ_of_lt hs, hrest⟩
  output d hd s hs := by
    have hp := h.output d hd s hs
    have hne : s ≠ g.streams := Nat.ne_of_lt (h.converter s d hp).1
    unfold newStream
    rw [stream_addStream, if_neg hne]
    exact hp
  fed s := by
    refine Eq.trans ?_ (listened_addStream h.toListed rfl _ s).symm
    by_cases hs : s = g.streams
    · subst hs
      have hnew : ((g.newStream name format).stream g.streams).producer = .source none := by
        unfold newStream
        rw [stream_addStream, if_pos rfl]
      rw [told_source hnew, listened, h.destList_eq_nil]
      rfl
    · exact (told_addStream _ _ hs).trans (h.fed s)

theorem sound_newDest (h : g.Sound) (hs : s < g.streams) : (g.newDest s none).Sound where
  toListed := h.toListed.newDest hs none
  converter s' i hi := by
    rw [producer_newDest] at hi
    obtain ⟨hs', hilt, hout, hlt⟩ := h.converter s' i hi
    have hne : i ≠ g.dests := by omega
    rw [dest_newDest, if_neg hne]
    exact ⟨hs', Nat.lt_succ_of_lt hilt, hout, hlt⟩
  output d hd s' ho := by
    rw [dest_newDest] at ho
    split at ho
    · cases ho
    · rename_i hne
      have hlt : d < g.dests + 1 := hd
      rw [producer_newDest]
      exact h.output d (by omega) s' ho
  fed s' := by
    have hno : (g.stream s').producer ≠ .converter g.dests := fun hp => Nat.lt_irrefl _ (h.converter _ _ hp).2.1
    rw [told_newDest, if_neg hno, listened_newDest h.toListed]
    exact h.fed s'

theorem mem_insertAfter {base s x : Nat} {l : List Nat} (h : x ∈ insertAfter base s l) : x = s ∨ x ∈ l := by
  induction l with
  | nil => cases h
  | cons y l ih =>
    unfold insertAfter at h
    split at h
    · rcases mem_cons.mp h with rfl | h
      · exact .inr mem_cons_self
      · rcases mem_cons.mp h with rfl | h
        · exact .inl rfl
        · exact .inr (mem_cons_of_mem _ h)
    · rcases mem_cons.mp h with rfl | h
      · exact .inr mem_cons_self
      · exact (ih h).imp id (mem_cons_of_mem _)

theorem sound_newConvertStream {base : Nat} (h : g.Sound) (hb : base < g.streams) (format : Format) :
    (g.newConvertStream base format).Sound := by
  have hlisted := h.toListed.addStream
    (x := ⟨(g.stream base).name, format, [], .converter g.dests⟩) rfl
    (l := insertAfter base g.streams g.streamList) fun s hs => by
      rcases mem_insertAfter hs with rfl | hs
      · omega
      · exact Nat.lt_succ_of_lt (h.listed s hs)
  have hproducer : ∀ s, ((g.newConvertStream base format).stream s).producer =
      if s = g.streams then .converter g.dests else (g.stream s).producer := by
    intro s
    unfold newConvertStream
    rw [producer_newDest, stream_addStream]
    split <;> rfl
  have hdest : ∀ d, (g.newConvertStream base format).dest d =
      if d = g.dests then ⟨base, false, some g.streams⟩ else g.dest d := fun d => dest_newDest _ base _ d
  have hold : ∀ {s i}, (g.stream s).producer = .converter i → s ≠ g.streams ∧ i ≠ g.dests := by
    intro s i hi
    obtain ⟨hs, hilt, -⟩ := h.converter s i hi
    exact ⟨by omega, by omega⟩
  refine ⟨⟨hlisted.newDest (Nat.lt_succ_of_lt hb) _, fun s i hi => ?_, fun d hd s hs => ?_⟩, fun s => ?_⟩
  · rw [hproducer] at hi
    split at hi
    · rename_i hs
      cases hi
      rw [hdest, if_pos rfl, hs]
      exact ⟨Nat.lt_succ_self _, Nat.lt_succ_self _, rfl, hb⟩
    · obtain ⟨hlt, hilt, hrest⟩ := h.converter s i hi
      rw [hdest, if_neg (hold hi).2]
      exact ⟨Nat.lt_succ_of_lt hlt, Nat.lt_succ_of_lt hilt, hrest⟩
  · rw [hdest] at hs
    rw [hproducer]
    split at hs
    · rename_i hd
      cases hs
      rw [if_pos rfl, hd]
    · rename_i hne
      have hlt : d < g.dests + 1 := hd
      have hp := h.output d (by omega) s hs
      rw [if_neg (hold hp).1]
      exact hp
  · have hlistened : (g.newConvertStream base format).listened s = g.listened s :=
      (listened_newDest hlisted base _ s).trans (listened_addStream h.toListed rfl _ s)
    rw [hlistened]
    by_cases hs : s = g.streams
    · have hp := hproducer s
      rw [if_pos hs] at hp
      rw [told_converter hp, hdest, if_pos rfl, hs, listened, h.destList_eq_nil]
      rfl
    · rw [← h.fed s]
      have hp := hproducer s
      rw [if_neg hs] at hp
      cases hq : (g.stream s).producer with
      | source running => rw [told_source (hp.trans hq), told_source hq]
      | converter i => rw [told_converter (hp.trans hq), told_converter hq, hdest, if_neg (hold hq).2]

theorem connectToStream_cases (h : g.Sound) (name : List UInt8) (formats : List Format) :
    (∃ s < g.streams, (g.connectToStream name formats).1 = g.newDest s none) ∨
    (∃ s < g.streams, (g.connectToStream name formats).1 = (g.newConvertStream s .rawRgb24).newDest g.streams none) ∨
    (g.connectToStream name formats).1 = g := by
  unfold connectToStream
  split
  · rename_i s hs
    exact .inl ⟨s, h.listed s (List.mem_of_find?_eq_some hs), rfl⟩
  · split
    · rename_i s hs
      exact .inr (.inl ⟨s, h.listed s (List.mem_of_find?_eq_some hs), rfl⟩)
    · exact .inr (.inr rfl)

theorem sound_setWaiting (h : g.Sound) (hd : d < g.dests) (hleaf : (g.dest d).output = none) (waiting : Int) :
    ∃ g', setWaiting g.streams g d waiting = some g' ∧ Propagated g waiting g' := by
  have hno : ∀ s, (g.stream s).producer ≠ .converter d := by
    intro s hp
    rw [(h.converter s d hp).2.2.1] at hleaf
    cases hleaf
  exact setWaiting_spec h.toWf hd (h.stream_lt d hd) (fun s hp => absurd hp (hno s)) fun s _ => h.fed s

inductive Stepped (g : Streams) : StreamOp → Streams → Prop
  | stream (name : List UInt8) (format : Format) : Stepped g (.newStream name format) (g.newStream name format)
  | convert {base : Nat} (hb : base < g.streams) (format : Format) :
      Stepped g (.newConvertStream base format) (g.newConvertStream base format)
  | connected (name : List UInt8) (formats : List Format) {s : Nat} (hs : s < g.streams) :
      Stepped g (.connectToStream name formats) (g.newDest s none)
  | converted (name : List UInt8) (formats : List Format) {s : Nat} (hs : s < g.streams) :
      Stepped g (.connectToStream name formats) ((g.newConvertStream s .rawRgb24).newDest g.streams none)
  | refused (name : List UInt8) (formats : List Format) : Stepped g (.connectToStream name formats) g
  | waiting (d : Nat) {waiting : Int} {g' : Streams} (hp : Propagated g waiting g') : Stepped g (.setWaiting d waiting) g'

theorem step_cases {op : StreamOp} (h : g.Sound) (hs : g.step op = some g') : Stepped g op g' := by
  unfold step at hs
  cases op with
  | newStream name format =>
    cases hs
    exact .stream name format
  | newConvertStream base format =>
    dsimp only at hs
    split at hs
    · cases hs
      exact .convert ‹_› format
    · cases hs
  | connectToStream name formats =>
    cases hs
    rcases connectToStream_cases h name formats with ⟨s, hs, heq⟩ | ⟨s, hs, heq⟩ | heq
    · rw [heq]
      exact .connected name formats hs
    · rw [heq]
      exact .converted name formats hs
    · rw [heq]
      exact .refused name formats
  | setWaiting d waiting =>
    dsimp only at hs
    split at hs
    · rename_i hd
      obtain ⟨g₁, hg₁, hp⟩ := sound_setWaiting h hd.1 hd.2 waiting
      cases hg₁.symm.trans hs
      exact .waiting d hp
    · cases hs

/-- **One call** keeps the demand told. -/
theorem step_sound {op : StreamOp} (h : g.Sound) (hs : g.step op = some g') : g'.Sound := by
  cases step_cases h hs with
  | stream name format => exact sound_newStream h name format
  | convert hb format => exact sound_newConvertStream h hb format
  | connected _ _ hlt => exact sound_newDest h hlt
  | converted _ _ hlt => exact sound_newDest (sound_newConvertStream h hlt _) (Nat.lt_succ_self _)
  | refused => exact h
  | waiting _ hp => exact ⟨h.toWf.congr hp.shape, hp.fed⟩

theorem start_sound : start.Sound where
  listed _ hs := by cases hs
  mem_destList s d := ⟨fun h => absurd h not_mem_nil, fun h => absurd h.1 (Nat.not_lt_zero d)⟩
  stream_lt d hd := absurd hd (Nat.not_lt_zero d)
  converter s i hi := by cases hi
  output d hd := absurd hd (Nat.not_lt_zero d)
  fed _ := rfl

theorem sound_of_run {ops : List StreamOp} (h : run step start ops = some g) : g.Sound :=
  (always_of_step (fun _ _ _ hg hs => step_sound hg hs) start_sound).last h

theorem source_newConvertStream {base : Nat} {format : Format} {running : Option Int}
    (h : ((g.newConvertStream base format).stream s).producer = .source running) : (g.stream s).producer = .source running := by
  unfold newConvertStream at h
  rw [producer_newDest, stream_addStream] at h
  split at h
  · cases h
  · exact h

theorem step_values {op : StreamOp} (h : g.Sound) (hs : g.step op = some g') {v : Int}
    (hv : (g'.stream s).producer = .source (some v)) :
    (g.stream s).producer = .source (some v) ∨ v = 0 ∨ ∃ d, op = .setWaiting d v := by
  cases step_cases h hs with
  | stream name format =>
    unfold newStream at hv
    rw [stream_addStream] at hv
    split at hv
    · cases hv
    · exact .inl hv
  | convert => exact .inl (source_newConvertStream hv)
  | connected =>
    rw [producer_newDest] at hv
    exact .inl hv
  | converted =>
    rw [producer_newDest] at hv
    exact .inl (source_newConvertStream hv)
  | refused => exact .inl hv
  | waiting d hp =>
    rcases hp.values s v hv with hv | hv | rfl
    · exact .inl hv
    · exact .inr (.inl hv)
    · exact .inr (.inr ⟨d, rfl⟩)

def Boolean (op : StreamOp) : Prop := ∀ d v, op = .setWaiting d v → v = 0 ∨ v = 1

theorem values_of_run {ops : List StreamOp} (h : run step start ops = some g) (hops : ∀ op ∈ ops, Boolean op) {v : Int}
    (hv : (g.stream s).producer = .source (some v)) : v = 0 ∨ v = 1 := by
  have hstep : ∀ g op g', (g.Sound ∧ ∀ s v, (g.stream s).producer = .source (some v) → v = 0 ∨ v = 1) → Boolean op →
      step g op = some g' → g'.Sound ∧ ∀ s v, (g'.stream s).producer = .source (some v) → v = 0 ∨ v = 1 := by
    intro g op g' hg hop hs
    refine ⟨step_sound hg.1 hs, fun s v hv => ?_⟩
    rcases step_values hg.1 hs hv with hv | hv | ⟨d, rfl⟩
    · exact hg.2 s v hv
    · exact .inl hv
    · exact hop d v rfl
  have hstart : start.Sound ∧ ∀ s v, (start.stream s).producer = .source (some v) → v = 0 ∨ v = 1 :=
    ⟨start_sound, fun s v hv => by cases hv⟩
  exact ((always_of_eachStep hstep hstart (eachStep_of_forall hops start)).last h).2 s v hv

/-! ## Demand -/

end

inductive Reaches (g : Streams) : Nat → Nat → Prop
  | here {s d : Nat} (hd : d ∈ (g.stream s).destList) : Reaches g s d
  | through {s d s' d' : Nat} (hd : d ∈ (g.stream s).destList) (ho : (g.dest d).output = some s') (h : Reaches g s' d') :
      Reaches g s d'

section

variable {g : Streams} {s d : Nat}

theorem listened_iff : g.listened s ↔ ∃ d ∈ (g.stream s).destList, (g.dest d).waiting = true := List.any_eq_true

theorem Sound.converter_waiting (h : g.Sound) {s : Nat} (hd : d < g.dests) (ho : (g.dest d).output = some s) :
    (g.dest d).waiting = g.listened s := by
  rw [← h.fed s]
  exact (told_converter (h.output d hd s ho)).symm

theorem Sound.listened_iff_reaches (h : g.Sound) : g.listened s ↔ ∃ d, g.Reaches s d ∧ (g.dest d).waiting = true := by
  constructor
  · intro hs
    obtain ⟨d, hd, hw⟩ := listened_iff.mp hs
    exact ⟨d, .here hd, hw⟩
  · rintro ⟨d, hr, hw⟩
    -- from the destination back to the stream, through one converter after the other
    induction hr with
    | here hd => exact listened_iff.mpr ⟨_, hd, hw⟩
    | @through s e s' d' hd ho _ ih =>
      refine listened_iff.mpr ⟨e, hd, ?_⟩
      rw [h.converter_waiting ((h.mem_destList s e).mp hd).1 ho]
      exact ih hw

end

/-- **Demand propagates** through every graph of streams, after every sequence of calls. -/
theorem demand_propagates {ops : List StreamOp} {g : Streams} (h : run step start ops = some g) :
    (∀ s running, (g.stream s).producer = .source running →
      ((∃ v, v ≠ 0 ∧ running = some v) ↔ ∃ d, g.Reaches s d ∧ (g.dest d).waiting = true) ∧
      ((∀ op ∈ ops, Boolean op) → (running = some 1 ↔ ∃ d, g.Reaches s d ∧ (g.dest d).waiting = true))) ∧
    (∀ d < g.dests, ∀ s, (g.dest d).output = some s →
      ((g.dest d).waiting = true ↔ ∃ e ∈ (g.stream s).destList, (g.dest e).waiting = true)) ∧
    ∀ d < g.dests, (g.dest d).output = none → ∀ waiting, ∃ g', g.step (.setWaiting d waiting) = some g' := by
  have hsound := sound_of_run h
  refine ⟨fun s running hp => ?_, fun d hd s ho => ?_, fun d hd ho waiting => ?_⟩
  · have htold : running.any (· ≠ 0) ↔ ∃ d, g.Reaches s d ∧ (g.dest d).waiting := by
      rw [← told_source hp, hsound.fed s]
      exact hsound.listened_iff_reaches
    have hvalue : running.any (· ≠ 0) ↔ ∃ v, v ≠ 0 ∧ running = some v := by
      rw [Option.any_eq_true]
      refine exists_congr fun v => ?_
      rw [decide_eq_true_iff]
      exact And.comm
    refine ⟨hvalue.symm.trans htold, fun hops => Iff.trans ?_ (hvalue.symm.trans htold)⟩
    constructor
    · rintro rfl
      exact ⟨1, by omega, rfl⟩
    · rintro ⟨v, hne, rfl⟩
      exact congrArg some ((values_of_run h hops hp).resolve_left hne)
  · rw [hsound.converter_waiting hd ho]
    exact listened_iff
  · obtain ⟨g', hg', -⟩ := sound_setWaiting hsound hd ho waiting
    refine ⟨g', ?_⟩
    exact (if_pos ⟨hd, ho⟩).trans hg'

def oneClient : List StreamOp :=
  [.newStream [99, 97, 109] .rawUyvy, .connectToStream [99, 97, 109] [.rawRgb24], .setWaiting 1 1]

theorem demand_propagates_oneClient : ∃ g, run step start oneClient = some g ∧
    (g.stream 0).producer = .source (some 1) ∧ (∃ d, g.Reaches 0 d ∧ (g.dest d).waiting = true) ∧
    (g.dest 0).output = some 1 ∧ (g.dest 0).waiting = true := by
  refine ⟨_, rfl, rfl, ?_, rfl, rfl⟩
  exact ((demand_propagates (h := (rfl : run step start oneClient = some _))).1 0 (some 1) rfl).1.mp
    ⟨1, by omega, rfl⟩

end Streams

end NuWicam.Rtsp
