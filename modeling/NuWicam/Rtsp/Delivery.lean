import NuWicam.Lib.References
import NuWicam.Rtsp.FrameHeap
import NuWicam.Rtsp.Streams
import Mathlib.Algebra.BigOperators.Group.Finset.Basic

/-!
# Delivering frames (`stream.c`, `live.c`, `http.c`)

`deliver_frame_to_stream` gives a frame to the waiting destinations of a stream, each with a reference of its own, and
releases the one it was called with. `deliverFrameToStream_loses`: all references are released apart from those that
locations keep, except where a converter finds no free frame (`delivery_conserves_iff`).
-/

namespace NuWicam.Rtsp

open Lib Option Function

/-! ## The functions of the source -/

inductive Sink (m : Nat)
  | live (track : Nat)
  | http (loc : Fin m)

structure Outputs (α : Type) (m : Nat) where
  ready : Nat → Bool
  frame : Fin m → Option α

/-- What a delivery meets at a destination: its flag, which the callbacks before may have changed, whether the track or
location accepts the frame, and what `new_frame` returns to a converter. -/
structure Visit (α : Type) where
  waiting : Nat → Bool
  accepts : Nat → Bool
  newFrame : Nat → Option α

section

variable {α : Type} {m : Nat}

/-- `accepted` is the result of the track's `frame`; what it sends is left to the sessions. -/
def Outputs.nextLiveFrame (accepted : Bool) (track : Nat) (f : α) (x : Outputs α m) : Outputs α m × List (RefCall α) :=
  if accepted then ({ x with ready := update x.ready track true }, [.unref f]) else (x, [.unref f])

/-- `wellFormed` is whether the frame starts with `FF D8 FF`. -/
def Outputs.jpegNextFrame (wellFormed : Bool) (loc : Fin m) (f : α) (x : Outputs α m) : Outputs α m × List (RefCall α) :=
  if wellFormed then
    ({ x with frame := update x.frame loc (some f) }, (x.frame loc).toList.map RefCall.unref)
  else (x, [.unref f])

/-- `rgb` is the result of `new_frame`; the frame `uyvy` is not released if it is `NULL`. -/
def convertUyvyToRgb24 (deliver : α → Outputs α m → Option (Outputs α m × List (RefCall α))) (rgb : Option α) (uyvy : α)
    (x : Outputs α m) : Option (Outputs α m × List (RefCall α)) :=
  match rgb with
  | none => some (x, [])
  | some rgb => (deliver rgb x).map fun r => (r.1, .new rgb :: .unref uyvy :: r.2)

variable (g : Streams) (sink : Nat → Sink m) (v : Visit α)

def processFrame (deliver : Nat → α → Outputs α m → Option (Outputs α m × List (RefCall α))) (d : Nat) (f : α)
    (x : Outputs α m) : Option (Outputs α m × List (RefCall α)) :=
  match (g.dest d).output with
  | some s => convertUyvyToRgb24 (deliver s) (v.newFrame d) f x
  | none =>
    match sink d with
    | .live track => some (Outputs.nextLiveFrame (v.accepts d) track f x)
    | .http loc => some (Outputs.jpegNextFrame (v.accepts d) loc f x)

/-- The loop of `deliver_frame_to_stream` -/
def forDests (deliver : Nat → α → Outputs α m → Option (Outputs α m × List (RefCall α))) (f : α) :
    List Nat → Outputs α m → Option (Outputs α m × List (RefCall α))
  | [], x => some (x, [])
  | d :: ds, x =>
    if v.waiting d then
      (processFrame g sink v deliver d f x).bind fun r => (forDests deliver f ds r.1).map fun r' =>
        (r'.1, .ref f :: (r.2 ++ r'.2))
    else forDests deliver f ds x

/-- With the calls of the functions of `frame.c`; the number of streams is enough fuel. -/
def deliverFrameToStream : Nat → Nat → α → Outputs α m → Option (Outputs α m × List (RefCall α))
  | 0, _, _, _ => none
  | fuel + 1, s, f, x => (forDests g sink v (deliverFrameToStream fuel) f (g.stream s).destList x).map fun r =>
    (r.1, r.2 ++ [.unref f])

end

/-- `new_frame` may return `NULL`. -/
def FrameCall.refCalls {n : Nat} : FrameCall n → List (RefCall (Fin n)) → Prop
  | .newFrame, calls => calls = [] ∨ ∃ f, calls = [.new f]
  | .refFrame f, calls => calls = [.ref f]
  | .unrefFrame f, calls => calls = [.unref f]
  | _, _ => False

theorem FrameHeap.call_held {n t : Nat} {h h' : FrameHeap n} {c : FrameCall n} (hclone : ∀ orig, c ≠ .cloneFrame orig)
    (hd : h.Disciplined (t, c)) (hc : h.call t c = some h') :
    ∃ calls, c.refCalls calls ∧ run refCall (h.held : Multiset (Fin n)) calls = some ↑h'.held := by
  cases c with
  | newFrame =>
    obtain ⟨-, hc⟩ := ite_none_left_eq_some.mp hc
    cases hs : h.slot h.take with
    | none =>
      rw [newFrame_none hs] at hc
      cases hc
      exact ⟨[], .inl rfl, rfl⟩
    | some f =>
      rw [newFrame_some hs] at hc
      cases hc
      exact ⟨[.new f], .inr ⟨f, rfl⟩, rfl⟩
  | refFrame f =>
    cases hc
    refine ⟨[.ref f], rfl, ?_⟩
    rw [run, refCall, if_pos (Multiset.mem_coe.mpr hd)]
    rfl
  | unrefFrame f =>
    cases hc
    refine ⟨[.unref f], rfl, ?_⟩
    rw [run, refCall, if_pos (Multiset.mem_coe.mpr hd)]
    rfl
  | cloneFrame f => exact absurd rfl (hclone f)
  | goOn => cases hc

/-! ## Deliveries end -/

section

variable {α : Type} {m : Nat} {g : Streams} {sink : Nat → Sink m} {v : Visit α}

theorem forDests_total {deliver : Nat → α → Outputs α m → Option (Outputs α m × List (RefCall α))} {P : Nat → Prop}
    (ds : List Nat) (hds : ∀ d ∈ ds, ∀ s, (g.dest d).output = some s → P s)
    (hdeliver : ∀ s, P s → ∀ f x, ∃ r, deliver s f x = some r) (f : α) (x : Outputs α m) :
    ∃ r, forDests g sink v deliver f ds x = some r := by
  induction ds generalizing x with
  | nil => exact ⟨_, rfl⟩
  | cons d ds ih =>
    obtain ⟨hd, hds⟩ := List.forall_mem_cons.mp hds
    rw [forDests]
    split
    · have hprocess : ∃ r, processFrame g sink v deliver d f x = some r := by
        unfold processFrame
        cases ho : (g.dest d).output with
        | none => cases sink d <;> exact ⟨_, rfl⟩
        | some s =>
          cases hn : v.newFrame d with
          | none => exact ⟨_, rfl⟩
          | some rgb =>
            obtain ⟨r, hr⟩ := hdeliver s (hd s ho) rgb x
            dsimp only [convertUyvyToRgb24]
            rw [hr]
            exact ⟨_, rfl⟩
      obtain ⟨r, hr⟩ := hprocess
      obtain ⟨r', hr'⟩ := ih hds r.1
      rw [hr, bind_some, hr']
      exact ⟨_, rfl⟩
    · exact ih hds x

/-- **A delivery ends**: a converter's stream is newer than its source. -/
theorem deliverFrameToStream_total (hw : g.Wf) (fuel : Nat) {s : Nat} (hs : s < g.streams) (hfuel : g.streams ≤ s + fuel)
    (f : α) (x : Outputs α m) : ∃ r, deliverFrameToStream g sink v fuel s f x = some r := by
  induction fuel generalizing s f x with
  | zero => omega
  | succ fuel ih =>
    have hnewer : ∀ d ∈ (g.stream s).destList, ∀ s', (g.dest d).output = some s' → s < s' ∧ s' < g.streams := by
      intro d hd s' ho
      obtain ⟨hlt, rfl⟩ := (hw.mem_destList s d).mp hd
      obtain ⟨hs', -, -, hlt⟩ := hw.converter s' d (hw.output d hlt s' ho)
      exact ⟨hlt, hs'⟩
    obtain ⟨r, hr⟩ := forDests_total (g.stream s).destList hnewer
      (fun s' h f x => ih h.2 (by omega) f x) f x
    rw [deliverFrameToStream, hr]
    exact ⟨_, rfl⟩

end

/-! ## What a delivery does to the references -/

section

variable {α : Type} {m : Nat}

def Outputs.kept (x : Outputs α m) : Multiset α := ∑ loc, (x.frame loc).toList

theorem Outputs.kept_update (x : Outputs α m) (loc : Fin m) (f : α) :
    Outputs.kept { x with frame := update x.frame loc (some f) } + ((x.frame loc).toList : Multiset α) =
      f ::ₘ x.kept := by
  unfold Outputs.kept
  dsimp only
  rw [← Finset.add_sum_erase Finset.univ _ (Finset.mem_univ loc),
    ← Finset.add_sum_erase Finset.univ (fun l => ((x.frame l).toList : Multiset α)) (Finset.mem_univ loc),
    update_self]
  have hothers : ∀ l ∈ Finset.univ.erase loc, ((update x.frame loc (some f) l).toList : Multiset α) =
      (x.frame l).toList := by
    intro l hl
    rw [update_of_ne (Finset.ne_of_mem_erase hl)]
  rw [Finset.sum_congr rfl hothers, add_right_comm, add_assoc, ← Multiset.singleton_add]
  rfl

inductive Starves (g : Streams) (v : Visit α) : Nat → Prop
  | here {s d s' : Nat} (hd : d ∈ (g.stream s).destList) (hw : v.waiting d = true) (ho : (g.dest d).output = some s')
      (hn : v.newFrame d = none) : Starves g v s
  | through {s d s' : Nat} {rgb : α} (hd : d ∈ (g.stream s).destList) (hw : v.waiting d = true)
      (ho : (g.dest d).output = some s') (hn : v.newFrame d = some rgb) (h : Starves g v s') : Starves g v s

def StarvesAt (g : Streams) (v : Visit α) (d : Nat) : Prop :=
  ∃ s, (g.dest d).output = some s ∧ ∀ rgb, v.newFrame d = some rgb → Starves g v s

theorem starves_iff {g : Streams} {v : Visit α} {s : Nat} :
    Starves g v s ↔ ∃ d ∈ (g.stream s).destList, v.waiting d ∧ StarvesAt g v d := by
  constructor
  · intro h
    cases h with
    | here hd hw ho hn => exact ⟨_, hd, hw, _, ho, fun rgb hrgb => by rw [hn] at hrgb; cases hrgb⟩
    | through hd hw ho hn h => exact ⟨_, hd, hw, _, ho, fun _ _ => h⟩
  · rintro ⟨d, hd, hw, s', ho, h⟩
    cases hn : v.newFrame d with
    | none => exact .here hd hw ho hn
    | some rgb => exact .through hd hw ho hn (h rgb hn)

variable [DecidableEq α]

theorem settles_unrefs (l : List α) (a : Multiset α) : Settles ((l : Multiset α) + a) a (l.map RefCall.unref) := by
  induction l with
  | nil =>
    rw [Multiset.coe_nil, zero_add]
    exact .nil
  | cons f l ih =>
    rw [← Multiset.cons_coe, Multiset.cons_add, List.map_cons]
    exact (Settles.unref _ f).append ih

theorem Outputs.nextLiveFrame_settles (accepted : Bool) (track : Nat) (f : α) (x : Outputs α m) :
    Settles (f ::ₘ x.kept) (Outputs.nextLiveFrame accepted track f x).1.kept (Outputs.nextLiveFrame accepted track f x).2 := by
  unfold Outputs.nextLiveFrame
  split
  · exact .unref _ f
  · exact .unref _ f

theorem Outputs.jpegNextFrame_settles (wellFormed : Bool) (loc : Fin m) (f : α) (x : Outputs α m) :
    Settles (f ::ₘ x.kept) (Outputs.jpegNextFrame wellFormed loc f x).1.kept (Outputs.jpegNextFrame wellFormed loc f x).2 := by
  unfold Outputs.jpegNextFrame
  split
  · rw [← x.kept_update loc f, add_comm]
    exact settles_unrefs _ _
  · exact .unref _ f

variable {g : Streams} {sink : Nat → Sink m} {v : Visit α}
  {deliver : Nat → α → Outputs α m → Option (Outputs α m × List (RefCall α))} {f : α} {x x' : Outputs α m}
  {calls : List (RefCall α)}

/-- The calls take a reference on `f` and the frames that were kept, and leave those that are kept now; nothing else is lost
unless the frame starves. -/
def LosesOnly (x x' : Outputs α m) (f : α) (calls : List (RefCall α)) (starves : Prop) : Prop :=
  ∃ lost, Settles (f ::ₘ x.kept) (x'.kept + lost) calls ∧ (lost = 0 ↔ ¬ starves)

theorem convertUyvyToRgb24_loses {d s : Nat} (ho : (g.dest d).output = some s)
    (hdeliver : ∀ rgb x x' calls, deliver s rgb x = some (x', calls) → LosesOnly x x' rgb calls (Starves g v s))
    (h : convertUyvyToRgb24 (deliver s) (v.newFrame d) f x = some (x', calls)) : LosesOnly x x' f calls (StarvesAt g v d) := by
  cases hn : v.newFrame d with
  | none =>
    rw [hn] at h
    cases h
    have hstarves : StarvesAt g v d := ⟨s, ho, fun rgb hrgb => by rw [hn] at hrgb; cases hrgb⟩
    refine ⟨{f}, ?_, iff_of_false (Multiset.singleton_ne_zero f) (not_not.mpr hstarves)⟩
    rw [add_comm, Multiset.singleton_add]
    exact .nil
  | some rgb =>
    rw [hn] at h
    obtain ⟨⟨x₁, calls₁⟩, hr, heq⟩ := map_eq_some_iff.mp h
    cases heq
    obtain ⟨lost, hsettles, hlost⟩ := hdeliver rgb x _ _ hr
    refine ⟨lost, ?_, hlost.trans (not_congr ?_)⟩
    · have hnew := Settles.new (f ::ₘ x.kept) rgb
      rw [Multiset.cons_swap] at hnew
      exact hnew.append ((Settles.unref _ f).append hsettles)
    · constructor
      · exact fun hs => ⟨s, ho, fun _ _ => hs⟩
      · rintro ⟨s', ho', hs'⟩
        cases ho.symm.trans ho'
        exact hs' rgb hn

theorem processFrame_loses {d : Nat}
    (hdeliver : ∀ s rgb x x' calls, deliver s rgb x = some (x', calls) → LosesOnly x x' rgb calls (Starves g v s))
    (h : processFrame g sink v deliver d f x = some (x', calls)) : LosesOnly x x' f calls (StarvesAt g v d) := by
  unfold processFrame at h
  cases ho : (g.dest d).output with
  | some s =>
    rw [ho] at h
    exact convertUyvyToRgb24_loses ho (hdeliver s) h
  | none =>
    rw [ho] at h
    have hno : ¬ StarvesAt g v d := by
      rintro ⟨s, hs, -⟩
      cases ho.symm.trans hs
    have hsettles : Settles (f ::ₘ x.kept) x'.kept calls := by
      cases hs : sink d with
      | live track =>
        rw [hs] at h
        have hlive := Outputs.nextLiveFrame_settles (v.accepts d) track f x
        rw [Option.some.inj h] at hlive
        exact hlive
      | http loc =>
        rw [hs] at h
        have hhttp := Outputs.jpegNextFrame_settles (v.accepts d) loc f x
        rw [Option.some.inj h] at hhttp
        exact hhttp
    refine ⟨0, ?_, iff_of_true rfl hno⟩
    rw [add_zero]
    exact hsettles

theorem forDests_loses (ds : List Nat)
    (hdeliver : ∀ s rgb x x' calls, deliver s rgb x = some (x', calls) → LosesOnly x x' rgb calls (Starves g v s))
    (h : forDests g sink v deliver f ds x = some (x', calls)) : ∃ lost, Settles (f ::ₘ x.kept) (f ::ₘ (x'.kept + lost)) calls ∧
      (lost = 0 ↔ ∀ d ∈ ds, v.waiting d → ¬ StarvesAt g v d) := by
  induction ds generalizing x calls with
  | nil =>
    cases h
    refine ⟨0, ?_, iff_of_true rfl fun d hd => absurd hd List.not_mem_nil⟩
    rw [add_zero]
    exact .nil
  | cons d ds ih =>
    rw [forDests] at h
    rw [List.forall_mem_cons]
    by_cases hw : v.waiting d
    · rw [if_pos hw] at h
      obtain ⟨⟨x₁, calls₁⟩, hd, h⟩ := bind_eq_some_iff.mp h
      obtain ⟨⟨x₂, calls₂⟩, hds, heq⟩ := map_eq_some_iff.mp h
      cases heq
      obtain ⟨lost₁, hsettles₁, hlost₁⟩ := processFrame_loses hdeliver hd
      obtain ⟨lost₂, hsettles₂, hlost₂⟩ := ih hds
      refine ⟨lost₂ + lost₁, ?_, ?_⟩
      · have href : Settles (f ::ₘ x.kept) (f ::ₘ f ::ₘ x.kept) [.ref f] := .ref (Multiset.mem_cons_self f _)
        have hrest := hsettles₂.frame lost₁
        rw [Multiset.cons_add, Multiset.cons_add, add_assoc] at hrest
        exact href.append ((hsettles₁.cons f).append hrest)
      · rw [← Multiset.card_eq_zero, Multiset.card_add, Nat.add_eq_zero_iff, Multiset.card_eq_zero, Multiset.card_eq_zero,
          hlost₁, hlost₂, and_comm]
        exact and_congr_left fun _ => ⟨fun h _ => h, fun h => h hw⟩
    · rw [if_neg hw] at h
      obtain ⟨lost, hsettles, hlost⟩ := ih h
      exact ⟨lost, hsettles, hlost.trans ⟨fun h => ⟨fun hw' => absurd hw' hw, h⟩, And.right⟩⟩

/-- **One delivery.** -/
theorem deliverFrameToStream_loses (fuel : Nat) {s : Nat} (h : deliverFrameToStream g sink v fuel s f x = some (x', calls)) :
    LosesOnly x x' f calls (Starves g v s) := by
  induction fuel generalizing s f x x' calls with
  | zero => cases h
  | succ fuel ih =>
    obtain ⟨⟨x₁, calls₁⟩, hds, heq⟩ := map_eq_some_iff.mp h
    cases heq
    obtain ⟨lost, hsettles, hlost⟩ := forDests_loses _ (fun _ _ _ _ _ => ih) hds
    refine ⟨lost, hsettles.append (.unref _ f), hlost.trans ?_⟩
    rw [starves_iff]
    simp

end

/-! ## Any number of deliveries -/

structure Delivery (α : Type) where
  stream : Nat
  frame : α
  visit : Visit α

structure FrameRun (α : Type) (m : Nat) where
  outputs : Outputs α m
  held : Multiset α

section

variable {α : Type} [DecidableEq α] {m : Nat}

def deliveryStep (g : Streams) (sink : Nat → Sink m) (r : FrameRun α m) (e : Delivery α) : Option (FrameRun α m) :=
  if e.stream < g.streams then
    (deliverFrameToStream g sink e.visit g.streams e.stream e.frame r.outputs).bind fun d =>
      (run refCall (e.frame ::ₘ r.held) d.2).map fun held => ⟨d.1, held⟩
  else none

/-- **No reference is left** but those of the locations on the frames that they have. -/
def FrameRun.NoLeak (r : FrameRun α m) : Prop := r.held = r.outputs.kept

theorem deliveryStep_spec {g : Streams} {sink : Nat → Sink m} {r : FrameRun α m} {e : Delivery α} {lost : Multiset α}
    (hw : g.Wf) (hs : e.stream < g.streams) (hr : r.held = r.outputs.kept + lost) :
    ∃ r' lost', deliveryStep g sink r e = some r' ∧ r'.held = r'.outputs.kept + (lost' + lost) ∧
      (lost' = 0 ↔ ¬ Starves g e.visit e.stream) := by
  obtain ⟨⟨x', calls⟩, hdeliver⟩ : ∃ d, deliverFrameToStream g sink e.visit g.streams e.stream e.frame r.outputs = some d :=
    deliverFrameToStream_total hw g.streams hs (by omega) e.frame r.outputs
  obtain ⟨lost', hsettles, hlost⟩ := deliverFrameToStream_loses _ hdeliver
  refine ⟨⟨x', x'.kept + (lost' + lost)⟩, lost', ?_, rfl, hlost⟩
  have hrun := hsettles lost
  rw [Multiset.cons_add, ← hr, add_assoc] at hrun
  rw [deliveryStep, if_pos hs, hdeliver, bind_some, hrun]
  rfl

theorem deliveryStep_noLeak_iff {g : Streams} {sink : Nat → Sink m} {r r' : FrameRun α m} {e : Delivery α} (hw : g.Wf)
    (hr : r.NoLeak) (hs : deliveryStep g sink r e = some r') : r'.NoLeak ↔ ¬ Starves g e.visit e.stream := by
  obtain ⟨hlt, -⟩ := ite_none_right_eq_some.mp hs
  have hr₀ : r.held = r.outputs.kept + 0 := by
    rw [add_zero]
    exact hr
  obtain ⟨r₁, lost, hr₁, hheld, hlost⟩ : ∃ r₁ lost, deliveryStep g sink r e = some r₁ ∧ _ ∧ _ :=
    deliveryStep_spec hw hlt hr₀
  cases hs.symm.trans hr₁
  rw [FrameRun.NoLeak, hheld, add_zero, ← hlost, add_eq_left]

/-- **A delivery conserves references** exactly if no waiting converter finds the heap empty. -/
theorem delivery_conserves_iff {ops : List StreamOp} {g : Streams} (hg : run Streams.step .start ops = some g)
    (sink : Nat → Sink m) : (∀ (v : Visit α) (s : Nat) (f : α) (x : Outputs α m), s < g.streams →
      ∃ x' calls, deliverFrameToStream g sink v g.streams s f x = some (x', calls) ∧
        (Settles (f ::ₘ x.kept) x'.kept calls ↔ ¬ Starves g v s)) ∧
    ∀ (x : Outputs α m) (es : List (Delivery α)), (∀ e ∈ es, e.stream < g.streams) →
      (∃ r, run (deliveryStep g sink) ⟨x, x.kept⟩ es = some r) ∧
      (Always (deliveryStep g sink) FrameRun.NoLeak ⟨x, x.kept⟩ es ↔ ∀ e ∈ es, ¬ Starves g e.visit e.stream) := by
  have hw := (Streams.sound_of_run hg).toWf
  constructor
  · intro v s f x hs
    obtain ⟨⟨x', calls⟩, hdeliver⟩ := deliverFrameToStream_total hw g.streams hs (by omega) f x
    obtain ⟨lost, hsettles, hlost⟩ := deliverFrameToStream_loses _ hdeliver
    refine ⟨x', calls, hdeliver, ?_⟩
    rw [← hlost]
    constructor
    · intro h
      exact add_eq_left.mp (hsettles.unique h)
    · rintro rfl
      rwa [add_zero] at hsettles
  · intro x es hes
    obtain ⟨t, ht, -⟩ : ∃ t, run (deliveryStep g sink) ⟨x, x.kept⟩ es = some t ∧ ∃ lost, t.held = t.outputs.kept + lost := by
      refine run_total (I := fun r : FrameRun α m => ∃ lost, r.held = r.outputs.kept + lost) ?_ ⟨0, (add_zero _).symm⟩ hes
      rintro r e ⟨lost, hr⟩ he
      obtain ⟨r', lost', hs, hr', -⟩ := deliveryStep_spec hw he hr
      exact ⟨r', hs, _, hr'⟩
    refine ⟨⟨t, ht⟩, ?_⟩
    have hiff : Always (deliveryStep g sink) FrameRun.NoLeak ⟨x, x.kept⟩ es ↔
        EachStep (deliveryStep g sink) (fun _ e => ¬ Starves g e.visit e.stream) ⟨x, x.kept⟩ es := by
      apply always_iff_eachStep (I := fun _ => True)
      · exact fun _ _ _ _ _ => trivial
      · exact fun _ _ _ _ hr hs => deliveryStep_noLeak_iff hw hr hs
      · trivial
      · rfl
    exact hiff.trans ⟨EachStep.forall_of_run ht, fun h => eachStep_of_forall h _⟩

end

def converted : List StreamOp := [.newStream [99] .rawUyvy, .connectToStream [99] [.rawRgb24]]

def oneTrack (_ : Nat) : Sink 1 := .live 0

def emptyOutputs : Outputs Nat 1 := ⟨fun _ => false, fun _ => none⟩

def cameraFrame (rgb : Option Nat) : Delivery Nat := ⟨0, 5, fun _ => true, fun _ => true, fun _ => rgb⟩

theorem delivery_conserves_converted : ∃ g, run Streams.step .start converted = some g ∧
    Always (deliveryStep g oneTrack) FrameRun.NoLeak ⟨emptyOutputs, emptyOutputs.kept⟩ [cameraFrame (some 6)] := by
  refine ⟨_, rfl, ?_⟩
  have hrun : run Streams.step .start converted = some _ := rfl
  apply ((delivery_conserves_iff hrun oneTrack).2 emptyOutputs [cameraFrame (some 6)] (by decide)).2.mpr
  intro e he hstarves
  cases List.mem_singleton.mp he
  -- the converter has a frame, and its stream goes to the client
  obtain ⟨d, hd, -, s, hs, hbehind⟩ := starves_iff.mp hstarves
  cases List.mem_singleton.mp hd
  cases hs
  obtain ⟨d, hd, -, s, hs, -⟩ := starves_iff.mp (hbehind 6 rfl)
  cases List.mem_singleton.mp hd
  cases hs

theorem converter_leaks_frame : ∃ g, run Streams.step .start converted = some g ∧
    ¬ Always (deliveryStep g oneTrack) FrameRun.NoLeak ⟨emptyOutputs, emptyOutputs.kept⟩ [cameraFrame none] := by
  refine ⟨_, rfl, ?_⟩
  intro h
  have hrun : run Streams.step .start converted = some _ := rfl
  have hw := (Streams.sound_of_run hrun).toWf
  have hheld : FrameRun.held ⟨emptyOutputs, emptyOutputs.kept⟩ = emptyOutputs.kept + 0 := (add_zero _).symm
  obtain ⟨r, lost, hr, -, -⟩ : ∃ r lost, deliveryStep _ oneTrack _ (cameraFrame none) = some r ∧ _ ∧ _ :=
    deliveryStep_spec hw (by decide) hheld
  have hstart : FrameRun.NoLeak ⟨emptyOutputs, emptyOutputs.kept⟩ := rfl
  have hnone : ¬ Starves _ (cameraFrame none).visit 0 := (deliveryStep_noLeak_iff hw hstart hr).mp (h.2 r hr)
  exact hnone (.here List.mem_cons_self rfl rfl rfl)

end NuWicam.Rtsp
