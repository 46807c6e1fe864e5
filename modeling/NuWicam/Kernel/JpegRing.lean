import NuWicam.Kernel.Locks

/-!
# The table of image sizes (`jpegcodec.c`)

`jpegcodec_init` allocates ten entries for the sizes of encoded images. `buffercount`, modulo which `bufferend` is moved on, is
0 until `JPEG_S_PARAM` sets it to what the user gives, at any time and without a bound (`table_safe_iff`).
-/

namespace NuWicam.Kernel.Ring

open Lib Function UInt32

/-- The entries that `jpegcodec_init` allocates -/
def tableEntries : Nat := 10

/-- The fields of `jpeg_priv_t`; an entry of `image_size` has no value until it is written. -/
structure Priv where
  state : JpegState
  encode : Bool
  buffercount : UInt32
  bufferend : Nat
  bufferendBak : Nat
  imageSize : Nat → Option UInt32

def init : Priv := ⟨.closed, false, 0, 0, 0, fun _ => none⟩

inductive Access
  | write (index : Nat)
  | modulo (divisor : Nat)
  | copy (index : Nat) (value : Option UInt32)

inductive Event
  | setParam (copied encode shortage : Bool) (buffercount : UInt32)
  | encodeComplete (size : UInt32)
  | read (nonblock signalled allocated : Bool) (count : UInt32)
  | changed (state : JpegState) (encode : Bool)

/-- `JPEG_S_PARAM` -/
def setParam (s : Priv) (copied encode shortage : Bool) (buffercount : UInt32) : Priv :=
  if !copied then { s with state := .idle }
  else if !encode && shortage then { s with encode, state := .memShortage }
  else { s with encode, state := .idle, buffercount := if buffercount ≠ 0 then buffercount else s.buffercount }

/-- `jpegirq_handler` for `ENC_INTS`, with `enc_thumbnail` 0 or 2 -/
def encodeComplete (s : Priv) (size : UInt32) : Priv × List Access :=
  ({ s with
      imageSize := update s.imageSize s.bufferend (some size)
      bufferend := (s.bufferend + 1) % s.buffercount.toNat
      state := .encodedImage },
    [.write s.bufferend, .modulo s.buffercount.toNat])

def Priv.ready (s : Priv) : Bool :=
  if s.encode && 1 < s.buffercount then s.bufferendBak ≠ s.bufferend else s.state.isFinished || s.state = .memShortage

def isDecoded (state : JpegState) : Bool := state = .decodedImage || state = .decodeError

/-- It gets to the loop that copies the table. -/
def Priv.copies (s : Priv) (nonblock signalled allocated : Bool) (count : UInt32) : Bool :=
  (s.ready || !nonblock && signalled) && allocated && count = 24 + 4 * s.buffercount && !isDecoded s.state

/-- `jpegcodec_read` -/
def read (s : Priv) (nonblock signalled allocated : Bool) (count : UInt32) : Priv × List Access :=
  (if s.ready || !nonblock && signalled then { s with bufferendBak := s.bufferend } else s,
    if s.copies nonblock signalled allocated count
    then (List.range s.buffercount.toNat).map fun i => .copy i (s.imageSize i) else [])

def event (s : Priv) : Event → Priv × List Access
  | .setParam copied encode shortage buffercount => (setParam s copied encode shortage buffercount, [])
  | .encodeComplete size => encodeComplete s size
  | .read nonblock signalled allocated count => read s nonblock signalled allocated count
  | .changed state encode => ({ s with state, encode }, [])

def step (s : Priv) (e : Event) : Option Priv := some (event s e).1

/-! ## What is wanted -/

def Access.Ok : Access → Prop
  | .write i => i < tableEntries
  | .modulo n => n ≠ 0
  | .copy i v => i < tableEntries ∧ v.isSome

def Safe (s : Priv) (e : Event) : Prop := ∀ a ∈ (event s e).2, a.Ok

instance (a : Access) : Decidable a.Ok := by
  unfold Access.Ok
  cases a <;> infer_instance

instance (s : Priv) (e : Event) : Decidable (Safe s e) := List.decidableBAll _ _

/-- An interrupt that comes now finds an entry of the table. -/
def IndexOk (s : Priv) : Prop := s.bufferend < tableEntries

/-- No image is completed before a count was set, or at the last entry with a higher count, and the table is read only if it
has `buffercount` entries and the last of these was written. -/
def Allowed (s : Priv) : Event → Prop
  | .encodeComplete _ => 0 < s.buffercount ∧ (s.bufferend = 9 → s.buffercount ≤ 10)
  | .read nonblock signalled allocated count => s.copies nonblock signalled allocated count →
      s.buffercount ≤ 10 ∧ (0 < s.buffercount → (s.imageSize (s.buffercount.toNat - 1)).isSome)
  | _ => True

/-! ## One event -/

section

variable {s s' : Priv} {e : Event}

/-- The first `m` entries are written, and the next one is one of them or the one behind. -/
def Filled (s : Priv) : Prop := ∃ m, (∀ i, (s.imageSize i).isSome ↔ i < m) ∧ s.bufferend ≤ m

/-- **One event**: the written entries are the first ones. -/
theorem Filled.step (h : Filled s) (hs : step s e = some s') : Filled s' := by
  obtain ⟨m, hm, hend⟩ := h
  cases hs
  cases e with
  | setParam copied encode shortage buffercount =>
    refine ⟨m, ?_⟩
    simp only [event, setParam]
    split
    · exact ⟨hm, hend⟩
    · split <;> exact ⟨hm, hend⟩
  | encodeComplete size =>
    refine ⟨max m (s.bufferend + 1), fun i => ?_, ?_⟩
    · simp only [event, encodeComplete]
      by_cases hi : i = s.bufferend
      · rw [hi, update_self]
        exact iff_of_true rfl (by omega)
      · rw [update_of_ne hi, hm]
        omega
    · exact Nat.le_trans (Nat.mod_le _ _) (Nat.le_max_right m _)
  | read nonblock signalled allocated count =>
    refine ⟨m, ?_⟩
    simp only [event, read]
    split <;> exact ⟨hm, hend⟩
  | changed state encode => exact ⟨m, hm, hend⟩

theorem mod_lt_iff {b c : Nat} (hb : b < tableEntries) (hc : 0 < c) : (b + 1) % c < tableEntries ↔ (b = 9 → c ≤ 10) := by
  have hlt := Nat.mod_lt (b + 1) hc
  have hle := Nat.mod_le (b + 1) c
  unfold tableEntries at *
  by_cases hlast : b = 9 ∧ 10 < c
  · rw [Nat.mod_eq_of_lt (by omega)]
    omega
  · omega

theorem Filled.copies_iff (h : Filled s) : (∀ i < s.buffercount.toNat, i < tableEntries ∧ (s.imageSize i).isSome) ↔
    s.buffercount ≤ 10 ∧ (0 < s.buffercount → (s.imageSize (s.buffercount.toNat - 1)).isSome) := by
  obtain ⟨m, hm, -⟩ := h
  have hle : s.buffercount ≤ 10 ↔ s.buffercount.toNat ≤ 10 := le_iff_toNat_le
  have hpos : 0 < s.buffercount ↔ 0 < s.buffercount.toNat := lt_iff_toNat_lt
  simp only [hm, hle, hpos, tableEntries]
  constructor
  · intro hall
    refine ⟨Nat.le_of_not_lt fun hlt => ?_, fun hpos => (hall _ (by omega)).2⟩
    exact absurd (hall 10 hlt).1 (by omega)
  · rintro ⟨hten, hlast⟩ i hi
    omega

theorem safe_iff_allowed (h : Filled s) (hok : IndexOk s) (hs : step s e = some s') : IndexOk s' ∧ Safe s e ↔ Allowed s e := by
  cases hs
  cases e with
  | setParam copied encode shortage buffercount =>
    have hend : (setParam s copied encode shortage buffercount).bufferend = s.bufferend := by
      unfold setParam
      split
      · rfl
      · split <;> rfl
    refine iff_of_true ⟨?_, fun a ha => absurd ha List.not_mem_nil⟩ trivial
    exact Nat.lt_of_le_of_lt (Nat.le_of_eq hend) hok
  | encodeComplete size =>
    have hpos : 0 < s.buffercount ↔ 0 < s.buffercount.toNat := lt_iff_toNat_lt
    have hle : s.buffercount ≤ 10 ↔ s.buffercount.toNat ≤ 10 := le_iff_toNat_le
    simp only [Allowed, Safe, IndexOk, event, encodeComplete, List.forall_mem_cons, Access.Ok, hpos, hle]
    constructor
    · rintro ⟨hnext, -, hne, -⟩
      have hc := Nat.pos_of_ne_zero hne
      exact ⟨hc, (mod_lt_iff hok hc).mp hnext⟩
    · rintro ⟨hc, hlast⟩
      exact ⟨(mod_lt_iff hok hc).mpr hlast, hok, by omega, fun a ha => absurd ha List.not_mem_nil⟩
  | read nonblock signalled allocated count =>
    have hend : IndexOk (event s (.read nonblock signalled allocated count)).1 := by
      simp only [event, read]
      split <;> exact hok
    rw [and_iff_right hend]
    simp only [Safe, event, read, Allowed]
    cases s.copies nonblock signalled allocated count with
    | false => simp
    | true =>
      rw [← h.copies_iff]
      simp [Access.Ok]
  | changed state encode => exact iff_of_true ⟨hok, fun a ha => absurd ha List.not_mem_nil⟩ trivial

end

/-! ## All runs -/

/-- **The ring of buffers is safe** along a run exactly if every event is allowed where it happens. -/
theorem table_safe_iff (es : List Event) :
    Always step IndexOk init es ∧ EachStep step Safe init es ↔ EachStep step Allowed init es := by
  apply always_and_eachStep_iff (I := Filled)
  · intro s e s' h hs
    exact h.step hs
  · intro s e s' h hok hs
    exact safe_iff_allowed h hok hs
  · exact ⟨0, fun i => by simp [init], Nat.le_refl 0⟩
  · exact (by decide : 0 < tableEntries)

theorem eleventh_image_outside : let es := Event.setParam true true false 16 :: List.replicate 11 (.encodeComplete 1)
    ¬ (Always step IndexOk init es ∧ EachStep step Safe init es) := by
  rintro es ⟨-, h⟩
  revert h
  decide

end NuWicam.Kernel.Ring
