import NuWicam.Kernel.Edma

/-!
# Where recorded audio goes (`w55fa93adc-pcm.c`)

`hw_params` programs the EDMA channel and triggers it at once, so the channel is in use from the first `hw_params` after `open`
until `close`, and every later set-up of it is refused (`targeted_iff`).
-/

namespace NuWicam.Kernel.Adc

open Lib Kernel

/-- The EDMA channels, and the capture stream: its channel while it is open, `dma_addr` and the size of the buffer there -/
structure Capture where
  edma : Edma.State
  channel : Option Nat
  dmaAddr : UInt32
  dmaBytes : UInt32
  running : Bool

inductive Event
  | open
  | hwParams (size addr : UInt32)
  | start
  | stop
  | hwFree
  | close

/-- `dmalen`: the size, up to the next multiple of 16 -/
def dmalen (size : UInt32) : UInt32 := if size % 16 = 0 then size else (size / 16 + 1) * 16

/-- `w55fa93adc_dma_hw_params`, for channel `c` -/
def hwParams (s : Capture) (c : Nat) (size addr : UInt32) : Capture :=
  let s := if s.dmaAddr = 0 then { s with dmaAddr := addr, dmaBytes := size } else s
  { s with edma := Edma.trigger (Edma.setupSingle s.edma c 0xB800E020 s.dmaAddr (dmalen size)).1 c }

/-- Sizes within `w55fa93adc_pcm_hardware` -/
def AllowedSize (size : UInt32) : Prop := 1024 ≤ size ∧ size ≤ 65536 ∧ size % 2 = 0

instance (size : UInt32) : Decidable (AllowedSize size) := inferInstanceAs (Decidable (_ ∧ _ ∧ _))

/-- A call that gets to the driver. The PCM core refuses the others: parameters are set and freed while the stream is open
and not running, and it is started with a buffer. -/
def next (s : Capture) (e : Event) : Capture :=
  match e, s.channel with
  | .open, none =>
    match Edma.findFrom s.edma true Edma.pdmaChannels with
    | (edma, some c) => ⟨edma, some c, 0, 0, false⟩
    | (edma, none) => { s with edma }
  | .hwParams size addr, some c =>
    if s.running = false ∧ AllowedSize size ∧ addr ≠ 0 then hwParams s c size addr else s
  | .start, some _ => if s.running = false ∧ s.dmaAddr ≠ 0 then { s with running := true } else s
  | .stop, some _ => { s with running := false }
  | .hwFree, some _ => if s.running = false then { s with dmaAddr := 0, dmaBytes := 0 } else s
  | .close, some c => { s with edma := Edma.free s.edma c, channel := none }
  | _, _ => s

/-- The buffer of the first `hw_params` since `open`: its address, and the size that was asked for -/
def firstAfter (s : Capture) (first : Option (UInt32 × UInt32)) (e : Event) : Option (UInt32 × UInt32) :=
  match e with
  | .open => if s.channel = none then none else first
  | .hwParams size addr =>
    if first = none ∧ s.channel ≠ none ∧ s.running = false ∧ AllowedSize size ∧ addr ≠ 0 then some (addr, size) else first
  | _ => first

def step (x : Capture × Option (UInt32 × UInt32)) (e : Event) : Option (Capture × Option (UInt32 × UInt32)) :=
  some (next x.1 e, firstAfter x.1 x.2 e)

def closed (edma : Edma.State) : Capture × Option (UInt32 × UInt32) := (⟨edma, none, 0, 0, false⟩, none)

/-! ## What is wanted -/

def Starts (s : Capture) (e : Event) (c : Nat) : Prop := e = .start ∧ s.channel = some c ∧ s.running = false ∧ s.dmaAddr ≠ 0

/-- **Recording goes to the buffer**: the channel's destination is its start, and the length is not more than its size. -/
def Targeted (x : Capture × Option (UInt32 × UInt32)) (e : Event) : Prop :=
  ∀ c, Starts x.1 e c → (x.1.edma.chan c).dar = x.1.dmaAddr ∧ (x.1.edma.chan c).bcr ≤ x.1.dmaBytes

/-- The buffer lies where the first one since `open` was, and is large enough for the size of that one. -/
def Stays (x : Capture × Option (UInt32 × UInt32)) (e : Event) : Prop :=
  ∀ c, Starts x.1 e c → ∃ size, x.2 = some (x.1.dmaAddr, size) ∧ dmalen size ≤ x.1.dmaBytes

/-! ## Runs -/

/-- While the stream is open its channel is idle until the first `hw_params`, and set up as that one asked for afterwards. -/
def Programmed (x : Capture × Option (UInt32 × UInt32)) : Prop :=
  ∀ c, x.1.channel = some c →
    match x.2 with
    | none => (x.1.edma.chan c).inUse = false ∧ x.1.dmaAddr = 0
    | some (addr, size) => (x.1.edma.chan c).inUse ∧ (x.1.edma.chan c).dar = addr ∧ (x.1.edma.chan c).bcr = dmalen size

theorem dmalen_bounds {size : UInt32} (h : AllowedSize size) : dmalen size ≠ 0 ∧ ¬ dmalen size > 0x00FFFFFF := by
  obtain ⟨hmin, hmax, -⟩ := h
  unfold dmalen
  simp only [UInt32.le_iff_toNat_le, gt_iff_lt, UInt32.lt_iff_toNat_lt, ne_eq, ← UInt32.toNat_inj] at *
  split <;> simp_all [UInt32.toNat_div] <;> omega

theorem chan_trigger (s : Edma.State) (c : Nat) : (Edma.trigger s c).chan c = { s.chan c with inUse := true } := by
  unfold Edma.trigger
  dsimp only
  split
  · cases hch : s.chan c
    simp_all
  · simp

theorem chan_setupSingle (s : Edma.State) (c : Nat) {dest len : UInt32} (hdest : dest ≠ 0) (hlen : len ≠ 0)
    (hmax : ¬ len > 0x00FFFFFF) : (Edma.setupSingle s c 0xB800E020 dest len).1.chan c =
      if (s.chan c).inUse then { s.chan c with sg := none } else { s.chan c with sg := none, dar := dest, bcr := len } := by
  unfold Edma.setupSingle
  cases h : (s.chan c).inUse <;> simp [h, hdest, hlen, hmax]

theorem Programmed.congr {s s' : Capture} {first : Option (UInt32 × UInt32)} (h : Programmed (s, first))
    (hc : s'.channel = s.channel) (he : s'.edma = s.edma) (ha : s'.dmaAddr = s.dmaAddr ∨ s'.dmaAddr = 0) :
    Programmed (s', first) := by
  intro c hd
  have hp := h c (hc.symm.trans hd)
  cases first with
  | none => exact ⟨by simpa [he] using hp.1, ha.elim (·.trans hp.2) id⟩
  | some b => simpa [he] using hp

theorem Programmed.hwParams {s : Capture} {first : Option (UInt32 × UInt32)} {c : Nat} {size addr : UInt32}
    (h : Programmed (s, first)) (hc : s.channel = some c) (hsize : AllowedSize size) (haddr : addr ≠ 0) :
    Programmed (Adc.hwParams s c size addr, if first = none then some (addr, size) else first) := by
  have hp := h c hc
  obtain ⟨hlen, hmax⟩ := dmalen_bounds hsize
  intro d hd
  have hdc : d = c := by
    unfold Adc.hwParams at hd
    split at hd <;> simp_all
  subst hdc
  unfold Adc.hwParams
  cases first with
  | none =>
    obtain ⟨hidle, hzero⟩ := hp
    dsimp only at hidle hzero
    simp only [hzero, if_true, chan_trigger, chan_setupSingle _ _ haddr hlen hmax, hidle]
    simp
  | some b =>
    obtain ⟨addr', size'⟩ := b
    obtain ⟨huse, hdar, hbcr⟩ := hp
    dsimp only at huse hdar hbcr
    have hne : (if s.dmaAddr = 0 then { s with dmaAddr := addr, dmaBytes := size } else s).dmaAddr ≠ 0 := by
      split <;> assumption
    have hedma : (if s.dmaAddr = 0 then { s with dmaAddr := addr, dmaBytes := size } else s).edma = s.edma := by
      split <;> rfl
    simp only [chan_trigger, chan_setupSingle _ _ hne hlen hmax, hedma, huse, if_true, reduceCtorEq, if_false]
    exact ⟨trivial, hdar, hbcr⟩

/-- **One event** keeps what the engine is programmed with. -/
theorem Programmed.step {x : Capture × Option (UInt32 × UInt32)} (h : Programmed x) (e : Event) :
    Programmed (next x.1 e, firstAfter x.1 x.2 e) := by
  obtain ⟨s, first⟩ := x
  cases hch : s.channel with
  | none =>
    cases e with
    | «open» =>
      intro c hc
      have hfind := Edma.findFrom_cases s.edma true Edma.pdmaChannels
      simp only [next, hch, firstAfter, if_true] at hc ⊢
      rcases hfind with ⟨hf, -⟩ | ⟨d, hf, hfree, -⟩ <;> simp only [hf] at hc ⊢
      · cases hc
      · cases hc
        simpa using (not_or.mp hfree).2
    | _ =>
      intro c hc
      simp [next, hch] at hc
  | some c =>
    cases e with
    | hwParams size addr =>
      by_cases hok : s.running = false ∧ AllowedSize size ∧ addr ≠ 0
      · have hnew := h.hwParams hch hok.2.1 hok.2.2
        simpa [next, hch, firstAfter, hok] using hnew
      · simpa [next, hch, firstAfter, hok] using h
    | hwFree =>
      simp only [next, hch, firstAfter]
      split
      · exact h.congr hch.symm rfl (.inr rfl)
      · exact h
    | close => exact fun d hd => by simp [next, hch] at hd
    | «open» => simpa [next, hch, firstAfter] using h
    | start =>
      simp only [next, hch, firstAfter]
      split
      · exact h.congr hch.symm rfl (.inl rfl)
      · exact h
    | stop =>
      simp only [next, hch, firstAfter]
      exact h.congr hch.symm rfl (.inl rfl)

/-- **Recording goes to the buffer** exactly if each start finds it where the first `hw_params` since `open` put it. -/
theorem targeted_iff (edma : Edma.State) (es : List Event) :
    EachStep step Targeted (closed edma) es ↔ EachStep step Stays (closed edma) es := by
  refine eachStep_congr (I := Programmed) ?_ ?_ (fun c hc => by cases hc)
  · intro x e x' h hs
    cases hs
    exact h.step e
  · intro x e x' h _
    refine forall₂_congr fun c hstarts => ?_
    obtain ⟨-, hc, -, haddr⟩ := hstarts
    have hp := h c hc
    obtain ⟨s, first⟩ := x
    cases first with
    | none => exact absurd hp.2 haddr
    | some b =>
      obtain ⟨addr, size⟩ := b
      obtain ⟨-, hdar, hbcr⟩ := hp
      dsimp only at hdar hbcr ⊢
      simp [hdar, hbcr]

theorem not_targeted_again : ¬ EachStep step Targeted (closed Edma.initial) [.open, .hwParams 1026 0x1000, .start] ∧
      ¬ EachStep step Targeted (closed Edma.initial)
        [.open, .hwParams 2048 0x1000, .start, .stop, .hwFree, .hwParams 2048 0x2000, .start] := by
  constructor
  · intro h
    have hstart := (((h _ rfl).2 _ rfl).2 _ rfl).1
    exact absurd (hstart 1 ⟨rfl, rfl, rfl, by decide⟩).2 (by decide)
  · intro h
    have hstart := (((((((h _ rfl).2 _ rfl).2 _ rfl).2 _ rfl).2 _ rfl).2 _ rfl).2 _ rfl).1
    exact absurd (hstart 1 ⟨rfl, rfl, rfl, by decide⟩).1 (by decide)

end NuWicam.Kernel.Adc
