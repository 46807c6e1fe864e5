import NuWicam.Lib.Run
import NuWicam.Kernel.EdmaTables

/-!
# Channels of the EDMA driver (`edma.c`)

The exported calls of the driver, in any order and by any drivers. Beside the channel records the `History` has which
channels are granted, and what became of the tables of channel 0, the only one that gets any (`freedOnce_iff`, `kept_iff`).
-/

namespace NuWicam.Kernel.Edma

open Lib

/-- `struct w55fa93_edma_channel`, with `REG_VDMA_DAR` and `REG_VDMA_BCR`. Only whether there is a `name` is used; tables are
numbered in the order of their allocation. -/
structure Channel where
  name : Bool
  sg : Option Nat
  inUse : Bool
  dar : UInt32
  bcr : UInt32

structure State where
  chan : Nat → Channel
  irq : Bool
  allocated : Nat
  freed : List Nat

def State.update (s : State) (c : Nat) (ch : Channel) : State := { s with chan := Function.update s.chan c ch }

/-- `local_irq_save(flags)`, the work of `f`, `local_irq_restore(flags)` -/
def State.guarded (s : State) (f : State → State) : State := { f { s with irq := false } with irq := s.irq }

/-- `none` for 0. The `memset` clears as many bytes as a pointer has, which is `name` alone. -/
def request (s : State) (c : Nat) (name : Bool) : State × Option Errno :=
  if (s.chan c).inUse then (s, some .busy)
  else if !name then (s, some .inval)
  else
    let flags := s.irq
    let s := { s with irq := false }
    if (s.chan c).name then ({ s with irq := flags }, some .busy)
    else ({ s.update c { s.chan c with name := true } with irq := flags }, none)

/-- The loop of `w55fa93_pdma_find_and_request`: the channel, `none` for `-ENODEV` -/
def findFrom (s : State) (name : Bool) : List Nat → State × Option Nat
  | [] => (s, none)
  | i :: is =>
    match request s i name with
    | (s, none) => (s, some i)
    | (s, some _) => findFrom s name is

/-- `MAX_CHANNEL_NUM` -/
def maxChannelNum : Nat := 4

/-- The channels of `w55fa93_pdma_find_and_request` -/
def pdmaChannels : List Nat := [1, 2, 3, 4]

/-- `w55fa93_edma_setup_pages` and `w55fa93_edma_setup_virtual` -/
def setup (s : State) (dest dmaLength : UInt32) (source : Source) : State × Option Errno :=
  match setupTable (s.chan 0).inUse dest dmaLength source with
  | .error e => (s, some e)
  | .ok _ => ({ s.update 0 { s.chan 0 with sg := some s.allocated } with allocated := s.allocated + 1 }, none)

/-- `w55fa93_edma_setup_single` with `DrvEDMA_SetTransferSetting`, which refuses a length of more than 24 bits -/
def setupSingle (s : State) (c : Nat) (src dest dmaLength : UInt32) : State × Option Errno :=
  let s := s.update c { s.chan c with sg := none }
  if (s.chan c).inUse then (s, some .busy)
  else if src = 0 ∨ dest = 0 then (s, some .inval)
  else if dmaLength = 0 then (s, some .inval)
  else
    let bcr := if dmaLength > 0x00FFFFFF then (s.chan c).bcr else dmaLength
    (s.update c { s.chan c with dar := dest, bcr }, none)

def trigger (s : State) (c : Nat) : State :=
  let flags := s.irq
  let s := { s with irq := false }
  if (s.chan c).inUse then s
  else { s.update c { s.chan c with inUse := true } with irq := flags }

def triggerDone (s : State) (c : Nat) : State := s.guarded fun s => s.update c { s.chan c with inUse := false }

/-- `w55fa93_edma_free` with `w55fa93_edma_free_sg`. No descriptor has the bit (`1<<15`) that leads to another table. -/
def free (s : State) (c : Nat) : State :=
  if !(s.chan c).name then s
  else s.guarded fun s =>
    { s.update c { s.chan c with inUse := false, name := false } with freed := s.freed ++ (s.chan c).sg.toList }

inductive Call
  | request (c : Nat) (name : Bool)
  | findAndRequest (name : Bool)
  | setup (dest dmaLength : UInt32) (source : Source)
  | setupSingle (c : Nat) (src dest dmaLength : UInt32)
  | trigger (c : Nat)
  | triggerDone (c : Nat)
  | free (c : Nat)
  | other

def call (s : State) : Call → State
  | .request c name => (request s c name).1
  | .findAndRequest name => (findFrom s name pdmaChannels).1
  | .setup dest dmaLength source => (setup s dest dmaLength source).1
  | .setupSingle c src dest dmaLength => (setupSingle s c src dest dmaLength).1
  | .trigger c => trigger s c
  | .triggerDone c => triggerDone s c
  | .free c => free s c
  | .other => s.guarded id

def Call.channel : Call → Nat
  | .request c _ | .setupSingle c .. | .trigger c | .triggerDone c | .free c => c
  | _ => 0

def Call.frees (c : Nat) : Call → Bool
  | .free d => d = c
  | _ => false

/-- A call, and whether interrupts are enabled when it is entered -/
structure Event where
  irq : Bool
  call : Call

def next (s : State) (e : Event) : State := Edma.call { s with irq := e.irq } e.call

def initial : State := ⟨fun _ => ⟨false, none, false, 0, 0⟩, true, 0, []⟩

/-! ## What the calls did -/

def granted (s : State) (e : Event) : Option Nat :=
  match e.call with
  | .request c name => if (request { s with irq := e.irq } c name).2 = none then some c else none
  | .findAndRequest name => (findFrom { s with irq := e.irq } name pdmaChannels).2
  | _ => none

inductive Use
  | clean
  | table
  | stale
  | lost
  deriving DecidableEq

def Use.after (s : State) (u : Use) : Call → Use
  | .setup dest dmaLength source =>
    if (Edma.setup s dest dmaLength source).2 ≠ none then u else if u = .clean ∨ u = .stale then .table else .lost
  | .setupSingle 0 _ _ _ => if u = .clean ∨ u = .stale then .clean else .lost
  | .free 0 => if (s.chan 0).name ∧ u = .table then .stale else u
  | _ => u

/-- The channels that are granted, and the use of tables -/
structure History where
  held : Nat → Bool
  use : Use

def History.after (s : State) (h : History) (e : Event) : History where
  held c := if e.call.frees c then false else if granted s e = some c then true else h.held c
  use := h.use.after { s with irq := e.irq } e.call

/-- A run is over when a call names a channel that does not exist. -/
def step (x : State × History) (e : Event) : Option (State × History) :=
  if e.call.channel ≤ maxChannelNum then some (next x.1 e, x.2.after x.1 e) else none

def start : State × History := (initial, ⟨fun _ => false, .clean⟩)

/-! ## What is wanted -/

def AllFreed (s : State) : Prop := ∀ t < s.allocated, t ∈ s.freed

def Frees (s : State) (e : Event) : Prop := e.call.frees 0 ∧ (s.chan 0).name

/-- **Every table is freed once**: no table twice, and when channel 0 is freed, all that were allocated. -/
def FreedOnce (es : List Event) : Prop :=
  Always step (fun x => x.1.freed.Nodup) start es ∧ EachStep step (fun x e => Frees x.1 e → AllFreed (next x.1 e)) start es

/-- Channel 0 is freed with one table, set up since it was freed before, or with none that it still points to. -/
def OneTable (x : State × History) (e : Event) : Prop := Frees x.1 e → x.2.use = .clean ∨ x.2.use = .table

def Taken (s : State) (c : Nat) : Prop := (s.chan c).name ∨ (s.chan c).inUse

/-- **A call keeps the interrupt state and the ownership of channels**, and reports that there is no channel only then. -/
structure Kept (x : State × History) (e : Event) : Prop where
  irq : (next x.1 e).irq = e.irq
  once : ∀ c, granted x.1 e = some c → x.2.held c = false
  nodev : ∀ name, e.call = .findAndRequest name → granted x.1 e = none → ∀ c ∈ pdmaChannels, Taken x.1 c

/-- No channel in use is triggered with interrupts enabled, and no channel is looked for without a name while there is one. -/
def Mannered (s : State) (e : Event) : Prop :=
  match e.call with
  | .trigger c => e.irq → ¬ (s.chan c).inUse
  | .findAndRequest name => name ∨ ∀ c ∈ pdmaChannels, Taken s c
  | _ => True

/-! ## Requests -/

section

variable {s : State} {c : Nat} {name : Bool}

@[simp] theorem chan_update (s : State) (c d : Nat) (ch : Channel) :
    (s.update c ch).chan d = if d = c then ch else s.chan d := by
  simp [State.update, Function.update_apply]

@[simp] theorem freed_update (s : State) (c : Nat) (ch : Channel) : (s.update c ch).freed = s.freed := rfl

@[simp] theorem allocated_update (s : State) (c : Nat) (ch : Channel) : (s.update c ch).allocated = s.allocated := rfl

theorem request_cases (s : State) (c : Nat) (name : Bool) : (∃ e, request s c name = (s, some e) ∧ (name → Taken s c)) ∨
      request s c name = (s.update c { s.chan c with name := true }, none) ∧ ¬ Taken s c ∧ name := by
  unfold request Taken
  cases name <;> cases hu : (s.chan c).inUse <;> cases hn : (s.chan c).name <;> simp [hu, hn, State.update]

theorem findFrom_cases (s : State) (name : Bool) (is : List Nat) :
    (findFrom s name is = (s, none) ∧ (name → ∀ c ∈ is, Taken s c)) ∨
      ∃ c, findFrom s name is = (s.update c { s.chan c with name := true }, some c) ∧ ¬ Taken s c ∧ name := by
  induction is with
  | nil => exact .inl ⟨rfl, by simp⟩
  | cons i is ih =>
    rw [findFrom]
    rcases request_cases s i name with ⟨e, hr, htaken⟩ | ⟨hr, hname⟩
    · rw [hr]
      rcases ih with ⟨hf, hall⟩ | ⟨c, hf, hname⟩
      · exact .inl ⟨hf, fun hn => List.forall_mem_cons.mpr ⟨htaken hn, hall hn⟩⟩
      · exact .inr ⟨c, hf, hname⟩
    · rw [hr]
      exact .inr ⟨i, rfl, hname⟩

theorem granted_name {e : Event} (h : granted s e = some c) : (s.chan c).name = false ∧ ((next s e).chan c).name = true := by
  obtain ⟨irq, call⟩ := e
  cases call with
  | request d name =>
    unfold granted at h
    rcases request_cases { s with irq } d name with ⟨err, hr, -⟩ | ⟨hr, hname, -⟩
    · simp [hr] at h
    · simp only [hr, if_true, Option.some.injEq] at h
      subst h
      exact ⟨Bool.eq_false_iff.mpr (not_or.mp hname).1, by simp [next, Edma.call, hr]⟩
  | findAndRequest name =>
    unfold granted at h
    rcases findFrom_cases { s with irq } name pdmaChannels with ⟨hf, -⟩ | ⟨d, hf, hname, -⟩
    · simp [hf] at h
    · simp only [hf, Option.some.injEq] at h
      subst h
      exact ⟨Bool.eq_false_iff.mpr (not_or.mp hname).1, by simp [next, Edma.call, hf]⟩
  | _ => cases h

theorem name_next {e : Event} (hfree : e.call.frees c = false) (hgrant : granted s e ≠ some c) :
    ((next s e).chan c).name = (s.chan c).name := by
  obtain ⟨irq, call⟩ := e
  cases call with
  | request d name =>
    unfold granted at hgrant
    rcases request_cases { s with irq } d name with ⟨err, hr, -⟩ | ⟨hr, hname, -⟩
    · simp [next, Edma.call, hr]
    · simp_all [next, Edma.call]
      grind
  | findAndRequest name =>
    unfold granted at hgrant
    rcases findFrom_cases { s with irq } name pdmaChannels with ⟨hf, -⟩ | ⟨d, hf, hname, -⟩
    · simp [next, Edma.call, hf]
    · simp_all [next, Edma.call]
      grind
  | setup dest dmaLength source =>
    simp only [next, Edma.call, setup]
    split <;> simp
    grind
  | setupSingle d src dest dmaLength =>
    simp only [next, Edma.call, setupSingle]
    grind [chan_update]
  | trigger d =>
    simp only [next, Edma.call, trigger]
    split
    · rfl
    · simp only [chan_update]
      grind
  | triggerDone d =>
    simp only [next, Edma.call, triggerDone, State.guarded]
    grind [chan_update]
  | free d =>
    simp only [next, Edma.call, free, State.guarded]
    simp only [Call.frees, decide_eq_false_iff_not] at hfree
    split
    · rfl
    · rw [chan_update, if_neg (Ne.symm hfree)]
  | other => rfl

theorem irq_next (s : State) (e : Event) : (next s e).irq = e.irq ↔ ∀ c, e.call = .trigger c → e.irq → ¬ (s.chan c).inUse := by
  obtain ⟨irq, call⟩ := e
  cases call with
  | request d name => rcases request_cases { s with irq } d name with ⟨err, hr, -⟩ | ⟨hr, -⟩ <;> simp [next, Edma.call, hr, State.update]
  | findAndRequest name =>
    rcases findFrom_cases { s with irq } name pdmaChannels with ⟨hf, -⟩ | ⟨d, hf, -⟩ <;> simp [next, Edma.call, hf, State.update]
  | setup dest dmaLength source =>
    simp only [next, Edma.call, setup]
    split <;> simp [State.update]
  | setupSingle d src dest dmaLength =>
    simp only [next, Edma.call, setupSingle]
    split <;> try split
    all_goals try split
    all_goals simp [State.update]
  | trigger d =>
    simp only [next, Edma.call, trigger, Call.trigger.injEq, forall_eq']
    cases irq <;> split <;> simp_all
  | triggerDone d => simp [next, Edma.call, triggerDone, State.guarded]
  | free d =>
    simp only [next, Edma.call, free, State.guarded]
    split <;> simp
  | other => simp [next, Edma.call, State.guarded]

end

/-- **Interrupt state and ownership are kept** exactly if no channel in use is triggered or looked for without a name. -/
theorem kept_iff (es : List Event) : EachStep step Kept start es ↔ EachStep step (fun x e => Mannered x.1 e) start es := by
  refine eachStep_congr (I := fun x => ∀ c, x.2.held c → (x.1.chan c).name) ?_ ?_ (by simp [start])
  · intro x e x' hheld hs c hc
    obtain rfl : (next x.1 e, x.2.after x.1 e) = x' := by simp_all [step]
    by_cases hfree : e.call.frees c
    · simp [History.after, hfree] at hc
    · by_cases hgrant : granted x.1 e = some c
      · exact (granted_name hgrant).2
      · rw [name_next (by simpa using hfree) hgrant]
        exact hheld c (by simpa [History.after, hfree, hgrant] using hc)
  · intro x e _ hheld _
    have honce : ∀ c, granted x.1 e = some c → x.2.held c = false := by
      intro c hc
      have hname := (granted_name hc).1
      cases hh : x.2.held c
      · rfl
      · rw [hheld c hh] at hname
        cases hname
    have hkept : Kept x e ↔ (∀ c, e.call = .trigger c → e.irq → ¬ (x.1.chan c).inUse) ∧
        ∀ name, e.call = .findAndRequest name → granted x.1 e = none → ∀ c ∈ pdmaChannels, Taken x.1 c :=
      ⟨fun h => ⟨(irq_next x.1 e).mp h.irq, h.nodev⟩, fun h => ⟨(irq_next x.1 e).mpr h.1, honce, h.2⟩⟩
    rw [hkept]
    obtain ⟨irq, call⟩ := e
    cases call with
    | trigger c => simp [Mannered]
    | findAndRequest name =>
      have hgranted : granted x.1 ⟨irq, .findAndRequest name⟩ = (findFrom { x.1 with irq } name pdmaChannels).2 := rfl
      simp only [Mannered, hgranted, reduceCtorEq, false_imp_iff, implies_true, true_and, Call.findAndRequest.injEq, forall_eq']
      rcases findFrom_cases { x.1 with irq } name pdmaChannels with ⟨hf, hall⟩ | ⟨c, hf, -, hname⟩
      · simp only [hf, forall_const]
        exact ⟨.inr, fun h => h.elim hall id⟩
      · rw [hf, hname]
        simp
    | _ => simp [Mannered]

theorem not_kept_triggered_twice :
    ¬ EachStep step Kept start [⟨true, .request 1 true⟩, ⟨true, .trigger 1⟩, ⟨true, .trigger 1⟩] := fun h =>
  absurd ((h _ rfl).2 _ rfl |>.2 _ rfl).1.irq (by decide)

/-! ## The tables -/

def Agrees (sg : Option Nat) (allocated : Nat) (freed : List Nat) : Use → Prop
  | .clean => sg = none ∧ ∀ t < allocated, t ∈ freed
  | .table => ∃ t, sg = some t ∧ t ∉ freed ∧ ∀ t' < allocated, t' ∈ freed ∨ t' = t
  | .stale => ∃ t, sg = some t ∧ t ∈ freed ∧ ∀ t' < allocated, t' ∈ freed
  | .lost => ∃ t < allocated, t ∉ freed ∧ sg ≠ some t

section

variable {sg : Option Nat} {n : Nat} {freed : List Nat} {u : Use}

theorem Agrees.setup (hfreed : ∀ t ∈ freed, t < n) (hsg : ∀ t, sg = some t → t < n) (h : Agrees sg n freed u) :
    Agrees (some n) (n + 1) freed (if u = .clean ∨ u = .stale then .table else .lost) := by
  cases u <;> simp only [reduceCtorEq, or_self, or_true, true_or, if_true, if_false, Agrees] at h ⊢ <;> grind

theorem Agrees.single (h : Agrees sg n freed u) (hsg : ∀ t, sg = some t → t < n) :
    Agrees none n freed (if u = .clean ∨ u = .stale then .clean else .lost) := by
  cases u <;> simp only [reduceCtorEq, or_self, or_true, true_or, if_true, if_false, Agrees] at h ⊢ <;> grind

theorem Agrees.free (h : Agrees sg n freed u) : Agrees sg n (freed ++ sg.toList) (if u = .table then .stale else u) := by
  cases u <;> simp only [reduceCtorEq, if_true, if_false, Agrees] at h ⊢ <;> grind [Option.toList]

theorem Agrees.free_iff (hp : freed.Nodup) (h : Agrees sg n freed u) :
    (freed ++ sg.toList).Nodup ∧ (∀ t < n, t ∈ freed ++ sg.toList) ↔ u = .clean ∨ u = .table := by
  cases u with
  | clean =>
    obtain ⟨rfl, hall⟩ := h
    simpa using ⟨hp, hall⟩
  | table =>
    obtain ⟨t, rfl, hnew, hall⟩ := h
    simp only [Option.toList_some, List.mem_append, List.mem_singleton, reduceCtorEq, or_true, iff_true]
    refine ⟨List.nodup_append.mpr ⟨hp, by simp, ?_⟩, hall⟩
    intro a ha b hb
    rw [List.mem_singleton.mp hb]
    exact fun hab => hnew (hab ▸ ha)
  | stale =>
    obtain ⟨t, rfl, hold, -⟩ := h
    simp [List.nodup_append, hold]
  | lost =>
    obtain ⟨t, hlt, hlive, hsg⟩ := h
    simp only [reduceCtorEq, or_self, iff_false, not_and]
    intro _ hall
    have := hall t hlt
    simp_all

end

structure Accounts (s : State) (u : Use) : Prop where
  others : ∀ c, c ≠ 0 → (s.chan c).sg = none
  freed_lt : ∀ t ∈ s.freed, t < s.allocated
  sg_lt : ∀ t, (s.chan 0).sg = some t → t < s.allocated
  agrees : Agrees (s.chan 0).sg s.allocated s.freed u

section

variable {s s' : State} {u : Use} {e : Event}

theorem Accounts.congr (h : Accounts s u) (hsg : ∀ c, (s'.chan c).sg = (s.chan c).sg) (ha : s'.allocated = s.allocated)
    (hf : s'.freed = s.freed) : Accounts s' u := by
  obtain ⟨ho, hl, hg, hu⟩ := h
  exact ⟨by simpa [hsg] using ho, by simpa [ha, hf] using hl, by simpa [hsg, ha] using hg, by simpa [hsg, ha, hf] using hu⟩

theorem sg_update {c : Nat} {ch : Channel} (h : ch.sg = (s.chan c).sg) (d : Nat) :
    ((s.update c ch).chan d).sg = (s.chan d).sg := by
  rw [chan_update]
  split <;> simp_all

theorem Accounts.request (h : Accounts s u) (c : Nat) (name : Bool) : Accounts (request s c name).1 u := by
  rcases request_cases s c name with ⟨err, hr, -⟩ | ⟨hr, -⟩ <;> rw [hr]
  · exact h
  · exact h.congr (sg_update rfl) rfl rfl

theorem Accounts.findFrom (h : Accounts s u) (name : Bool) (is : List Nat) : Accounts (findFrom s name is).1 u := by
  rcases findFrom_cases s name is with ⟨hr, -⟩ | ⟨c, hr, -⟩ <;> rw [hr]
  · exact h
  · exact h.congr (sg_update rfl) rfl rfl

theorem Accounts.trigger (h : Accounts s u) (c : Nat) : Accounts (trigger s c) u := by
  unfold Edma.trigger
  dsimp only
  split
  · exact h.congr (fun _ => rfl) rfl rfl
  · exact h.congr (sg_update (s := { s with irq := false }) rfl) rfl rfl

theorem Accounts.triggerDone (h : Accounts s u) (c : Nat) : Accounts (triggerDone s c) u :=
  h.congr (sg_update (s := { s with irq := false }) rfl) rfl rfl

theorem Accounts.setup (h : Accounts s u) (dest dmaLength : UInt32) (source : Source) :
    Accounts (setup s dest dmaLength source).1 (u.after s (.setup dest dmaLength source)) := by
  unfold Use.after Edma.setup
  dsimp only
  cases setupTable (s.chan 0).inUse dest dmaLength source with
  | error err => simpa using h
  | ok table =>
    obtain ⟨ho, hl, hg, hu⟩ := h
    refine ⟨fun c hc => ?_, fun t ht => Nat.lt_succ_of_lt (hl t ht), fun t ht => ?_, ?_⟩
    · simpa [hc] using ho c hc
    · simp_all
    · simpa using hu.setup hl hg

theorem Accounts.setupSingle (h : Accounts s u) (c : Nat) (src dest dmaLength : UInt32) :
    Accounts (setupSingle s c src dest dmaLength).1 (u.after s (.setupSingle c src dest dmaLength)) := by
  have hchan : ∀ d, (((Edma.setupSingle s c src dest dmaLength).1).chan d).sg = if d = c then none else (s.chan d).sg := by
    intro d
    unfold Edma.setupSingle
    grind [chan_update]
  have hrest : ((Edma.setupSingle s c src dest dmaLength).1).allocated = s.allocated ∧
      ((Edma.setupSingle s c src dest dmaLength).1).freed = s.freed := by
    unfold Edma.setupSingle
    grind [State.update]
  obtain ⟨ho, hl, hg, hu⟩ := h
  cases c with
  | zero =>
    refine ⟨fun d hd => by rw [hchan, if_neg hd, ho d hd], by rwa [hrest.1, hrest.2], by simp [hchan], ?_⟩
    simpa [hchan, hrest, Use.after] using hu.single hg
  | succ c =>
    refine Accounts.congr ⟨ho, hl, hg, hu⟩ (fun d => ?_) hrest.1 hrest.2
    rw [hchan]
    split
    · simp_all
    · rfl

@[simp] theorem sg_free (s : State) (c d : Nat) : ((free s c).chan d).sg = (s.chan d).sg := by
  unfold free State.guarded
  split
  · rfl
  · simp only [chan_update]
    split <;> simp_all

@[simp] theorem allocated_free (s : State) (c : Nat) : (free s c).allocated = s.allocated := by
  unfold free State.guarded
  split <;> simp

theorem freed_free (s : State) (c : Nat) :
    (free s c).freed = if (s.chan c).name then s.freed ++ (s.chan c).sg.toList else s.freed := by
  cases h : (s.chan c).name <;> simp [free, State.guarded, h]

theorem Accounts.free (h : Accounts s u) (c : Nat) : Accounts (Edma.free s c) (u.after s (.free c)) := by
  obtain ⟨ho, hl, hg, hu⟩ := h
  have hfreed := freed_free s c
  cases c with
  | zero =>
    cases hn : (s.chan 0).name <;> simp only [hn, if_true, if_false, Bool.false_eq_true] at hfreed
    · exact ⟨by simpa using ho, by simpa [hfreed] using hl, by simpa using hg, by simpa [hfreed, Use.after, hn] using hu⟩
    · refine ⟨by simpa using ho, fun t ht => ?_, by simpa using hg, by simpa [hfreed, Use.after, hn] using hu.free⟩
      rw [hfreed, List.mem_append, Option.mem_toList] at ht
      simpa using ht.elim (hl t) (hg t)
  | succ c =>
    refine Accounts.congr ⟨ho, hl, hg, hu⟩ (sg_free s _) (allocated_free s _) ?_
    rw [hfreed, ho (c + 1) (by omega)]
    simp

/-- **One step**: the history agrees with the records. -/
theorem Accounts.step (h : Accounts s u) (e : Event) : Accounts (next s e) (u.after { s with irq := e.irq } e.call) := by
  have h' : Accounts { s with irq := e.irq } u := h.congr (fun _ => rfl) rfl rfl
  obtain ⟨irq, call⟩ := e
  cases call with
  | request c name => exact h'.request c name
  | findAndRequest name => exact h'.findFrom name pdmaChannels
  | setup dest dmaLength source => exact h'.setup dest dmaLength source
  | setupSingle c src dest dmaLength => cases c <;> exact h'.setupSingle _ src dest dmaLength
  | trigger c => exact h'.trigger c
  | triggerDone c => exact h'.triggerDone c
  | free c => cases c <;> exact h'.free _
  | other => exact h'.congr (fun _ => rfl) rfl rfl

theorem Accounts.freed_next (h : Accounts s u) (hnot : ¬ Frees s e) : (next s e).freed = s.freed := by
  obtain ⟨irq, call⟩ := e
  cases call with
  | request c name => rcases request_cases { s with irq } c name with ⟨err, hr, -⟩ | ⟨hr, -⟩ <;> simp [next, Edma.call, hr]
  | findAndRequest name =>
    rcases findFrom_cases { s with irq } name pdmaChannels with ⟨hr, -⟩ | ⟨c, hr, -⟩ <;> simp [next, Edma.call, hr]
  | setup dest dmaLength source =>
    simp only [next, Edma.call, Edma.setup]
    split <;> simp
  | setupSingle c src dest dmaLength =>
    simp only [next, Edma.call, Edma.setupSingle]
    grind [State.update]
  | trigger c =>
    simp only [next, Edma.call, Edma.trigger]
    split <;> simp
  | free c =>
    have hfreed := freed_free { s with irq } c
    cases c with
    | zero =>
      have hname : (s.chan 0).name = false := by simpa [Frees, Call.frees] using hnot
      simp [next, Edma.call, hfreed, hname]
    | succ c =>
      rw [show next s ⟨irq, .free (c + 1)⟩ = Edma.free { s with irq } (c + 1) from rfl, hfreed,
        h.others (c + 1) (by omega)]
      simp
  | _ => rfl

end

/-- **Every table is freed once** exactly if channel 0 is freed with one fresh table, or with none. -/
theorem freedOnce_iff (es : List Event) : FreedOnce es ↔ EachStep step OneTable start es := by
  refine always_and_eachStep_iff (I := fun x => Accounts x.1 x.2.use) ?_ ?_ ?_ (by simp [start, initial])
  · intro x e x' h hs
    obtain rfl : (next x.1 e, x.2.after x.1 e) = x' := by simp_all [step]
    exact h.step e
  · intro x e x' h hp hs
    obtain rfl : (next x.1 e, x.2.after x.1 e) = x' := by simp_all [step]
    by_cases hfrees : Frees x.1 e
    · obtain ⟨s, held, use⟩ := x
      obtain ⟨hcall, hname⟩ := id hfrees
      have hfreed : (next s e).freed = s.freed ++ (s.chan 0).sg.toList := by
        obtain ⟨irq, call⟩ := e
        cases call <;> simp_all [Call.frees, next, Edma.call, freed_free]
      have hallocated : (next s e).allocated = s.allocated := by
        obtain ⟨irq, call⟩ := e
        cases call <;> simp_all [Call.frees, next, Edma.call]
      simp only [OneTable, hfrees, forall_const, AllFreed, hfreed, hallocated]
      exact h.agrees.free_iff hp
    · simpa [OneTable, hfrees, h.freed_next hfrees] using hp
  · exact ⟨fun _ _ => rfl, by simp [start, initial], by simp [start, initial], rfl, by simp [start, initial]⟩

theorem not_freedOnce_requested_again : ¬ FreedOnce
    ([.request 0 true, .setup 0 1 (.pages (fun _ => 0) 1), .free 0, .request 0 true, .free 0].map (Event.mk true)) := fun h =>
  absurd (h.1.last rfl) (by decide)

end NuWicam.Kernel.Edma
