import Mathlib.Algebra.Ring.Int.Defs
import NuWicam.Lib.Run

/-!
# Nesting of the NAND driver's semaphore calls (`w55fa93_nand_mtd.c`)

Every entry point waits first and releases on each way out, and the entry points call each other (`Entry.calls`). With
`CONFIG_MMC_W55FA93_SD` the counter `m_i32MyShowTime` follows the nesting. Without it an inner wait does not count, but its
release does (`nested_iff`).
-/

namespace NuWicam.Kernel.NandNesting

open Lib

inductive Act
  | wait
  | release
  deriving DecidableEq

/-! ## The functions of the driver -/

/-- `w55fa93_nand_read_byte` and `w55fa93_nand_devready` -/
def nandReadByte : List Act := [.wait, .release]

/-- `w55fa93_nand_read_buf` and `w55fa93_nand_write_buf` -/
def nandBuf : List Act := [.wait, .release]

/-- `w55fa93_verify_buf`, with a byte that differs or not -/
def verifyBuf (same : Bool) : List Act := if !same then [.wait, .release] else [.wait, .release]

/-- `w55fa93_read_buf_dma` and `w55fa93_write_buf_dma`: a whole page by DMA, anything else by the function without -/
def bufDma (whole : Bool) : List Act := [.wait] ++ (if whole then [] else nandBuf) ++ [.release]

inductive Command
  | immediate
  | reset
  | rndout
  | read0
  | default

/-- Each branch that returns releases before. -/
def commandLp (devReady : Bool) (c : Command) : List Act :=
  [.wait] ++
    match c, devReady with
    | .immediate, _ => [.release]
    | .reset, false => [.release]
    | .rndout, _ => [.release]
    | .default, false => [.release]
    | _, _ => [.release]

/-- A status command, `polls` questions whether the chip is ready, and the status -/
def nandWait (polls : Nat) : List Act :=
  commandLp true .immediate ++ (List.replicate polls nandReadByte).flatten ++ nandReadByte

/-- `w55fa93_nand_write_page_hwecc` -/
def writePageHwecc : List Act := [.wait, .release]

/-- `w55fa93_nand_read_page_hwecc_oob_first` -/
def readPageHweccOobFirst : List Act :=
  [.wait] ++ commandLp true .read0 ++ nandBuf ++ commandLp true .read0 ++ [.release]

/-- `w55fa93_nand_read_oob_hwecc` -/
def readOobHwecc (sndcmd : Bool) : List Act :=
  [.wait] ++ (if sndcmd then commandLp true .read0 else []) ++ nandBuf ++ commandLp true .read0 ++ [.release]

/-- `nand_write_page_raw`: the page, and the OOB bytes -/
def writePageRaw : List Act := bufDma true ++ bufDma false

/-- `w55fa93_nand_write_page`; `verify` is there with `CONFIG_MTD_NAND_VERIFY_WRITE` -/
def writePage (raw firstBlocks : Bool) (polls : Nat) (failed : Bool) (verify : Option Bool) : List Act :=
  [.wait] ++ commandLp true .immediate ++ (if raw then writePageRaw else if firstBlocks then [] else writePageHwecc) ++
    commandLp true .immediate ++ nandWait polls ++
    if failed then [.release]
    else
      match verify with
      | none => [.release]
      | some same => commandLp true .read0 ++ verifyBuf same ++ if !same then [.release] else [.release]

/-- `nand_write_oob_std`, which the driver does not replace -/
def writeOobStd (polls : Nat) : List Act :=
  commandLp true .immediate ++ bufDma false ++ commandLp true .immediate ++ nandWait polls

inductive Entry
  | readByte
  | readBuf (whole : Bool)
  | writeBuf (whole : Bool)
  | verifyBuf (same : Bool)
  | command (devReady : Bool) (c : Command)
  | readPage
  | writePage (raw firstBlocks : Bool) (polls : Nat) (failed : Bool) (verify : Option Bool)
  | writePageHwecc
  | readOob (sndcmd : Bool)
  | writeOob (polls : Nat)

def Entry.calls : Entry → List Act
  | .readByte => nandReadByte
  | .readBuf whole | .writeBuf whole => bufDma whole
  | .verifyBuf same => NandNesting.verifyBuf same
  | .command devReady c => commandLp devReady c
  | .readPage => readPageHweccOobFirst
  | .writePage raw firstBlocks polls failed verify => NandNesting.writePage raw firstBlocks polls failed verify
  | .writePageHwecc => NandNesting.writePageHwecc
  | .readOob sndcmd => readOobHwecc sndcmd
  | .writeOob polls => writeOobStd polls

/-! ## The semaphore -/

/-- `m_i32MyShowTime`, whether `fmi_sem` is held, and the depth of the waits -/
structure Ctl where
  showTime : Int
  sem : Bool
  depth : Int

/-- `w55fa93_wait_sem`, with or without `CONFIG_MMC_W55FA93_SD` -/
def waitSem (sd : Bool) (s : Ctl) : Ctl :=
  if sd then ⟨s.showTime + 1, s.showTime = 0 || s.sem, s.depth + 1⟩
  else if s.showTime ≠ 0 then { s with depth := s.depth + 1 }
  else ⟨s.showTime + 1, s.sem, s.depth + 1⟩

/-- `w55fa93_release_sem` -/
def releaseSem (sd : Bool) (s : Ctl) : Ctl :=
  if sd then ⟨s.showTime - 1, s.showTime - 1 ≠ 0 && s.sem, s.depth - 1⟩ else ⟨s.showTime - 1, s.sem, s.depth - 1⟩

def act (sd : Bool) (s : Ctl) : Act → Ctl
  | .wait => waitSem sd s
  | .release => releaseSem sd s

def step (sd : Bool) (s : Ctl) (a : Act) : Option Ctl := some (act sd s a)

def entry (sd : Bool) (s : Ctl) (e : Entry) : Option Ctl := run (step sd) s e.calls

def idle : Ctl := ⟨0, false, 0⟩

/-! ## What is wanted -/

/-- The counter is the depth, and with the SD setting the semaphore is held while this is positive. -/
def Agrees (sd : Bool) (s : Ctl) : Prop := s.showTime = s.depth ∧ (sd → (s.sem ↔ 0 < s.depth))

/-- **The counter follows the nesting** at every point of every entry point, and is 0 after each of them. -/
def Nested (sd : Bool) (es : List Entry) : Prop :=
  Always (entry sd) (fun s => s.showTime = 0) idle es ∧
    EachStep (entry sd) (fun s e => Always (step sd) (Agrees sd) s e.calls) idle es

def Entry.Flat : Entry → Prop
  | .readBuf whole | .writeBuf whole => whole
  | .readPage | .writePage .. | .readOob _ | .writeOob _ => False
  | _ => True

/-! ## Sequences of semaphore calls -/

/-- No wait comes at another depth than 0. -/
def Shallow : Int → List Act → Prop
  | _, [] => True
  | d, .wait :: as => d = 0 ∧ Shallow (d + 1) as
  | d, .release :: as => Shallow (d - 1) as

def net : List Act → Int
  | [] => 0
  | .wait :: as => 1 + net as
  | .release :: as => -1 + net as

theorem net_append (as bs : List Act) : net (as ++ bs) = net as + net bs := by
  induction as with
  | nil => simp [net]
  | cons a as ih => cases a <;> simp [net, ih, Int.add_assoc]

theorem agrees_act (sd : Bool) {s : Ctl} (h : Agrees sd s) (a : Act) :
    Agrees sd (act sd s a) ↔ sd ∨ a = .release ∨ s.depth = 0 := by
  obtain ⟨hcount, hsem⟩ := h
  cases sd <;> cases a <;> simp only [Agrees, act, waitSem, releaseSem] <;> grind

theorem depth_act (sd : Bool) (s : Ctl) (a : Act) : (act sd s a).depth = s.depth + net [a] := by
  cases a <;> simp only [act, waitSem, releaseSem, net] <;> grind

theorem always_agrees_iff (sd : Bool) {s : Ctl} (h : Agrees sd s) (as : List Act) :
    Always (step sd) (Agrees sd) s as ↔ sd ∨ Shallow s.depth as := by
  induction as generalizing s with
  | nil => simp [Always, Shallow, h]
  | cons a as ih =>
    have hact := agrees_act sd h a
    have hdepth := depth_act sd s a
    simp only [Always, h, true_and, step, Option.some.injEq, forall_eq']
    by_cases hgood : sd ∨ a = .release ∨ s.depth = 0
    · rw [ih (hact.mpr hgood), hdepth]
      cases a with
      | wait => cases sd <;> simp_all [Shallow, net]
      | release => simp [Shallow, net, Int.sub_eq_add_neg]
    · refine iff_of_false (fun hall => hgood (hact.mp hall.head)) fun hshallow => hgood ?_
      cases a with
      | wait => exact hshallow.imp_right fun hs => .inr hs.1
      | release => exact .inr (.inl rfl)

/-- **The depth after a run** is what its acts add up to. -/
theorem run_depth {sd : Bool} {s t : Ctl} {as : List Act} (h : run (step sd) s as = some t) : t.depth = s.depth + net as := by
  induction as generalizing s with
  | nil =>
    cases h
    simp [net]
  | cons a as ih =>
    have hact := depth_act sd s a
    have hrest := ih h
    cases a <;> simp only [net] at * <;> omega

/-! ## Entry points -/

@[simp] theorem net_commandLp (devReady : Bool) (c : Command) : net (commandLp devReady c) = 0 := by
  cases devReady <;> cases c <;> rfl

@[simp] theorem net_bufDma (whole : Bool) : net (bufDma whole) = 0 := by
  cases whole <;> rfl

@[simp] theorem net_verifyBuf (same : Bool) : net (verifyBuf same) = 0 := by
  cases same <;> rfl

@[simp] theorem net_replicate (n : Nat) : net (List.replicate n nandReadByte).flatten = 0 := by
  induction n with
  | zero => rfl
  | succ n ih =>
    rw [List.replicate_succ, List.flatten_cons, net_append, ih]
    rfl

@[simp] theorem net_nandWait (polls : Nat) : net (nandWait polls) = 0 := by
  simp only [nandWait, net_append, net_commandLp, net_replicate]
  rfl

theorem net_calls (e : Entry) : net e.calls = 0 := by
  cases e with
  | writePage raw firstBlocks polls failed verify =>
    have hwrite : net (if raw then writePageRaw else if firstBlocks then [] else writePageHwecc) = 0 := by
      cases raw <;> cases firstBlocks <;> rfl
    rcases verify with _ | same <;> cases failed <;> simp [Entry.calls, writePage, net_append, hwrite, net]
  | readOob sndcmd => cases sndcmd <;> rfl
  | _ => simp [Entry.calls, readPageHweccOobFirst, writeOobStd, net_append, net, nandBuf, nandReadByte, writePageHwecc]

theorem shallow_calls (e : Entry) : Shallow 0 e.calls ↔ e.Flat := by
  cases e with
  | command devReady c => cases devReady <;> cases c <;> simp [Entry.calls, commandLp, Shallow, Entry.Flat]
  | readBuf whole | writeBuf whole => cases whole <;> simp [Entry.calls, bufDma, nandBuf, Shallow, Entry.Flat]
  | verifyBuf same => cases same <;> simp [Entry.calls, verifyBuf, Shallow, Entry.Flat]
  | readOob sndcmd => cases sndcmd <;> simp [Entry.calls, readOobHwecc, commandLp, nandBuf, Shallow, Entry.Flat]
  | _ => simp [Entry.calls, readPageHweccOobFirst, writePage, writeOobStd, writePageHwecc, commandLp, bufDma, nandBuf,
      nandReadByte, Shallow, Entry.Flat]

/-- **The counter follows the nesting** exactly with the SD setting, or if no entry point calls another. -/
theorem nested_iff (sd : Bool) (es : List Entry) : Nested sd es ↔ sd = true ∨ ∀ e ∈ es, e.Flat := by
  have hlast : ∀ {s s' : Ctl} {e : Entry}, entry sd s e = some s' → s.depth = 0 → s'.depth = 0 := by
    intro s s' e hs hd
    rw [run_depth hs, net_calls, hd, Int.add_zero]
  have hkeeps : ∀ {s s' : Ctl} {e : Entry}, entry sd s e = some s' → Always (step sd) (Agrees sd) s e.calls → Agrees sd s' :=
    fun hs hall => hall.last hs
  have hiff : Nested sd es ↔ EachStep (entry sd) (fun _ e => sd ∨ e.Flat) idle es := by
    refine always_and_eachStep_iff (I := fun s => s.depth = 0 ∧ (sd → Agrees sd s)) ?_ ?_ ⟨rfl, fun _ => ⟨rfl, by simp [idle]⟩⟩ rfl
    · rintro s e s' ⟨hd, hagrees⟩ hs
      exact ⟨hlast hs hd, fun hsd => hkeeps hs ((always_agrees_iff sd (hagrees hsd) _).mpr (.inl hsd))⟩
    · rintro s e s' ⟨hd, hagrees⟩ hzero hs
      have hs₀ : Agrees sd s := by
        cases sd
        · exact ⟨hzero.trans hd.symm, by simp⟩
        · exact hagrees rfl
      have hall := always_agrees_iff sd hs₀ e.calls
      rw [hd, shallow_calls] at hall
      exact ⟨fun h => hall.mp h.2, fun h => ⟨(hkeeps hs (hall.mpr h)).1.trans (hlast hs hd), hall.mpr h⟩⟩
  have hends : ∀ s e, ∃ s', entry sd s e = some s' ∧ True := fun s e =>
    run_total (I := fun _ => True) (D := fun _ => True) (fun s a _ _ => ⟨act sd s a, rfl, trivial⟩) trivial fun _ _ => trivial
  obtain ⟨t, hrun, -⟩ : ∃ t, run (entry sd) idle es = some t ∧ True :=
    run_total (I := fun _ => True) (D := fun _ => True) (fun s e _ _ => hends s e) trivial fun _ _ => trivial
  rw [hiff]
  constructor
  · intro h
    have hflat := h.forall_of_run hrun
    by_cases hsd : sd
    · exact .inl hsd
    · exact .inr fun e he => (hflat e he).resolve_left hsd
  · exact fun h => eachStep_of_forall (fun e he => h.imp_right (· e he)) idle

theorem not_nested_readPage : ¬ Nested false [.readPage] := fun h =>
  absurd ((always_agrees_iff false ⟨rfl, by simp⟩ _).mp (h.2 _ rfl).1) (by simp [shallow_calls, Entry.Flat, idle])

end NuWicam.Kernel.NandNesting
