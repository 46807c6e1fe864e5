import NuWicam.Lib.Copies
import NuWicam.Kernel.NandLayout

/-!
# The parity bytes in the redundant area (`w55fa93_nand_mtd.c`)

`w55fa93_nand_probe` sets up three layouts. The algorithm of EXECUTE is chosen for the OOB bytes of the chip, and its area is cut
to 376 bytes afterwards (`parityFits_iff`). `w55fa93_nand_write_page_hwecc` takes the number of parity bytes for their place
in `oob_poi` (`oobImage_iff`).
-/

namespace NuWicam.Kernel.NandLayout

open Lib

/-! ## The layouts of the probe -/

/-- What `w55fa93_layout_oob_table` computes for a layout, with the first entry of `oobfree` -/
structure OobTable where
  eccbytes : Int
  oobavail : Int
  offset : Int
  length : Int

def layoutOobTable (oobsize eccbytes : Int) : OobTable where
  eccbytes := eccbytes
  oobavail := oobsize - 4 - eccbytes
  offset := 4
  length := oobsize - eccbytes - 4

def Layout.table (ps : PageSize) (l : Layout) : OobTable := layoutOobTable l.smraSize (parityNum ps l.algo.toNat)

structure Layout.Holds (ps : PageSize) (l : Layout) : Prop where
  fits : 4 + parityNum ps l.algo.toNat ≤ l.smraSize
  oobavail : 0 ≤ (l.table ps).oobavail
  length : 0 ≤ (l.table ps).length

/-- **The parity fits** into the area of each layout that has an algorithm. -/
def ParityFits (c : Chip) : Prop :=
  ∀ l ∈ [systemLayout c.pageSize, executeLayout c, defaultLayout c], 0 ≤ l.algo → l.Holds c.pageSize

theorem Layout.holds_iff {ps : PageSize} {l : Layout} : l.Holds ps ↔ 4 + parityNum ps l.algo.toNat ≤ l.smraSize := by
  refine ⟨Layout.Holds.fits, fun h => ⟨h, ?_, ?_⟩⟩ <;> dsimp only [Layout.table, layoutOobTable] <;> omega

theorem chooseBelow_eq (ps : PageSize) (limit : Int) : chooseBelow ps limit 4 =
    if parityNum ps 3 ≤ limit then 3 else if parityNum ps 2 ≤ limit then 2
    else if parityNum ps 1 ≤ limit then 1 else if parityNum ps 0 ≤ limit then 0 else -1 := by
  cases ps <;> simp [chooseBelow, parityNum]

theorem parityNum_chooseBelow (ps : PageSize) (limit : Int) (n : Nat) (h : 0 ≤ chooseBelow ps limit n) :
    0 < parityNum ps (chooseBelow ps limit n).toNat ∧ parityNum ps (chooseBelow ps limit n).toNat ≤ limit := by
  induction n with
  | zero => exact absurd h (by rw [chooseBelow]; decide)
  | succ i ih =>
    rw [chooseBelow] at h ⊢
    split
    · rwa [Int.toNat_natCast]
    · rw [if_neg ‹_›] at h
      exact ih h

theorem parityNum_default (c : Chip) (h : 0 ≤ (defaultLayout c).algo) : 0 < parityNum c.pageSize (defaultLayout c).algo.toNat ∧
      4 + parityNum c.pageSize (defaultLayout c).algo.toNat ≤ c.oobsize := by
  obtain ⟨hpos, hle⟩ := parityNum_chooseBelow c.pageSize (c.oobsize - 0 - 4) 4 h
  refine ⟨hpos, ?_⟩
  have hle' : parityNum c.pageSize (defaultLayout c).algo.toNat ≤ (c.oobsize : Int) - 0 - 4 := hle
  omega

/-- **The parity fits** unless pages of 8 KB come with at least 468 OOB bytes. -/
theorem parityFits_iff (c : Chip) : ParityFits c ↔ ¬ (c.pageSize = .p8192 ∧ 468 ≤ c.oobSize) := by
  constructor
  · rintro hfits ⟨hps, hoob⟩
    have halgo : (executeLayout c).algo = 3 := by
      have hparity : parityNum .p8192 3 = 464 := rfl
      rw [executeLayout, choiceBchAlgorithm, chooseBelow_eq, hps, if_pos (by omega)]
    have hholds := (hfits (executeLayout c) (by simp) (by rw [halgo]; decide)).fits
    have hcut : (executeLayout c).smraSize = 376 := by rw [executeLayout, oobsize_p8192 c hps, Nat.min_eq_left (by omega)]; rfl
    rw [halgo, hps, hcut] at hholds
    exact absurd hholds (by decide)
  · intro hsmall l hl halgo
    rw [Layout.holds_iff]
    rw [(execute_eq_default_iff c).mpr hsmall, List.mem_cons, List.mem_cons, List.mem_singleton, or_self] at hl
    rcases hl with rfl | rfl
    · cases c.pageSize <;> decide
    · exact (parityNum_default c halgo).2

theorem not_parityFits_execute : ¬ ParityFits ⟨.p8192, 640, 1048576, 4294967296, by decide, by decide, by decide⟩ := by
  intro h
  have hholds := (h _ (List.mem_cons_of_mem _ List.mem_cons_self) (by decide)).fits
  exact absurd hholds (by decide)

/-! ## Writing a page -/

/-- `chip->oob_poi` with what lies behind it, the redundant area of the controller, and `chip->buffers->ecccalc` -/
structure Buffers where
  oobPoi : Nat → UInt8
  smra : Nat → UInt8
  eccCalc : Nat → UInt8

/-- `chip->ecc.layout->eccbytes`, which is `chip->ecc.bytes`, and with one step also `chip->ecc.total` -/
def Chip.eccbytes (c : Chip) : Nat :=
  if (defaultLayout c).algo < 0 then 0 else (parityNum c.pageSize (defaultLayout c).algo.toNat).toNat

/-- The last `memcpy` -/
def toOobPoi (c : Chip) : Copy := ⟨c.eccbytes, 0, c.eccbytes⟩

/-- `w55fa93_nand_write_page_hwecc`. `transfer` is what the transfer of the page makes of the redundant area. -/
def writePageHwecc (c : Chip) (waits : Bool) (transfer : (Nat → UInt8) → Nat → UInt8) (b : Buffers) : Buffers × List Copy :=
  if !waits then (b, [])
  else
    let smra := fun i => if i < c.oobsize then 0xFF else b.smra i
    let smra := transfer (runCopies b.oobPoi smra [⟨0, 0, c.oobsize - c.eccbytes⟩])
    let eccCalc := runCopies smra b.eccCalc [⟨0, c.oobsize - c.eccbytes, c.eccbytes⟩]
    (⟨runCopies eccCalc b.oobPoi [toOobPoi c], smra, eccCalc⟩, [toOobPoi c])

/-- **The OOB image of a write**: the caller's bytes, the parity of the controller behind them, and nothing outside -/
structure Written (c : Chip) (waits : Bool) (b : Buffers) (r : Buffers × List Copy) : Prop where
  kept : ∀ i < c.oobsize - c.eccbytes, r.1.oobPoi i = b.oobPoi i
  parity : waits → ∀ i, c.oobsize - c.eccbytes ≤ i → i < c.oobsize → r.1.oobPoi i = r.1.smra i
  inside : ∀ a a', Moves r.2 a a' → a < c.oobsize

def OobImage (c : Chip) : Prop := ∀ waits transfer b, Written c waits b (writePageHwecc c waits transfer b)

/-- No algorithm is chosen, or the parity is one half of the OOB bytes. -/
def Halved (c : Chip) : Prop :=
  match c.pageSize with
  | .p2048 => c.oobSize < 36 ∨ c.oobSize = 232
  | .p4096 => c.oobSize < 68 ∨ c.oobSize = 464
  | .p8192 => c.oobSize < 132

theorem eccbytes_le (c : Chip) : c.eccbytes ≤ c.oobsize := by
  unfold Chip.eccbytes
  split
  · omega
  · have := (parityNum_default c (by omega)).2
    omega

theorem halved_iff (c : Chip) : Halved c ↔ c.eccbytes = 0 ∨ 2 * c.eccbytes = c.oobsize := by
  have hsize := oobsize_of_ne c
  have hcut := oobsize_p8192 c
  unfold Halved Chip.eccbytes defaultLayout choiceBchAlgorithm
  rw [chooseBelow_eq]
  cases hps : c.pageSize <;> split_ifs <;> simp_all [parityNum] <;> omega

theorem moves_toOobPoi {c : Chip} {a a' : Nat} : Moves [toOobPoi c] a a' ↔ a' < c.eccbytes ∧ a = c.eccbytes + a' := by
  simp [Moves, toOobPoi]

theorem oobPoi_writePageHwecc (c : Chip) (transfer : (Nat → UInt8) → Nat → UInt8) (b : Buffers) (i : Nat) :
    (writePageHwecc c true transfer b).1.oobPoi i = if c.eccbytes ≤ i ∧ i < c.eccbytes + c.eccbytes then
      (writePageHwecc c true transfer b).1.smra (c.oobsize - c.eccbytes + (i - c.eccbytes)) else b.oobPoi i := by
  simp only [writePageHwecc, Bool.not_true, Bool.false_eq_true, if_false, runCopies_singleton, toOobPoi]
  split
  · rw [if_pos (by omega), Nat.zero_add, Nat.sub_zero]
  · rfl

/-- **A write leaves the OOB image** exactly without an algorithm, or if the parity is half of the OOB bytes. -/
theorem oobImage_iff (c : Chip) : OobImage c ↔ Halved c := by
  have hle := eccbytes_le c
  rw [halved_iff]
  constructor
  · intro h
    by_cases hzero : c.eccbytes = 0
    · exact .inl hzero
    · -- the caller's bytes are 0 and the parity is 1: the last OOB byte is then one of those written
      obtain ⟨-, hparity, hinside⟩ := h true (fun _ _ => 1) ⟨fun _ => 0, fun _ => 0, fun _ => 0⟩
      have hlast := hparity rfl (c.oobsize - 1) (by omega) (by omega)
      have hend := hinside (c.eccbytes + (c.eccbytes - 1)) (c.eccbytes - 1) (moves_toOobPoi.mpr ⟨by omega, rfl⟩)
      rw [oobPoi_writePageHwecc] at hlast
      split at hlast
      · exact .inr (by omega)
      · cases hlast
  · intro h waits transfer b
    cases waits with
    | false => exact ⟨fun _ _ => rfl, nofun, by simp [writePageHwecc, Moves]⟩
    | true =>
      refine ⟨fun i hi => ?_, fun _ i hi hlt => ?_, fun a a' hmoves => ?_⟩
      · rw [oobPoi_writePageHwecc, if_neg (by omega)]
      · rw [oobPoi_writePageHwecc, if_pos (by omega)]
        congr 1
        omega
      · have := moves_toOobPoi.mp hmoves
        omega

theorem not_oobImage_64 : ¬ OobImage ⟨.p2048, 64, 131072, 134217728, by decide, by decide, by decide⟩ := by
  intro h
  have hinside := (h true (fun _ _ => 1) ⟨fun _ => 0, fun _ => 0, fun _ => 0⟩).inside 119 59
  exact absurd (hinside (moves_toOobPoi.mpr (by decide))) (by decide)

end NuWicam.Kernel.NandLayout
