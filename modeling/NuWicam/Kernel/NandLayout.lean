import Mathlib.Data.List.Basic

/-!
# Choice of the ECC layout of a page (`w55fa93_nand_mtd.c`)

`w55fa93_choice_bch_algo` looks a page up in the driver's own table of partitions, in which all offsets but the first are
`MTDPART_OFS_APPEND` as they were written, by a byte address of 32 bits; `add_mtd_partitions` resolves the offsets in copies
(`selects_iff`).
-/

namespace NuWicam.Kernel.NandLayout

inductive PageSize
  | p2048
  | p4096
  | p8192
  deriving DecidableEq

def PageSize.writesize : PageSize → Nat
  | .p2048 => 2048
  | .p4096 => 4096
  | .p8192 => 8192

/-- `g_i32ParityNum` -/
def parityNum : PageSize → Nat → Int
  | .p2048, i => [32, 60, 92, 116].getD i 0
  | .p4096, i => [64, 120, 184, 232].getD i 0
  | .p8192, i => [128, 240, 368, 464].getD i 0

/-- The loop over the algorithms below `n`, from the strongest one -/
def chooseBelow (ps : PageSize) (limit : Int) : Nat → Int
  | 0 => -1
  | i + 1 => if 0 < parityNum ps i ∧ parityNum ps i ≤ limit then i else chooseBelow ps limit i

/-- With `DEF_RESERVER_OOB_SIZE_FOR_MARKER` -/
def choiceBchAlgorithm (ps : PageSize) (oobSize oobAvailable : Int) : Int := chooseBelow ps (oobSize - oobAvailable - 4) 4

/-- `m_BCHAlgoidx` and `m_SMRASize` -/
structure Layout where
  algo : Int
  smraSize : Int
  deriving DecidableEq

/-- What `nand_scan_ident` finds. Four blocks have a size of type `int`. -/
structure Chip where
  pageSize : PageSize
  oobSize : Nat
  blockSize : Nat
  chipSize : Nat
  block_pos : 0 < blockSize
  block_le : blockSize ≤ 268435456
  chip_le : chipSize ≤ 8589934592

/-- `g_SYSAREA_NAND_EXTRA_SIZE` -/
def sysareaExtraSize : PageSize → Nat
  | .p2048 => 64
  | .p4096 => 128
  | .p8192 => 376

/-- `eBCH_T4`, `eBCH_T8` and `eBCH_T12` -/
def systemAlgo : PageSize → Int
  | .p2048 => 0
  | .p4096 => 1
  | .p8192 => 2

/-- `w55fa93_nand_SYSTEM_oob` -/
def systemLayout (ps : PageSize) : Layout := ⟨systemAlgo ps, sysareaExtraSize ps⟩

def Chip.oobsize (c : Chip) : Nat :=
  if c.pageSize = .p8192 ∧ sysareaExtraSize c.pageSize ≤ c.oobSize then sysareaExtraSize c.pageSize else c.oobSize

/-- `w55fa93_nand_EXECUTE_oob` -/
def executeLayout (c : Chip) : Layout := ⟨choiceBchAlgorithm c.pageSize c.oobSize 0, c.oobsize⟩

/-- `eBCHAlgo` and `m_i32SMRASize` as the probe sets them, with `RESERVED_FOR_FS` -/
def defaultLayout (c : Chip) : Layout := ⟨choiceBchAlgorithm c.pageSize c.oobsize 0, c.oobsize⟩

/-- `mtd->oobavail`: what `w55fa93_layout_oob_table` leaves free, summed up by `nand_scan_tail` -/
def Chip.oobavail (c : Chip) : Int :=
  c.oobsize - (if (defaultLayout c).algo < 0 then 0 else parityNum c.pageSize (defaultLayout c).algo.toNat) - 4

/-- `struct mtd_partition` -/
structure Partition where
  offset : Nat
  size : Nat
  ecclayout : Option Layout

/-- `MTDPART_OFS_APPEND` in a field of 64 bits -/
def ofsAppend : Nat := 18446744073709551615

/-- `partitions`, with the size that the probe gives to the first one; a size of 0 is `MTDPART_SIZ_FULL`. -/
def partitions (c : Chip) : List Partition :=
  [⟨0, 4 * c.blockSize, some (systemLayout c.pageSize)⟩, ⟨ofsAppend, 16777216, some (executeLayout c)⟩,
    ⟨ofsAppend, 33554432, none⟩, ⟨ofsAppend, 0, none⟩]

/-- The loop of `w55fa93_choice_bch_algo` -/
def findLayout (pageAddr : Nat) : List Partition → Option Layout
  | [] => none
  | p :: ps =>
    match p.ecclayout with
    | none => findLayout pageAddr ps
    | some l =>
      if p.offset ≤ pageAddr ∧ pageAddr < (p.offset + p.size) % 18446744073709551616 then some l
      else findLayout pageAddr ps

/-- `w55fa93_choice_bch_algo`: the layout it selects -/
def choiceBchAlgo (c : Chip) (page : Nat) : Layout :=
  (findLayout (page * c.pageSize.writesize % 4294967296) (partitions c)).getD
    ⟨choiceBchAlgorithm c.pageSize c.oobsize c.oobavail, c.oobsize⟩

/-! ## What is wanted -/

/-- `add_one_partition`: where a partition comes to lie -/
def addOnePartition (chipSize cur : Nat) (p : Partition) : Partition :=
  let offset := if p.offset = ofsAppend then cur else p.offset
  let size := if p.size = 0 then chipSize - offset else p.size
  if chipSize ≤ offset then ⟨0, 0, p.ecclayout⟩
  else ⟨offset, if chipSize < offset + size then chipSize - offset else size, p.ecclayout⟩

/-- `add_mtd_partitions`, with the end of the partition before -/
def addMtdPartitions (chipSize : Nat) : Nat → List Partition → List Partition
  | _, [] => []
  | cur, p :: ps =>
    let slave := addOnePartition chipSize cur p
    slave :: addMtdPartitions chipSize (slave.offset + slave.size) ps

def Partition.Contains (p : Partition) (addr : Nat) : Prop := p.offset ≤ addr ∧ addr < p.offset + p.size

instance (p : Partition) (addr : Nat) : Decidable (p.Contains addr) := inferInstanceAs (Decidable (_ ∧ _))

/-- The layout of the first partition that contains the address, or the default one -/
def wantedLayout (c : Chip) (addr : Nat) : Layout :=
  (((addMtdPartitions c.chipSize 0 (partitions c)).find? fun p => p.Contains addr).bind Partition.ecclayout).getD
    (defaultLayout c)

/-- **The page gets the layout of its partition.** -/
def Selects (c : Chip) (page : Nat) : Prop := choiceBchAlgo c page = wantedLayout c (page * c.pageSize.writesize)

/-- EXECUTE is looked up as the default, which is the same unless the area was cut to 376 bytes and the stronger algorithm
needs more; an address beyond 4 GB whose lower 32 bits are in SYSTEM gets its layout. -/
structure Distinct (c : Chip) (addr : Nat) : Prop where
  execute : 4 * c.blockSize ≤ addr → addr < 4 * c.blockSize + 16777216 → ¬ (c.pageSize = .p8192 ∧ 468 ≤ c.oobSize)
  wrapped : 4294967296 ≤ addr → addr < 4294967296 + 4 * c.blockSize →
    c.pageSize = .p4096 ∧ c.oobSize = 128 ∨ c.pageSize = .p8192 ∧ 376 ≤ c.oobSize

/-! ## The layouts -/

section

variable (c : Chip)

theorem chooseBelow_cases (ps : PageSize) (limit : Int) (n : Nat) :
    chooseBelow ps limit n = -1 ∨ ∃ i < n, chooseBelow ps limit n = i := by
  induction n with
  | zero => exact .inl rfl
  | succ n ih =>
    rw [chooseBelow]
    split
    · exact .inr ⟨n, by omega, rfl⟩
    · exact ih.imp_right fun ⟨i, hi, h⟩ => ⟨i, by omega, h⟩

theorem chooseBelow_parityNum : ∀ (ps : PageSize), ∀ i < 4, chooseBelow ps (parityNum ps i) 4 = i := by
  intro ps
  cases ps <;> decide

theorem default_stable : choiceBchAlgorithm c.pageSize c.oobsize c.oobavail = (defaultLayout c).algo := by
  have hlimit : (c.oobsize : Int) - c.oobavail - 4 =
      if (defaultLayout c).algo < 0 then 0 else parityNum c.pageSize (defaultLayout c).algo.toNat := by
    unfold Chip.oobavail
    omega
  rw [choiceBchAlgorithm, hlimit]
  rcases chooseBelow_cases c.pageSize (c.oobsize - 0 - 4) 4 with h | ⟨i, hi, h⟩
  · have halgo : (defaultLayout c).algo = -1 := h
    rw [halgo, if_pos (by decide)]
    cases c.pageSize <;> rfl
  · have halgo : (defaultLayout c).algo = i := h
    rw [halgo, if_neg (by omega), Int.toNat_natCast, chooseBelow_parityNum _ i hi]

theorem oobsize_p8192 (h : c.pageSize = .p8192) : c.oobsize = min 376 c.oobSize := by
  rw [Chip.oobsize, h]
  simp only [sysareaExtraSize, true_and]
  split <;> omega

theorem oobsize_of_ne (h : c.pageSize ≠ .p8192) : c.oobsize = c.oobSize := by
  simp [Chip.oobsize, h]

theorem execute_eq_default_iff : executeLayout c = defaultLayout c ↔ ¬ (c.pageSize = .p8192 ∧ 468 ≤ c.oobSize) := by
  by_cases hps : c.pageSize = .p8192
  · simp only [executeLayout, defaultLayout, Layout.mk.injEq, and_true, hps, true_and, oobsize_p8192 c hps]
    by_cases hcut : 376 ≤ c.oobSize
    · simp only [choiceBchAlgorithm, chooseBelow, parityNum]
      split_ifs <;> simp_all <;> omega
    · rw [Nat.min_eq_right (by omega)]
      exact iff_of_true rfl (by omega)
  · exact iff_of_true (by rw [executeLayout, defaultLayout, oobsize_of_ne c hps]) fun h => hps h.1

theorem system_eq_default_iff : systemLayout c.pageSize = defaultLayout c ↔
    c.pageSize = .p4096 ∧ c.oobSize = 128 ∨ c.pageSize = .p8192 ∧ 376 ≤ c.oobSize := by
  rw [systemLayout, defaultLayout, Layout.mk.injEq, Int.natCast_inj]
  constructor
  · rintro ⟨halgo, hsize⟩
    rw [← hsize] at halgo
    cases hps : c.pageSize with
    | p2048 =>
      rw [hps] at halgo
      exact absurd halgo (by decide)
    | p4096 =>
      rw [oobsize_of_ne c (by simp [hps]), hps] at hsize
      exact .inl ⟨rfl, hsize.symm⟩
    | p8192 =>
      rw [oobsize_p8192 c hps, hps] at hsize
      have hmin : 376 = min 376 c.oobSize := hsize
      exact .inr ⟨rfl, by omega⟩
  · rintro (⟨hps, hoob⟩ | ⟨hps, hoob⟩)
    · rw [oobsize_of_ne c (by simp [hps]), hps, hoob]
      decide
    · rw [oobsize_p8192 c hps, hps, Nat.min_eq_left hoob]
      decide

end

/-! ## The lookups -/

section

variable (c : Chip) (page : Nat)

theorem choiceBchAlgo_eq : choiceBchAlgo c page =
    if page * c.pageSize.writesize % 4294967296 < 4 * c.blockSize then systemLayout c.pageSize else defaultLayout c := by
  have hblock := c.block_le
  have happend : ¬ ofsAppend ≤ page * c.pageSize.writesize % 4294967296 := by
    unfold ofsAppend
    omega
  simp only [choiceBchAlgo, partitions, findLayout, happend, false_and, if_false, Nat.zero_le, true_and, Nat.zero_add,
    default_stable]
  rw [Nat.mod_eq_of_lt (show 4 * c.blockSize < 18446744073709551616 by omega)]
  split <;> rfl

theorem ecclayout_addOnePartition (chipSize cur : Nat) (p : Partition) :
    (addOnePartition chipSize cur p).ecclayout = p.ecclayout := by
  unfold addOnePartition
  dsimp only
  split_ifs <;> rfl

theorem ecclayout_addMtdPartitions {chipSize cur : Nat} {ps : List Partition} (h : ∀ p ∈ ps, p.ecclayout = none) :
    ∀ p ∈ addMtdPartitions chipSize cur ps, p.ecclayout = none := by
  induction ps generalizing cur with
  | nil => exact h
  | cons p ps ih =>
    obtain ⟨hp, hps⟩ := List.forall_mem_cons.mp h
    exact List.forall_mem_cons.mpr ⟨(ecclayout_addOnePartition chipSize cur p).trans hp, ih hps⟩

theorem contains_addOnePartition {chipSize addr : Nat} (cur : Nat) (p : Partition) (h : addr < chipSize) (hsize : p.size ≠ 0) :
    (addOnePartition chipSize cur p).Contains addr ↔
      (if p.offset = ofsAppend then cur else p.offset) ≤ addr ∧
        addr < (if p.offset = ofsAppend then cur else p.offset) + p.size := by
  unfold addOnePartition Partition.Contains
  generalize (if p.offset = ofsAppend then cur else p.offset) = offset
  simp only [if_neg hsize]
  split_ifs <;> dsimp only <;> omega

theorem wantedLayout_eq {addr : Nat} (h : addr < c.chipSize) : wantedLayout c addr =
    if addr < 4 * c.blockSize then systemLayout c.pageSize
    else if addr < 4 * c.blockSize + 16777216 then executeLayout c else defaultLayout c := by
  have hpos := c.block_pos
  have hsystem := contains_addOnePartition 0 ⟨0, 4 * c.blockSize, some (systemLayout c.pageSize)⟩ h
    (show 4 * c.blockSize ≠ 0 by omega)
  have hend : ¬ addr < 4 * c.blockSize →
      (addOnePartition c.chipSize 0 ⟨0, 4 * c.blockSize, some (systemLayout c.pageSize)⟩).offset +
        (addOnePartition c.chipSize 0 ⟨0, 4 * c.blockSize, some (systemLayout c.pageSize)⟩).size = 4 * c.blockSize := by
    intro hlarge
    unfold addOnePartition
    simp only [show ¬ (0 : Nat) = ofsAppend by decide, if_false]
    split_ifs <;> dsimp only <;> omega
  simp only [show ¬ (0 : Nat) = ofsAppend by decide, if_false, Nat.zero_le, true_and, Nat.zero_add] at hsystem
  rw [wantedLayout, partitions, addMtdPartitions, addMtdPartitions]
  simp only [List.find?_cons, hsystem]
  by_cases hs : addr < 4 * c.blockSize
  · simp [hs, ecclayout_addOnePartition]
  · have hexecute := contains_addOnePartition (4 * c.blockSize) ⟨ofsAppend, 16777216, some (executeLayout c)⟩ h
      (show 16777216 ≠ 0 by decide)
    simp only [if_true] at hexecute
    simp only [hs, decide_false, if_false, hend hs, hexecute, Nat.le_of_not_lt hs, true_and]
    by_cases he : addr < 4 * c.blockSize + 16777216
    · simp [he, ecclayout_addOnePartition]
    · simp only [he, decide_false, if_false]
      rw [Option.bind_eq_none_iff.mpr, Option.getD_none]
      intro p hp
      exact ecclayout_addMtdPartitions (by simp) p (List.mem_of_find?_eq_some hp)

end

/-- **A page gets the layout of its partition** exactly if it is not taken for another one's, or the default is the same. -/
theorem selects_iff (c : Chip) (page : Nat) (h : page * c.pageSize.writesize < c.chipSize) :
    Selects c page ↔ Distinct c (page * c.pageSize.writesize) := by
  have hblock := c.block_le
  have hchip := c.chip_le
  have hexec := execute_eq_default_iff c
  have hsys := system_eq_default_iff c
  rw [Selects, choiceBchAlgo_eq, wantedLayout_eq c h]
  generalize page * c.pageSize.writesize = addr at *
  by_cases hs : addr < 4 * c.blockSize
  · rw [if_pos hs, if_pos (by omega)]
    exact iff_of_true rfl ⟨fun hge => by omega, fun hge => by omega⟩
  rw [if_neg hs]
  by_cases he : addr < 4 * c.blockSize + 16777216
  · rw [if_pos he, if_neg (by omega), eq_comm, hexec]
    exact ⟨fun hne => ⟨fun _ _ => hne, fun hge => by omega⟩, fun hd => hd.execute (by omega) he⟩
  split
  · rw [hsys]
    exact ⟨fun hsame => ⟨fun _ hlt => absurd hlt he, fun _ _ => hsame⟩, fun hd => hd.wrapped (by omega) (by omega)⟩
  · exact iff_of_true rfl ⟨fun _ hlt => absurd hlt he, fun hge hlt => by omega⟩

theorem selects_small_chip : Selects ⟨.p2048, 64, 131072, 134217728, by decide, by decide, by decide⟩ 300 :=
  (selects_iff _ 300 (by decide)).mpr ⟨fun _ _ => by decide, fun hge => absurd hge (by decide)⟩

theorem not_selects_execute : ¬ Selects ⟨.p8192, 640, 1048576, 4294967296, by decide, by decide, by decide⟩ 512 ∧
      ¬ Selects ⟨.p2048, 64, 131072, 8589934592, by decide, by decide, by decide⟩ 2097152 := by
  unfold Selects
  decide

end NuWicam.Kernel.NandLayout
