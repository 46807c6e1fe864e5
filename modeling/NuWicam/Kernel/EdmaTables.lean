import Mathlib.Data.List.Range

/-!
# Scatter-gather tables of the EDMA driver (`edma.c`)

`w55fa93_edma_setup_pages` and `w55fa93_edma_setup_virtual` fill a table of descriptors, a page at most in each, and mark the
one with the last bytes as the end. `covers_iff` has the tables that fit their allocation; a list of pages that a caller can
hold in memory has one that does (`covers`).
-/

namespace NuWicam.Kernel.Edma

open List

/-- `S_DRVEDMA_DESCRIPT_FORMAT` -/
structure Descriptor where
  sourceAddr : UInt32
  destAddr : UInt32
  byteCount : Nat
  offset : UInt32

/-- `sizeof(S_DRVEDMA_DESCRIPT_FORMAT)` -/
def descriptorSize : Nat := 20

/-- `u32TranferByte` with `resbytes` left, for pages of `PAGE_SIZE` -/
def transferByte (resbytes : Nat) : Nat := if resbytes ≥ 4096 then 4096 else resbytes

/-- The end of the table is marked when no byte is left. -/
def descriptor (source dest : UInt32) (resbytes : Nat) : Descriptor :=
  ⟨source, dest, transferByte resbytes, if resbytes - transferByte resbytes = 0 then 0x80000000 else 0⟩

/-- The loop of `w55fa93_edma_setup_pages`, from page `i` on -/
def pagesLoop (pages : Nat → UInt32) : Nat → Nat → UInt32 → Nat → List Descriptor
  | 0, _, _, _ => []
  | count + 1, i, dest, resbytes =>
    descriptor (pages i) dest resbytes ::
      pagesLoop pages count (i + 1) (dest + .ofNat (transferByte resbytes)) (resbytes - transferByte resbytes)

def virtToPhys (x : UInt32) : UInt32 := x - 0xC0000000

/-- The loop of `w55fa93_edma_setup_virtual` -/
def virtualLoop (src dest : UInt32) (resbytes : Nat) : List Descriptor :=
  descriptor (virtToPhys src) dest resbytes ::
    if 0 < resbytes - transferByte resbytes then
      virtualLoop (src + .ofNat (transferByte resbytes)) (dest + .ofNat (transferByte resbytes))
        (resbytes - transferByte resbytes)
    else []
termination_by resbytes
decreasing_by
  rename_i h
  revert h
  unfold transferByte
  split <;> omega

inductive Errno
  | busy
  | inval
  | nodev
  deriving DecidableEq

/-- The table of channel 0: the bytes that were allocated, and the descriptors that were written -/
structure Table where
  allocated : Nat
  written : List Descriptor

inductive Source
  | virt (src : UInt32)
  | pages (pages : Nat → UInt32) (nrPages : UInt32)

/-- With an allocation that succeeds -/
def setupTable (inUse : Bool) (dest dmaLength : UInt32) : Source → Except Errno Table
  | .virt src =>
    if inUse then .error .busy
    else if dmaLength = 0 then .error .inval
    else if src &&& 0x0FFF ≠ 0 then .error .inval
    else .ok ⟨((dmaLength + 4096 - 1) / 4096 * .ofNat descriptorSize).toNat, virtualLoop src dest dmaLength.toNat⟩
  | .pages pages nrPages =>
    if inUse then .error .busy
    else if dmaLength = 0 then .error .inval
    else .ok ⟨(nrPages * .ofNat descriptorSize).toNat, pagesLoop pages nrPages.toNat 0 dest dmaLength.toNat⟩

/-! ## What is wanted -/

def Descriptor.isEnd (d : Descriptor) : Bool := d.offset &&& 0x80000000 ≠ 0

/-- The bytes that a descriptor moves: from where, and where to -/
def Descriptor.moves (d : Descriptor) : List (UInt32 × UInt32) :=
  (List.range d.byteCount).map fun j => (d.sourceAddr + .ofNat j, d.destAddr + .ofNat j)

/-- The descriptors up to the first one that is marked as the end -/
def upToEnd : List Descriptor → List Descriptor
  | [] => []
  | d :: ds => if d.isEnd then [d] else d :: upToEnd ds

def Source.byte (k : Nat) : Source → UInt32
  | .virt src => virtToPhys (src + .ofNat k)
  | .pages p _ => p (k / 4096) + .ofNat (k % 4096)

/-- **A table moves a source of `n` bytes** to consecutive addresses from `dest` on and lies within its allocation. -/
structure Covers (t : Table) (s : Source) (dest : UInt32) (n : Nat) : Prop where
  inside : t.written.length * descriptorSize ≤ t.allocated
  marked : ∃ d ∈ t.written, d.isEnd
  sizes : ∀ d ∈ upToEnd t.written, 1 ≤ d.byteCount ∧ d.byteCount ≤ 4096
  moves : (upToEnd t.written).flatMap Descriptor.moves = (List.range n).map fun k => (s.byte k, dest + .ofNat k)

/-- A page-aligned source of at most 2 GB, or a list of pages that holds all bytes -/
def Source.Allowed (dmaLength : UInt32) : Source → Prop
  | .virt src => src &&& 0x0FFF = 0 ∧ 0 < dmaLength.toNat ∧ dmaLength.toNat ≤ 2147483648
  | .pages _ nrPages => 0 < dmaLength.toNat ∧ dmaLength.toNat ≤ nrPages.toNat * 4096

/-- The size of the table in bytes does not wrap. -/
def Source.Fits : Source → Prop
  | .virt _ => True
  | .pages _ nrPages => nrPages.toNat * descriptorSize < 4294967296

/-- The list of pages, a word for each, lies in the 512 MB that the kernel maps. -/
def Source.Held : Source → Prop
  | .virt _ => True
  | .pages _ nrPages => nrPages.toNat * 4 ≤ 536870912

/-! ## The loops -/

section

variable (pages : Nat → UInt32) {count n : Nat} (i : Nat) (src dest : UInt32)

@[simp] theorem length_pagesLoop : (pagesLoop pages count i dest n).length = count := by
  induction count generalizing i dest n with
  | zero => rfl
  | succ count ih => simp [pagesLoop, ih]

theorem isEnd_descriptor (source : UInt32) : (descriptor source dest n).isEnd = decide (n ≤ 4096) := by
  unfold Descriptor.isEnd descriptor transferByte
  split <;> split <;> simp_all <;> omega

/-- **What the descriptors of the loop move**, from page `i` on. -/
theorem pagesLoop_moves (hpos : 0 < n) (hle : n ≤ count * 4096) :
    (upToEnd (pagesLoop pages count i dest n)).flatMap Descriptor.moves =
        (List.range n).map (fun k => (pages (i + k / 4096) + .ofNat (k % 4096), dest + .ofNat k)) ∧
      (∀ d ∈ upToEnd (pagesLoop pages count i dest n), 1 ≤ d.byteCount ∧ d.byteCount ≤ 4096) ∧
      ∃ d ∈ pagesLoop pages count i dest n, d.isEnd := by
  induction count generalizing i dest n with
  | zero => omega
  | succ count ih =>
    rw [pagesLoop, upToEnd, isEnd_descriptor]
    by_cases hlast : n ≤ 4096
    · have hbytes : transferByte n = n := by
        unfold transferByte
        split <;> omega
      simp only [hlast, decide_true, if_true, flatMap_cons, flatMap_nil, append_nil]
      refine ⟨?_, ?_, descriptor (pages i) dest n, by simp, by simpa [isEnd_descriptor] using hlast⟩
      · simp only [Descriptor.moves, descriptor, hbytes]
        apply map_congr_left
        intro k hk
        rw [mem_range] at hk
        rw [Nat.div_eq_of_lt (by omega), Nat.mod_eq_of_lt (by omega), Nat.add_zero]
      · simp only [mem_singleton, forall_eq, descriptor, hbytes]
        omega
    · have hbytes : transferByte n = 4096 := by
        unfold transferByte
        split <;> omega
      obtain ⟨hmoves, hsizes, d, hd, hend⟩ := ih (i + 1) (dest + .ofNat 4096) (n := n - 4096) (by omega) (by omega)
      simp only [hlast, decide_false, Bool.false_eq_true, if_false, flatMap_cons, hbytes, hmoves]
      refine ⟨?_, ?_, d, mem_cons_of_mem _ hd, hend⟩
      · rw [show List.range n = List.range (4096 + (n - 4096)) by rw [Nat.add_sub_cancel' (by omega)], range_add,
          map_append, List.map_map]
        refine congrArg₂ (· ++ ·) ?_ ?_
        · simp only [Descriptor.moves, descriptor, hbytes]
          apply map_congr_left
          intro k hk
          rw [mem_range] at hk
          rw [Nat.div_eq_of_lt hk, Nat.mod_eq_of_lt hk, Nat.add_zero]
        · apply map_congr_left
          intro k _
          simp only [Function.comp_apply, Nat.add_mod_left, Nat.add_div_left k (show 0 < 4096 by decide), UInt32.ofNat_add,
            UInt32.add_assoc]
          rw [show i + 1 + k / 4096 = i + (k / 4096).succ by omega]
      · intro e he
        rcases mem_cons.mp he with rfl | he
        · simp only [descriptor, hbytes]
          omega
        · exact hsizes e he

/-- **The loop over a virtual range** is the loop over its pages. -/
theorem virtualLoop_eq (hpos : 0 < n) : virtualLoop (src + .ofNat (i * 4096)) dest n =
      pagesLoop (fun k => virtToPhys (src + .ofNat (k * 4096))) ((n + 4095) / 4096) i dest n := by
  induction n using Nat.strongRecOn generalizing i dest with
  | ind n ih =>
    rw [virtualLoop]
    by_cases hlast : n ≤ 4096
    · have hbytes : n - transferByte n = 0 := by
        unfold transferByte
        split <;> omega
      rw [show (n + 4095) / 4096 = 1 by omega, hbytes]
      rfl
    · have hbytes : transferByte n = 4096 := by
        unfold transferByte
        split <;> omega
      have hnext : src + .ofNat (i * 4096) + .ofNat 4096 = src + .ofNat ((i + 1) * 4096) := by
        rw [UInt32.add_assoc, ← UInt32.ofNat_add, Nat.succ_mul]
      rw [show (n + 4095) / 4096 = (n - 4096 + 4095) / 4096 + 1 by omega, pagesLoop, hbytes, if_pos (by omega), hnext,
        ih (n - 4096) (by omega) _ _ (by omega)]

theorem setupTable_pages (nrPages dest : UInt32) (dmaLength : UInt32) (hne : dmaLength ≠ 0) :
    ∃ t, setupTable false dest dmaLength (.pages pages nrPages) = .ok t ∧ t.written.length = nrPages.toNat ∧
      t.allocated = (nrPages * .ofNat descriptorSize).toNat :=
  ⟨_, by rw [setupTable, if_neg Bool.false_ne_true, if_neg hne], length_pagesLoop .., rfl⟩

end

/-- **Coverage**: the table that is set up covers its source exactly if its size in bytes does not wrap. -/
theorem covers_iff (s : Source) (dest dmaLength : UInt32) (h : s.Allowed dmaLength) :
    ∃ t, setupTable false dest dmaLength s = .ok t ∧ (Covers t s dest dmaLength.toNat ↔ s.Fits) := by
  cases s with
  | virt src =>
    obtain ⟨halign, hpos, hmax⟩ := h
    have hne : dmaLength ≠ 0 := fun h => by simp [h] at hpos
    refine ⟨_, by rw [setupTable, if_neg Bool.false_ne_true, if_neg hne, if_neg (not_not_intro halign)], iff_of_true ?_ trivial⟩
    have hloop := virtualLoop_eq 0 src dest hpos
    obtain ⟨hmoves, hsizes, hmarked⟩ := pagesLoop_moves (fun k => virtToPhys (src + .ofNat (k * 4096))) 0 dest hpos
      (show _ ≤ (dmaLength.toNat + 4095) / 4096 * 4096 by omega)
    rw [Nat.zero_mul, show src + .ofNat 0 = src by simp] at hloop
    refine ⟨?_, by rwa [hloop], by rwa [hloop], ?_⟩
    · rw [hloop, length_pagesLoop]
      have hcount : ((dmaLength + 4096 - 1) / 4096).toNat = (dmaLength.toNat + 4095) / 4096 := by
        simp only [UInt32.toNat_div, UInt32.toNat_sub, UInt32.toNat_add, UInt32.reduceToNat]
        omega
      simp only [UInt32.toNat_mul, hcount, descriptorSize, UInt32.reduceOfNat, UInt32.reduceToNat]
      omega
    · rw [hloop, hmoves]
      apply map_congr_left
      intro k _
      have hsplit : UInt32.ofNat (k / 4096 * 4096) + .ofNat (k % 4096) = .ofNat k := by
        rw [← UInt32.ofNat_add, Nat.mul_comm, Nat.div_add_mod]
      simp only [Nat.zero_add, Source.byte, virtToPhys, ← hsplit]
      grind
  | pages pages nrPages =>
    obtain ⟨hpos, hmax⟩ := h
    have hne : dmaLength ≠ 0 := fun h => by simp [h] at hpos
    refine ⟨_, by rw [setupTable, if_neg Bool.false_ne_true, if_neg hne], ?_⟩
    obtain ⟨hmoves, hsizes, hmarked⟩ := pagesLoop_moves pages 0 dest hpos hmax
    have hinside : (pagesLoop pages nrPages.toNat 0 dest dmaLength.toNat).length * descriptorSize ≤
        (nrPages * .ofNat descriptorSize).toNat ↔ nrPages.toNat * descriptorSize < 4294967296 := by
      have := nrPages.toNat_lt
      simp only [length_pagesLoop, UInt32.toNat_mul, descriptorSize, UInt32.reduceOfNat, UInt32.reduceToNat]
      omega
    exact ⟨fun hcovers => hinside.mp hcovers.inside, fun hfits =>
      ⟨hinside.mpr hfits, hmarked, hsizes, by simpa [Source.byte] using hmoves⟩⟩

/-- **Coverage**, for every source that a caller can have: a list of pages takes memory too. -/
theorem covers (s : Source) (dest dmaLength : UInt32) (h : s.Allowed dmaLength) (hheld : s.Held) :
    ∃ t, setupTable false dest dmaLength s = .ok t ∧ Covers t s dest dmaLength.toNat := by
  obtain ⟨t, ht, hcovers⟩ := covers_iff s dest dmaLength h
  refine ⟨t, ht, hcovers.mpr ?_⟩
  cases s with
  | virt src => trivial
  | pages pages nrPages =>
    have hlist : nrPages.toNat * 4 ≤ 536870912 := hheld
    show nrPages.toNat * 20 < 4294967296
    omega

def scattered : Source := .pages (fun i => 0x100000 + 0x3000 * .ofNat i) 5

/-- Three of five pages are used, the last of them for 100 bytes. -/
theorem covers_scattered : ∃ t, setupTable false 0x8000 8292 scattered = .ok t ∧
    Covers t scattered 0x8000 (8292 : UInt32).toNat := by
  have hallowed : scattered.Allowed 8292 := ⟨by decide, by decide⟩
  have hheld : scattered.Held := show 5 * 4 ≤ 536870912 by decide
  exact covers scattered 0x8000 8292 hallowed hheld

end NuWicam.Kernel.Edma
