import Mathlib.Data.Nat.Bitwise

/-!
# Upload of the quantisation tables (`w55fa93_Jpeg_SetQTAB`)

The wait for `QT_BUSY` combines the status bit with the timeout counter by a bitwise and, so it ends as soon as bit 2 of the
counter is clear: after four busy reads. `waits_iff` says which reads the function is right for.
-/

namespace NuWicam.Kernel.Tables

open List Option

/-- The number of values of `REG_JMCR` read before a word was written, and where it was written -/
structure Write where
  reads : Nat
  reg : Nat
  value : UInt32
  deriving DecidableEq

structure Upload where
  reads : Nat
  writes : List Write

/-- Bytes `i` .. `i + 3` of a table -/
def word (table : Nat → UInt8) (i : Nat) : UInt32 :=
  (table i).toUInt32 ||| (table (i + 1)).toUInt32 <<< 8 ||| (table (i + 2)).toUInt32 <<< 16 ||| (table (i + 3)).toUInt32 <<< 24

section

variable (jmcr : Nat → UInt32)

/-- `QT_BUSY` in the `n`-th value read from `REG_JMCR` -/
def busy (n : Nat) : Bool := (jmcr n).toNat &&& 4 ≠ 0

/-- `while((inp32(REG_JMCR) & QT_BUSY) & u32TimeOut) u32TimeOut--`: the counter it ends with, and the number of reads -/
def waitIdle : Nat → Nat → Nat × Nat
  | 0, n => (0, n + 1)
  | timeOut + 1, n =>
    if (jmcr n).toNat &&& 4 &&& (timeOut + 1) ≠ 0 then waitIdle timeOut (n + 1) else (timeOut + 1, n + 1)

/-- The loop over the words of a table, `false` for `return (-1)` -/
def uploadWords (reg : Nat) (table : Nat → UInt8) : List Nat → Nat → Upload → Upload × Bool
  | [], _, u => (u, true)
  | i :: is, timeOut, u =>
    let (timeOut, n) := waitIdle jmcr timeOut u.reads
    if timeOut = 0 then (⟨n, u.writes⟩, false)
    else uploadWords reg table is timeOut ⟨n, u.writes ++ [⟨n, reg + i, word table i⟩]⟩

/-- `for(i = 0; i < 64; i=i+4)`, with the timeout of the table -/
def uploadTable (reg : Nat) (table : Nat → UInt8) (u : Upload) : Upload × Bool :=
  uploadWords jmcr reg table ((List.range 16).map (4 * ·)) 0xFFFFFF u

/-- `w55fa93_Jpeg_SetQTAB`, with the registers `REG_JQTAB0`, `REG_JQTAB1`, `REG_JQTAB2` -/
def setQTAB (table₀ table₁ table₂ : Nat → UInt8) (num : UInt8) : Upload × Int :=
  let (u, ok) := uploadTable jmcr 0x100 table₀ ⟨0, []⟩
  if !ok then (u, -1)
  else
    let (u, ok) := uploadTable jmcr 0x140 table₁ u
    if !ok then (u, -1)
    else if num < 3 then (u, 0)
    else
      let (u, ok) := uploadTable jmcr 0x180 table₂ u
      if !ok then (u, -1)
      else
        let (timeOut, n) := waitIdle jmcr 0xFFFFFF u.reads
        (⟨n, u.writes⟩, if timeOut = 0 then -1 else 0)

end

/-! ## What is wanted -/

/-- Reading on from `n` until a read is idle: what is left of the budget of busy reads, and the number of reads -/
def skip (busy : Nat → Bool) : Nat → Nat → Option (Nat × Nat)
  | 0, n => if busy n then none else some (0, n + 1)
  | budget + 1, n => if busy n then skip busy budget (n + 1) else some (budget + 1, n + 1)

/-- The same until `k` idle reads were seen -/
def after (busy : Nat → Bool) : Nat → Nat → Nat → Option Nat
  | 0, _, n => some n
  | k + 1, budget, n => (skip busy budget n).bind fun x => after busy k x.1 x.2

/-- The idle reads that are waited for: 16 words for each table, and a last one after three tables -/
def waits (num : UInt8) : List Nat := if num < 3 then [16, 16] else [16, 16, 16, 1]

/-- The engine stays busy for the whole of some timeout. -/
def StaysBusy (busy : Nat → Bool) (num : UInt8) : Prop :=
  (waits num).foldlM (fun n k => after busy k 0xFFFFFE n) 0 = none

/-- **The upload waits for the engine**, and writes no word after the read that was one too many. -/
structure Waits (jmcr : Nat → UInt32) (table₀ table₁ table₂ : Nat → UInt8) (num : UInt8) : Prop where
  ends : (setQTAB jmcr table₀ table₁ table₂ num).1.reads ≤ 65
  idle : ∀ w ∈ (setQTAB jmcr table₀ table₁ table₂ num).1.writes, busy jmcr (w.reads - 1) = false
  result : (setQTAB jmcr table₀ table₁ table₂ num).2 = -1 ↔ StaysBusy (busy jmcr) num
  stops : (setQTAB jmcr table₀ table₁ table₂ num).2 = -1 → ∀ w ∈ (setQTAB jmcr table₀ table₁ table₂ num).1.writes,
    w.reads < (setQTAB jmcr table₀ table₁ table₂ num).1.reads

/-- At most four reads are busy while a table is uploaded, and after the third one the engine becomes idle in time. -/
def Prompt (busy : Nat → Bool) (num : UInt8) : Prop :=
  ∃ n, (List.replicate (if num < 3 then 2 else 3) 16).foldlM (fun n k => after busy k 4 n) 0 = some n ∧
    (3 ≤ num → after busy 1 0xFFFFFE n ≠ none)

/-! ## A wait -/

section

variable {busy : Nat → Bool} {k b b' n n' : Nat}

theorem skip_mono (d : Nat) (h : skip busy b n = some (b', n')) : skip busy (b + d) n = some (b' + d, n') := by
  induction b generalizing n with
  | zero =>
    unfold skip at h
    split at h
    · cases h
    · cases h
      cases d <;> simp_all [skip]
  | succ b ih =>
    rw [Nat.succ_add]
    unfold skip at h ⊢
    split at h
    · rw [if_pos ‹_›]
      exact ih h
    · cases h
      simp_all [Nat.succ_add]

theorem after_mono (d : Nat) (h : after busy k b n = some n') : after busy k (b + d) n = some n' := by
  induction k generalizing b n with
  | zero => exact h
  | succ k ih =>
    obtain ⟨⟨b₁, n₁⟩, hskip, hrest⟩ := bind_eq_some_iff.mp h
    exact bind_eq_some_iff.mpr ⟨_, skip_mono d hskip, ih hrest⟩

theorem foldlM_after_mono (d : Nat) {ks : List Nat} (h : ks.foldlM (fun n k => after busy k b n) n = some n') :
    ks.foldlM (fun n k => after busy k (b + d) n) n = some n' := by
  induction ks generalizing n with
  | nil => exact h
  | cons k ks ih =>
    obtain ⟨n₁, hafter, hrest⟩ := bind_eq_some_iff.mp h
    exact bind_eq_some_iff.mpr ⟨n₁, after_mono d hafter, ih hrest⟩

theorem staysBusy_iff {num : UInt8}
    (h : (List.replicate (if num < 3 then 2 else 3) 16).foldlM (fun n k => after busy k 4 n) 0 = some n) :
    StaysBusy busy num ↔ 3 ≤ num ∧ after busy 1 0xFFFFFE n = none := by
  have hmono := foldlM_after_mono 0xFFFFFA h
  unfold StaysBusy waits
  by_cases hnum : num < 3
  · rw [if_pos hnum] at hmono ⊢
    exact iff_of_false (by rw [show [16, 16] = List.replicate 2 16 from rfl, hmono]; nofun)
      fun hthree => absurd hnum (UInt8.not_lt.mpr hthree.1)
  · rw [if_neg hnum] at hmono ⊢
    rw [show [16, 16, 16, 1] = List.replicate 3 16 ++ [1] from rfl, foldlM_append, hmono,
      and_iff_right (UInt8.not_lt.mp hnum)]
    simp

end

section

variable (jmcr : Nat → UInt32)

theorem and_timeOut {m : Nat} (hm : m ≤ 4) (n : Nat) :
    (jmcr n).toNat &&& 4 &&& (0xFFFFFB + m) ≠ 0 ↔ 0 < m ∧ busy jmcr n = true := by
  have hbit := Nat.and_two_pow (jmcr n).toNat 2
  unfold busy
  rw [show (4 : Nat) = 2 ^ 2 from rfl, hbit]
  cases (jmcr n).toNat.testBit 2
  · simp
  · obtain rfl | rfl | rfl | rfl | rfl : m = 0 ∨ m = 1 ∨ m = 2 ∨ m = 3 ∨ m = 4 := by omega
    all_goals decide

/-- **A wait** has a budget of four busy reads. -/
theorem waitIdle_spec {m : Nat} (hm : m ≤ 4) (n : Nat) :
    ∃ m' n', waitIdle jmcr (0xFFFFFB + m) n = (0xFFFFFB + m', n') ∧ n' + m' = n + 1 + m ∧ m' ≤ m ∧
      if busy jmcr (n' - 1) then skip (busy jmcr) m n = none else skip (busy jmcr) m n = some (m', n') := by
  induction m generalizing n with
  | zero =>
    refine ⟨0, n + 1, ?_, rfl, by omega, ?_⟩
    · rw [waitIdle, if_neg]
      exact fun h => absurd ((and_timeOut jmcr hm n).mp h).1 (by decide)
    · rw [Nat.add_sub_cancel]
      split <;> simp [skip, *]
  | succ m ih =>
    have hand := and_timeOut jmcr hm n
    rw [← Nat.add_assoc] at hand
    rw [← Nat.add_assoc, waitIdle]
    by_cases hbusy : busy jmcr n
    · rw [if_pos (hand.mpr ⟨by omega, hbusy⟩)]
      obtain ⟨m', n', hwait, hsum, hle, hskip⟩ := ih (by omega) (n + 1)
      exact ⟨m', n', hwait, by omega, by omega, by simpa [skip, hbusy] using hskip⟩
    · rw [if_neg fun h => hbusy (hand.mp h).2]
      exact ⟨m + 1, n + 1, rfl, rfl, by omega, by simp [skip, hbusy]⟩

/-! ## A table -/

/-- The words were written after idle reads only, or the budget was used up. -/
def Told (jmcr : Nat → UInt32) (ws : List Write) (x : Option Nat) (n : Nat) : Prop :=
  if ∀ w ∈ ws, busy jmcr (w.reads - 1) = false then x = some n else x = none

theorem uploadWords_spec (reg : Nat) (table : Nat → UInt8) (is : List Nat) {m : Nat} (hm : m ≤ 4) (u : Upload) :
    ∃ ws n, uploadWords jmcr reg table is (0xFFFFFB + m) u = (⟨n, u.writes ++ ws⟩, true) ∧
      n ≤ u.reads + is.length + m ∧ Told jmcr ws (after (busy jmcr) is.length m u.reads) n := by
  induction is generalizing m u with
  | nil => exact ⟨[], u.reads, by simp [uploadWords], by omega, by simp [Told, after]⟩
  | cons i is ih =>
    obtain ⟨m', n', hwait, hsum, hle, hskip⟩ := waitIdle_spec jmcr hm u.reads
    obtain ⟨ws, n, hrest, hn, htold⟩ := ih (m := m') (by omega) ⟨n', u.writes ++ [⟨n', reg + i, word table i⟩]⟩
    refine ⟨⟨n', reg + i, word table i⟩ :: ws, n, ?_, ?_, ?_⟩
    · rw [uploadWords, hwait]
      simp only [hrest, append_assoc, singleton_append]
      rw [if_neg (by omega)]
    · simp only [length_cons]
      dsimp only at hn
      omega
    · unfold Told at htold ⊢
      simp only [forall_mem_cons, length_cons, after]
      cases hb : busy jmcr (n' - 1) <;> simp_all

theorem uploadTable_spec (reg : Nat) (table : Nat → UInt8) (u : Upload) :
    ∃ ws n, uploadTable jmcr reg table u = (⟨n, u.writes ++ ws⟩, true) ∧ n ≤ u.reads + 20 ∧
      Told jmcr ws (after (busy jmcr) 16 4 u.reads) n :=
  uploadWords_spec jmcr reg table _ (m := 4) (by omega) u

variable {jmcr}

theorem Told.eq_some {ws : List Write} {x : Option Nat} {n n' : Nat} (h : Told jmcr ws x n) (hx : x = some n') :
    (∀ w ∈ ws, busy jmcr (w.reads - 1) = false) ∧ n' = n := by
  unfold Told at h
  split at h <;> simp_all

theorem Told.of_idle {ws : List Write} {x : Option Nat} {n : Nat} (h : Told jmcr ws x n)
    (hidle : ∀ w ∈ ws, busy jmcr (w.reads - 1) = false) : x = some n := by
  rwa [Told, if_pos hidle] at h

theorem Told.append {ws ws' : List Write} {x : Option Nat} {f : Nat → Option Nat} {n n' : Nat} (h : Told jmcr ws x n)
    (h' : Told jmcr ws' (f n) n') : Told jmcr (ws ++ ws') (x.bind f) n' := by
  unfold Told at h h' ⊢
  simp only [forall_mem_append]
  by_cases hidle : ∀ w ∈ ws, busy jmcr (w.reads - 1) = false
  · rw [if_pos hidle] at h
    simp only [h, and_iff_right hidle, bind_some]
    exact h'
  · rw [if_neg hidle] at h
    rw [if_neg fun hboth => hidle hboth.1, h, bind_none]

end

/-- The whole upload: `q` reads for the words, and `-1` is never returned. -/
theorem setQTAB_spec (jmcr : Nat → UInt32) (table₀ table₁ table₂ : Nat → UInt8) (num : UInt8) :
    ∃ ws q n, setQTAB jmcr table₀ table₁ table₂ num = (⟨n, ws⟩, 0) ∧ n ≤ 65 ∧
      Told jmcr ws ((List.replicate (if num < 3 then 2 else 3) 16).foldlM (fun n k => after (busy jmcr) k 4 n) 0) q := by
  obtain ⟨ws₀, n₀, h₀, hle₀, htold₀⟩ := uploadTable_spec jmcr 0x100 table₀ ⟨0, []⟩
  obtain ⟨ws₁, n₁, h₁, hle₁, htold₁⟩ := uploadTable_spec jmcr 0x140 table₁ ⟨n₀, ws₀⟩
  obtain ⟨ws₂, n₂, h₂, hle₂, htold₂⟩ := uploadTable_spec jmcr 0x180 table₂ ⟨n₁, ws₀ ++ ws₁⟩
  obtain ⟨m, n, hwait, hsum, hm, -⟩ := waitIdle_spec jmcr (Nat.le_refl 4) n₂
  have hwait' : waitIdle jmcr 0xFFFFFF n₂ = (0xFFFFFB + m, n) := hwait
  dsimp only at hle₀ hle₁ hle₂
  simp only [setQTAB, h₀, h₁, h₂, hwait', nil_append, Bool.not_true, Bool.false_eq_true, if_false,
    if_neg (show ¬ 0xFFFFFB + m = 0 by omega)]
  by_cases hnum : num < 3
  · rw [if_pos hnum, if_pos hnum]
    exact ⟨_, n₁, _, rfl, by omega, htold₀.append (by simpa [List.replicate] using htold₁)⟩
  · rw [if_neg hnum, if_neg hnum, append_assoc]
    exact ⟨_, n₂, _, rfl, by omega, htold₀.append (htold₁.append (by simpa [List.replicate] using htold₂))⟩

/-- **The upload waits for the engine** exactly with at most four busy reads for each table. -/
theorem waits_iff (jmcr : Nat → UInt32) (table₀ table₁ table₂ : Nat → UInt8) (num : UInt8) :
    Waits jmcr table₀ table₁ table₂ num ↔ Prompt (busy jmcr) num := by
  obtain ⟨ws, q, n, hrun, hle, htold⟩ := setQTAB_spec jmcr table₀ table₁ table₂ num
  have hzero : (0 : Int) ≠ -1 := by decide
  constructor
  · intro ⟨_, hidle, hresult, _⟩
    rw [hrun] at hidle hresult
    have hq := htold.of_idle hidle
    refine ⟨q, hq, fun hnum hnone => ?_⟩
    exact hzero (hresult.mpr ((staysBusy_iff hq).mpr ⟨hnum, hnone⟩))
  · rintro ⟨q', hq, hlast⟩
    obtain ⟨hidle, rfl⟩ := htold.eq_some hq
    constructor <;> rw [hrun]
    · exact hle
    · exact hidle
    · rw [staysBusy_iff hq]
      exact iff_of_false hzero fun hstays => hlast hstays.1 hstays.2
    · exact fun h => absurd h hzero

theorem not_waits_busy : ¬ Waits (fun _ => 4) (fun _ => 1) (fun _ => 1) (fun _ => 1) 2 := fun hw =>
  absurd (hw.idle ⟨5, 0x100, 0x01010101⟩ (by decide)) (by decide)

end NuWicam.Kernel.Tables
