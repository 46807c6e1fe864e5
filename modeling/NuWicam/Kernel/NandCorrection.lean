import Mathlib.Data.List.Nodup
import Mathlib.Data.Nat.Bitwise
import NuWicam.Lib.Memory

/-!
# Correction of a field (`fmiSM_CorrectData_BCH` in `w55fa93_nand_mtd.c`)

The controller reports the errors of a field in registers, four masks in one and two addresses in one. For errors of the data
or of the parity exactly the reported bits are flipped, in the page and in the redundant area (`correctData_exact`).
-/

namespace NuWicam.Kernel.NandCorrection

open Lib Option Function

inductive Place
  | page (offset : Nat)
  | smra (offset : Nat)
  deriving DecidableEq

structure Regs where
  smcsr : UInt32
  smreareaCtl : UInt32
  bchEccData : Nat → UInt32
  bchEccAddr : Nat → UInt32

/-- `parity_len` by `SMCR_BCH_TSEL`; `field_len` is 512 and `padding_len` 32 in all the cases. -/
def parityLen (r : Regs) : Option UInt32 :=
  let tsel := r.smcsr &&& 0x780000
  if tsel = 0x400000 then some 29
  else if tsel = 0x200000 then some 23
  else if tsel = 0x100000 then some 15
  else if tsel = 0x80000 then some 8
  else none

def totalFieldNum (r : Regs) : Option UInt32 :=
  let uPageSize := r.smcsr &&& 0x30000
  if uPageSize = 0x30000 then some (8192 / 512)
  else if uPageSize = 0x20000 then some (4096 / 512)
  else if uPageSize = 0x10000 then some (2048 / 512)
  else if uPageSize = 0 then some (512 / 512)
  else none

/-- `uaData`, of which four entries are set for each register that is read -/
def uaData (r : Regs) (ucErrorCnt : UInt8) (i : Nat) : Option UInt32 :=
  if i / 4 < min (ucErrorCnt.toNat / 4 + 1) 4 then some (r.bchEccData (i / 4) >>> .ofNat (8 * (i % 4)) &&& 0xFF) else none

/-- `uaAddr`, with two entries for each register -/
def uaAddr (r : Regs) (ucErrorCnt : UInt8) (i : Nat) : Option UInt32 :=
  if i / 2 < min (ucErrorCnt.toNat / 2 + 1) 8 then some (r.bchEccAddr (i / 2) >>> .ofNat (16 * (i % 2)) &&& 0x7FF) else none

/-- The byte for an address: in the field, in the first three bytes of the redundant area, or in the parity code -/
def target (r : Regs) (parityLen total : UInt32) (ucFieidIndex : UInt8) (addr : UInt32) : Place :=
  let index := ucFieidIndex.toUInt32 - 1
  if addr < 512 then .page (index * 512 + addr).toNat
  else if addr < 512 + 3 then .smra (addr - 512 + parityLen * index).toNat
  else .smra ((r.smreareaCtl &&& 0x1FF) - parityLen * total + parityLen * index + (addr - (512 + 32 - parityLen))).toNat

/-- `n` rounds of the last loop from `ii` on; `none` if an entry is used that was not set -/
def correctLoop (addr data : Nat → Option UInt32) (target : UInt32 → Place) :
    Nat → Nat → (Place → UInt8) → Option (Place → UInt8)
  | 0, _, m => some m
  | n + 1, ii, m =>
    (addr ii).bind fun a => (data ii).bind fun d =>
      correctLoop addr data target n (ii + 1) (update m (target a) (m (target a) ^^^ d.toUInt8))

/-- `fmiSM_CorrectData_BCH` -/
def correctData (r : Regs) (ucFieidIndex ucErrorCnt : UInt8) (m : Place → UInt8) : Option (Place → UInt8) :=
  match parityLen r, totalFieldNum r with
  | some parityLen, some total =>
    correctLoop (uaAddr r ucErrorCnt) (uaData r ucErrorCnt) (target r parityLen total ucFieidIndex) ucErrorCnt.toNat 0 m
  | _, _ => some m

/-! ## What is wanted -/

inductive Mode
  | t4
  | t8
  | t12
  | t15
  deriving DecidableEq

def Mode.strength : Mode → Nat
  | .t4 => 4
  | .t8 => 8
  | .t12 => 12
  | .t15 => 15

def Mode.tsel : Mode → UInt32
  | .t4 => 0x80000
  | .t8 => 0x100000
  | .t12 => 0x200000
  | .t15 => 0x400000

/-- Parity bytes of a field -/
def Mode.parity : Mode → Nat
  | .t4 => 8
  | .t8 => 15
  | .t12 => 23
  | .t15 => 29

inductive PageSize
  | p512
  | p2048
  | p4096
  | p8192
  deriving DecidableEq

def PageSize.psize : PageSize → UInt32
  | .p512 => 0
  | .p2048 => 0x10000
  | .p4096 => 0x20000
  | .p8192 => 0x30000

def PageSize.fields : PageSize → Nat
  | .p512 => 1
  | .p2048 => 4
  | .p4096 => 8
  | .p8192 => 16

/-- A position of a field and the bits of it that are wrong -/
structure Error where
  position : Nat
  mask : UInt8
  deriving DecidableEq

/-- In the data of the field, or in its parity, which ends at 543 -/
def Error.Valid (mode : Mode) (e : Error) : Prop := e.position < 512 ∨ 544 - mode.parity ≤ e.position ∧ e.position < 544

/-- Where a position of field `field` lies if the redundant area has `size` bytes: the parity of all fields is at its end. -/
def Error.place (mode : Mode) (ps : PageSize) (size field : Nat) (e : Error) : Place :=
  if e.position < 512 then .page (512 * (field - 1) + e.position)
  else .smra (size - mode.parity * ps.fields + mode.parity * (field - 1) + (e.position - (544 - mode.parity)))

/-- The registers select the mode and the page size, and report the errors of a field. -/
structure Reported (r : Regs) (mode : Mode) (ps : PageSize) (field : UInt8) (errs : List Error) : Prop where
  tsel : r.smcsr &&& 0x780000 = mode.tsel
  psize : r.smcsr &&& 0x30000 = ps.psize
  area : 4 + mode.parity * ps.fields ≤ r.smreareaCtl.toNat % 512
  field_pos : 0 < field.toNat
  field_le : field.toNat ≤ ps.fields
  count : errs.length ≤ mode.strength
  valid : ∀ e ∈ errs, e.Valid mode
  distinct : (errs.map Error.position).Nodup
  position : ∀ k e, errs[k]? = some e → (r.bchEccAddr (k / 2)).toNat / 2 ^ (16 * (k % 2)) % 2 ^ 11 = e.position
  mask : ∀ k e, errs[k]? = some e → (r.bchEccData (k / 4)).toNat / 2 ^ (8 * (k % 4)) % 2 ^ 8 = e.mask.toNat

/-- **The errors are corrected**: their bits are flipped, and no other. -/
structure Corrected (place : Error → Place) (errs : List Error) (m m' : Place → UInt8) : Prop where
  flipped : ∀ e ∈ errs, m' (place e) = m (place e) ^^^ e.mask
  kept : ∀ x, (∀ e ∈ errs, place e ≠ x) → m' x = m x

/-! ## The loop -/

section

variable {place : Error → Place} {errs : List Error} {m : Place → UInt8}

theorem corrected_foldl (hplace : (errs.map place).Nodup) : Corrected place errs m
    (errs.foldl (fun m e => update m (place e) (m (place e) ^^^ e.mask)) m) := by
  induction errs generalizing m with
  | nil => exact ⟨nofun, fun _ _ => rfl⟩
  | cons e errs ih =>
    rw [List.map_cons, List.nodup_cons] at hplace
    have hne : ∀ e' ∈ errs, place e' ≠ place e := fun e' he' heq => hplace.1 (heq ▸ List.mem_map_of_mem he')
    obtain ⟨hflipped, hkept⟩ := ih (m := update m (place e) (m (place e) ^^^ e.mask)) hplace.2
    refine ⟨List.forall_mem_cons.mpr ⟨?_, fun e' he' => ?_⟩, fun x hx => ?_⟩
    · exact (hkept _ hne).trans (update_self ..)
    · exact (hflipped e' he').trans (by rw [update_of_ne (hne e' he')])
    · obtain ⟨hx, hxs⟩ := List.forall_mem_cons.mp hx
      exact (hkept x hxs).trans (update_of_ne hx.symm ..)

/-- **The loop corrects one error after the other.** -/
theorem correctLoop_eq {addr data : Nat → Option UInt32} {target : UInt32 → Place} {ii : Nat} (h : ∀ k e, errs[k]? = some e →
      ∃ a d, addr (ii + k) = some a ∧ data (ii + k) = some d ∧ target a = place e ∧ d.toUInt8 = e.mask) :
    correctLoop addr data target errs.length ii m =
      some (errs.foldl (fun m e => update m (place e) (m (place e) ^^^ e.mask)) m) := by
  induction errs generalizing ii m with
  | nil => rfl
  | cons e errs ih =>
    obtain ⟨a, d, ha, hd, hplace, hmask⟩ := h 0 e rfl
    rw [Nat.add_zero] at ha hd
    rw [List.length_cons, correctLoop, ha, hd, bind_some, bind_some, hplace, hmask]
    refine ih fun k e' hk => ?_
    rw [Nat.add_assoc, Nat.add_comm 1]
    exact h (k + 1) e' hk

end

/-! ## The registers -/

section

variable {r : Regs} {mode : Mode} {ps : PageSize} {field : UInt8} {errs : List Error} {e : Error}

theorem toNat_bits (w : UInt32) {s : Nat} (n : Nat) {mask : UInt32} (hs : s < 32) (hmask : mask.toNat = 2 ^ n - 1) :
    (w >>> .ofNat s &&& mask).toNat = w.toNat / 2 ^ s % 2 ^ n := by
  rw [UInt32.toNat_and, UInt32.toNat_shiftRight, hmask, Nat.and_two_pow_sub_one_eq_mod, UInt32.toNat_ofNat',
    Nat.shiftRight_eq_div_pow, Nat.mod_mod_of_dvd _ (by decide), Nat.mod_eq_of_lt hs]

theorem Mode.strength_le (mode : Mode) : mode.strength ≤ 15 := by cases mode <;> decide

theorem Reported.toNat_count (h : Reported r mode ps field errs) : (UInt8.ofNat errs.length).toNat = errs.length := by
  have hle := Nat.le_trans h.count mode.strength_le
  rw [UInt8.toNat_ofNat']
  omega

theorem uaAddr_eq (h : Reported r mode ps field errs) {k : Nat} (hk : errs[k]? = some e) :
    uaAddr r (.ofNat errs.length) k = some (.ofNat e.position) := by
  have hlt : k < errs.length := (List.getElem?_eq_some_iff.mp hk).1
  have hle := Nat.le_trans h.count mode.strength_le
  have hpos := h.position k e hk
  rw [uaAddr, h.toNat_count, if_pos (by omega), some.injEq]
  apply UInt32.toNat_inj.mp
  rw [toNat_bits _ 11 (by omega) (by decide), hpos, UInt32.toNat_ofNat']
  omega

theorem uaData_eq (h : Reported r mode ps field errs) {k : Nat} (hk : errs[k]? = some e) :
    ∃ d, uaData r (.ofNat errs.length) k = some d ∧ d.toUInt8 = e.mask := by
  have hlt : k < errs.length := (List.getElem?_eq_some_iff.mp hk).1
  have hle := Nat.le_trans h.count mode.strength_le
  refine ⟨_, by rw [uaData, h.toNat_count, if_pos (by omega)], ?_⟩
  apply UInt8.toNat_inj.mp
  rw [UInt32.toNat_toUInt8, toNat_bits _ 8 (by omega) (by decide), h.mask k e hk]
  exact Nat.mod_eq_of_lt e.mask.toNat_lt

theorem parityLen_eq (h : Reported r mode ps field errs) : parityLen r = some (.ofNat mode.parity) := by
  rw [parityLen, h.tsel]
  cases mode <;> decide

theorem totalFieldNum_eq (h : Reported r mode ps field errs) : totalFieldNum r = some (.ofNat ps.fields) := by
  rw [totalFieldNum, h.psize]
  cases ps <;> decide

theorem Reported.parity_le (h : Reported r mode ps field errs) :
    mode.parity * (field.toNat - 1) + mode.parity ≤ mode.parity * ps.fields := by
  have hpos := h.field_pos
  have hle := h.field_le
  rw [← Nat.mul_succ]
  exact Nat.mul_le_mul_left _ (by omega)

theorem target_eq (h : Reported r mode ps field errs) (he : e ∈ errs) :
    target r (.ofNat mode.parity) (.ofNat ps.fields) field (.ofNat e.position) =
      e.place mode ps (r.smreareaCtl.toNat % 512) field.toNat := by
  have hvalid := h.valid e he
  have harea := h.area
  have hfield := h.field_pos
  have hlt := field.toNat_lt
  have hin := h.parity_le
  have hparity : 8 ≤ mode.parity ∧ mode.parity ≤ 29 := by cases mode <;> decide
  have hlen : (UInt32.ofNat mode.parity).toNat = mode.parity := by cases mode <;> rfl
  have htotal : (UInt32.ofNat ps.fields).toNat = ps.fields := by cases ps <;> rfl
  have hsize : (r.smreareaCtl &&& 0x1FF).toNat = r.smreareaCtl.toNat % 512 := by
    exact Nat.and_two_pow_sub_one_eq_mod _ 9
  have hindex : (field.toUInt32 - 1).toNat = field.toNat - 1 := by
    rw [UInt32.toNat_sub, UInt8.toNat_toUInt32, UInt32.toNat_one]
    omega
  have haddr : (UInt32.ofNat e.position).toNat = e.position := by
    rw [UInt32.toNat_ofNat']
    rcases hvalid with hv | ⟨-, hv⟩ <;> omega
  simp only [target, Error.place, UInt32.lt_iff_toNat_lt, haddr, UInt32.reduceAdd, UInt32.reduceToNat]
  rcases hvalid with hv | ⟨hge, hv⟩
  · rw [if_pos hv, if_pos hv, UInt32.toNat_add, UInt32.toNat_mul, hindex, haddr]
    simp only [UInt32.reduceToNat]
    congr 1
    omega
  · rw [if_neg (by omega), if_neg (by omega), if_neg (by omega), UInt32.toNat_add, UInt32.toNat_add, UInt32.toNat_sub,
      UInt32.toNat_sub, UInt32.toNat_sub, UInt32.toNat_mul, UInt32.toNat_mul, hindex, haddr, hsize, hlen, htotal]
    simp only [UInt32.reduceToNat]
    generalize mode.parity * ps.fields = all at *
    generalize mode.parity * (field.toNat - 1) = before at *
    congr 1
    omega

theorem Error.place_inj (hvalid : e.Valid mode) {e' : Error} (hvalid' : e'.Valid mode) {size f : Nat}
    (h : e.place mode ps size f = e'.place mode ps size f) : e.position = e'.position := by
  unfold Error.Valid at hvalid hvalid'
  unfold Error.place at h
  split at h <;> split at h <;> simp only [Place.page.injEq, Place.smra.injEq, reduceCtorEq] at h <;> omega

theorem Reported.places_nodup (h : Reported r mode ps field errs) (size f : Nat) :
    (errs.map (Error.place mode ps size f)).Nodup :=
  (h.distinct.of_map _).map_on fun e he e' he' heq =>
    List.inj_on_of_nodup_map h.distinct he he' (Error.place_inj (h.valid e he) (h.valid e' he') heq)

end

/-- **The correction is exact**: the reported bits are flipped, and no others. -/
theorem correctData_exact (r : Regs) (mode : Mode) (ps : PageSize) (field : UInt8) (errs : List Error)
    (h : Reported r mode ps field errs) (m : Place → UInt8) : ∃ m', correctData r field (.ofNat errs.length) m = some m' ∧
      Corrected (Error.place mode ps (r.smreareaCtl.toNat % 512) field.toNat) errs m m' := by
  refine ⟨_, ?_, corrected_foldl (h.places_nodup _ _)⟩
  simp only [correctData, parityLen_eq h, totalFieldNum_eq h, h.toNat_count]
  refine correctLoop_eq fun k e hk => ?_
  obtain ⟨d, hd, hmask⟩ := uaData_eq h hk
  rw [Nat.zero_add]
  exact ⟨_, d, uaAddr_eq h hk, hd, target_eq h (List.mem_of_getElem? hk), hmask⟩

theorem correctData_two : ∃ m',
    correctData ⟨0x90000, 64, fun _ => 0x180, fun _ => 0x21C0005⟩ 2 (.ofNat 2) (fun _ => 0) = some m' ∧
      Corrected (Error.place .t4 .p2048 64 2) [⟨5, 0x80⟩, ⟨540, 1⟩] (fun _ => 0) m' := by
  refine correctData_exact _ _ _ _ [⟨5, 0x80⟩, ⟨540, 1⟩] ⟨by decide, by decide, by decide, by decide, by decide, by decide,
    by simp [Error.Valid, Mode.parity], by decide, ?_, ?_⟩ _
  all_goals
    rintro (_ | _ | k) e he <;> cases he
    all_goals decide

end NuWicam.Kernel.NandCorrection
