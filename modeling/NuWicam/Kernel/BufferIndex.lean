import NuWicam.Kernel.UserCalls

/-!
# The indices into the buffers

Of the indices that come from the user only the one of `VIDIOC_S_MAP_BUF` is checked, after it was stored and only against the
upper bound. `VIDIOCSYNC` leaves its number for the two queries, and `videoin_open` leaves `-1` (`indices_inRange_iff`).
-/

namespace NuWicam.Kernel.User

open Lib Option

variable {c : Config} {s s' : Vin}

def Access.InRange (c : Config) : Access → Prop
  | .encode i => 0 ≤ i ∧ i < c.encodeNum
  | .preview i => 0 ≤ i ∧ i < previewBufferNum

instance (a : Access) : Decidable (a.InRange c) := by
  unfold Access.InRange
  cases a <;> infer_instance

/-- **Every index that the call uses is inside of its array.** -/
def IndicesInRange (c : Config) (s : Vin) (e : Call) : Prop := ∀ o, call c s e = some o → ∀ a ∈ o.accesses, a.InRange c

/-- The number given to the call, or found in the state, is that of a buffer. -/
def NumberInRange (c : Config) (s : Vin) : Call → Prop
  | .mcapture planar frame => planar → frame.toNat < c.encodeNum
  | .sync arg => arg.toNat < c.encodeNum
  | .gPacketInfo => s.grabSync.toNat < previewBufferNum
  | .gPlanarInfo => s.grabSync.toNat < c.encodeNum
  | .mmap => 0 ≤ s.i32MappingBuf.toInt ∧ s.i32MappingBuf.toInt < c.encodeNum + previewBufferNum
  | _ => True

instance (e : Call) : Decidable (NumberInRange c s e) := by
  unfold NumberInRange
  cases e <;> infer_instance

def ReadInRange (c : Config) (s : Vin) : Prop := 0 ≤ s.i32ReadFrameNum ∧ s.i32ReadFrameNum < c.encodeNum

/-! ## One call -/

theorem toInt_toInt32_of_lt {n : UInt32} (h : n.toNat < 3) : n.toInt32.toInt = n.toNat := by
  rw [← Int32.toInt_toBitVec, UInt32.toBitVec_toInt32, BitVec.toInt_eq_toNat_of_lt]
  · rfl
  · rw [UInt32.toNat_toBitVec]
    omega

theorem grabFrames_inRange_iff {planar : Bool} {frame : UInt32} :
    (∀ a ∈ (grabFrames s planar frame).accesses, a.InRange c) ↔ (planar → frame.toNat < c.encodeNum) := by
  unfold grabFrames
  cases planar with
  | false => simp
  | true =>
    simp only [if_true, true_imp_iff]
    split
    · simp only [List.forall_mem_cons, List.not_mem_nil, false_imp_iff, implies_true, and_true, Access.InRange]
      refine ⟨fun h => by omega, fun h => ?_⟩
      have hle := c.encodeNum_le
      rw [toInt_toInt32_of_lt (by omega)]
      omega
    · simp only [List.forall_mem_singleton, Access.InRange]
      omega

theorem mmap_inRange_iff : (∀ a ∈ (mmap c s).accesses, a.InRange c) ↔
    0 ≤ s.i32MappingBuf.toInt ∧ s.i32MappingBuf.toInt < c.encodeNum + previewBufferNum := by
  unfold mmap
  split <;> simp only [List.forall_mem_singleton, Access.InRange] <;> omega

theorem read_inRange {count : UInt32} {fault : Bool} (hread : ReadInRange c s) :
    ∀ a ∈ (read c s count fault).accesses, a.InRange c := by
  have hindex : (Access.encode s.i32ReadFrameNum).InRange c := hread
  unfold read
  cases fault with
  | true => simpa using hindex
  | false =>
    simp only [Bool.false_eq_true, if_false]
    split <;> simpa using hindex

theorem setOverlayWindow_inRange {w : VideoWindow} {o : Outcome} (h : setOverlayWindow c s w = some o) :
    ∀ a ∈ o.accesses, a.InRange c := by
  unfold setOverlayWindow at h
  split at h
  · cases h
    simp
  · obtain ⟨result, -, rfl⟩ := map_eq_some_iff.mp h
    simp only [List.forall_mem_map, List.mem_range, Access.InRange]
    omega

theorem call_inRange_iff (hread : ReadInRange c s) (e : Call) : IndicesInRange c s e ↔ NumberInRange c s e := by
  unfold IndicesInRange
  cases e with
  | sWin window => exact iff_of_true (fun o ho => setOverlayWindow_inRange ho) trivial
  | mcapture planar frame =>
    simp only [call, some.injEq, forall_eq']
    exact grabFrames_inRange_iff
  | mmap =>
    simp only [call, some.injEq, forall_eq']
    exact mmap_inRange_iff
  | read count fault => simpa [call, NumberInRange] using read_inRange hread
  | sync arg => simp [call, User.sync, Access.InRange, NumberInRange]
  | gPacketInfo => simp [call, queryPacketInfo, Access.InRange, NumberInRange]
  | gPlanarInfo => simp [call, queryPlanarInfo, Access.InRange, NumberInRange]
  | sMapBuf arg => simp [call, setMappingBuffer, NumberInRange]
  | capture arg =>
    simp only [call, startEndCapture, some.injEq, forall_eq', NumberInRange, iff_true]
    split <;> simp
  | _ => simp [call, NumberInRange]

/-! ## Runs -/

theorem next_inRange {n : Int} (hn : 0 ≤ n) : 0 ≤ (n + 1).tmod c.encodeNum ∧ (n + 1).tmod c.encodeNum < c.encodeNum := by
  have hpos : (0 : Int) < c.encodeNum := Int.natCast_pos.mpr c.encodeNum_pos
  exact ⟨Int.tmod_nonneg _ (by omega), Int.tmod_lt_of_pos _ hpos⟩

theorem step_readInRange (e : Call) (h : ReadInRange c s) (hs : step c s e = some s') : ReadInRange c s' := by
  obtain ⟨o, ho, rfl⟩ := map_eq_some_iff.mp hs
  cases e with
  | sWin window =>
    unfold call setOverlayWindow at ho
    dsimp only at ho
    split at ho
    · cases ho
      exact h
    · obtain ⟨result, -, rfl⟩ := map_eq_some_iff.mp ho
      exact h
  | mcapture planar frame =>
    cases ho
    unfold grabFrames
    split
    · dsimp only
      split <;> exact h
    · exact h
  | mmap =>
    cases ho
    unfold mmap
    split <;> exact h
  | read count fault =>
    cases ho
    unfold read
    dsimp only
    split
    · exact h
    · split <;> exact next_inRange h.1
  | capture arg =>
    cases ho
    unfold startEndCapture
    split
    · exact ⟨Int.le_refl 0, Int.natCast_pos.mpr c.encodeNum_pos⟩
    · exact h
  | _ => cases ho; exact h

/-- **Indices are in range** along a run exactly if every number given or left is that of a buffer. -/
theorem indices_inRange_iff (c : Config) (i32MappingBuf : Int32) (videowin : VideoWindow) (i32IsEnablePreview : Bool)
    (packerAddr : Nat → UInt32) (regs : ScaleRegs) (vstride : BitVec 32) (es : List Call) :
    EachStep (step c) (IndicesInRange c) (opened i32MappingBuf videowin i32IsEnablePreview packerAddr regs vstride) es ↔
      EachStep (step c) (NumberInRange c) (opened i32MappingBuf videowin i32IsEnablePreview packerAddr regs vstride) es := by
  have hopened : ReadInRange c (opened i32MappingBuf videowin i32IsEnablePreview packerAddr regs vstride) :=
    ⟨Int.le_refl 0, Int.natCast_pos.mpr c.encodeNum_pos⟩
  exact eachStep_congr (fun _ e _ h hs => step_readInRange e h hs) (fun _ e _ h _ => call_inRange_iff h e) hopened

theorem mmap_after_refused : (setMappingBuffer vgaConfig vgaOpened 7).2 = -eInval ∧
    ¬ EachStep (step vgaConfig) (IndicesInRange vgaConfig) vgaOpened [.sMapBuf 7, .mmap] := by
  refine ⟨by decide, fun h => ?_⟩
  have hmmap := (h _ rfl).2 _ rfl
  exact absurd (hmmap.1 _ rfl _ (List.mem_singleton_self _)) (by decide)

end NuWicam.Kernel.User
