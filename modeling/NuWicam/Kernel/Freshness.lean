import NuWicam.Kernel.Capture

/-!
# What the JPEG encoder is given

With each buffer that it marks as captured, `irq_handler` is to publish the addresses of its planes for the JPEG engine and the
preview buffer. The branch for the last buffer publishes only the preview buffer (`irqHandler_at`, `jpg_fresh_iff`).
-/

namespace NuWicam.Kernel

open Lib UInt32

variable {b : Buffers} {s s' : Vin} {i k : Buf}

/-- As `VIDIOCMCAPTURE` sets the addresses. -/
def TableSet (b : Buffers) (s : Vin) : Prop := ∀ i, (s.planarAddr i).y = b.phys i

instance : Decidable (TableSet b s) := inferInstanceAs (Decidable (∀ i, (s.planarAddr i).y = b.phys i))

def Marks (b : Buffers) (s : Vin) (k : Buf) : Prop :=
  (irqHandler b { s with frameState := fun _ => .ready }).frameState k = .captureDone

instance : Decidable (Marks b s k) := inferInstanceAs (Decidable (_ = _))

structure Published (b : Buffers) (s : Vin) (k : Buf) : Prop where
  jpg : s.jpgAddr = s.planarAddr k
  preview : s.pacBuffer = b.preview k
  unwritten : s.base.y ≠ s.jpgAddr.y

instance : Decidable (Published b s k) :=
  decidable_of_iff (s.jpgAddr = s.planarAddr k ∧ s.pacBuffer = b.preview k ∧ s.base.y ≠ s.jpgAddr.y)
    ⟨fun h => ⟨h.1, h.2.1, h.2.2⟩, fun h => ⟨h.jpg, h.preview, h.unwritten⟩⟩

/-- **The JPEG engine is given the latest frame**: after an interrupt that marks a buffer, that buffer is published. -/
def Fresh (b : Buffers) (s : Vin) (e : CaptureEvent) : Prop :=
  match e with
  | .irq => ∀ k, Marks b s k → Published b (irqHandler b s) k
  | _ => True

instance (e : CaptureEvent) : Decidable (Fresh b s e) := by
  unfold Fresh
  cases e <;> infer_instance

/-- A frame that is completed in the last buffer is held back, or its planes are published already. -/
def LastHeldBack (b : Buffers) (s : Vin) (e : CaptureEvent) : Prop :=
  match e with
  | .irq => s.base.y = b.phys (Fin.last 2) → s.grabSync = 0 ∨ s.jpgAddr = s.planarAddr (Fin.last 2)
  | _ => True

instance (e : CaptureEvent) : Decidable (LastHeldBack b s e) := by
  unfold LastHeldBack
  cases e <;> infer_instance

/-! ## The handler -/

theorem next_ne : ∀ i : Buf, i + 1 ≠ i := by decide

theorem phys_ne (hne : i ≠ k) : b.phys i ≠ b.phys k := fun heq => hne (b.distinct heq)

/-- **One interrupt**: only the branch of the last buffer leaves the address. -/
theorem irqHandler_at (hs : TableSet b s) (hi : s.base.y = b.phys i) :
    irqHandler b s = if s.grabSync = ofNat ↑(i + 1) then s.stayed i
      else { s.switched b i with jpgAddr := if i = 2 then s.jpgAddr else s.planarAddr i } := by
  unfold irqHandler
  rw [hs, hs, hs, hi]
  match i with
  | 0 =>
    rw [if_pos rfl, ite_not]
    rfl
  | 1 =>
    rw [if_neg (phys_ne (by decide)), if_pos rfl, ite_not]
    rfl
  | 2 =>
    rw [if_neg (phys_ne (by decide)), if_neg (phys_ne (by decide)), if_pos rfl, ite_not]
    rfl

theorem irqHandler_idle (hs : TableSet b s) (hno : ∀ i, s.base.y ≠ b.phys i) : irqHandler b s = s := by
  unfold irqHandler
  rw [hs, hs, hs, if_neg (hno 0), if_neg (hno 1), if_neg (hno 2)]

theorem marks_iff (hs : TableSet b s) : Marks b s k ↔ s.base.y = b.phys k ∧ s.grabSync ≠ ofNat ↑(k + 1) := by
  unfold Marks
  by_cases hi : ∃ i, s.base.y = b.phys i
  · obtain ⟨i, hi⟩ := hi
    rw [irqHandler_at (s := { s with frameState := fun _ => .ready }) hs hi, hi]
    by_cases hheld : s.grabSync = ofNat ↑(i + 1)
    · rw [if_pos hheld]
      refine iff_of_false ?_ fun h => h.2 (b.distinct h.1 ▸ hheld)
      simp only [Vin.stayed, Function.update_apply]
      split <;> decide
    · rw [if_neg hheld]
      simp only [Vin.switched, Function.update_apply]
      by_cases hk : k = i
      · rw [hk, if_neg (next_ne i).symm, if_pos rfl]
        exact iff_of_true rfl ⟨rfl, hheld⟩
      · refine iff_of_false ?_ fun h => hk (b.distinct h.1).symm
        split <;> decide
  · rw [irqHandler_idle (s := { s with frameState := fun _ => .ready }) hs fun i h => hi ⟨i, h⟩]
    exact iff_of_false (show FrameState.ready ≠ .captureDone by decide) fun h => hi ⟨k, h.1⟩

theorem published_iff (hs : TableSet b s) (hk : Marks b s k) :
    Published b (irqHandler b s) k ↔ (k = 2 → s.jpgAddr = s.planarAddr 2) := by
  obtain ⟨hbase, hheld⟩ := (marks_iff hs).mp hk
  rw [irqHandler_at hs hbase, if_neg hheld]
  have hunwritten : (s.planarAddr (k + 1)).y ≠ (s.planarAddr k).y := by
    rw [hs, hs]
    exact phys_ne (next_ne k)
  by_cases hlast : k = 2
  · subst hlast
    refine ⟨fun h _ => h.jpg, fun h => ⟨h rfl, rfl, ?_⟩⟩
    simp only [Vin.switched, if_true, h rfl]
    exact hunwritten
  · refine iff_of_true ⟨if_neg hlast, rfl, ?_⟩ fun h => absurd h hlast
    simp only [Vin.switched, if_neg hlast]
    exact hunwritten

theorem fresh_iff (hs : TableSet b s) (e : CaptureEvent) : Fresh b s e ↔ LastHeldBack b s e := by
  cases e with
  | irq =>
    refine ⟨fun h hbase => or_iff_not_imp_left.mpr fun hheld => ?_, fun h k hk => (published_iff hs hk).mpr ?_⟩
    · have hmarks : Marks b s 2 := (marks_iff hs).mpr ⟨hbase, hheld⟩
      exact (published_iff hs hmarks).mp (h 2 hmarks) rfl
    · rintro rfl
      obtain ⟨hbase, hheld⟩ := (marks_iff hs).mp hk
      exact (h hbase).resolve_left hheld
  | _ => exact Iff.rfl

/-! ## Runs -/

theorem captureStep_tableSet (e : CaptureEvent) (h : TableSet b s) (hs : captureStep b s e = some s') : TableSet b s' := by
  cases e with
  | irq =>
    cases hs
    obtain heq | ⟨i, -, -, heq | ⟨-, jpg, heq⟩⟩ := irqHandler_cases b s <;> rw [heq] <;> exact h
  | sync arg =>
    obtain ⟨⟨s₁, r⟩, hsync, rfl⟩ := Option.map_eq_some_iff.mp hs
    rw [(vinIoctlSync_cases hsync).1]
    exact h
  | mcapture m =>
    obtain ⟨-, -, -, hta | hta⟩ := vinIoctlGrabFrames_cases hs
    · rwa [TableSet, hta]
    · exact hta
  | capture arg =>
    cases hs
    unfold vinIoctlStartEndCapture
    split
    · exact h
    · split <;> exact h
  | syncFault _ | mcaptureFault _ | changeResolution _ _ => cases hs; exact h

/-- **The published addresses are fresh** exactly if no frame ends in the last buffer, unless held back or published. -/
theorem jpg_fresh_iff (b : Buffers) (s : Vin) (hs : TableSet b s) (es : List CaptureEvent) :
    EachStep (captureStep b) (Fresh b) s es ↔ EachStep (captureStep b) (LastHeldBack b) s es :=
  eachStep_congr (fun _ e _ h hs => captureStep_tableSet e h hs) (fun _ e _ h _ => fresh_iff h e) hs

def capturing : Vin :=
  vinIoctlStartEndCapture
    { Vin.opened ⟨0, 0, 0⟩ ⟨0, 0, 0⟩ 0 ⟨0, 480, 640, some .yuv420P⟩ 640 480 with
      planarAddr := fun i => planesAt .yuv420P 640 480 (vgaBuffers.phys i)
      i32FrameNumber := 0 } 0

-- a frame in the last buffer that is held back
theorem jpg_fresh_held_back : EachStep (captureStep vgaBuffers) (Fresh vgaBuffers) capturing [.irq, .irq, .sync 0, .irq] :=
  (jpg_fresh_iff vgaBuffers capturing (by decide) _).mpr (by decide)

theorem jpg_stale_last : TableSet vgaBuffers capturing ∧
    ¬ EachStep (captureStep vgaBuffers) (Fresh vgaBuffers) capturing [.irq, .irq, .irq] := by
  decide

end NuWicam.Kernel
