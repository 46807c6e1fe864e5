import NuWicam.Kernel.BufferIndex

/-!
# The window of the preview

`VIDIOCSWIN` stores the window before it looks at its size, and neither at the position nor at what the stride makes of the
rows. `videoin_read` takes the number of bytes from the stored window (`windows_contained_iff`).
-/

namespace NuWicam.Kernel.User

open Lib Option

variable {c : Config} {s : Vin} {w : VideoWindow} {o : Outcome}

/-- Rows at the packet stride, two bytes for each pixel -/
def VideoWindow.extent (w : VideoWindow) (stride : Nat) : Nat := (w.height.toNat - 1) * (stride * 2) + w.width.toNat * 2

def InPreview (c : Config) (i : Nat) (start : UInt32) (extent : Nat) : Prop :=
  (c.previewPhys i).toNat ≤ start.toNat ∧
    start.toNat + extent ≤ (c.previewPhys i).toNat + previewSize c.packetWidth c.packetHeight

/-- **A call is contained**: a refused window leaves the stored one, an accepted one lies in each preview buffer, and no more
is copied than an encode buffer has. -/
def Contained (c : Config) (s : Vin) (e : Call) : Prop := ∀ o, call c s e = some o →
  match e with
  | .sWin w => if Refused c w then o.state.videowin = s.videowin
      else ∀ i < previewBufferNum, InPreview c i (o.state.packerAddr i) (w.extent (packetStride o.state.vstride).toNat)
  | .read _ _ => o.copied ≤ c.encodeSize
  | _ => True

def VideoWindow.place (c : Config) (w : VideoWindow) : Nat := (c.packetWidth * w.y * 2 + w.x * 2).toNat

/-- `LCDWIDTH` with a preview, else its width, in twelve bits -/
def VideoWindow.stride (c : Config) (w : VideoWindow) (i32IsEnablePreview : Bool) : Nat :=
  (if i32IsEnablePreview then c.lcdWidth else w.width).toNat % 2 ^ 12

/-- **The request fits**: a refused window is the stored one, an accepted one has its place and extent in a preview buffer,
and the user asks for no more than an encode buffer, or the stored window has no more. -/
def RequestFits (c : Config) (s : Vin) : Call → Prop
  | .sWin w => if Refused c w then w = s.videowin
      else w.place c + w.extent (w.stride c s.i32IsEnablePreview) ≤ previewSize c.packetWidth c.packetHeight
  | .read count _ => count.toNat ≤ c.encodeSize ∨
      s.videowin.height.toNat * s.videowin.width.toNat * 16 % 2 ^ 32 / 8 ≤ c.encodeSize
  | _ => True

instance : ∀ e : Call, Decidable (RequestFits c s e)
  | .sWin w => inferInstanceAs (Decidable (if Refused c w then w = s.videowin else _ ≤ _))
  | .read _ _ => inferInstanceAs (Decidable (_ ∨ _))
  | .mcapture _ _ | .mcaptureFault _ | .changeResolution _ | .sync _ | .syncFault _ | .sMapBuf _ | .sMapBufFault _
  | .gPacketInfo | .gPlanarInfo | .mmap | .capture _ => isTrue trivial

/-! ## One call -/

theorem inPreview_iff {i extent : Nat} (hi : i < previewBufferNum) {place : UInt32} :
    InPreview c i (c.previewPhys i + place) extent ↔
      place.toNat + extent ≤ previewSize c.packetWidth c.packetHeight := by
  have hlt := c.preview_lt i hi
  have hplace := place.toNat_lt
  rw [InPreview, UInt32.toNat_add]
  omega

theorem sWin_contained_iff (h : setOverlayWindow c s w = some o) : (if Refused c w then o.state.videowin = s.videowin
      else ∀ i < previewBufferNum, InPreview c i (o.state.packerAddr i) (w.extent (packetStride o.state.vstride).toNat)) ↔
      RequestFits c s (.sWin w) := by
  unfold setOverlayWindow at h
  by_cases href : Refused c w
  · rw [if_pos href] at h
    cases h
    simp [RequestFits, href]
  · rw [if_neg href] at h
    obtain ⟨result, -, rfl⟩ := map_eq_some_iff.mp h
    have hstride : ∀ pla, (packetStride (setStride (if s.i32IsEnablePreview then c.lcdWidth.toBitVec else w.width.toBitVec)
        pla)).toNat = w.stride c s.i32IsEnablePreview := by
      intro pla
      rw [packetStride_setStride, VideoWindow.stride]
      split <;> rfl
    simp only [RequestFits, if_neg href, hstride, UInt32.add_assoc]
    have hfirst : 0 < previewBufferNum := by decide
    exact ⟨fun hall => (inPreview_iff hfirst).mp (hall 0 hfirst), fun hfits i hi => (inPreview_iff hi).mpr hfits⟩

theorem toNat_bytes (w : VideoWindow) : w.bytes.toNat = w.height.toNat * w.width.toNat * 16 % 2 ^ 32 / 8 := by
  rw [VideoWindow.bytes, UInt32.toNat_div, UInt32.toNat_mul, UInt32.toNat_mul, Nat.mod_mul_mod]
  rfl

theorem copied_read {count : UInt32} {fault : Bool} :
    (read c s count fault).copied = min count.toNat s.videowin.bytes.toNat := by
  have hsize : (if count ≤ s.videowin.bytes then count else s.videowin.bytes).toNat =
      min count.toNat s.videowin.bytes.toNat := by
    by_cases hle : count ≤ s.videowin.bytes
    · rw [if_pos hle, Nat.min_eq_left (UInt32.le_iff_toNat_le.mp hle)]
    · rw [if_neg hle, Nat.min_eq_right]
      rw [UInt32.le_iff_toNat_le] at hle
      omega
  unfold read
  dsimp only
  split
  · exact hsize
  · split <;> exact hsize

theorem read_contained_iff {count : UInt32} {fault : Bool} :
    (read c s count fault).copied ≤ c.encodeSize ↔ RequestFits c s (.read count fault) := by
  rw [copied_read, RequestFits, ← toNat_bytes]
  omega

/-- **One call** that returns. -/
theorem contained_iff {e : Call} {s' : Vin} (h : step c s e = some s') : Contained c s e ↔ RequestFits c s e := by
  obtain ⟨o, ho, -⟩ := map_eq_some_iff.mp h
  unfold Contained
  simp only [ho, some.injEq, forall_eq']
  cases e with
  | sWin w => exact sWin_contained_iff ho
  | read count fault =>
    cases ho
    exact read_contained_iff
  | _ => exact Iff.rfl

/-- **Windows are contained**: along every run the calls are contained exactly if each request fits. -/
theorem windows_contained_iff (c : Config) (s : Vin) (es : List Call) :
    EachStep (step c) (Contained c) s es ↔ EachStep (step c) (RequestFits c) s es :=
  eachStep_congr (I := fun _ => True) (fun _ _ _ _ _ => trivial) (fun _ _ _ _ hs => contained_iff hs) trivial

def hugeWindow : VideoWindow := .plain 0 0 4096 4096

theorem read_after_refused : Refused vgaConfig hugeWindow ∧
    vgaConfig.encodeSize < (read vgaConfig { vgaOpened with videowin := hugeWindow } 0x4000000 false).copied ∧
    ¬ EachStep (step vgaConfig) (Contained vgaConfig) vgaOpened [.sWin hugeWindow, .read 0x4000000 false] := by
  refine ⟨by decide, by decide, fun h => ?_⟩
  obtain ⟨hwin, -⟩ := h _ rfl
  have hkept : hugeWindow = .plain 0 0 160 120 := hwin _ rfl
  exact absurd hkept (by decide)

end NuWicam.Kernel.User
