import NuWicam.Kernel.JpegStrips

/-!
# Scaling factors of the JPEG engine (`w55fa93jpeg.c`)

One function computes two factors from two sizes, one writes them to a register and one reads them back, each with field widths
of its own. `scales_iff` has the sizes, mode by mode, for which the three fit together.
-/

namespace NuWicam.Kernel.Scale

open Kernel.Strips (pack pack_eq)

inductive Mode
  | encUpscale
  | decPacketDownscale
  | decPlanarDownscale
  | encPlanarDownscale
  | other
  deriving DecidableEq

def Mode.planar (m : Mode) : Bool := m = .decPlanarDownscale || m = .encPlanarDownscale

def idiv (a b : Int) : Option Int := if b = 0 then none else some (a.tdiv b)

def u16 (x : Int) : Nat := (x % 65536).toNat

/-- The factors of the two planar modes; `none` stands for `-2` -/
def planarFactors (height width scaledHeight scaledWidth : Nat) : Option (Option (Nat × Nat)) :=
  if scaledHeight > height ∨ scaledWidth > width then some none
  else if scaledHeight = 0 then none
  else if height % scaledHeight ≠ 0 then some none
  else if scaledWidth = 0 then none
  else if width % scaledWidth ≠ 0 then some none
  else if width / scaledWidth = 1 then some none
  else
    let ratioW := u16 ((width / scaledWidth / 2 : Nat) - 1)
    let ratioH := u16 ((height / scaledHeight : Nat) - 1)
    if ratioW > 31 then some none else if ratioH > 63 then some none else some (some (ratioH, ratioW))

/-- `w55fa93_Jpeg_CalScalingFactor`: the vertical and the horizontal factor. The outer `none` is a division by zero. -/
def calScalingFactor (m : Mode) (u16Height u16Width u16ScalingHeight u16ScalingWidth : UInt16) :
    Option (Option (Nat × Nat)) :=
  let height := u16Height.toNat
  let width := u16Width.toNat
  let scaledHeight := u16ScalingHeight.toNat
  let scaledWidth := u16ScalingWidth.toNat
  match m with
  | .encUpscale =>
    if scaledHeight < height ∨ scaledWidth < width then some none
    else (idiv ((scaledWidth - 1) * 1024) (width - 2)).bind fun w =>
      (idiv ((scaledHeight - 1) * 1024) (height - 2)).map fun h => some (u16 h, u16 w)
  | .decPacketDownscale =>
    if scaledHeight > height ∨ scaledWidth > width then some none
    else (idiv (scaledWidth * 8192) (width - 1)).bind fun w =>
      (idiv (scaledHeight * 8192) (height - 1)).map fun h =>
        some (u16 (min (h % 4294967296) 8192), u16 (min (w % 4294967296) 8192))
  | .decPlanarDownscale | .encPlanarDownscale => planarFactors height width scaledHeight scaledWidth
  | .other => some none

/-- `REG_JPSCALD` and `REG_JUPRAT` -/
structure Regs where
  jpscald : Nat
  juprat : Nat
  deriving Inhabited

/-- Without the fields `PSCALX_F` and `PSCALY_F` -/
def clearFactors (jpscald : Nat) : Nat := jpscald &&& 0xFFFFE0C0

/-- After `PSX_ON` and `PS_LPF_ON` were written to `REG_JPSCALD` or all bits but `PSX_ON` -/
def setScalingFactor (m : Mode) (f : Nat × Nat) (r : Regs) : Regs :=
  match m with
  | .encUpscale => ⟨clearFactors 0xFFFF7FFF, pack (f.1 % 16384) (f.2 % 16384)⟩
  | .decPacketDownscale => ⟨clearFactors (0x8000 ||| 0x4000), pack (f.1 % 16384) (f.2 % 16384)⟩
  | .decPlanarDownscale | .encPlanarDownscale =>
    { r with jpscald := clearFactors (0x8000 ||| 0x4000) ||| (f.2 % 32) <<< 8 ||| f.1 % 32 }
  | .other => r

/-- `w55fa93_Jpeg_GetScalingFactor` -/
def getScalingFactor (m : Mode) (r : Regs) : Nat × Nat :=
  if m = .decPlanarDownscale then (r.jpscald % 64, (r.jpscald >>> 8) % 32)
  else ((r.juprat >>> 16) % 16384, r.juprat % 16384)

/-! ## What is wanted -/

/-- The factors that were computed fit their fields, are read back as they are, and are those of the sizes. -/
structure Factors (m : Mode) (height width scaledHeight scaledWidth : Nat) (f : Nat × Nat) : Prop where
  fit : if m.planar then f.1 < 64 ∧ f.2 < 32 else f.1 < 16384 ∧ f.2 < 16384
  roundTrip : ∀ r, getScalingFactor m (setScalingFactor m f r) = f
  exact : m.planar → width = 2 * (f.2 + 1) * scaledWidth ∧ height = (f.1 + 1) * scaledHeight

/-- **The three functions fit together**: nothing is divided by zero, and the factors are right if there are any. -/
def Scales (m : Mode) (h w sh sw : UInt16) : Prop :=
  ∃ r, calScalingFactor m h w sh sw = some r ∧ ∀ f, r = some f → Factors m h.toNat w.toNat sh.toNat sw.toNat f

/-- The size `n` can be scaled up to `s`: for sizes from 3 on, `s - 1` is below `16 * (n - 2)`, up to multiples of `64 * (n - 2)`,
and for the others the wrapped negative quotient is small. -/
def UpscaleFits (s : Nat) : Nat → Prop
  | 0 => s = 0 ∨ (s - 1) % 128 = 0 ∨ 96 < (s - 1) % 128
  | 1 => (s - 1) % 64 = 0 ∨ 48 < (s - 1) % 64
  | 2 => False
  | n + 3 => (s - 1) % (64 * (n + 1)) < 16 * (n + 1)

def PlanarRefuses (h w sh sw : Nat) : Prop :=
  h % sh ≠ 0 ∨ 0 < sw ∧ (w % sw ≠ 0 ∨ w / sw = 1 ∨ 65 < w / sw ∨ 64 < h / sh)

/-- The sizes are refused, or their factors fit. No factor of the planar mode for encoding is ever read back. -/
def Right (h w sh sw : Nat) : Mode → Prop
  | .encUpscale => sh < h ∨ sw < w ∨ UpscaleFits sw w ∧ UpscaleFits sh h
  | .decPacketDownscale => h < sh ∨ w < sw ∨ w ≠ 1 ∧ h ≠ 1
  | .decPlanarDownscale =>
    h < sh ∨ w < sw ∨ 0 < sh ∧ (PlanarRefuses h w sh sw ∨ 0 < sw ∧ w / sw % 2 = 0 ∧ h / sh ≤ 32)
  | .encPlanarDownscale => h < sh ∨ w < sw ∨ 0 < sh ∧ PlanarRefuses h w sh sw
  | .other => True

/-! ## The registers -/

theorem roundTrip_juprat {m : Mode} (hm : m = .encUpscale ∨ m = .decPacketDownscale) (f : Nat × Nat) :
    (∀ r, getScalingFactor m (setScalingFactor m f r) = f) ↔ f.1 < 16384 ∧ f.2 < 16384 := by
  have hget : ∀ r, getScalingFactor m (setScalingFactor m f r) = (f.1 % 16384, f.2 % 16384) := by
    intro r
    have hpack := pack_eq (a := f.1 % 16384) (b := f.2 % 16384) (by omega) (by omega)
    rcases hm with rfl | rfl <;> simp only [getScalingFactor, setScalingFactor, hpack, reduceCtorEq, if_false] <;>
      rw [Nat.shiftRight_eq_div_pow] <;> exact Prod.ext (by dsimp only; omega) (by dsimp only; omega)
  simp only [hget, Prod.ext_iff, forall_const]
  omega

theorem fields_jpscald : ∀ a < 32, ∀ b < 32, ((clearFactors 0xC000 ||| b <<< 8 ||| a) % 64 = a) ∧
    ((clearFactors 0xC000 ||| b <<< 8 ||| a) >>> 8) % 32 = b := by
  decide

theorem roundTrip_decPlanar (f : Nat × Nat) :
    (∀ r, getScalingFactor .decPlanarDownscale (setScalingFactor .decPlanarDownscale f r) = f) ↔ f.1 < 32 ∧ f.2 < 32 := by
  obtain ⟨h₁, h₂⟩ := fields_jpscald (f.1 % 32) (by omega) (f.2 % 32) (by omega)
  have hget : ∀ r, getScalingFactor .decPlanarDownscale (setScalingFactor .decPlanarDownscale f r) =
      (f.1 % 32, f.2 % 32) := fun r => Prod.ext h₁ h₂
  simp only [hget, Prod.ext_iff, forall_const]
  omega

theorem not_roundTrip_encPlanar (f : Nat × Nat) :
    ¬ ∀ r, getScalingFactor .encPlanarDownscale (setScalingFactor .encPlanarDownscale f r) = f := by
  intro h
  have h₀ := congrArg Prod.snd (h ⟨0, 0⟩)
  have h₁ := congrArg Prod.snd (h ⟨0, 1⟩)
  exact absurd (h₀.trans h₁.symm) (by simp [getScalingFactor, setScalingFactor])

/-! ## The modes -/

section

variable {m : Mode} {h w sh sw : Nat} {f : Nat × Nat}

theorem factors_juprat (hm : m = .encUpscale ∨ m = .decPacketDownscale) :
    Factors m h w sh sw f ↔ f.1 < 16384 ∧ f.2 < 16384 := by
  have hplanar : m.planar = false := by
    rcases hm with rfl | rfl <;> rfl
  refine ⟨fun hf => (roundTrip_juprat hm f).mp hf.roundTrip, fun hlt => ⟨?_, (roundTrip_juprat hm f).mpr hlt, ?_⟩⟩
  · simpa [hplanar] using hlt
  · simp [hplanar]

theorem exists_pair_iff {x y : Option Int} {g : Int → Nat} (hm : m = .encUpscale ∨ m = .decPacketDownscale) :
    (∃ r, (x.bind fun w => y.map fun h => some (g h, g w)) = some r ∧ ∀ f, r = some f → Factors m h w sh sw f) ↔
      (∃ a, x = some a ∧ g a < 16384) ∧ ∃ b, y = some b ∧ g b < 16384 := by
  simp only [factors_juprat hm]
  cases x <;> cases y <;> simp [and_comm]

theorem upscale_iff {s n : Nat} (hle : n ≤ s) :
    (∃ q, idiv ((s - 1) * 1024) (n - 2) = some q ∧ u16 q < 16384) ↔ UpscaleFits s n := by
  unfold idiv u16
  match n, hle with
  | 0, _ =>
    rcases Nat.eq_zero_or_pos s with rfl | hs
    · exact iff_of_true ⟨512, by decide, by decide⟩ (.inl rfl)
    · have hq : (((s : Int) - 1) * 1024).tdiv ((0 : Nat) - 2) = -(((s : Int) - 1) * 512) := by
        rw [show ((0 : Nat) : Int) - 2 = -2 from rfl, Int.tdiv_neg, Int.tdiv_eq_ediv_of_nonneg (by omega)]
        omega
      simp only [hq, UpscaleFits]
      simp
      omega
  | 1, hle =>
    have hq : (((s : Int) - 1) * 1024).tdiv ((1 : Nat) - 2) = -(((s : Int) - 1) * 1024) := by
      rw [show ((1 : Nat) : Int) - 2 = -1 from rfl, Int.tdiv_neg, Int.tdiv_one]
    simp only [hq, UpscaleFits]
    simp
    omega
  | 2, _ => simp [UpscaleFits]
  | n + 3, hle =>
    have hq : (((s : Int) - 1) * 1024).tdiv ((n + 3 : Nat) - 2) = (((s - 1) * 1024 / (n + 1) : Nat) : Int) := by
      rw [show ((s : Int) - 1) * 1024 = ((s - 1) * 1024 : Nat) by omega, show ((n + 3 : Nat) : Int) - 2 = (n + 1 : Nat) by omega]
      rfl
    have hne : ¬ ((n + 3 : Nat) : Int) - 2 = 0 := by omega
    have hmod : ((((s - 1) * 1024 / (n + 1) : Nat) : Int) % 65536).toNat = (s - 1) * 1024 / (n + 1) % 65536 := by omega
    simp only [hq, if_neg hne, Option.some.injEq, exists_eq_left', hmod, UpscaleFits]
    rw [← Nat.mod_mul_right_div_self, Nat.div_lt_iff_lt_mul (by omega),
      show (n + 1) * 65536 = 64 * (n + 1) * 1024 by omega, Nat.mul_mod_mul_right]
    omega

theorem packet_iff (s n : Nat) : (∃ q, idiv (s * 8192) (n - 1) = some q ∧ u16 (min (q % 4294967296) 8192) < 16384) ↔ n ≠ 1 := by
  have hlt : ∀ q : Int, u16 (min (q % 4294967296) 8192) < 16384 := fun q => by
    unfold u16
    omega
  have hzero : (n : Int) - 1 = 0 ↔ n = 1 := by omega
  simp only [hlt, and_true, idiv, hzero]
  by_cases hn : n = 1 <;> simp [hn]

theorem ratio_bounds {a b : Nat} (hb : 0 < b) (hle : b ≤ a) (ha : a < 65536) : 1 ≤ a / b ∧ a / b < 65536 :=
  ⟨Nat.div_pos hle hb, Nat.lt_of_le_of_lt (Nat.div_le_self a b) ha⟩

theorem planarFactors_iff {P : Nat × Nat → Prop} (hh : h < 65536) (hw : w < 65536) :
    (∃ r, planarFactors h w sh sw = some r ∧ ∀ f, r = some f → P f) ↔
      h < sh ∨ w < sw ∨ 0 < sh ∧ (PlanarRefuses h w sh sw ∨ 0 < sw ∧ P (h / sh - 1, w / sw / 2 - 1)) := by
  have hW : 0 < sw → sw ≤ w → 1 ≤ w / sw ∧ w / sw < 65536 := fun hpos hle => ratio_bounds hpos hle hw
  have hH : 0 < sh → sh ≤ h → 1 ≤ h / sh ∧ h / sh < 65536 := fun hpos hle => ratio_bounds hpos hle hh
  unfold planarFactors PlanarRefuses u16
  generalize w / sw = a at *
  generalize h / sh = b at *
  have key : 2 ≤ a → 1 ≤ b → a < 65536 → b < 65536 →
      (((b : Nat) - 1 : Int) % 65536).toNat = b - 1 ∧ (((a / 2 : Nat) - 1 : Int) % 65536).toNat = a / 2 - 1 := by omega
  dsimp only
  split_ifs <;> grind

theorem factors_decPlanar (h w sh sw : Nat) (hh : 0 < sh) (hw : 0 < sw) (hle : sh ≤ h ∧ sw ≤ w)
    (href : ¬ PlanarRefuses h w sh sw) :
    Factors .decPlanarDownscale h w sh sw (h / sh - 1, w / sw / 2 - 1) ↔ w / sw % 2 = 0 ∧ h / sh ≤ 32 := by
  have hW := Nat.div_pos hle.2 hw
  have hH := Nat.div_pos hle.1 hh
  have hdw := Nat.div_add_mod w sw
  have hdh := Nat.div_add_mod h sh
  unfold PlanarRefuses at href
  have hsum : w = w / sw * sw ∧ h = h / sh * sh := by
    rw [Nat.mul_comm, Nat.mul_comm (h / sh)]
    omega
  have hratio : w / sw ≠ 1 ∧ w / sw ≤ 65 := by omega
  constructor
  · intro hf
    have heven := (hf.exact rfl).1.symm.trans hsum.1
    have := Nat.eq_of_mul_eq_mul_right hw heven
    have := ((roundTrip_decPlanar _).mp hf.roundTrip).1
    omega
  · rintro ⟨heven, hlow⟩
    refine ⟨?_, (roundTrip_decPlanar _).mpr (by dsimp only; omega), fun _ => ?_⟩
    · simp only [Mode.planar, decide_true, Bool.true_or, if_true]
      omega
    · rw [show 2 * (w / sw / 2 - 1 + 1) = w / sw by omega, Nat.sub_add_cancel hH]
      exact hsum

end

/-- **The functions that set the scale fit together** exactly for these sizes. -/
theorem scales_iff (m : Mode) (h w sh sw : UInt16) : Scales m h w sh sw ↔ Right h.toNat w.toNat sh.toNat sw.toNat m := by
  unfold Scales calScalingFactor
  cases m with
  | encUpscale =>
    dsimp only [Right]
    by_cases hsmall : sh.toNat < h.toNat ∨ sw.toNat < w.toNat
    · rw [if_pos hsmall]
      exact iff_of_true ⟨none, rfl, nofun⟩ (or_assoc.mp (.inl hsmall))
    · obtain ⟨hh, hw⟩ := not_or.mp hsmall
      rw [if_neg hsmall, exists_pair_iff (.inl rfl), upscale_iff (by omega), upscale_iff (by omega)]
      simp [hh, hw]
  | decPacketDownscale =>
    dsimp only [Right]
    by_cases hlarge : sh.toNat > h.toNat ∨ sw.toNat > w.toNat
    · rw [if_pos hlarge]
      exact iff_of_true ⟨none, rfl, nofun⟩ (or_assoc.mp (.inl hlarge))
    · obtain ⟨hh, hw⟩ := not_or.mp hlarge
      rw [if_neg hlarge, exists_pair_iff (g := fun q => u16 (min (q % 4294967296) 8192)) (.inr rfl), packet_iff, packet_iff]
      simp [hh, hw]
  | decPlanarDownscale =>
    rw [planarFactors_iff h.toNat_lt w.toNat_lt]
    dsimp only [Right]
    have := factors_decPlanar h.toNat w.toNat sh.toNat sw.toNat
    grind
  | encPlanarDownscale =>
    have hnone : ∀ f, ¬ Factors .encPlanarDownscale h.toNat w.toNat sh.toNat sw.toNat f :=
      fun f hf => not_roundTrip_encPlanar f hf.roundTrip
    rw [planarFactors_iff h.toNat_lt w.toNat_lt]
    simp [Right, hnone]
  | other => exact iff_of_true ⟨none, rfl, nofun⟩ trivial

theorem not_scales_two : ¬ Scales .encUpscale 2 2 4 4 ∧ ¬ Scales .decPlanarDownscale 3 3 1 1 := by
  constructor
  · rintro ⟨r, hr, -⟩
    have hzero : calScalingFactor .encUpscale 2 2 4 4 = none := rfl
    cases hzero.symm.trans hr
  · rintro ⟨r, hr, hf⟩
    obtain rfl : r = some (2, 0) := (Option.some.inj hr).symm
    exact absurd ((hf _ rfl).exact rfl).1 (by decide)

end NuWicam.Kernel.Scale
