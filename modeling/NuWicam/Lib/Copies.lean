import NuWicam.Lib.Memory

/-!
# Copies between two memories

A list of `memcpy` calls moves offsets of the source to offsets of the destination (`Moves`), and if no two of them meet it
leaves what it moves, and nothing else (`runCopies_spec`). `Plane` is an image that is copied into another one row by row.
-/

namespace NuWicam.Lib

/-- The arguments of a `memcpy`, as offsets into its two memories. -/
structure Copy where
  dst : Nat
  src : Nat
  len : Nat
  deriving DecidableEq

variable {V : Type*} {cs : List Copy} {a a' : Nat}

def Moves (cs : List Copy) (a a' : Nat) : Prop := ∃ c ∈ cs, ∃ k < c.len, a = c.dst + k ∧ a' = c.src + k

def runCopies (src dst : Nat → V) (cs : List Copy) : Nat → V :=
  storeAll dst (cs.flatMap fun c => (List.range c.len).map fun k => (c.dst + k, src (c.src + k)))

theorem mem_writes_iff {s : Nat → V} {w : Nat × V} :
    (w ∈ cs.flatMap fun c => (List.range c.len).map fun k => (c.dst + k, s (c.src + k))) ↔
      ∃ a', Moves cs w.1 a' ∧ w.2 = s a' := by
  simp only [List.mem_flatMap, List.mem_map, List.mem_range, Moves]
  constructor
  · rintro ⟨c, hc, k, hk, rfl⟩
    exact ⟨_, ⟨c, hc, k, hk, rfl, rfl⟩, rfl⟩
  · rintro ⟨a', ⟨c, hc, k, hk, ha, rfl⟩, hw⟩
    exact ⟨c, hc, k, hk, Prod.ext ha.symm hw.symm⟩

/-- **What copies leave**, if they move no two offsets to the same. -/
theorem runCopies_spec (src dst : Nat → V) (hfun : ∀ a a' a'', Moves cs a a' → Moves cs a a'' → a' = a'') :
    (∀ a a', Moves cs a a' → runCopies src dst cs a = src a') ∧
      ∀ a, (∀ a', ¬ Moves cs a a') → runCopies src dst cs a = dst a := by
  constructor
  · intro a a' h
    refine storeAll_of_written (P := fun v => v = src a') (mem_writes_iff.mpr ⟨a', h, rfl⟩) fun w hw ha => ?_
    obtain ⟨b, hb, hv⟩ := mem_writes_iff.mp hw
    rw [hv, hfun a b a' (ha ▸ hb) h]
  · intro a h
    refine storeAll_of_not_written fun w hw ha => ?_
    obtain ⟨b, hb, -⟩ := mem_writes_iff.mp hw
    exact h b (ha ▸ hb)

theorem runCopies_singleton (src dst : Nat → V) (c : Copy) (a : Nat) : runCopies src dst [c] a =
    if c.dst ≤ a ∧ a < c.dst + c.len then src (c.src + (a - c.dst)) else dst a := by
  have hmoves : ∀ a a', Moves [c] a a' ↔ ∃ k < c.len, a = c.dst + k ∧ a' = c.src + k := by simp [Moves]
  have hfun : ∀ a a' a'', Moves [c] a a' → Moves [c] a a'' → a' = a'' := by grind
  obtain ⟨hmoved, hrest⟩ := runCopies_spec src dst hfun
  split
  · exact hmoved a _ ((hmoves a _).mpr ⟨a - c.dst, by omega, by omega, rfl⟩)
  · refine hrest a fun a' h => ?_
    obtain ⟨k, hk, ha, -⟩ := (hmoves a a').mp h
    omega

theorem runCopies_const {v : V} (dst : Nat → V) (h : Moves cs a a') : runCopies (fun _ => v) dst cs a = v := by
  have hmem := (mem_writes_iff (s := fun _ => v) (w := (a, v))).mpr ⟨a', h, rfl⟩
  refine storeAll_of_written (P := fun u => u = v) hmem fun w hw _ => ?_
  obtain ⟨b, -, hv⟩ := (mem_writes_iff (s := fun _ => v)).mp hw
  exact hv

theorem not_moves_iff : (∀ a a', ¬ Moves cs a a') ↔ ∀ c ∈ cs, c.len = 0 := by
  constructor
  · intro h c hc
    by_contra hlen
    exact h c.dst c.src ⟨c, hc, 0, by omega, rfl, rfl⟩
  · rintro h a a' ⟨c, hc, k, hk, -⟩
    rw [h c hc] at hk
    omega

/-! ## Planes -/

/-- Rows of bytes in a background and in an overlay, and where the overlay has its first row and column. -/
structure Plane where
  base : Nat
  stride : Nat
  rows : Nat
  opBase : Nat
  opStride : Nat
  opRows : Nat
  px : Nat
  py : Nat

namespace Plane

variable {p q : Plane} {ps : List Plane} {r k : Nat}

def cols (p : Plane) : Nat := min p.opStride (p.stride - p.px)

def lines (p : Plane) : Nat := min p.opRows (p.rows - p.py)

def Moves (p : Plane) (a a' : Nat) : Prop := ∃ r < p.lines, ∃ k < p.cols,
  a = p.base + ((p.py + r) * p.stride + (p.px + k)) ∧ a' = p.opBase + (r * p.opStride + k)

def row (p : Plane) (r : Nat) : Copy := ⟨p.base + ((p.py + r) * p.stride + p.px), p.opBase + r * p.opStride, p.cols⟩

theorem moves_planes (h : ∀ c, c ∈ cs ↔ ∃ p ∈ ps, ∃ r < p.lines, c = p.row r) : Lib.Moves cs a a' ↔ ∃ p ∈ ps, p.Moves a a' := by
  constructor
  · rintro ⟨c, hc, k, hk, rfl, rfl⟩
    obtain ⟨p, hp, r, hr, rfl⟩ := (h c).mp hc
    exact ⟨p, hp, r, hr, k, hk, by simp only [row]; omega, by simp only [row]; omega⟩
  · rintro ⟨p, hp, r, hr, k, hk, rfl, rfl⟩
    exact ⟨p.row r, (h _).mpr ⟨p, hp, r, hr, rfl⟩, k, hk, by simp only [row]; omega, by simp only [row]; omega⟩

theorem Moves.bounds (h : p.Moves a a') : (p.base ≤ a ∧ a < p.base + p.rows * p.stride) ∧
    a' < p.opBase + p.opRows * p.opStride := by
  obtain ⟨r, hr, k, hk, rfl, rfl⟩ := h
  simp only [lines, cols] at hr hk
  have hbg : (p.py + r) * p.stride + (p.px + k) < p.rows * p.stride := rows_lt (by omega) (by omega)
  have hop : r * p.opStride + k < p.opRows * p.opStride := rows_lt (by omega) (by omega)
  omega

theorem row_lt (hr : r < p.lines) (hpx : p.px < p.stride) (hop : 0 < p.opStride) :
    (p.row r).dst < p.base + p.rows * p.stride ∧ (p.row r).src < p.opBase + p.opRows * p.opStride := by
  simp only [lines] at hr
  have hbg : (p.py + r) * p.stride + p.px < p.rows * p.stride := rows_lt hpx (by omega)
  have hrow : r * p.opStride + 0 < p.opRows * p.opStride := rows_lt hop (by omega)
  simp only [row]
  omega

theorem Moves.unique {a'' : Nat} (h : p.Moves a a') (h' : p.Moves a a'') : a' = a'' := by
  obtain ⟨r, hr, k, hk, rfl, rfl⟩ := h
  obtain ⟨r', hr', k', hk', heq, rfl⟩ := h'
  simp only [lines, cols] at hr hk hr' hk'
  obtain ⟨hcol, hrow⟩ := rows_inj (p.py + r) (p.py + r') (by omega)
    (by omega) (Nat.add_left_cancel heq)
  obtain rfl : r = r' := by omega
  obtain rfl : k = k' := by omega
  rfl

theorem moves_samples {B W H B' W' H' X Y b : Nat} : (⟨B, W * b, H, B', W' * b, H', X * b, Y⟩ : Plane).Moves a a' ↔
    ∃ i < W', ∃ j < H', X + i < W ∧ Y + j < H ∧
      ∃ d < b, a = B + ((Y + j) * W + (X + i)) * b + d ∧ a' = B' + (j * W' + i) * b + d := by
  simp only [Moves, lines, cols]
  constructor
  · rintro ⟨j, hj, k, hk, rfl, rfl⟩
    have hb : 0 < b := Nat.pos_of_ne_zero fun hzero => by simp [hzero] at hk
    have hsplit : k / b * b + k % b = k := Nat.div_add_mod' k b
    have hcol : k < (W - X) * b := by rw [Nat.sub_mul]; omega
    have hwide : k / b < W - X := Nat.div_lt_of_lt_mul (by rwa [Nat.mul_comm b])
    have hop : k / b < W' := Nat.div_lt_of_lt_mul (by rw [Nat.mul_comm b]; omega)
    refine ⟨k / b, hop, j, by omega, Nat.add_lt_of_lt_sub' hwide, by omega, k % b, Nat.mod_lt k hb, ?_, ?_⟩
    · rw [Nat.add_mul _ _ b, Nat.add_mul X, Nat.mul_assoc]
      omega
    · rw [Nat.add_mul _ _ b, Nat.mul_assoc]
      omega
  · rintro ⟨i, hi, j, hj, hx, hy, d, hd, rfl, rfl⟩
    have hcol : X * b + (i * b + d) < W * b := by
      have hle : (X + i) * b + d < W * b := rows_lt hd hx
      rw [Nat.add_mul] at hle
      omega
    have hop : i * b + d < W' * b := rows_lt hd hi
    refine ⟨j, by omega, i * b + d, by omega, ?_, ?_⟩
    · rw [Nat.add_mul _ _ b, Nat.add_mul X, Nat.mul_assoc]
      omega
    · rw [Nat.add_mul _ _ b, Nat.mul_assoc]
      omega

def Apart (ps : List Plane) : Prop := ps.Pairwise fun p q => p.base + p.rows * p.stride ≤ q.base

theorem Apart.unique (h : Apart ps) {a'' : Nat} (hp : p ∈ ps) (hq : q ∈ ps) (hpa : p.Moves a a') (hqa : q.Moves a a'') :
    a' = a'' := by
  induction ps with
  | nil => exact absurd hp List.not_mem_nil
  | cons p₀ ps ih =>
    obtain ⟨hfirst, hps⟩ := List.pairwise_cons.mp h
    have hpb := hpa.bounds.1
    have hqb := hqa.bounds.1
    rcases List.mem_cons.mp hp with rfl | hp' <;> rcases List.mem_cons.mp hq with rfl | hq'
    · exact hpa.unique hqa
    · exact absurd (hfirst q hq') (by omega)
    · exact absurd (hfirst p hp') (by omega)
    · exact ih hps hp' hq'

end Plane

end NuWicam.Lib
