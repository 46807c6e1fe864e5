import Mathlib.Algebra.Ring.Int.Defs
import Mathlib.Algebra.Ring.Nat

/-!
# Times of the event loop (`event.c`)

Seconds, microseconds and all differences are `long` of 32 bits. `TimeRef.micros` is the time as it is meant, and
`timer_arithmetic_iff` has the times and intervals for which the results are those that are meant.
-/

namespace NuWicam.Event

/-! ## The functions of the source -/

structure TimeRef where
  tvSec : Int32
  tvUsec : Int32
deriving DecidableEq, Repr

def timeDiff (trStart trEnd : TimeRef) : Int32 :=
  ((trEnd.tvSec - trStart.tvSec) * 1000000 + trEnd.tvUsec - trStart.tvUsec + 500) / 1000

def timeAdd (tr : TimeRef) (msec : Int32) : TimeRef :=
  let sec := tr.tvSec + msec / 1000
  let usec := tr.tvUsec + (msec % 1000) * 1000
  if 1000000 ≤ usec then ⟨sec + 1, usec - 1000000⟩ else ⟨sec, usec⟩

/-- `diff` in `event_loop`, at the time `now`: the milliseconds until the timer fires. -/
def timeLeft (fire now : TimeRef) : Int32 := -timeDiff fire now

/-! ## Times as they are meant -/

def TimeRef.micros (t : TimeRef) : Int := t.tvSec.toInt * 1000000 + t.tvUsec.toInt

def TimeRef.Normal (t : TimeRef) : Prop := 0 ≤ t.tvUsec.toInt ∧ t.tvUsec.toInt < 1000000

instance (t : TimeRef) : Decidable t.Normal := inferInstanceAs (Decidable (_ ∧ _))

/-- `r` milliseconds are `x` microseconds, rounded to the nearest. -/
def Nearest (r x : Int) : Prop := x - 500 ≤ 1000 * r ∧ 1000 * r ≤ x + 500

/-! ## What is computed -/

theorem bmod_cases (x : Int) : ∃ k, x.bmod (2 ^ 32) = x - 4294967296 * k ∧
    -2147483648 ≤ x.bmod (2 ^ 32) ∧ x.bmod (2 ^ 32) < 2147483648 := by
  refine ⟨x.bdiv (2 ^ 32), ?_, ?_, ?_⟩
  · exact Int.bmod_eq_self_sub_mul_bdiv x (2 ^ 32)
  · have := Int.le_bmod (x := x) (m := 2 ^ 32) (by decide)
    omega
  · have := Int.bmod_lt (x := x) (m := 2 ^ 32) (by decide)
    omega

theorem tdiv_cases (x : Int) : (0 ≤ x ∧ x.tdiv 1000 = x / 1000) ∨ (x < 0 ∧ x.tdiv 1000 = -(-x / 1000)) := by
  rcases Int.lt_or_le x 0 with hneg | hpos
  · refine .inr ⟨hneg, ?_⟩
    have hdiv : (-x).tdiv 1000 = -x / 1000 := Int.tdiv_eq_ediv_of_nonneg (by omega)
    rw [← hdiv, Int.neg_tdiv, Int.neg_neg]
  · exact .inl ⟨hpos, Int.tdiv_eq_ediv_of_nonneg hpos⟩

theorem tdiv_bmod_bounds (x : Int) : -2147483 ≤ (x.bmod (2 ^ 32)).tdiv 1000 ∧ (x.bmod (2 ^ 32)).tdiv 1000 ≤ 2147483 := by
  obtain ⟨-, -, hlow, hhigh⟩ := bmod_cases x
  rcases tdiv_cases (x.bmod (2 ^ 32)) with ⟨hx, hq⟩ | ⟨hx, hq⟩
  · omega
  · omega

theorem timeDiff_toInt (a b : TimeRef) : (timeDiff a b).toInt = ((b.micros - a.micros + 500).bmod (2 ^ 32)).tdiv 1000 := by
  have hsum : ((b.tvSec - a.tvSec) * 1000000 + b.tvUsec - a.tvUsec + 500).toInt =
      (b.micros - a.micros + 500).bmod (2 ^ 32) := by
    have hmillion : (1000000 : Int32).toInt = 1000000 := rfl
    have hhalf : (500 : Int32).toInt = 500 := rfl
    simp only [Int32.toInt_add, Int32.toInt_sub, Int32.toInt_mul, Int.bmod_add_bmod, Int.bmod_sub_bmod,
      Int.bmod_mul_bmod, hmillion, hhalf, TimeRef.micros]
    congr 1
    omega
  have hthousand : (1000 : Int32).toInt = 1000 := rfl
  rw [timeDiff, Int32.toInt_div, hsum, hthousand]
  obtain ⟨hlow, hhigh⟩ := tdiv_bmod_bounds (b.micros - a.micros + 500)
  exact Int.bmod_eq_of_le (by omega) (by omega)

/-- The milliseconds that are computed for `x` microseconds. -/
def computed (x : Int) : Int := ((x + 500).bmod (2 ^ 32)).tdiv 1000

theorem computed_congr {x y k : Int} (h : x = y + 4294967296 * k) : computed x = computed y := by
  have hsum : x + 500 = y + 500 + 4294967296 * k := by omega
  unfold computed
  rw [hsum]
  exact congrArg (Int.tdiv · 1000) (Int.add_mul_bmod_self_left (y + 500) (2 ^ 32) k)

theorem nearest_computed_iff (x : Int) :
    Nearest (computed x) x ↔ -2147483648 ≤ x + 500 ∧ x + 500 < 2147483648 ∧ (-500 ≤ x ∨ x % 1000 = 500) := by
  unfold computed Nearest
  obtain ⟨k, hk, hlow, hhigh⟩ := bmod_cases (x + 500)
  generalize (x + 500).bmod (2 ^ 32) = y at hk hlow hhigh
  rcases tdiv_cases y with ⟨hy, hq⟩ | ⟨hy, hq⟩
  · rw [hq]
    constructor
    · intro h
      have hk0 : k = 0 := by omega
      omega
    · intro h
      have hk0 : k = 0 := by omega
      omega
  · rw [hq]
    constructor
    · intro h
      have hk0 : k = 0 := by omega
      omega
    · intro h
      have hk0 : k = 0 := by omega
      omega

theorem micros_timeAdd (a : TimeRef) (msec : Int32) :
    ∃ k, (timeAdd a msec).micros = a.micros + 1000 * msec.toInt + 4294967296 * k := by
  have hthousand : (1000 : Int32).toInt = 1000 := rfl
  have hmillion : (1000000 : Int32).toInt = 1000000 := rfl
  have hone : (1 : Int32).toInt = 1 := rfl
  have hparts := Int.mul_tdiv_add_tmod msec.toInt 1000
  obtain ⟨q, hq, -⟩ := bmod_cases (msec.toInt.tdiv 1000)
  obtain ⟨r, hr, -⟩ := bmod_cases (msec.toInt.tmod 1000 * 1000)
  obtain ⟨m, hm, -⟩ := bmod_cases (a.tvSec.toInt + (msec / 1000).toInt)
  obtain ⟨n, hn, -⟩ := bmod_cases (a.tvUsec.toInt + (msec % 1000 * 1000).toInt)
  have hsec : (a.tvSec + msec / 1000).toInt = a.tvSec.toInt + msec.toInt.tdiv 1000 - 4294967296 * (q + m) := by
    rw [Int32.toInt_add, hm, Int32.toInt_div, hthousand, hq]
    omega
  have husec : (a.tvUsec + msec % 1000 * 1000).toInt =
      a.tvUsec.toInt + msec.toInt.tmod 1000 * 1000 - 4294967296 * (r + n) := by
    rw [Int32.toInt_add, hn, Int32.toInt_mul, Int32.toInt_mod, hthousand, hr]
    omega
  unfold timeAdd
  dsimp only
  split
  · obtain ⟨i, hi, -⟩ := bmod_cases ((a.tvSec + msec / 1000).toInt + 1)
    obtain ⟨j, hj, -⟩ := bmod_cases ((a.tvUsec + msec % 1000 * 1000).toInt - 1000000)
    refine ⟨-((q + m + i) * 1000000 + r + n + j), ?_⟩
    unfold TimeRef.micros
    rw [Int32.toInt_add, hone, hi, Int32.toInt_sub, hmillion, hj, hsec, husec]
    omega
  · refine ⟨-((q + m) * 1000000 + r + n), ?_⟩
    unfold TimeRef.micros
    rw [hsec, husec]
    omega

theorem normal_timeAdd {a : TimeRef} (ha : a.Normal) {msec : Int32} (hm : 0 ≤ msec.toInt) : (timeAdd a msec).Normal := by
  obtain ⟨hlow, hhigh⟩ := ha
  have hthousand : (1000 : Int32).toInt = 1000 := rfl
  have hmillion : (1000000 : Int32).toInt = 1000000 := rfl
  have hr : (msec % 1000 * 1000).toInt = msec.toInt % 1000 * 1000 := by
    rw [Int32.toInt_mul, Int32.toInt_mod, hthousand, Int.tmod_eq_emod_of_nonneg hm]
    exact Int.bmod_eq_of_le (by omega) (by omega)
  have hu : (a.tvUsec + msec % 1000 * 1000).toInt = a.tvUsec.toInt + msec.toInt % 1000 * 1000 := by
    rw [Int32.toInt_add, hr]
    exact Int.bmod_eq_of_le (by omega) (by omega)
  unfold timeAdd TimeRef.Normal
  by_cases hcarry : 1000000 ≤ a.tvUsec + msec % 1000 * 1000
  · rw [if_pos hcarry]
    rw [Int32.le_iff_toInt_le, hu, hmillion] at hcarry
    have hu' : (a.tvUsec + msec % 1000 * 1000 - 1000000).toInt =
        a.tvUsec.toInt + msec.toInt % 1000 * 1000 - 1000000 := by
      rw [Int32.toInt_sub, hu, hmillion]
      exact Int.bmod_eq_of_le (by omega) (by omega)
    rw [hu']
    omega
  · rw [if_neg hcarry]
    rw [Int32.le_iff_toInt_le, hu, hmillion] at hcarry
    rw [hu]
    omega

theorem timeLeft_toInt (fire now : TimeRef) : (timeLeft fire now).toInt = -computed (now.micros - fire.micros) := by
  have hdiff : (timeDiff fire now).toInt = computed (now.micros - fire.micros) := timeDiff_toInt fire now
  rw [timeLeft, Int32.toInt_neg, hdiff]
  unfold computed
  obtain ⟨hlow, hhigh⟩ := tdiv_bmod_bounds (now.micros - fire.micros + 500)
  exact Int.bmod_eq_of_le (by omega) (by omega)

/-! ## Where the results are those that are meant -/

/-- The difference in microseconds, with the half millisecond, has 32 bits, and is at least minus half a millisecond or ends
in a half millisecond. -/
def DiffFits (a b : TimeRef) : Prop :=
  -2147483648 ≤ b.micros - a.micros + 500 ∧ b.micros - a.micros + 500 < 2147483648 ∧
    (-500 ≤ b.micros - a.micros ∨ (b.micros - a.micros) % 1000 = 500)

/-- A timer set at `a` to fire after `msec` milliseconds: until then the loop fires it only in the last 5.5 milliseconds, and
otherwise waits until less than 1.5 milliseconds before the deadline. -/
def LoopInTime (a : TimeRef) (msec : Int32) : Prop :=
  ∀ now : TimeRef, now.Normal → a.micros ≤ now.micros → now.micros ≤ a.micros + 1000 * msec.toInt →
    ((timeLeft (timeAdd a msec) now).toInt < 5 → a.micros + 1000 * msec.toInt - now.micros < 5500) ∧
    (5 ≤ (timeLeft (timeAdd a msec) now).toInt →
      1000 * (timeLeft (timeAdd a msec) now).toInt ≤ a.micros + 1000 * msec.toInt - now.micros ∧
      a.micros + 1000 * msec.toInt - now.micros < 1000 * (timeLeft (timeAdd a msec) now).toInt + 1500)

section

variable {a : TimeRef} {msec : Int32}

theorem timeDiff_timeAdd_iff (hm : 0 ≤ msec.toInt) :
    timeDiff a (timeAdd a msec) = msec ↔ msec.toInt * 1000 + 500 < 2147483648 := by
  obtain ⟨k, hk⟩ := micros_timeAdd a msec
  have hdiff : (timeDiff a (timeAdd a msec)).toInt = computed (1000 * msec.toInt) := by
    rw [timeDiff_toInt]
    exact computed_congr (k := k) (by omega)
  rw [← Int32.toInt_inj, hdiff]
  unfold computed
  obtain ⟨j, hj, hlow, hhigh⟩ := bmod_cases (1000 * msec.toInt + 500)
  generalize (1000 * msec.toInt + 500).bmod (2 ^ 32) = y at hj hlow hhigh
  have hj' : msec.toInt * 1000 + 500 < 2147483648 → j = 0 := by omega
  rcases tdiv_cases y with ⟨hy, hq⟩ | ⟨hy, hq⟩
  · rw [hq]
    omega
  · rw [hq]
    omega

theorem timeLeft_timeAdd (a : TimeRef) (msec : Int32) (now : TimeRef) :
    (timeLeft (timeAdd a msec) now).toInt = -computed (now.micros - (a.micros + 1000 * msec.toInt)) := by
  obtain ⟨k, hk⟩ := micros_timeAdd a msec
  rw [timeLeft_toInt]
  exact congrArg _ (computed_congr (k := -k) (by omega))

theorem loopInTime_of_fits (hm : 0 ≤ msec.toInt) (hfit : msec.toInt * 1000 + 500 < 2147483648) : LoopInTime a msec := by
  intro now _ hfrom hto
  rw [timeLeft_timeAdd]
  generalize hx : now.micros - (a.micros + 1000 * msec.toInt) = x
  have hneg : -2147483648 ≤ x + 500 ∧ x ≤ 0 := by omega
  have hsame : (x + 500).bmod (2 ^ 32) = x + 500 := Int.bmod_eq_of_le (by omega) (by omega)
  unfold computed
  rw [hsame]
  rcases tdiv_cases (x + 500) with ⟨hpos, hq⟩ | ⟨hpos, hq⟩
  · rw [hq]
    omega
  · rw [hq]
    omega

end

/-- **The arithmetic of the timers** is right exactly if the difference and the interval fit. -/
theorem timer_arithmetic_iff (a b : TimeRef) (ha : a.Normal) (msec : Int32) (hm : 0 ≤ msec.toInt) :
    (Nearest (timeDiff a b).toInt (b.micros - a.micros) ∧ (timeAdd a msec).Normal ∧
      timeDiff a (timeAdd a msec) = msec ∧ LoopInTime a msec) ↔ DiffFits a b ∧ msec.toInt * 1000 + 500 < 2147483648 := by
  have hdiff : (timeDiff a b).toInt = computed (b.micros - a.micros) := timeDiff_toInt a b
  rw [hdiff, nearest_computed_iff, timeDiff_timeAdd_iff hm]
  constructor
  · rintro ⟨hnear, -, hfit, -⟩
    exact ⟨hnear, hfit⟩
  · rintro ⟨hnear, hfit⟩
    exact ⟨hnear, normal_timeAdd ha hm, hfit, loopInTime_of_fits hm hfit⟩

theorem timer_arithmetic_second :
    Nearest (timeDiff ⟨100, 0⟩ ⟨101, 0⟩).toInt (TimeRef.micros ⟨101, 0⟩ - TimeRef.micros ⟨100, 0⟩) ∧
      (timeAdd ⟨100, 0⟩ 40).Normal ∧ timeDiff ⟨100, 0⟩ (timeAdd ⟨100, 0⟩ 40) = 40 ∧ LoopInTime ⟨100, 0⟩ 40 :=
  (timer_arithmetic_iff ⟨100, 0⟩ ⟨101, 0⟩ (by decide) 40 (by decide)).mpr
    ⟨⟨by decide, by decide, by decide⟩, by decide⟩

theorem timer_arithmetic_overflows : (timeDiff ⟨0, 0⟩ ⟨3000, 0⟩).toInt = -1294966 ∧
      (timeDiff ⟨0, 1700⟩ ⟨0, 0⟩).toInt = -1 ∧ ¬ Nearest (-1) (-1700) ∧
      (timeDiff ⟨0, 0⟩ (timeAdd ⟨0, 0⟩ 2400000)).toInt = -1894966 ∧
      (timeLeft (timeAdd ⟨0, 0⟩ 2400000) ⟨0, 0⟩).toInt < 5 ∧ ¬ LoopInTime ⟨0, 0⟩ 2400000 := by
  have hnow : (timeLeft (timeAdd ⟨0, 0⟩ 2400000) ⟨0, 0⟩).toInt < 5 := by decide
  refine ⟨by decide, by decide, fun h => ?_, by decide, hnow, fun h => ?_⟩
  · have := h.2
    omega
  · have hearly := (h ⟨0, 0⟩ (by decide) (by decide) (by decide)).1 hnow
    exact absurd hearly (by decide)

end NuWicam.Event
