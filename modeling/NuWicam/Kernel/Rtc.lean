import Mathlib.Data.Nat.Bitwise

/-!
# Setting the clock (`rtc-w55fa93.c`)

`w55fa93_rtc_set_time` narrows the fields of a time to 8 bits before it looks at them, and does not look at the year at all.
`roundTrip_iff` has the times for which only valid ones are accepted, and read back as they were.
-/

namespace NuWicam.Kernel.Rtc

/-- `struct rtc_time` -/
structure RtcTime where
  sec : Int
  min : Int
  hour : Int
  mday : Int
  mon : Int
  year : Int
  wday : Int
  deriving DecidableEq

/-- The time, the calendar and the day of the week -/
structure Regs where
  tlr : Nat
  clr : Nat
  dwr : Nat

/-- Conversion to `unsigned char` -/
def u8 (x : Int) : Nat := (x % 256).toNat

/-- Conversion to `unsigned int` -/
def u32 (x : Int) : Nat := (x % 4294967296).toNat

def daysInMo : List Nat := [0, 31, 28, 31, 30, 31, 30, 31, 31, 30, 31, 30, 31]

def leapYr (yrs : Nat) : Nat :=
  if yrs % 4 = 0 then if yrs % 100 = 0 ∧ yrs % 400 ≠ 0 then 0 else 1 else 0

/-- Three numbers as decimal digits of four bits each -/
def packed (a b c : Nat) : Nat :=
  ((a / 10) <<< 20 ||| (a % 10) <<< 16 ||| (b / 10) <<< 12 ||| (b % 10) <<< 8 ||| (c / 10) <<< 4 ||| (c % 10) <<< 0) % 4294967296

/-- `w55fa93_rtc_set_time`: `none` for `-EINVAL` -/
def setTime (tm : RtcTime) : Option Regs :=
  let leapYr := leapYr (u32 (1900 + tm.year))
  let yrs := u32 (tm.year - 100)
  let mon := u8 (tm.mon + 1)
  let day := u8 tm.mday
  let hrs := u8 tm.hour
  let min := u8 tm.min
  let sec := u8 tm.sec
  if 12 < mon ∨ day = 0 then none
  else if daysInMo.getD mon 0 + (if mon = 2 ∧ leapYr ≠ 0 then 1 else 0) < day then none
  else if 24 ≤ hrs ∨ 60 ≤ min ∨ 60 ≤ sec then none
  else some ⟨packed hrs min sec, packed yrs mon day, u8 tm.wday⟩

/-- Two digits from bit `shift` on; `tens` masks the first one. -/
def bcd (reg shift tens : Nat) : Nat := (reg >>> (shift + 4) &&& tens) * 10 + (reg >>> shift &&& 0x0F)

/-- `w55fa93_rtc_read_time` with `RTC_SECONDS`, `RTC_MINUTES` and so on -/
def readTime (r : Regs) : RtcTime where
  sec := bcd r.tlr 0 0x07
  min := bcd r.tlr 8 0x07
  hour := bcd r.tlr 16 0x07
  mday := bcd r.clr 0 0x03
  mon := bcd r.clr 8 0x01 - 1
  year := bcd r.clr 16 0x0F + 100
  wday := (r.dwr &&& 0x07 : Nat)

/-! ## What is wanted -/

def Leap (year : Int) : Prop := 4 ∣ year ∧ (¬ 100 ∣ year ∨ 400 ∣ year)

instance (year : Int) : Decidable (Leap year) := inferInstanceAs (Decidable (_ ∧ _))

/-- Days of a month, counted from 0 -/
def monthDays (year mon : Int) : Int :=
  if mon = 1 then if Leap year then 29 else 28
  else if mon = 3 ∨ mon = 5 ∨ mon = 8 ∨ mon = 10 then 30 else 31

/-- A date and time from 2000 to 2099 -/
structure Valid (tm : RtcTime) : Prop where
  year : 2000 ≤ 1900 + tm.year ∧ 1900 + tm.year ≤ 2099
  mon : 0 ≤ tm.mon ∧ tm.mon ≤ 11
  mday : 1 ≤ tm.mday ∧ tm.mday ≤ monthDays (1900 + tm.year) tm.mon
  hour : 0 ≤ tm.hour ∧ tm.hour ≤ 23
  min : 0 ≤ tm.min ∧ tm.min ≤ 59
  sec : 0 ≤ tm.sec ∧ tm.sec ≤ 59

/-- **A time that is set is valid, and read back.** -/
def RoundTrip (tm : RtcTime) : Prop :=
  ∀ r, setTime tm = some r → Valid tm ∧ { readTime r with wday := tm.wday } = tm

/-- The fields are a time when they are narrowed, with the leap day by the year modulo `2^32`. -/
structure Accepted (tm : RtcTime) : Prop where
  mon : 1 ≤ (tm.mon + 1) % 256 ∧ (tm.mon + 1) % 256 ≤ 12
  mday : 1 ≤ tm.mday % 256 ∧ tm.mday % 256 ≤ monthDays ((1900 + tm.year) % 4294967296) ((tm.mon + 1) % 256 - 1)
  hour : tm.hour % 256 < 24
  min : tm.min % 256 < 60
  sec : tm.sec % 256 < 60

/-- No field changes when it is narrowed, and the year is from 2000 to 2099. -/
structure InRange (tm : RtcTime) : Prop where
  year : 100 ≤ tm.year ∧ tm.year < 200
  mon : -1 ≤ tm.mon ∧ tm.mon < 255
  mday : 0 ≤ tm.mday ∧ tm.mday < 256
  hour : 0 ≤ tm.hour ∧ tm.hour < 256
  min : 0 ≤ tm.min ∧ tm.min < 256
  sec : 0 ≤ tm.sec ∧ tm.sec < 256

/-! ## Acceptance -/

theorem leapYr_ne_zero_iff (yrs : Nat) : leapYr yrs ≠ 0 ↔ Leap yrs := by
  unfold leapYr Leap
  split_ifs <;> omega

theorem daysInMo_eq (yrs mon : Nat) (hpos : 0 < mon) (hle : mon ≤ 12) :
    ((daysInMo.getD mon 0 + if mon = 2 ∧ leapYr yrs ≠ 0 then 1 else 0 : Nat) : Int) = monthDays yrs (mon - 1) := by
  have hmonths : ∀ m < 13, 0 < m → ∀ leap : Bool,
      ((daysInMo.getD m 0 + if m = 2 ∧ leap then 1 else 0 : Nat) : Int) =
        if (m : Int) - 1 = 1 then if leap then 29 else 28
        else if (m : Int) - 1 = 3 ∨ (m : Int) - 1 = 5 ∨ (m : Int) - 1 = 8 ∨ (m : Int) - 1 = 10 then 30 else 31 := by decide
  have h := hmonths mon (by omega) hpos (decide (Leap yrs))
  simp only [leapYr_ne_zero_iff, monthDays]
  simpa only [decide_eq_true_eq] using h

theorem natCast_u8 (x : Int) : (u8 x : Int) = x % 256 := Int.toNat_of_nonneg (Int.emod_nonneg x (by decide))

theorem natCast_u32 (x : Int) : (u32 x : Int) = x % 4294967296 := Int.toNat_of_nonneg (Int.emod_nonneg x (by decide))

def written (tm : RtcTime) : Regs :=
  ⟨packed (u8 tm.hour) (u8 tm.min) (u8 tm.sec), packed (u32 (tm.year - 100)) (u8 (tm.mon + 1)) (u8 tm.mday), u8 tm.wday⟩

theorem setTime_eq_some_iff (tm : RtcTime) (r : Regs) : setTime tm = some r ↔ Accepted tm ∧ written tm = r := by
  have hmon := natCast_u8 (tm.mon + 1)
  have hmday := natCast_u8 tm.mday
  have hhour := natCast_u8 tm.hour
  have hmin := natCast_u8 tm.min
  have hsec := natCast_u8 tm.sec
  have hyear := natCast_u32 (1900 + tm.year)
  have hiff : Accepted tm ↔ ¬ (12 < u8 (tm.mon + 1) ∨ u8 tm.mday = 0) ∧
      ¬ daysInMo.getD (u8 (tm.mon + 1)) 0 + (if u8 (tm.mon + 1) = 2 ∧ leapYr (u32 (1900 + tm.year)) ≠ 0 then 1 else 0) <
        u8 tm.mday ∧ ¬ (24 ≤ u8 tm.hour ∨ 60 ≤ u8 tm.min ∨ 60 ≤ u8 tm.sec) := by
    have hdays := daysInMo_eq (u32 (1900 + tm.year)) (u8 (tm.mon + 1))
    rw [hyear, hmon] at hdays
    constructor
    · rintro ⟨⟨hm, hm'⟩, ⟨hd, hd'⟩, hh, hi, hs⟩
      exact ⟨by omega, by omega, by omega⟩
    · rintro ⟨hfirst, hday, htime⟩
      -- the table has no days for month 0
      have hpos : 0 < u8 (tm.mon + 1) := by
        by_contra hzero
        rw [Nat.eq_zero_of_not_pos hzero] at hday
        exact hday (Nat.pos_of_ne_zero (not_or.mp hfirst).2)
      exact ⟨by omega, by omega, by omega, by omega, by omega⟩
  rw [hiff, setTime]
  split_ifs <;> simp_all [written]

/-! ## Digits -/

theorem or_digit (a : Nat) {d : Nat} (s : Nat) (hd : d < 16) : a <<< (s + 4) ||| d <<< s = (a * 16 + d) <<< s := by
  rw [Nat.add_comm s, Nat.shiftLeft_add, ← Nat.shiftLeft_or_distrib, ← Nat.shiftLeft_add_eq_or_of_lt hd, Nat.shiftLeft_eq a]

theorem packed_eq {a b c : Nat} (ha : a < 100) (hb : b < 100) (hc : c < 100) : packed a b c =
    ((((a / 10 * 16 + a % 10) * 16 + b / 10) * 16 + b % 10) * 16 + c / 10) * 16 + c % 10 := by
  rw [packed, or_digit _ 16 (by omega), or_digit _ 12 (by omega), or_digit _ 8 (by omega), or_digit _ 4 (by omega),
    or_digit _ 0 (by omega), Nat.shiftLeft_zero]
  omega

theorem bcd_eq {reg shift n : Nat} (k : Nat) (hk : k ≤ 4) (htens : reg / 2 ^ (shift + 4) % 16 = n / 10)
    (hones : reg / 2 ^ shift % 16 = n % 10) (hn : n < 10 * 2 ^ k) : bcd reg shift (2 ^ k - 1) = n := by
  have hmask : reg / 2 ^ (shift + 4) % 2 ^ k = n / 10 := by
    rw [← Nat.mod_mod_of_dvd _ (Nat.pow_dvd_pow 2 hk : 2 ^ k ∣ 16), htens, Nat.mod_eq_of_lt (by omega)]
  have hlow : reg >>> shift &&& 0x0F = reg / 2 ^ shift % 16 := by
    rw [Nat.shiftRight_eq_div_pow]
    exact Nat.and_two_pow_sub_one_eq_mod _ 4
  rw [bcd, hlow, Nat.and_two_pow_sub_one_eq_mod, Nat.shiftRight_eq_div_pow, hmask, hones]
  omega

theorem packed_digits {a b c : Nat} (ha : a < 100) (hb : b < 100) (hc : c < 100) :
    (packed a b c / 2 ^ 0 % 16 = c % 10 ∧ packed a b c / 2 ^ 4 % 16 = c / 10) ∧
      (packed a b c / 2 ^ 8 % 16 = b % 10 ∧ packed a b c / 2 ^ 12 % 16 = b / 10) ∧
        packed a b c / 2 ^ 16 % 16 = a % 10 ∧ packed a b c / 2 ^ 20 % 16 = a / 10 := by
  have hdigits : a / 10 < 10 ∧ a % 10 < 10 ∧ b / 10 < 10 ∧ b % 10 < 10 ∧ c / 10 < 10 ∧ c % 10 < 10 := by omega
  rw [packed_eq ha hb hc]
  generalize a / 10 = a₁, a % 10 = a₀, b / 10 = b₁, b % 10 = b₀, c / 10 = c₁, c % 10 = c₀ at hdigits
  refine ⟨⟨?_, ?_⟩, ⟨?_, ?_⟩, ?_, ?_⟩ <;> omega

theorem bcd_packed {a b c i j k : Nat} (ha : a < 100) (hb : b < 100) (hc : c < 100) (hi : i ≤ 4) (hj : j ≤ 4) (hk : k ≤ 4)
    (hai : a < 10 * 2 ^ i) (hbj : b < 10 * 2 ^ j) (hck : c < 10 * 2 ^ k) :
    bcd (packed a b c) 16 (2 ^ i - 1) = a ∧ bcd (packed a b c) 8 (2 ^ j - 1) = b ∧ bcd (packed a b c) 0 (2 ^ k - 1) = c := by
  obtain ⟨⟨hc₀, hc₁⟩, ⟨hb₀, hb₁⟩, ha₀, ha₁⟩ := packed_digits ha hb hc
  exact ⟨bcd_eq i hi ha₁ ha₀ hai, bcd_eq j hj hb₁ hb₀ hbj, bcd_eq k hk hc₁ hc₀ hck⟩

/-! ## The round trip -/

theorem monthDays_le (year mon : Int) : monthDays year mon ≤ 31 := by
  unfold monthDays
  split_ifs <;> decide

theorem Accepted.valid {tm : RtcTime} (h : Accepted tm) (hr : InRange tm) : Valid tm := by
  obtain ⟨hy, hm, hd, hh, hi, hs⟩ := hr
  have hday := h.mday
  have hmon := h.mon
  rw [Int.emod_eq_of_lt hd.1 hd.2, Int.emod_eq_of_lt (by omega) (by omega), Int.emod_eq_of_lt (by omega) (by omega),
    Int.add_sub_cancel] at hday
  have := h.hour
  have := h.min
  have := h.sec
  exact ⟨by omega, by omega, hday, by omega, by omega, by omega⟩

theorem Valid.readTime_written {tm : RtcTime} (h : Valid tm) : { readTime (written tm) with wday := tm.wday } = tm := by
  obtain ⟨hy, hm, hd, hh, hi, hs⟩ := h
  have hdays := monthDays_le (1900 + tm.year) tm.mon
  have hyear := natCast_u32 (tm.year - 100)
  have hmon := natCast_u8 (tm.mon + 1)
  have hmday := natCast_u8 tm.mday
  have hhour := natCast_u8 tm.hour
  have hmin := natCast_u8 tm.min
  have hsec := natCast_u8 tm.sec
  obtain ⟨eh, ei, es⟩ := bcd_packed (a := u8 tm.hour) (b := u8 tm.min) (c := u8 tm.sec) (i := 3) (j := 3) (k := 3)
    (by omega) (by omega) (by omega) (by decide) (by decide) (by decide) (by omega) (by omega) (by omega)
  obtain ⟨ey, em, ed⟩ := bcd_packed (a := u32 (tm.year - 100)) (b := u8 (tm.mon + 1)) (c := u8 tm.mday) (i := 4) (j := 1) (k := 2)
    (by omega) (by omega) (by omega) (by decide) (by decide) (by decide) (by omega) (by omega) (by omega)
  obtain ⟨sec, min, hour, mday, mon, year, wday⟩ := tm
  simp only [readTime, written, RtcTime.mk.injEq]
  simp only [Nat.reducePow, Nat.reduceSub] at es ei eh ed em ey
  dsimp only at *
  exact ⟨by omega, by omega, by omega, by omega, by omega, by omega, trivial⟩

/-- **A time that is set is valid and read back** exactly if it is refused or its fields are in range. -/
theorem roundTrip_iff (tm : RtcTime) : RoundTrip tm ↔ (Accepted tm → InRange tm) := by
  constructor
  · intro h haccepted
    obtain ⟨⟨hy, hm, hd, hh, hi, hs⟩, -⟩ := h _ ((setTime_eq_some_iff tm _).mpr ⟨haccepted, rfl⟩)
    have hdays := monthDays_le (1900 + tm.year) tm.mon
    exact ⟨by omega, by omega, by omega, by omega, by omega, by omega⟩
  · intro h r hr
    obtain ⟨haccepted, rfl⟩ := (setTime_eq_some_iff tm r).mp hr
    have hvalid := haccepted.valid (h haccepted)
    exact ⟨hvalid, hvalid.readTime_written⟩

theorem not_roundTrip : ¬ RoundTrip ⟨0, 0, 0, 1, 0, 200, 5⟩ ∧ ¬ RoundTrip ⟨256, 0, 0, 1, 0, 100, 6⟩ := by
  refine ⟨fun h => ?_, fun h => ?_⟩
  · exact absurd (h _ rfl).1.year (by decide)
  · exact absurd (h _ rfl).1.sec (by decide)

end NuWicam.Kernel.Rtc
