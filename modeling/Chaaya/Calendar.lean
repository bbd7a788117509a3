import Mathlib

/-! # The proleptic Gregorian calendar

Days of any year, counted from 1970-01-01, and their place in a year that begins in March. -/

namespace Chaaya.Calendar

def Leap (y : Int) : Prop := y % 4 = 0 ∧ (y % 100 ≠ 0 ∨ y % 400 = 0)

instance : DecidablePred Leap := fun y =>
  inferInstanceAs (Decidable (y % 4 = 0 ∧ (y % 100 ≠ 0 ∨ y % 400 = 0)))

def monthLength (y m : Int) : Int :=
  if m = 2 then (if Leap y then 29 else 28)
  else if m = 4 ∨ m = 6 ∨ m = 9 ∨ m = 11 then 30 else 31

structure Day where
  year : Int
  month : Int
  day : Int
  deriving DecidableEq

structure Day.Valid (x : Day) : Prop where
  month : 1 ≤ x.month ∧ x.month ≤ 12
  day : 1 ≤ x.day ∧ x.day ≤ monthLength x.year x.month

def Day.next (x : Day) : Day :=
  if x.day < monthLength x.year x.month then ⟨x.year, x.month, x.day + 1⟩
  else if x.month < 12 then ⟨x.year, x.month + 1, 1⟩
  else ⟨x.year + 1, 1, 1⟩

/-- The days of a year before a month. -/
def beforeMonth (y m : Int) : Int :=
  ((List.range (m - 1).toNat).map fun i : Nat => monthLength y (i + 1)).sum

/-- The days from 1970-01-01, which is day 719163 of the year 1 and its followers. -/
def Day.number (x : Day) : Int :=
  365 * (x.year - 1) + (x.year - 1) / 4 - (x.year - 1) / 100 + (x.year - 1) / 400 +
    beforeMonth x.year x.month + x.day - 719163

theorem months {m : Int} (range : 1 ≤ m ∧ m ≤ 12) : m = 1 ∨ m = 2 ∨ m = 3 ∨ m = 4 ∨ m = 5 ∨
    m = 6 ∨ m = 7 ∨ m = 8 ∨ m = 9 ∨ m = 10 ∨ m = 11 ∨ m = 12 := by
  omega

theorem beforeMonth_succ (y : Int) {m : Int} (pos : 1 ≤ m) :
    beforeMonth y (m + 1) = beforeMonth y m + monthLength y m := by
  obtain ⟨k, rfl⟩ : ∃ k : Nat, m = k + 1 := ⟨(m - 1).toNat, by omega⟩
  have first : ((k : Int) + 1 + 1 - 1).toNat = k + 1 := by omega
  have second : ((k : Int) + 1 - 1).toNat = k := by omega
  rw [beforeMonth, beforeMonth, first, second, List.range_succ, List.map_append, List.sum_append,
    List.map_singleton, List.sum_singleton]

def leapDay (y : Int) : Int := if Leap y then 1 else 0

theorem monthLength_eq (y m : Int) : monthLength y m =
    if m = 2 then 28 + leapDay y else if m = 4 ∨ m = 6 ∨ m = 9 ∨ m = 11 then 30 else 31 := by
  rw [monthLength, leapDay]
  split
  · split <;> rfl
  · rfl

/-- Counted from March, the months before one have a linear number of days. -/
theorem beforeMonth_eq (y : Int) {m : Int} (range : 1 ≤ m ∧ m ≤ 12) :
    beforeMonth y m =
      (153 * ((m + 9) % 12) + 2) / 5 + (if m ≤ 2 then -306 else 59 + leapDay y) := by
  obtain ⟨k, rfl⟩ : ∃ k : Nat, m = k + 1 := ⟨(m - 1).toNat, by omega⟩
  induction k with
  | zero => rfl
  | succ k ih =>
    rw [Nat.cast_succ, beforeMonth_succ y (by omega), ih (by omega), monthLength_eq]
    have bound : k < 11 := by omega
    clear ih range
    interval_cases k <;> simp <;> omega

theorem leapDay_eq (y : Int) : leapDay y =
    y / 4 - (y - 1) / 4 - (y / 100 - (y - 1) / 100) + (y / 400 - (y - 1) / 400) := by
  by_cases leap : Leap y
  · rw [leapDay, if_pos leap]
    obtain ⟨four, other⟩ := leap
    omega
  · rw [leapDay, if_neg leap]
    have common : ¬(y % 4 = 0 ∧ (y % 100 ≠ 0 ∨ y % 400 = 0)) := leap
    omega

theorem leapDay_range (y : Int) : 0 ≤ leapDay y ∧ leapDay y ≤ 1 := by
  rw [leapDay]
  split <;> decide

theorem monthLength_range {y m : Int} : 28 ≤ monthLength y m ∧ monthLength y m ≤ 31 := by
  have leap := leapDay_range y
  rw [monthLength_eq]
  split_ifs <;> omega

theorem Day.next_valid {x : Day} (valid : x.Valid) : x.next.Valid := by
  have month := valid.month
  have day := valid.day
  rw [Day.next]
  split_ifs
  · exact ⟨month, by dsimp only; omega⟩
  · have length := @monthLength_range x.year (x.month + 1)
    exact ⟨by dsimp only; omega, by dsimp only; omega⟩
  · have length := @monthLength_range (x.year + 1) 1
    exact ⟨by dsimp only; omega, by dsimp only; omega⟩

/-- The number of a day in a year that begins in March. -/
def marchNumber (year inYear : Int) : Int :=
  365 * year + year / 4 - year / 100 + year / 400 + inYear - 719468

def Day.marchYear (x : Day) : Int := if x.month ≤ 2 then x.year - 1 else x.year

def Day.inMarchYear (x : Day) : Int := (153 * ((x.month + 9) % 12) + 2) / 5 + x.day - 1

theorem Day.number_eq {x : Day} (month : 1 ≤ x.month ∧ x.month ≤ 12) :
    x.number = marchNumber x.marchYear x.inMarchYear := by
  have leap := leapDay_eq x.year
  rw [Day.number, beforeMonth_eq x.year month, marchNumber, Day.marchYear, Day.inMarchYear]
  split_ifs <;> omega

/-- Every day of the calendar is followed by the day of the next number. -/
theorem Day.next_number {x : Day} (valid : x.Valid) : x.next.number = x.number + 1 := by
  have month := valid.month
  have day := valid.day
  rw [Day.number, Day.number]
  by_cases inside : x.day < monthLength x.year x.month
  · rw [Day.next, if_pos inside]
    dsimp only
    omega
  · rw [Day.next, if_neg inside]
    by_cases last : x.month < 12
    · rw [if_pos last]
      have later := beforeMonth_succ x.year month.1
      dsimp only
      omega
    · rw [if_neg last]
      have december : x.month = 12 := by omega
      have leap := leapDay_eq x.year
      have length := monthLength_eq x.year 12
      have before := beforeMonth_eq x.year (m := 12) (by decide)
      have first : beforeMonth (x.year + 1) 1 = 0 := rfl
      norm_num at length before
      rw [december] at day inside ⊢
      dsimp only
      rw [first]
      omega

/-! ## Centuries, leap cycles and years -/

/-- Century, leap cycle, year and day of a place in 400 years from March. Only the last year of a
cycle has a day 365, and of the last cycles of the centuries only the fourth. -/
structure Cycle (c q s d : Int) : Prop where
  century : 0 ≤ c ∧ c ≤ 3
  cycle : 0 ≤ q ∧ q ≤ 24
  year : 0 ≤ s ∧ s ≤ 3
  day : 0 ≤ d ∧ d ≤ 365
  leap : d = 365 → s = 3 ∧ (q ≠ 24 ∨ c = 3)

theorem cycle_exists (z : Int) : ∃ era c q s d, Cycle c q s d ∧
    z = 146097 * era + 36524 * c + 1461 * q + 365 * s + d := by
  refine ⟨z / 146097, min (z % 146097 / 36524) 3, ?_⟩
  generalize centuries : min (z % 146097 / 36524) 3 = c
  refine ⟨(z % 146097 - 36524 * c) / 1461, ?_⟩
  generalize cycles : (z % 146097 - 36524 * c) / 1461 = q
  refine ⟨min ((z % 146097 - 36524 * c - 1461 * q) / 365) 3, ?_⟩
  generalize years : min ((z % 146097 - 36524 * c - 1461 * q) / 365) 3 = s
  have start : 0 ≤ z % 146097 - 36524 * c ∧ z % 146097 - 36524 * c ≤ 36524 ∧
      (c < 3 → z % 146097 - 36524 * c < 36524) ∧ 0 ≤ c ∧ c ≤ 3 := by omega
  have middle : 0 ≤ z % 146097 - 36524 * c - 1461 * q ∧
      z % 146097 - 36524 * c - 1461 * q < 1461 ∧ 0 ≤ q ∧ q ≤ 24 := by omega
  exact ⟨z % 146097 - 36524 * c - 1461 * q - 365 * s, ⟨by omega, by omega, by omega, by omega,
    by omega⟩, by omega⟩

theorem marchNumber_cycle {era c q s d : Int} (cycle : Cycle c q s d) :
    marchNumber (400 * era + 100 * c + 4 * q + s) d =
      146097 * era + 36524 * c + 1461 * q + 365 * s + d - 719468 := by
  obtain ⟨century, fourth, year, -, -⟩ := cycle
  rw [marchNumber]
  omega

/-- The day at a place of a year from March. -/
def dayOf (year d : Int) : Day :=
  let mp := (5 * d + 2) / 153
  ⟨if mp < 10 then year else year + 1, if mp < 10 then mp + 3 else mp - 9,
    d - (153 * mp + 2) / 5 + 1⟩

theorem dayOf_march {d : Int} (year : Int) (range : 0 ≤ d ∧ d ≤ 365) :
    (dayOf year d).marchYear = year ∧ (dayOf year d).inMarchYear = d := by
  rw [Day.marchYear, Day.inMarchYear, dayOf]
  dsimp only
  have bound : 0 ≤ (5 * d + 2) / 153 ∧ (5 * d + 2) / 153 ≤ 11 := by omega
  generalize (5 * d + 2) / 153 = mp at bound ⊢
  have month : ((if mp < 10 then mp + 3 else mp - 9) + 9) % 12 = mp := by split <;> omega
  refine ⟨by split_ifs <;> omega, ?_⟩
  rw [month]
  omega

theorem leapDay_cycle (era : Int) {c q s d : Int} (cycle : Cycle c q s d) (last : d = 365) :
    leapDay (400 * era + 100 * c + 4 * q + s + 1) = 1 := by
  obtain ⟨century, fourth, -, -, leap⟩ := cycle
  obtain ⟨rfl, other⟩ := leap last
  rw [leapDay_eq]
  omega

theorem dayOf_valid (era : Int) {c q s d : Int} (cycle : Cycle c q s d) :
    (dayOf (400 * era + 100 * c + 4 * q + s) d).Valid := by
  have leap := leapDay_range (400 * era + 100 * c + 4 * q + s + 1)
  have last := leapDay_cycle era cycle
  have day := cycle.day
  rw [dayOf]
  generalize 400 * era + 100 * c + 4 * q + s = year at leap last ⊢
  generalize place : (5 * d + 2) / 153 = mp
  have range : 0 ≤ mp ∧ mp ≤ 11 := by omega
  refine ⟨by dsimp only; split <;> omega, ?_⟩
  dsimp only
  rw [monthLength_eq]
  have cases : mp = 0 ∨ mp = 1 ∨ mp = 2 ∨ mp = 3 ∨ mp = 4 ∨ mp = 5 ∨ mp = 6 ∨ mp = 7 ∨ mp = 8 ∨
      mp = 9 ∨ mp = 10 ∨ mp = 11 := by omega
  rcases cases with rfl | rfl | rfl | rfl | rfl | rfl | rfl | rfl | rfl | rfl | rfl | rfl <;>
    norm_num <;> omega

/-- Every number is that of a day. -/
theorem exists_day (z : Int) : ∃ x : Day, x.Valid ∧ x.number = z := by
  obtain ⟨era, c, q, s, d, cycle, place⟩ := cycle_exists (z + 719468)
  have valid := dayOf_valid era cycle
  obtain ⟨year, inYear⟩ := dayOf_march (400 * era + 100 * c + 4 * q + s) cycle.day
  refine ⟨_, valid, ?_⟩
  rw [Day.number_eq valid.month, year, inYear, marchNumber_cycle cycle]
  omega

theorem Day.cycle {x : Day} (valid : x.Valid) : ∃ era c q s, Cycle c q s x.inMarchYear ∧
    x.marchYear = 400 * era + 100 * c + 4 * q + s := by
  have day := valid.day
  have leap := leapDay_eq x.year
  have last : x.inMarchYear ≤ 365 ∧ 0 ≤ x.inMarchYear ∧
      (x.inMarchYear = 365 → x.month = 2 ∧ leapDay x.year = 1) := by
    have flag := leapDay_range x.year
    rw [monthLength_eq] at day
    rw [Day.inMarchYear]
    rcases months valid.month with h | h | h | h | h | h | h | h | h | h | h | h <;>
      rw [h] at day ⊢ <;> norm_num at day ⊢ <;> omega
  refine ⟨x.marchYear / 400, x.marchYear % 400 / 100, x.marchYear % 100 / 4, x.marchYear % 4,
    ⟨by omega, by omega, by omega, by omega, fun full => ?_⟩, by omega⟩
  obtain ⟨february, one⟩ := last.2.2 full
  rw [Day.marchYear, if_pos (by omega)]
  omega

theorem Day.eq_dayOf {x : Day} (valid : x.Valid) : x = dayOf x.marchYear x.inMarchYear := by
  have day := valid.day
  have flag := leapDay_range x.year
  obtain ⟨year, month, day⟩ := x
  simp only [dayOf, Day.marchYear, Day.inMarchYear, Day.mk.injEq, monthLength_eq] at *
  rcases months valid.month with h | h | h | h | h | h | h | h | h | h | h | h <;>
    dsimp only at h <;> subst h <;> norm_num at * <;> omega

end Chaaya.Calendar
