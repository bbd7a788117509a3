import Chaaya.Calendar

/-! # Times and dates of SRFI 19 (`lib/srfi/19.sld`)

The conversions between seconds and calendar dates. The built-in `make-time` holds 64-bit
seconds. -/

namespace Chaaya.Srfi19

open Calendar

/-! ## The library -/

structure Time where
  second : Int
  nanosecond : Int
  deriving DecidableEq

structure Date where
  nanosecond : Int
  second : Int
  minute : Int
  hour : Int
  day : Int
  month : Int
  year : Int
  zoneOffset : Int
  deriving DecidableEq

def fitsInt64 (n : Int) : Prop := -2 ^ 63 ≤ n ∧ n < 2 ^ 63

instance : DecidablePred fitsInt64 := fun n =>
  inferInstanceAs (Decidable (-2 ^ 63 ≤ n ∧ n < 2 ^ 63))

/-- `prim_make_time`: nanoseconds and seconds, or the other way round where only that is in
range. -/
def makeTime (a b : Int) : Except String Time :=
  if ¬(fitsInt64 a ∧ fitsInt64 b) then .error "make-time: integer argument out of range"
  else
    let swapped := (a < 0 ∨ a ≥ 1000000000) ∧ b ≥ 0 ∧ b < 1000000000
    let nanoseconds := if swapped then b else a
    let seconds := if swapped then a else b
    if nanoseconds < 0 ∨ nanoseconds ≥ 1000000000 then
      .error "make-time: nanosecond out of range"
    else .ok ⟨seconds, nanoseconds⟩

def leapYear (y : Int) : Bool := y % 4 == 0 && (!(y % 100 == 0) || y % 400 == 0)

def daysInMonth (m y : Int) : Int :=
  if m ∈ [1, 3, 5, 7, 8, 10, 12] then 31
  else if m ∈ [4, 6, 9, 11] then 30
  else if m = 2 then (if leapYear y then 29 else 28)
  else 30

/-- `(list-ref t (- m 1))`, which fails off the table. -/
def weekShift (m : Int) : Option Int :=
  let t : List Int := [0, 3, 2, 5, 0, 3, 5, 1, 4, 6, 2, 4]
  if m < 1 then none else t[(m - 1).toNat]?

def dateWeekDay (date : Date) : Option Int := do
  let y := date.year
  let m := date.month
  let d := date.day
  let yr := if m < 3 then y - 1 else y
  let shift ← weekShift m
  return (yr + yr.tdiv 4 + -(yr.tdiv 100) + yr.tdiv 400 + shift + d) % 7

/-- The end of `days->ymd`: month and day in the year from March. -/
def ymdOfYear (y doy : Int) : Day :=
  let mp := (5 * doy + 2).tdiv 153
  let d := doy - (153 * mp + 2).tdiv 5 + 1
  let m := mp + (if mp < 10 then 3 else -9)
  let yr := y + (if m ≤ 2 then 1 else 0)
  ⟨yr, m, d⟩

def daysToYmd (z : Int) : Day :=
  let era := (if z ≥ 0 then z else z - 146096).tdiv 146097
  let doe := z - era * 146097
  let yoe := (doe - doe.tdiv 1460 - doe.tdiv 36524 - -(doe.tdiv 146096)).tdiv 365
  let y := yoe + era * 400
  let doy := doe - (365 * yoe + yoe.tdiv 4 - yoe.tdiv 100)
  ymdOfYear y doy

def epochToDate (secs ns offset : Int) : Date :=
  let days := secs.tdiv 86400
  let rem := secs % 86400
  let hr := rem.tdiv 3600
  let rem2 := rem % 3600
  let mn := rem2.tdiv 60
  let sc := rem2 % 60
  let ymd := daysToYmd (days + 719468)
  ⟨ns, sc, mn, hr, ymd.day, ymd.month, ymd.year, offset⟩

def timeUtcToDate (t : Time) (offset : Int) : Date :=
  epochToDate (t.second + offset) t.nanosecond offset

def ymdToDays (y m d : Int) : Int :=
  let yr := if m ≤ 2 then y - 1 else y
  let era := (if yr ≥ 0 then yr else yr - 399).tdiv 400
  let yoe := yr - era * 400
  let mo := if m ≤ 2 then m + 9 else m - 3
  let doy := (153 * mo + 2).tdiv 5 + (d - 1)
  let doe := doy + (365 * yoe + yoe.tdiv 4 - yoe.tdiv 100)
  doe + era * 146097 - 719468

def dateToTimeUtc (date : Date) : Except String Time :=
  let epochDays := ymdToDays date.year date.month date.day
  let secs := date.hour * 3600 + date.minute * 60 + date.second
  makeTime date.nanosecond (epochDays * 86400 + secs - date.zoneOffset)

/-! ## What the conversions should do -/

structure Time.Valid (t : Time) : Prop where
  second : fitsInt64 t.second
  nanosecond : 0 ≤ t.nanosecond ∧ t.nanosecond < 1000000000

def Date.calendarDay (date : Date) : Day := ⟨date.year, date.month, date.day⟩

structure Date.Valid (date : Date) : Prop where
  calendarDay : date.calendarDay.Valid
  hour : 0 ≤ date.hour ∧ date.hour < 24
  minute : 0 ≤ date.minute ∧ date.minute < 60
  second : 0 ≤ date.second ∧ date.second < 60
  nanosecond : 0 ≤ date.nanosecond ∧ date.nanosecond < 1000000000

/-- The seconds of a date from 1970 in its own zone. -/
def Date.localSeconds (date : Date) : Int :=
  date.calendarDay.number * 86400 + date.hour * 3600 + date.minute * 60 + date.second

structure TimeRight (t : Time) (offset : Int) : Prop where
  valid : (timeUtcToDate t offset).Valid
  seconds : (timeUtcToDate t offset).localSeconds = t.second + offset
  nanosecond : (timeUtcToDate t offset).nanosecond = t.nanosecond
  zoneOffset : (timeUtcToDate t offset).zoneOffset = offset
  back : dateToTimeUtc (timeUtcToDate t offset) = .ok t

def DateRight (date : Date) : Prop :=
  ∃ t, dateToTimeUtc date = .ok t ∧ timeUtcToDate t date.zoneOffset = date

/-- 1970-01-01 was a Thursday. -/
def WeekDayRight (date : Date) : Prop :=
  dateWeekDay date = some ((date.calendarDay.number + 4) % 7)

/-- The days that are taken for days of the year before: the first ones of March, two more in
each century of the 400 years. -/
def Early (x : Day) : Prop := x.month = 3 ∧ x.day ≤ 2 * (x.year % 400 / 100)

instance : DecidablePred Early := fun x =>
  inferInstanceAs (Decidable (x.month = 3 ∧ x.day ≤ 2 * (x.year % 400 / 100)))

/-- Seconds whose truncated quotient by a day is the number of their day. -/
def Counted (seconds : Int) : Prop := 0 ≤ seconds ∨ seconds % 86400 = 0

/-! ## Days -/

/-- The quotient of an era is rounded down: a negative dividend is moved before it is cut. -/
theorem era_quotient {z k : Int} (pos : 0 < k) :
    (if z ≥ 0 then z else z - (k - 1)).tdiv k = z / k := by
  split
  next nonneg => exact Int.tdiv_eq_ediv_of_nonneg nonneg
  next neg =>
    have division := Int.mul_ediv_add_emod z k
    have low := Int.emod_nonneg z (Int.ne_of_gt pos)
    have high := Int.emod_lt_of_pos z pos
    have flipped : -(z - (k - 1)) = (k - 1 - z % k) + k * -(z / k) := by
      rw [Int.mul_neg]
      omega
    rw [← Int.neg_neg (z - (k - 1)), Int.neg_tdiv, Int.tdiv_eq_ediv_of_nonneg (by omega), flipped,
      Int.add_mul_ediv_left _ _ (Int.ne_of_gt pos), Int.ediv_eq_zero_of_lt (by omega) (by omega),
      Int.zero_add, Int.neg_neg]

theorem ymdToDays_eq {x : Day} (month : 1 ≤ x.month ∧ x.month ≤ 12) :
    ymdToDays x.year x.month x.day = x.number := by
  have year : (if x.month ≤ 2 then x.year - 1 else x.year) = x.marchYear := rfl
  have place : (if x.month ≤ 2 then x.month + 9 else x.month - 3) = (x.month + 9) % 12 := by
    split <;> omega
  have era : (if x.marchYear ≥ 0 then x.marchYear else x.marchYear - 399).tdiv 400 =
      x.marchYear / 400 := era_quotient (k := 400) (by decide)
  rw [Day.number_eq month, marchNumber, ymdToDays, Day.inMarchYear, year, place, era,
    Int.tdiv_eq_ediv_of_nonneg (show 0 ≤ 153 * ((x.month + 9) % 12) + 2 by omega),
    Int.tdiv_eq_ediv_of_nonneg (show 0 ≤ x.marchYear - x.marchYear / 400 * 400 by omega),
    Int.tdiv_eq_ediv_of_nonneg (show 0 ≤ x.marchYear - x.marchYear / 400 * 400 by omega)]
  omega

/-- Where an overrun of a year from March ends up. -/
def overrun (year d : Int) : Day :=
  if d ≤ 366 then ⟨year + 1, 2, d - 336⟩ else ⟨year, 3, d - 366⟩

/-- The year of a day in its era: one too small for the first days of its later centuries. -/
theorem yearOfEra {c q s d : Int} (cycle : Cycle c q s d) {doe : Int}
    (place : doe = 36524 * c + 1461 * q + 365 * s + d) :
    (doe - doe.tdiv 1460 - doe.tdiv 36524 - -(doe.tdiv 146096)).tdiv 365 =
      if d < 2 * c then 100 * c + 4 * q + s - 1 else 100 * c + 4 * q + s := by
  obtain ⟨century, fourth, year, day, leap⟩ := cycle
  have nonneg : 0 ≤ doe := by omega
  have centuries : doe / 36524 - doe / 146096 = c := by
    by_cases last : doe = 146096
    · obtain rfl : c = 3 := by omega
      rw [last]
      rfl
    · have inCentury : 1461 * q + 365 * s + d < 36524 := by omega
      have first : doe / 36524 = c := by omega
      have second : doe / 146096 = 0 := by omega
      rw [first, second, Int.sub_zero]
  obtain ⟨e, low, high⟩ : ∃ e, 1460 * e ≤ 24 * c + q + 365 * s + d ∧
      24 * c + q + 365 * s + d < 1460 * e + 1460 :=
    ⟨(24 * c + q + 365 * s + d) / 1460, by omega, by omega⟩
  have cycles : doe / 1460 = 25 * c + q + e := by omega
  have extra : 0 ≤ e ∧ e ≤ 1 ∧ (e = 1 → 6 < d) ∧ (d = 365 → e = 1) := by omega
  rw [Int.tdiv_eq_ediv_of_nonneg nonneg, Int.tdiv_eq_ediv_of_nonneg nonneg,
    Int.tdiv_eq_ediv_of_nonneg nonneg]
  have number : doe - doe / 1460 - doe / 36524 - -(doe / 146096) =
      365 * (100 * c + 4 * q + s) + (d - e - 2 * c) := by omega
  clear low high cycles centuries leap place
  rw [number, Int.tdiv_eq_ediv_of_nonneg (by omega)]
  split <;> omega

theorem ymdOfYear_inside {d : Int} (year : Int) (range : 0 ≤ d ∧ d ≤ 366) :
    ymdOfYear year d = dayOf year d := by
  rw [ymdOfYear, dayOf, Int.tdiv_eq_ediv_of_nonneg (show 0 ≤ 5 * d + 2 by omega)]
  have bound : 0 ≤ (5 * d + 2) / 153 ∧ (5 * d + 2) / 153 ≤ 11 := by omega
  generalize (5 * d + 2) / 153 = mp at bound ⊢
  simp only [Int.tdiv_eq_ediv_of_nonneg (show 0 ≤ 153 * mp + 2 by omega), Day.mk.injEq]
  refine ⟨?_, ?_, trivial⟩ <;> split_ifs <;> omega

theorem ymdOfYear_overrun {d : Int} (year : Int) (range : 365 ≤ d ∧ d ≤ 372) :
    ymdOfYear year d = overrun year d := by
  rw [ymdOfYear, overrun, Int.tdiv_eq_ediv_of_nonneg (show 0 ≤ 5 * d + 2 by omega)]
  by_cases february : d ≤ 366
  · have place : (5 * d + 2) / 153 = 11 := by omega
    have before : (153 * 11 + 2 : Int).tdiv 5 = 337 := rfl
    rw [place, if_pos february, Day.mk.injEq, before]
    exact ⟨rfl, rfl, by omega⟩
  · have place : (5 * d + 2) / 153 = 12 := by omega
    have before : (153 * 12 + 2 : Int).tdiv 5 = 367 := rfl
    rw [place, if_neg february, Day.mk.injEq, before]
    exact ⟨Int.add_zero year, rfl, by omega⟩

theorem daysToYmd_cycle {era c q s d : Int} (cycle : Cycle c q s d) :
    daysToYmd (146097 * era + 36524 * c + 1461 * q + 365 * s + d) =
      if d < 2 * c then
        overrun (400 * era + 100 * c + 4 * q + s - 1)
          (d + 365 + leapDay (400 * era + 100 * c + 4 * q + s))
      else dayOf (400 * era + 100 * c + 4 * q + s) d := by
  have place := yearOfEra cycle rfl
  obtain ⟨century, fourth, year, day, leap⟩ := cycle
  have eraEq := era_quotient (z := 146097 * era + 36524 * c + 1461 * q + 365 * s + d)
    (k := 146097) (by decide)
  rw [show (146097 * era + 36524 * c + 1461 * q + 365 * s + d) / 146097 = era by omega] at eraEq
  have rest : 146097 * era + 36524 * c + 1461 * q + 365 * s + d - era * 146097 =
      36524 * c + 1461 * q + 365 * s + d := by omega
  rw [daysToYmd, show (146096 : Int) = 146097 - 1 by rfl, eraEq, rest,
    show (146097 - 1 : Int) = 146096 by rfl, place]
  by_cases early : d < 2 * c
  · have flag := leapDay_range (400 * era + 100 * c + 4 * q + s)
    have count := leapDay_eq (400 * era + 100 * c + 4 * q + s)
    simp only [if_pos early]
    rw [Int.tdiv_eq_ediv_of_nonneg (show 0 ≤ 100 * c + 4 * q + s - 1 by omega),
      Int.tdiv_eq_ediv_of_nonneg (show 0 ≤ 100 * c + 4 * q + s - 1 by omega),
      ← ymdOfYear_overrun _ (by omega)]
    congr 1 <;> omega
  · simp only [if_neg early]
    rw [Int.tdiv_eq_ediv_of_nonneg (show 0 ≤ 100 * c + 4 * q + s by omega),
      Int.tdiv_eq_ediv_of_nonneg (show 0 ≤ 100 * c + 4 * q + s by omega),
      ← ymdOfYear_inside _ (by omega)]
    congr 1 <;> omega

/-- Day numbers are turned back into days, but for the early ones. -/
theorem daysToYmd_number {x : Day} (valid : x.Valid) :
    daysToYmd (x.number + 719468) =
      if Early x then overrun (x.year - 1) (x.day + 364 + leapDay x.year) else x := by
  obtain ⟨era, c, q, s, cycle, year⟩ := Day.cycle valid
  have month := valid.month
  have place : x.number + 719468 =
      146097 * era + 36524 * c + 1461 * q + 365 * s + x.inMarchYear := by
    rw [Day.number_eq month, year, marchNumber_cycle cycle]
    omega
  have early : x.inMarchYear < 2 * c ↔ Early x := by
    have century := cycle.century
    have fourth := cycle.cycle
    have first := cycle.year
    have day := valid.day.1
    rw [Day.marchYear] at year
    rw [Early, Day.inMarchYear]
    constructor
    · intro less
      have march : x.month = 3 := by omega
      rw [march, if_neg (by decide)] at year
      omega
    · rintro ⟨march, few⟩
      rw [march, if_neg (by decide)] at year
      omega
  rw [place, daysToYmd_cycle cycle, ← year]
  by_cases first : Early x
  · rw [if_pos (early.mpr first), if_pos first]
    have march := first.1
    rw [Day.marchYear, Day.inMarchYear, march, if_neg (by decide)]
    congr 1
    omega
  · rw [if_neg (mt early.mp first), if_neg first]
    exact (Day.eq_dayOf valid).symm

/-- What comes out for an early day is no day of the calendar, or about a year off. -/
theorem overrun_number {x : Day} (valid : x.Valid) (early : Early x)
    (overrunValid : (overrun (x.year - 1) (x.day + 364 + leapDay x.year)).Valid) :
    (overrun (x.year - 1) (x.day + 364 + leapDay x.year)).number < x.number - 1 := by
  obtain ⟨march, few⟩ := early
  have flag := leapDay_range x.year
  have pos := valid.day.1
  rw [overrun] at overrunValid ⊢
  split at overrunValid
  next february =>
    have last := overrunValid.day.2
    rw [monthLength_eq, Int.sub_add_cancel] at last
    dsimp only at last
    omega
  next other =>
    rw [if_neg other, Day.number_eq overrunValid.month, Day.number_eq valid.month]
    simp only [marchNumber, Day.marchYear, Day.inMarchYear, march]
    norm_num
    omega

theorem quotient_neg {z : Int} (neg : z < 0) (k : Int) : z.tdiv k = -(-z / k) := by
  rw [← Int.tdiv_eq_ediv_of_nonneg (by omega), Int.neg_tdiv, Int.neg_neg]

theorem counted_quotient {z : Int} (counted : Counted z) : z.tdiv 86400 = z / 86400 := by
  rcases counted with nonneg | whole
  · exact Int.tdiv_eq_ediv_of_nonneg nonneg
  · by_cases nonneg : 0 ≤ z
    · exact Int.tdiv_eq_ediv_of_nonneg nonneg
    · rw [quotient_neg (by omega)]
      omega

theorem uncounted_quotient {z : Int} (uncounted : ¬Counted z) : z.tdiv 86400 = z / 86400 + 1 := by
  obtain ⟨neg, rest⟩ := not_or.mp uncounted
  rw [quotient_neg (by omega)]
  omega

/-! ## Dates -/

theorem makeTime_eq {ns secs : Int} (range : 0 ≤ ns ∧ ns < 1000000000) :
    makeTime ns secs = if fitsInt64 secs then .ok ⟨secs, ns⟩
      else .error "make-time: integer argument out of range" := by
  have fits : fitsInt64 ns := ⟨by omega, by omega⟩
  have kept : ¬((ns < 0 ∨ ns ≥ 1000000000) ∧ secs ≥ 0 ∧ secs < 1000000000) := by omega
  rw [makeTime]
  by_cases whole : fitsInt64 secs
  · rw [if_pos whole, if_neg (not_not.mpr ⟨fits, whole⟩)]
    simp only [kept, if_false]
    rw [if_neg (by omega)]
  · rw [if_neg whole, if_pos (fun both => whole both.2)]

theorem dateToTimeUtc_eq {date : Date} (valid : date.Valid) :
    dateToTimeUtc date = if fitsInt64 (date.localSeconds - date.zoneOffset) then
        .ok ⟨date.localSeconds - date.zoneOffset, date.nanosecond⟩
      else .error "make-time: integer argument out of range" := by
  have days : ymdToDays date.year date.month date.day = date.calendarDay.number :=
    ymdToDays_eq (x := date.calendarDay) valid.calendarDay.month
  have seconds : date.calendarDay.number * 86400 +
      (date.hour * 3600 + date.minute * 60 + date.second) - date.zoneOffset =
      date.localSeconds - date.zoneOffset := by
    rw [Date.localSeconds]
    omega
  rw [dateToTimeUtc, days, seconds]
  exact makeTime_eq valid.nanosecond

/-- The time of the day is right for any seconds. -/
theorem timeUtcToDate_clock (t : Time) (offset : Int) :
    let date := timeUtcToDate t offset
    (0 ≤ date.hour ∧ date.hour < 24) ∧ (0 ≤ date.minute ∧ date.minute < 60) ∧
      (0 ≤ date.second ∧ date.second < 60) ∧
      date.hour * 3600 + date.minute * 60 + date.second = (t.second + offset) % 86400 := by
  rw [timeUtcToDate, epochToDate]
  dsimp only
  rw [Int.tdiv_eq_ediv_of_nonneg (show 0 ≤ (t.second + offset) % 86400 by omega),
    Int.tdiv_eq_ediv_of_nonneg (show 0 ≤ (t.second + offset) % 86400 % 3600 by omega)]
  omega

theorem timeUtcToDate_day (t : Time) (offset : Int) :
    (timeUtcToDate t offset).calendarDay = daysToYmd ((t.second + offset).tdiv 86400 + 719468) :=
  rfl

theorem timeRight_iff {t : Time} {offset : Int} (time : t.Valid) :
    TimeRight t offset ↔ Counted (t.second + offset) ∧
      ∀ x : Day, x.Valid → x.number = (t.second + offset) / 86400 → ¬Early x := by
  obtain ⟨hour, minute, second, clock⟩ := timeUtcToDate_clock t offset
  have day := timeUtcToDate_day t offset
  have whole : (timeUtcToDate t offset).localSeconds =
      (timeUtcToDate t offset).calendarDay.number * 86400 + (t.second + offset) % 86400 := by
    rw [Date.localSeconds, ← clock]
    omega
  constructor
  · intro right
    have number : (timeUtcToDate t offset).calendarDay.number = (t.second + offset) / 86400 := by
      have seconds := right.seconds
      rw [whole] at seconds
      omega
    have calendar := right.valid.calendarDay
    rw [day] at number calendar
    by_cases counted : Counted (t.second + offset)
    · refine ⟨counted, fun x valid same early => ?_⟩
      rw [counted_quotient counted, ← same, daysToYmd_number valid, if_pos early]
        at number calendar
      have apart := overrun_number valid early calendar
      omega
    · -- the day after, if any
      obtain ⟨x, valid, same⟩ := exists_day ((t.second + offset) / 86400 + 1)
      rw [uncounted_quotient counted, ← same, daysToYmd_number valid] at number calendar
      by_cases early : Early x
      · rw [if_pos early] at number calendar
        have apart := overrun_number valid early calendar
        omega
      · rw [if_neg early] at number
        omega
  · rintro ⟨counted, none⟩
    obtain ⟨x, valid, same⟩ := exists_day ((t.second + offset) / 86400)
    have found : (timeUtcToDate t offset).calendarDay = x := by
      rw [day, counted_quotient counted, ← same, daysToYmd_number valid,
        if_neg (none x valid same)]
    have dateValid : (timeUtcToDate t offset).Valid :=
      ⟨found ▸ valid, hour, minute, second, time.nanosecond⟩
    have seconds : (timeUtcToDate t offset).localSeconds = t.second + offset := by
      rw [whole, found, same]
      omega
    refine ⟨dateValid, seconds, rfl, rfl, ?_⟩
    have zone : (timeUtcToDate t offset).zoneOffset = offset := rfl
    rw [dateToTimeUtc_eq dateValid, seconds, zone, Int.add_sub_cancel, if_pos time.second]
    rfl

theorem Date.eq_of {a b : Date} (day : a.calendarDay = b.calendarDay)
    (clock : a.hour = b.hour ∧ a.minute = b.minute ∧ a.second = b.second)
    (nanosecond : a.nanosecond = b.nanosecond) (zone : a.zoneOffset = b.zoneOffset) : a = b := by
  obtain ⟨hour, minute, second⟩ := clock
  obtain ⟨year, month, day⟩ := Day.mk.inj day
  cases a
  cases b
  rw [Date.mk.injEq]
  exact ⟨nanosecond, second, minute, hour, day, month, year, zone⟩

theorem dateRight_iff {date : Date} (valid : date.Valid) :
    DateRight date ↔ fitsInt64 (date.localSeconds - date.zoneOffset) ∧
      Counted date.localSeconds ∧ ¬Early date.calendarDay := by
  have hour := valid.hour
  have minute := valid.minute
  have second := valid.second
  have days : date.localSeconds / 86400 = date.calendarDay.number := by
    rw [Date.localSeconds]
    omega
  have seconds := dateToTimeUtc_eq valid
  by_cases fits : fitsInt64 (date.localSeconds - date.zoneOffset)
  · rw [if_pos fits] at seconds
    have time : (Time.mk (date.localSeconds - date.zoneOffset) date.nanosecond).Valid :=
      ⟨fits, valid.nanosecond⟩
    have right : TimeRight ⟨date.localSeconds - date.zoneOffset, date.nanosecond⟩
        date.zoneOffset ↔ _ := timeRight_iff time
    dsimp only at right
    rw [Int.sub_add_cancel, days] at right
    constructor
    · rintro ⟨t, made, again⟩
      obtain rfl := Except.ok.inj (seconds.symm.trans made)
      have holds : TimeRight _ date.zoneOffset := ⟨again ▸ valid, by
        rw [again]
        exact (Int.sub_add_cancel ..).symm, rfl, rfl, by rw [again, seconds]⟩
      obtain ⟨counted, none⟩ := right.mp holds
      exact ⟨fits, counted, none _ valid.calendarDay rfl⟩
    · rintro ⟨-, counted, late⟩
      obtain ⟨hour', minute', second', clock⟩ :=
        timeUtcToDate_clock ⟨date.localSeconds - date.zoneOffset, date.nanosecond⟩ date.zoneOffset
      have rest : date.localSeconds % 86400 =
          date.hour * 3600 + date.minute * 60 + date.second := by
        rw [Date.localSeconds]
        omega
      dsimp only at clock
      rw [Int.sub_add_cancel, rest] at clock
      refine ⟨_, seconds, Date.eq_of ?_ ⟨by omega, by omega, by omega⟩ rfl rfl⟩
      rw [timeUtcToDate_day, Int.sub_add_cancel, counted_quotient counted, days]
      exact (daysToYmd_number valid.calendarDay).trans (if_neg late)
  · rw [if_neg fits] at seconds
    refine ⟨fun ⟨t, made, _⟩ => ?_, fun both => absurd both.1 fits⟩
    rw [seconds] at made
    cases made

/-! ## Days of the week -/

/-- The leap days before a year, with truncated quotients. -/
theorem leapDays_truncated (y : Int) : y.tdiv 4 + -(y.tdiv 100) + y.tdiv 400 =
    y / 4 - y / 100 + y / 400 + (if y < 0 ∧ ¬Leap y then 1 else 0) := by
  by_cases neg : y < 0
  · rw [quotient_neg neg, quotient_neg neg, quotient_neg neg]
    by_cases leap : Leap y
    · rw [if_neg fun both => both.2 leap]
      obtain ⟨four, other⟩ := leap
      omega
    · rw [if_pos ⟨neg, leap⟩]
      have common : ¬(y % 4 = 0 ∧ (y % 100 ≠ 0 ∨ y % 400 = 0)) := leap
      omega
  · rw [if_neg fun both => neg both.1, Int.tdiv_eq_ediv_of_nonneg (by omega),
      Int.tdiv_eq_ediv_of_nonneg (by omega), Int.tdiv_eq_ediv_of_nonneg (by omega)]
    omega

theorem weekShift_eq {m : Int} (range : 1 ≤ m ∧ m ≤ 12) :
    ∃ shift, weekShift m = some shift ∧
      shift % 7 = ((153 * ((m + 9) % 12) + 2) / 5 + 2) % 7 := by
  rcases months range with rfl | rfl | rfl | rfl | rfl | rfl | rfl | rfl | rfl | rfl | rfl | rfl <;>
    exact ⟨_, rfl, rfl⟩

theorem dateWeekDay_eq {date : Date} (valid : date.Valid) :
    dateWeekDay date = some ((date.calendarDay.number + 4 +
      (if date.calendarDay.marchYear < 0 ∧ ¬Leap date.calendarDay.marchYear then 1 else 0)) %
        7) := by
  have month : 1 ≤ date.month ∧ date.month ≤ 12 := valid.calendarDay.month
  obtain ⟨shift, found, place⟩ := weekShift_eq month
  have year : (if date.month < 3 then date.year - 1 else date.year) =
      date.calendarDay.marchYear := by
    rw [Day.marchYear]
    dsimp only [Date.calendarDay]
    split_ifs <;> omega
  have leaps := leapDays_truncated date.calendarDay.marchYear
  rw [Day.number_eq valid.calendarDay.month, marchNumber]
  have inYear : date.calendarDay.inMarchYear =
      (153 * ((date.month + 9) % 12) + 2) / 5 + date.day - 1 := rfl
  rw [inYear, dateWeekDay, found, year]
  show some _ = some _
  rw [Option.some_inj]
  omega

theorem weekDayRight_iff {date : Date} (valid : date.Valid) :
    WeekDayRight date ↔
      ¬(date.calendarDay.marchYear < 0 ∧ ¬Leap date.calendarDay.marchYear) := by
  rw [WeekDayRight, dateWeekDay_eq valid, Option.some_inj]
  split
  · next wrong => exact ⟨fun same => by omega, fun right => absurd wrong right⟩
  · next right => exact ⟨fun _ => right, fun _ => by rw [Int.add_zero]⟩

/-- The calendar of SRFI 19 for a time, an offset and a date. -/
theorem calendarRight_iff (t : Time) (offset : Int) (date : Date) (time : t.Valid)
    (valid : date.Valid) :
    (TimeRight t offset ↔ Counted (t.second + offset) ∧
      ∀ x : Day, x.Valid → x.number = (t.second + offset) / 86400 → ¬Early x) ∧
    (DateRight date ↔ fitsInt64 (date.localSeconds - date.zoneOffset) ∧
      Counted date.localSeconds ∧ ¬Early date.calendarDay) ∧
    ymdToDays date.calendarDay.next.year date.calendarDay.next.month date.calendarDay.next.day =
      ymdToDays date.year date.month date.day + 1 ∧
    (WeekDayRight date ↔
      ¬(date.calendarDay.marchYear < 0 ∧ ¬Leap date.calendarDay.marchYear)) := by
  refine ⟨timeRight_iff time, dateRight_iff valid, ?_, weekDayRight_iff valid⟩
  rw [ymdToDays_eq (Day.next_valid valid.calendarDay).month,
    Day.next_number valid.calendarDay]
  exact congrArg (· + 1) (ymdToDays_eq (x := date.calendarDay) valid.calendarDay.month).symm

/-- Noon of 2000-02-29 in UTC. -/
def leapNoon : Date := ⟨0, 0, 0, 12, 29, 2, 2000, 0⟩

theorem leapNoon_valid : leapNoon.Valid := by
  refine ⟨⟨?_, ?_⟩, ?_, ?_, ?_, ?_⟩ <;> decide

theorem leapNoon_right : DateRight leapNoon :=
  (calendarRight_iff ⟨0, 0⟩ 0 leapNoon ⟨by decide, by decide⟩ leapNoon_valid).2.1.mpr
    ⟨by decide, .inl (by decide), by decide⟩

/-- Noon of 1970-03-01 in UTC. -/
def firstOfMarch : Date := ⟨0, 0, 0, 12, 1, 3, 1970, 0⟩

theorem firstOfMarch_valid : firstOfMarch.Valid := by
  refine ⟨⟨?_, ?_⟩, ?_, ?_, ?_, ?_⟩ <;> decide

/-- The first of March 1970 is taken for a 29th of February. -/
theorem firstOfMarch_lost :
    timeUtcToDate ⟨59 * 86400 + 43200, 0⟩ 0 = ⟨0, 0, 0, 12, 29, 2, 1970, 0⟩ ∧
      ¬TimeRight ⟨59 * 86400 + 43200, 0⟩ 0 ∧ ¬DateRight firstOfMarch ∧
      ¬TimeRight ⟨-1, 0⟩ 0 ∧ ¬WeekDayRight ⟨0, 0, 0, 0, 1, 3, -1, 0⟩ := by
  have early : Early firstOfMarch.calendarDay := by decide
  have valid := firstOfMarch_valid.calendarDay
  refine ⟨by decide, fun right => ?_, fun right => ?_, fun right => ?_, ?_⟩
  · have cond := (timeRight_iff ⟨by decide, by decide⟩).mp right
    exact cond.2 _ valid (by decide) early
  · exact ((dateRight_iff firstOfMarch_valid).mp right).2.2 early
  · have cond := ((timeRight_iff ⟨by decide, by decide⟩).mp right).1
    exact absurd cond (by rintro (nonneg | whole) <;> contradiction)
  · rw [WeekDayRight]
    decide

end Chaaya.Srfi19
