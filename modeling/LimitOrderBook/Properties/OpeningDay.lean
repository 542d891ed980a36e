import LimitOrderBook.Properties.WorkingHours
import LimitOrderBook.Lib.Calendar
import Mathlib.Order.Bounds.Defs
import Mathlib.Tactic.SplitIfs

/-!
# The next opening day

The day until which the thread of the working hours sleeps in the evening, and when it is the
next one of Monday to Friday (`LimitOrderBook.nextOpeningDay_iff`). The weekday is computed
with `day_of_week`, which wants a month that starts at 1 and a full year, and is given `tm_mon`,
which starts at 0, and `tm_year`, which starts at 1900:

* in January the table is read in front of its first entry;
* in the other months the weekday of a date in the month before is computed, in a year that is
  1900 years too early. It is some days behind (`LimitOrderBook.WorkingThread.weekdayLag`), in
  no month and no year by a whole number of weeks.

So the day is right when the date is not in January and neither the weekday nor the one that is
taken for it asks for more than one day.
-/

namespace LimitOrderBook

open Calendar

namespace WorkingThread

/-! ### What is asked for -/

/-- The date that `localtime` fills in: months start at 0, years at 1900. -/
def localTime (day : ℤ) : CalendarDay :=
  ⟨(dateOf day.toNat).day, (dateOf day.toNat).month - 1, (dateOf day.toNat).year - 1900⟩

/-- Monday to Friday. -/
def IsWorkday (n : ℕ) : Prop := 1 ≤ weekday n ∧ weekday n ≤ 5

/-- **The thread wakes up on the next workday**, and no entry of the table is read that there
is not. -/
def WakesOnWorkday (n : ℕ) (now : ℤ) : Prop :=
  ∃ next day, nextTimePoint localTime now = .ok next ∧ next / 86400 = ((day : ℕ) : ℤ) ∧
    IsLeast {d | n < d ∧ IsWorkday d} day

/-- By how many days the weekday is behind that the source computes for a date after January. -/
def weekdayLag (d : Date) : ℕ :=
  (if d.month = 3 then (if IsLeap d.year then 2 else 1)
    else if d.month = 5 ∨ d.month = 7 ∨ d.month = 10 ∨ d.month = 12 then 3 else 4) +
  if (d.year - 1900 - if d.month ≤ 3 then 1 else 0) % 400 < 100 then 0 else 1

/-- The day is not in January, and neither its weekday nor the one that is computed is a Friday
or a Saturday. -/
structure KeepsWeekday (n : ℕ) : Prop where
  month : (dateOf n).month ≠ 1
  weekday : weekday n ≠ 5 ∧ weekday n ≠ 6
  computed : (Calendar.weekday n + 7 - weekdayLag (dateOf n)) % 7 ≠ 5 ∧
    (Calendar.weekday n + 7 - weekdayLag (dateOf n)) % 7 ≠ 6

/-! ### The weekday that is computed -/

/-- The lag is at least a day, and not a week. -/
theorem weekdayLag_bounds (d : Date) : 1 ≤ weekdayLag d ∧ weekdayLag d ≤ 5 := by
  rw [weekdayLag]
  split_ifs <;> norm_num

/-- `day_of_week` within its table. -/
theorem dayOfWeek_eq {d m c : ℕ} {y : ℤ} (hm : 1 ≤ m) (hm' : m ≤ 12)
    (hc : (if (m : ℤ) < 3 then y - 1 else y) = c) :
    dayOfWeek d m y =
      .ok (((c + c / 4 + c / 400 + monthShift m + d - c / 100) % 7 : ℕ) : ℤ) := by
  have htable : deref dayOfWeekTable[((m : ℤ) - 1).toNat]? = .ok ((monthShift m : ℕ) : ℤ) := by
    interval_cases m <;> rfl
  have hneg : ¬ (m : ℤ) - 1 < 0 := by omega
  have hsum : (c : ℤ) + (c : ℤ).tdiv 4 - (c : ℤ).tdiv 100 + (c : ℤ).tdiv 400 + monthShift m + d =
      ((c + c / 4 + c / 400 + monthShift m + d - c / 100 : ℕ) : ℤ) := by
    have h4 : (c : ℤ).tdiv 4 = (c / 4 : ℕ) := (Int.ofNat_tdiv c 4).symm
    have h100 : (c : ℤ).tdiv 100 = (c / 100 : ℕ) := (Int.ofNat_tdiv c 100).symm
    have h400 : (c : ℤ).tdiv 400 = (c / 400 : ℕ) := (Int.ofNat_tdiv c 400).symm
    rw [h4, h100, h400]
    omega
  rw [dayOfWeek, hc, if_neg hneg, htable, ok_bind, hsum]
  rfl

/-- The years, 1900 years later. -/
theorem years_add (z : ℕ) : (z + 1900) / 4 = z / 4 + 475 ∧ (z + 1900) / 100 = z / 100 + 19 ∧
    (z + 1900) / 400 = z / 400 + 4 + if z % 400 < 100 then 0 else 1 := by
  refine ⟨by omega, by omega, ?_⟩
  split <;> omega

/-- The weekday of a date and the one that is computed, in a year `z` that is too early. -/
theorem weekday_lag {d : Date} {n z : ℕ} (h₁ : 2 ≤ d.month) (h₂ : d.month ≤ 12)
    (hyear : 1970 ≤ d.year) (hz : d.year - 1900 - (if d.month ≤ 3 then 1 else 0) = z)
    (hweek : (countedYear d + countedYear d / 4 + countedYear d / 400 + monthShift d.month +
      d.day) % 7 = (n + 4 + countedYear d / 100) % 7) :
    (z + z / 4 + z / 400 + monthShift (d.month - 1) + d.day - z / 100) % 7 =
      (Calendar.weekday n + 7 - weekdayLag d) % 7 := by
  obtain ⟨h4, h100, h400⟩ := years_add z
  have hle : z / 100 ≤ z := Nat.div_le_self z 100
  have hcentury : (if z % 400 < 100 then 0 else 1) ≤ 1 := by split <;> norm_num
  obtain ⟨year, month, day⟩ := d
  simp only at h₁ h₂ hyear hz hweek ⊢
  rcases eq_or_ne month 3 with rfl | hne
  · -- a year later, with its leap day
    obtain rfl : year = z + 1900 + 1 := by simp at hz; omega
    have hleap := leapDays_succ (z + 1900)
    have hlag : (if IsLeap (z + 1900 + 1) then 2 else 1) =
        1 + if IsLeap (z + 1900 + 1) then 1 else 0 := by split <;> rfl
    have hbound : (if IsLeap (z + 1900 + 1) then 1 else 0) ≤ 1 := by split <;> norm_num
    rw [weekdayLag, hz, Calendar.weekday]
    simp only [countedYear, monthShift, List.getD_cons_succ, List.getD_cons_zero, Nat.reduceLT,
      Nat.reduceSub, if_true, if_false, hlag, h4, h100, h400] at hweek hleap ⊢
    generalize (if z % 400 < 100 then 0 else 1) = e at *
    generalize (if IsLeap (z + 1900 + 1) then 1 else 0) = leap at *
    generalize z / 4 = a, z / 100 = b, z / 400 = c, (z + 1900 + 1) / 4 = a',
      (z + 1900 + 1) / 100 = b', (z + 1900 + 1) / 400 = c' at *
    omega
  · have hcount : countedYear ⟨year, month, day⟩ = z + 1900 := by
      rw [countedYear]
      dsimp only at hz ⊢
      split at hz <;> split <;> omega
    rw [hcount, h4, h100, h400] at hweek
    rw [weekdayLag, hz, Calendar.weekday]
    generalize (if z % 400 < 100 then 0 else 1) = e at *
    generalize z / 4 = a, z / 100 = b, z / 400 = c at *
    interval_cases month <;> simp [monthShift] at hweek hne ⊢ <;> omega

/-- **What the source takes for the weekday** of a date after January. -/
theorem dayOfWeek_localTime {n : ℕ} (hm : (dateOf n).month ≠ 1) :
    dayOfWeek (localTime n).mday (localTime n).mon (localTime n).year =
      .ok (((Calendar.weekday n + 7 - weekdayLag (dateOf n)) % 7 : ℕ) : ℤ) := by
  have hyear := year_dateOf n
  obtain ⟨h₁, h₂, -, -⟩ := valid_dateOf n
  have hmonth : 2 ≤ (dateOf n).month := by omega
  obtain ⟨z, hz⟩ : ∃ z, (dateOf n).year - 1900 - (if (dateOf n).month ≤ 3 then 1 else 0) = z :=
    ⟨_, rfl⟩
  have hmon : (localTime n).mon = ((dateOf n).month - 1 : ℕ) := by
    rw [localTime, Int.toNat_natCast]
    dsimp only
    omega
  have hcounted : (if (((dateOf n).month - 1 : ℕ) : ℤ) < 3 then (localTime n).year - 1
      else (localTime n).year) = z := by
    rw [localTime, Int.toNat_natCast]
    dsimp only
    split at hz <;> split <;> omega
  rw [← weekday_lag hmonth h₂ hyear hz (weekday_eq n), hmon]
  exact dayOfWeek_eq (by omega) (by omega) hcounted

/-- In January the table is read in front of its first entry. -/
theorem dayOfWeek_january {n : ℕ} (hm : (dateOf n).month = 1) :
    dayOfWeek (localTime n).mday (localTime n).mon (localTime n).year = .error .badPointer := by
  have hmon : (localTime n).mon = 0 := by
    rw [localTime, Int.toNat_natCast, hm]
    rfl
  rw [hmon]
  rfl

/-! ### The day -/

/-- How many days the source adds for a weekday. -/
def daysAhead (dow : ℕ) : ℕ := if dow = 5 then 3 else if dow = 6 then 2 else 1

/-- The next workday, by the weekday. -/
theorem isLeast_workday (n : ℕ) : IsLeast {d | n < d ∧ IsWorkday d} (n + daysAhead (weekday n)) := by
  refine ⟨⟨?_, ?_⟩, fun d hd => ?_⟩
  · rw [daysAhead]
    split_ifs <;> omega
  · rw [IsWorkday, weekday, daysAhead, weekday]
    split_ifs <;> omega
  · obtain ⟨hlt, hd⟩ : n < d ∧ IsWorkday d := hd
    rw [IsWorkday, weekday] at hd
    rw [daysAhead, weekday]
    split_ifs <;> omega

/-- A turn that begins after the closing looks at the weekday. -/
theorem nextTimePoint_late {calendar : ℤ → CalendarDay} {now day : ℤ} (hday : now / 86400 = day)
    (hlate : timeOf 0 closingH closingM ≤ now % 86400) : nextTimePoint calendar now =
      dayOfWeek (calendar day).mday (calendar day).mon (calendar day).year >>= fun dow =>
        if dow = 5 then .ok (timeOf (day + 3) openingH openingM)
        else if dow = 6 then .ok (timeOf (day + 2) openingH openingM)
        else .ok (timeOf (day + 1) openingH openingM) := by
  have hopen : timeOf 0 openingH openingM ≤ timeOf 0 closingH closingM := by decide
  rw [nextTimePoint, if_neg (mt before_opening.mp (not_lt.mpr (hopen.trans hlate))),
    if_neg (mt before_closing.mp (not_lt.mpr hlate)), hday]

/-- **The end of such a turn**, by the weekday that is computed. -/
theorem nextTimePoint_of_dayOfWeek {calendar : ℤ → CalendarDay} {now day : ℤ}
    (hday : now / 86400 = day) (hlate : timeOf 0 closingH closingM ≤ now % 86400) {dow : ℕ}
    (hdow : dayOfWeek (calendar day).mday (calendar day).mon (calendar day).year = .ok (dow : ℤ)) :
    nextTimePoint calendar now = .ok (timeOf (day + daysAhead dow) openingH openingM) := by
  rw [nextTimePoint_late hday hlate, hdow, ok_bind, daysAhead]
  norm_cast
  split_ifs <;> rfl

/-- Both weekdays ask for the same number of days exactly if neither asks for more than one. -/
theorem daysAhead_eq_iff {n lag : ℕ} (h₁ : 1 ≤ lag) (h₂ : lag ≤ 5) :
    daysAhead ((weekday n + 7 - lag) % 7) = daysAhead (weekday n) ↔
      (weekday n ≠ 5 ∧ weekday n ≠ 6) ∧
        (weekday n + 7 - lag) % 7 ≠ 5 ∧ (weekday n + 7 - lag) % 7 ≠ 6 := by
  have hweek : weekday n < 7 := Nat.mod_lt _ (by norm_num)
  rw [daysAhead, daysAhead]
  split_ifs <;> omega

end WorkingThread

open WorkingThread

/-- The same for the day with a number. -/
theorem wakesOnWorkday_iff {n : ℕ} {now : ℤ} (hday : now / 86400 = n)
    (hlate : timeOf 0 closingH closingM ≤ now % 86400) : WakesOnWorkday n now ↔ KeepsWeekday n := by
  obtain ⟨h₁, h₂⟩ := weekdayLag_bounds (dateOf n)
  by_cases hm : (dateOf n).month = 1
  · -- the table is read out of its bounds
    refine iff_of_false ?_ fun h => h.month hm
    rintro ⟨next, day, hnext, -⟩
    rw [nextTimePoint_late hday hlate, dayOfWeek_january hm] at hnext
    exact absurd hnext (by simp [bind, Except.bind])
  · have hnext := nextTimePoint_of_dayOfWeek hday hlate (dayOfWeek_localTime hm)
    have hread : ∀ k : ℕ, timeOf ((n : ℤ) + k) openingH openingM / 86400 = ((n + k : ℕ) : ℤ) := by
      intro k
      simp only [timeOf, openingH, openingM]
      omega
    have hiff := daysAhead_eq_iff (n := n) h₁ h₂
    constructor
    · rintro ⟨next, day, hn, hd, hleast⟩
      rw [hnext, Except.ok.injEq] at hn
      rw [← hn, hread, Nat.cast_inj] at hd
      have heq := hleast.unique (isLeast_workday n)
      rw [← hd, Nat.add_left_cancel_iff] at heq
      exact ⟨hm, (hiff.mp heq).1, (hiff.mp heq).2⟩
    · rintro ⟨-, hweek, hcomp⟩
      refine ⟨_, _, hnext, hread _, ?_⟩
      rw [hiff.mpr ⟨hweek, hcomp⟩]
      exact isLeast_workday n

/-- **The thread wakes up on the next workday**, on every date from 1970 on and whenever its turn
begins at or after the closing, if and only if the date is not in January and neither its weekday
nor the one that is computed is a Friday or a Saturday. -/
theorem nextOpeningDay_iff {d : Date} (hd : d.Valid) (hyear : 1970 ≤ d.year) :
    ∃ n, dateOf n = d ∧ ∀ now : ℤ, now / 86400 = n → timeOf 0 closingH closingM ≤ now % 86400 →
      (WakesOnWorkday n now ↔ KeepsWeekday n) := by
  obtain ⟨n, hn⟩ := exists_dateOf hd hyear
  exact ⟨n, hn, fun now => wakesOnWorkday_iff⟩

/-- The tenth of March 1970, a Tuesday that is taken for a Monday. -/
theorem nextOpeningDay_iff_march : (⟨1970, 3, 10⟩ : Date).Valid ∧
    ∃ n, dateOf n = ⟨1970, 3, 10⟩ ∧ ∀ now : ℤ, now / 86400 = n →
      timeOf 0 closingH closingM ≤ now % 86400 → (WakesOnWorkday n now ↔ KeepsWeekday n) :=
  have hd : (⟨1970, 3, 10⟩ : Date).Valid := ⟨by decide, by decide, by decide, by decide⟩
  ⟨hd, nextOpeningDay_iff hd le_rfl⟩

/-- On the first of January 1970 the table is read at -1; a Friday in February is taken for a
Monday, and the thread wakes up on the Saturday. -/
theorem opening_day_wrong :
    nextTimePoint localTime (timeOf 0 closingH closingM) = .error .badPointer ∧
      ¬ WakesOnWorkday 0 (timeOf 0 closingH closingM) ∧ weekday 36 = 5 ∧
      nextTimePoint localTime (timeOf 36 closingH closingM) =
        .ok (timeOf 37 openingH openingM) ∧
      ¬ WakesOnWorkday 36 (timeOf 36 closingH closingM) := by
  have hjanuary : nextTimePoint localTime (timeOf 0 closingH closingM) = .error .badPointer := rfl
  have hdow := dayOfWeek_localTime (n := 36) (by decide +kernel)
  have hlag : (weekday 36 + 7 - weekdayLag (dateOf 36)) % 7 = 1 := by decide +kernel
  rw [hlag] at hdow
  have hsaturday : nextTimePoint localTime (timeOf 36 closingH closingM) =
      .ok (timeOf 37 openingH openingM) :=
    nextTimePoint_of_dayOfWeek (by decide) (by decide) hdow
  refine ⟨hjanuary, ?_, rfl, hsaturday, ?_⟩
  · rintro ⟨next, day, hnext, -⟩
    rw [hjanuary] at hnext
    exact absurd hnext (by simp)
  · rintro ⟨next, day, hnext, hday, ⟨-, hwork⟩, -⟩
    rw [hsaturday, Except.ok.injEq] at hnext
    rw [← hnext] at hday
    obtain rfl : day = 37 := by
      simp only [timeOf, openingH, openingM] at hday
      omega
    exact absurd hwork.2 (by decide)

end LimitOrderBook
