import Mathlib.Tactic.IntervalCases
import Mathlib.Tactic.NormNum

/-!
# The Gregorian calendar

Dates, and the date of a day given by its number (`LimitOrderBook.Calendar.dateOf`); day 0
is the first of January 1970, a Thursday. The date of each day is the one that follows the
date of the day before, and every date from then on is that of a day
(`LimitOrderBook.Calendar.exists_dateOf`).

The weekday of a date can be computed from its year, its month and its day, with a table
of the twelve months (`LimitOrderBook.Calendar.weekday_eq`). January and February count as
months of the year before, so that a leap day is the last day of its year.
-/

namespace LimitOrderBook

namespace Calendar

/-- A date; months and days of a month start at 1. -/
structure Date where
  year : ℕ
  month : ℕ
  day : ℕ
  deriving DecidableEq

def IsLeap (year : ℕ) : Prop := year % 4 = 0 ∧ (year % 100 ≠ 0 ∨ year % 400 = 0)

instance (year : ℕ) : Decidable (IsLeap year) := inferInstanceAs (Decidable (_ ∧ _))

/-- The number of days of a month. -/
def monthLength (year month : ℕ) : ℕ :=
  if month = 2 then (if IsLeap year then 29 else 28)
  else if month = 4 ∨ month = 6 ∨ month = 9 ∨ month = 11 then 30
  else 31

namespace Date

/-- A date that there is. -/
structure Valid (d : Date) : Prop where
  month_pos : 1 ≤ d.month
  month_le : d.month ≤ 12
  day_pos : 1 ≤ d.day
  day_le : d.day ≤ monthLength d.year d.month

/-- The next date. -/
def next (d : Date) : Date :=
  if d.day < monthLength d.year d.month then ⟨d.year, d.month, d.day + 1⟩
  else if d.month < 12 then ⟨d.year, d.month + 1, 1⟩
  else ⟨d.year + 1, 1, 1⟩

end Date

/-- The date of a day. -/
def dateOf : ℕ → Date
  | 0 => ⟨1970, 1, 1⟩
  | n + 1 => (dateOf n).next

/-- The weekday of a day, from Sunday, which is 0, to Saturday, which is 6. -/
def weekday (n : ℕ) : ℕ := (n + 4) % 7

example : weekday 0 = 4 := rfl

/-! ### All dates -/

theorem monthLength_pos (year month : ℕ) : 1 ≤ monthLength year month := by
  rw [monthLength]
  split
  · split <;> norm_num
  · split <;> norm_num

theorem Date.Valid.next {d : Date} (h : d.Valid) : d.next.Valid := by
  rw [Date.next]
  split
  · next hday => exact ⟨h.month_pos, h.month_le, Nat.le_add_left 1 _, hday⟩
  · split
    · next hmonth => exact ⟨Nat.le_add_left 1 _, hmonth, le_rfl, monthLength_pos _ _⟩
    · exact ⟨le_rfl, by norm_num, le_rfl, monthLength_pos _ _⟩

theorem valid_dateOf (n : ℕ) : (dateOf n).Valid := by
  induction n with
  | zero => exact ⟨by norm_num [dateOf], by norm_num [dateOf], by norm_num [dateOf], by decide⟩
  | succ n ih => exact ih.next

theorem year_dateOf (n : ℕ) : 1970 ≤ (dateOf n).year := by
  induction n with
  | zero => exact le_rfl
  | succ n ih =>
    rw [dateOf, Date.next]
    split
    · exact ih
    · split
      · exact ih
      · exact Nat.le_succ_of_le ih

/-- The days of a month after its first one. -/
theorem dateOf_add {n year month : ℕ} (h : dateOf n = ⟨year, month, 1⟩) {k : ℕ}
    (hk : k < monthLength year month) : dateOf (n + k) = ⟨year, month, k + 1⟩ := by
  induction k with
  | zero => exact h
  | succ k ih =>
    rw [← Nat.add_assoc, dateOf, ih (Nat.lt_of_succ_lt hk), Date.next, if_pos hk]

/-- The first day of the next month. -/
theorem dateOf_add_monthLength {n year month : ℕ} (h : dateOf n = ⟨year, month, 1⟩) :
    dateOf (n + monthLength year month) =
      if month < 12 then ⟨year, month + 1, 1⟩ else ⟨year + 1, 1, 1⟩ := by
  obtain ⟨k, hk⟩ := Nat.exists_eq_add_of_le' (monthLength_pos year month)
  have hlast := dateOf_add h (show k < monthLength year month by omega)
  rw [hk, ← Nat.add_assoc, dateOf, hlast, Date.next, if_neg (by simp [hk])]

/-- Every month starts on some day. -/
theorem exists_first {year month : ℕ} (hy : 1970 ≤ year) (h₁ : 1 ≤ month) (h₂ : month ≤ 12) :
    ∃ n, dateOf n = ⟨year, month, 1⟩ := by
  induction year, hy using Nat.le_induction generalizing month with
  | base =>
    induction month, h₁ using Nat.le_induction with
    | base => exact ⟨0, rfl⟩
    | succ month h₁ ih =>
      obtain ⟨n, hn⟩ := ih (Nat.le_of_succ_le h₂)
      exact ⟨_, (dateOf_add_monthLength hn).trans (if_pos h₂)⟩
  | succ year _ ihy =>
    induction month, h₁ using Nat.le_induction with
    | base =>
      obtain ⟨n, hn⟩ := @ihy 12 (by norm_num) le_rfl
      exact ⟨_, (dateOf_add_monthLength hn).trans (if_neg (by norm_num))⟩
    | succ month h₁ ih =>
      obtain ⟨n, hn⟩ := ih (Nat.le_of_succ_le h₂)
      exact ⟨_, (dateOf_add_monthLength hn).trans (if_pos h₂)⟩

/-- **Every date from 1970 on** is that of a day. -/
theorem exists_dateOf {d : Date} (h : d.Valid) (hy : 1970 ≤ d.year) : ∃ n, dateOf n = d := by
  obtain ⟨n, hn⟩ := exists_first hy h.month_pos h.month_le
  obtain ⟨k, hk⟩ := Nat.exists_eq_add_of_le' h.day_pos
  have hday := h.day_le
  rw [hk] at hday
  refine ⟨n + k, (dateOf_add hn hday).trans ?_⟩
  rw [← hk]

/-! ### Weekdays -/

/-- A leap year has a leap day more than the year before. -/
theorem leapDays_succ (y : ℕ) : (y + 1) / 4 + (y + 1) / 400 + y / 100 =
    y / 4 + y / 400 + (y + 1) / 100 + if IsLeap (y + 1) then 1 else 0 := by
  have h4 : (y + 1) / 4 = y / 4 + if (y + 1) % 4 = 0 then 1 else 0 := by split <;> omega
  have h100 : (y + 1) / 100 = y / 100 + if (y + 1) % 100 = 0 then 1 else 0 := by split <;> omega
  have h400 : (y + 1) / 400 = y / 400 + if (y + 1) % 400 = 0 then 1 else 0 := by split <;> omega
  have hcentury : (y + 1) % 100 = 0 → (y + 1) % 4 = 0 := by omega
  have hfour : (y + 1) % 400 = 0 → (y + 1) % 100 = 0 := by omega
  rw [h4, h100, h400]
  by_cases c4 : (y + 1) % 4 = 0 <;> by_cases c100 : (y + 1) % 100 = 0 <;>
    by_cases c400 : (y + 1) % 400 = 0 <;> simp_all [IsLeap] <;> omega

/-- What a month adds to the weekday. -/
def monthShift (month : ℕ) : ℕ := [0, 3, 2, 5, 0, 3, 5, 1, 4, 6, 2, 4].getD (month - 1) 0

/-- The year to which a month counts. -/
def countedYear (d : Date) : ℕ := if d.month < 3 then d.year - 1 else d.year

/-- **The weekday of a date**, counted from the years, the leap days and the days. -/
theorem weekday_eq (n : ℕ) :
    (countedYear (dateOf n) + countedYear (dateOf n) / 4 + countedYear (dateOf n) / 400 +
        monthShift (dateOf n).month + (dateOf n).day) % 7 =
      (n + 4 + countedYear (dateOf n) / 100) % 7 := by
  induction n with
  | zero => rfl
  | succ n ih =>
    have hvalid := valid_dateOf n
    have hyear := year_dateOf n
    rw [dateOf]
    obtain ⟨d, hd⟩ : ∃ d, d = dateOf n := ⟨_, rfl⟩
    rw [← hd] at ih hvalid hyear ⊢
    obtain ⟨year, month, day⟩ := d
    obtain ⟨h₁, h₂, h₃, h₄⟩ := hvalid
    simp only [Date.next, countedYear] at *
    split
    · -- within a month
      dsimp only
      omega
    · next hlast =>
      have hday : day = monthLength year month := le_antisymm h₄ (not_lt.mp hlast)
      subst hday
      rcases eq_or_ne month 2 with rfl | hmonth
      · -- in March the year that counts becomes the next one
        obtain ⟨y, rfl⟩ : ∃ y, year = y + 1 := ⟨year - 1, by omega⟩
        have hleap := leapDays_succ y
        have hlength : monthLength (y + 1) 2 = 28 + if IsLeap (y + 1) then 1 else 0 := by
          rw [monthLength, if_pos rfl]
          split <;> rfl
        rw [hlength] at ih
        simp only [monthShift, List.getD_cons_succ, List.getD_cons_zero, Nat.add_sub_cancel,
          Nat.reduceLT, Nat.reduceAdd, Nat.reduceSub, if_true, if_false] at ih ⊢
        generalize (if IsLeap (y + 1) then 1 else 0) = leap at *
        generalize (y + 1) / 4 = a', y / 4 = a, (y + 1) / 400 = c', y / 400 = c,
          (y + 1) / 100 = b', y / 100 = b at *
        clear hyear
        omega
      · -- the length of each month is what its shift is less than the next one's
        rw [monthLength, if_neg hmonth] at ih
        interval_cases month <;> simp [monthShift] at ih hmonth ⊢ <;> omega

end Calendar

end LimitOrderBook
