import LimitOrderBook.Lib.Fault
import Mathlib.Data.Int.Notation

/-!
# The thread of the working hours

The loop of `Exchange::is_working_thread`, one turn at a time
(`LimitOrderBook.WorkingThread.turn`). A moment is a number of seconds of local time. A turn
reads the clock, sleeps until the time that it computes – or not at all when that time is not in
the future – and then sets the flag by the hour and the minute that it read before it slept.

The clock never goes back, and between two turns it may go on by any time. The calendar – the
day of the month, the month and the year of each day – is a parameter; `mktime` takes a day
that is beyond the end of a month for one of the next.
-/

namespace LimitOrderBook

/-- `tm_mday`, `tm_mon` – which starts at 0 – and `tm_year`. -/
structure CalendarDay where
  mday : ℤ
  mon : ℤ
  year : ℤ

/-- The table of `day_of_week`. -/
def dayOfWeekTable : List ℤ := [0, 3, 2, 5, 0, 3, 5, 1, 4, 6, 2, 4]

/-- `day_of_week`, which reads the table at `m - 1`. -/
def dayOfWeek (d m y : ℤ) : Except Fault ℤ :=
  let y := if m < 3 then y - 1 else y
  if m - 1 < 0 then .error .badPointer
  else do
    let shift ← deref dayOfWeekTable[(m - 1).toNat]?
    .ok ((y + y.tdiv 4 - y.tdiv 100 + y.tdiv 400 + shift + d).tmod 7)

namespace WorkingThread

def openingH : ℤ := 9
def openingM : ℤ := 30
def closingH : ℤ := 17
def closingM : ℤ := 30

/-- `tm_hour`. -/
def hour (now : ℤ) : ℤ := now % 86400 / 3600

/-- `tm_min`. -/
def minute (now : ℤ) : ℤ := now % 3600 / 60

/-- An hour and a minute of a day. -/
def timeOf (day h m : ℤ) : ℤ := day * 86400 + h * 3600 + m * 60

/-- The time until which a turn sleeps that reads the clock at `now`. -/
def nextTimePoint (calendar : ℤ → CalendarDay) (now : ℤ) : Except Fault ℤ :=
  let currH := hour now
  let currM := minute now
  let day := now / 86400
  if currH < openingH ∨ (currH = openingH ∧ currM < openingM) then
    .ok (timeOf day openingH openingM)
  else if currH < closingH ∨ (currH = closingH ∧ currM < closingM) then
    .ok (timeOf day openingH openingM)
  else do
    let date := calendar day
    let dow ← dayOfWeek date.mday date.mon date.year
    if dow = 5 then .ok (timeOf (day + 3) openingH openingM)
    else if dow = 6 then .ok (timeOf (day + 2) openingH openingM)
    else .ok (timeOf (day + 1) openingH openingM)

end WorkingThread

/-- The thread between two turns of its loop. -/
structure WorkingThread where
  /-- The moment at which the thread was started. -/
  started : ℤ
  clock : ℤ
  /-- `_working`. -/
  working : Bool
  /-- The moments at which `check_date_orders` was run. -/
  checks : List ℤ
  /-- How many turns the loop has made. -/
  turns : ℕ

namespace WorkingThread

/-- The thread when it starts. -/
def start (now : ℤ) : WorkingThread := ⟨now, now, false, [], 0⟩

/-- One turn of the loop, which begins some seconds after the last one ended. -/
def turn (calendar : ℤ → CalendarDay) (w : WorkingThread) (elapsed : ℕ) :
    Except Fault (WorkingThread × Unit) := do
  let now := w.clock + elapsed
  let next ← nextTimePoint calendar now
  let clock := if now < next then next else now
  let w : WorkingThread := ⟨w.started, clock, w.working, w.checks, w.turns + 1⟩
  if hour now = openingH ∧ minute now = openingM then
    .ok ({ w with working := true }, ())
  else if hour now = closingH ∧ minute now = closingM then
    .ok ({ w with working := false, checks := w.checks ++ [clock] }, ())
  else .ok (w, ())

end WorkingThread

end LimitOrderBook
