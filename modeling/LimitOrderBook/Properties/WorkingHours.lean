import LimitOrderBook.Exchange.WorkingHours
import Mathlib.Tactic.NormNum

/-!
# The flag of the working hours

What the thread of the working hours is for (`LimitOrderBook.WorkingThread.OnTime`), and when it
does that (`LimitOrderBook.onTime_iff`). The flag is set by the clock as it was before the turn
slept:

* a turn that begins before the opening ends at the opening, and leaves the flag as it was;
* a turn that begins in the minute of the closing ends at an opening of a later day, and only
  then resets the flag and checks the dates;
* a turn that begins later in the evening ends at an opening too, and does neither.

So the flag is right as long as every turn begins within the working hours of one day, the first
of them in the minute of the opening.
-/

namespace LimitOrderBook

namespace WorkingThread

/-! ### What is asked for -/

/-- At or after the opening and before the closing of its day. -/
def IsOpen (moment : ℤ) : Prop :=
  timeOf 0 openingH openingM ≤ moment % 86400 ∧ moment % 86400 < timeOf 0 closingH closingM

/-- The closing of a day. -/
def IsClosing (moment : ℤ) : Prop := moment % 86400 = timeOf 0 closingH closingM

/-- The opening that follows a closing. -/
def nextOpening (closing : ℤ) : ℤ :=
  closing + (timeOf 1 openingH openingM - timeOf 0 closingH closingM)

/-- **The thread is on time** after its turns: the flag says whether the exchange is open, the
dates are only checked after a closing and before the next opening, and they have been checked
then whenever both have gone by since the start. -/
structure OnTime (w : WorkingThread) : Prop where
  working : w.turns ≠ 0 → (w.working = true ↔ IsOpen w.clock)
  checks : ∀ c ∈ w.checks, ¬ IsOpen c
  checked : w.turns ≠ 0 → ∀ closing, IsClosing closing → w.started ≤ closing →
    nextOpening closing ≤ w.clock → ∃ c ∈ w.checks, closing ≤ c ∧ c < nextOpening closing

/-- A turn begins while the exchange is open, before the first closing since the start; and it
begins in the minute of the opening, or the flag is set already. -/
structure KeepsTime (w : WorkingThread) (elapsed : ℕ) : Prop where
  isOpen : IsOpen (w.clock + elapsed)
  first : ∀ closing, IsClosing closing → w.started ≤ closing → w.clock + elapsed < closing
  flag : w.working = true ∨
    (hour (w.clock + elapsed) = openingH ∧ minute (w.clock + elapsed) = openingM)

/-! ### One turn -/

/-- What holds however the flag is set: the dates are checked at an opening. -/
structure Sound (w : WorkingThread) : Prop where
  clock : w.started ≤ w.clock
  checks : ∀ c ∈ w.checks, IsOpen c
  start : w.turns = 0 → w.working = false ∧ w.checks = []

variable {calendar : ℤ → CalendarDay} {w w' : WorkingThread} {now : ℤ} {elapsed : ℕ}

/-- The dates have not been checked yet. -/
theorem Sound.checks_eq_nil (h : w.Sound) (hp : w.OnTime) : w.checks = [] :=
  List.eq_nil_iff_forall_not_mem.mpr fun c hc => hp.checks c hc (h.checks c hc)

/-- The two tests of the source, in seconds of the day. -/
theorem before_opening : (hour now < openingH ∨ (hour now = openingH ∧ minute now < openingM)) ↔
    now % 86400 < timeOf 0 openingH openingM := by
  simp only [hour, minute, openingH, openingM, timeOf]
  omega

theorem before_closing : (hour now < closingH ∨ (hour now = closingH ∧ minute now < closingM)) ↔
    now % 86400 < timeOf 0 closingH closingM := by
  simp only [hour, minute, closingH, closingM, timeOf]
  omega

/-- **The end of a turn** within the working hours is its beginning. -/
theorem nextTimePoint_of_isOpen (h : IsOpen now) :
    nextTimePoint calendar now = .ok (timeOf (now / 86400) openingH openingM) := by
  rw [nextTimePoint, if_neg (mt before_opening.mp (not_lt.mpr h.1)), if_pos (before_closing.mpr h.2)]

/-- **A turn that begins outside the working hours** ends at an opening, the first one since or a
later one. -/
theorem nextTimePoint_of_not_isOpen (h : ¬ IsOpen now) {next : ℤ}
    (hnext : nextTimePoint calendar now = .ok next) :
    ∃ day, next = timeOf day openingH openingM ∧ now < next := by
  rw [nextTimePoint] at hnext
  dsimp only at hnext
  split at hnext
  · next hearly =>
    rw [before_opening] at hearly
    refine ⟨now / 86400, (Except.ok.inj hnext).symm, ?_⟩
    rw [← Except.ok.inj hnext]
    simp only [timeOf, openingH, openingM] at *
    omega
  next hearly =>
  rw [if_neg fun hlate => h ⟨not_lt.mp (mt before_opening.mpr hearly), before_closing.mp hlate⟩,
    bind_eq_ok] at hnext
  obtain ⟨dow, -, hnext⟩ := hnext
  have hday : ∀ n : ℤ, 1 ≤ n → now < timeOf (now / 86400 + n) openingH openingM := fun n hn => by
    simp only [timeOf, openingH, openingM]
    omega
  split at hnext
  · exact ⟨_, (Except.ok.inj hnext).symm, Except.ok.inj hnext ▸ hday 3 (by norm_num)⟩
  · split at hnext
    · exact ⟨_, (Except.ok.inj hnext).symm, Except.ok.inj hnext ▸ hday 2 (by norm_num)⟩
    · exact ⟨_, (Except.ok.inj hnext).symm, Except.ok.inj hnext ▸ hday 1 (by norm_num)⟩

/-- **What a turn does**: it ends when it is time to, and sets the flag by its beginning. -/
theorem turn_cases {answer : Unit} (h : w.turn calendar elapsed = .ok (w', answer)) :
    ∃ next, nextTimePoint calendar (w.clock + elapsed) = .ok next ∧
      w'.clock = (if w.clock + elapsed < next then next else w.clock + elapsed) ∧
      w'.started = w.started ∧ w'.turns = w.turns + 1 ∧
      ((hour (w.clock + elapsed) = openingH ∧ minute (w.clock + elapsed) = openingM ∧
          w'.working = true ∧ w'.checks = w.checks) ∨
        (hour (w.clock + elapsed) = closingH ∧ minute (w.clock + elapsed) = closingM ∧
          w'.working = false ∧ w'.checks = w.checks ++ [w'.clock]) ∨
        ¬ (hour (w.clock + elapsed) = openingH ∧ minute (w.clock + elapsed) = openingM) ∧
          w'.working = w.working ∧ w'.checks = w.checks) := by
  rw [turn, bind_eq_ok] at h
  obtain ⟨next, hnext, h⟩ := h
  refine ⟨next, hnext, ?_⟩
  dsimp only at h
  split at h
  · next ho =>
    obtain rfl : _ = w' := congrArg Prod.fst (Except.ok.inj h)
    exact ⟨rfl, rfl, rfl, Or.inl ⟨ho.1, ho.2, rfl, rfl⟩⟩
  · next ho =>
    split at h
    · next hc =>
      obtain rfl : _ = w' := congrArg Prod.fst (Except.ok.inj h)
      exact ⟨rfl, rfl, rfl, Or.inr (Or.inl ⟨hc.1, hc.2, rfl, rfl⟩)⟩
    · obtain rfl : _ = w' := congrArg Prod.fst (Except.ok.inj h)
      exact ⟨rfl, rfl, rfl, Or.inr (Or.inr ⟨ho, rfl, rfl⟩)⟩

theorem exists_turn {next : ℤ} (h : nextTimePoint calendar (w.clock + elapsed) = .ok next) :
    ∃ w' answer, w.turn calendar elapsed = .ok (w', answer) := by
  simp only [turn, h, ok_bind]
  split
  · exact ⟨_, _, rfl⟩
  · split
    · exact ⟨_, _, rfl⟩
    · exact ⟨_, _, rfl⟩

/-- The minute of the closing is not within the working hours. -/
theorem not_isOpen_of_closing (hh : hour now = closingH) (hm : minute now = closingM) :
    ¬ IsOpen now := by
  rintro ⟨-, hlt⟩
  rcases before_closing.mpr hlt with h | ⟨-, h⟩
  · exact absurd hh h.ne
  · exact absurd hm h.ne

/-- The minute of the opening is. -/
theorem isOpen_of_opening (hh : hour now = openingH) (hm : minute now = openingM) : IsOpen now := by
  simp only [hour, minute, IsOpen, openingH, openingM, closingH, closingM, timeOf] at *
  omega

theorem isOpen_timeOf (day : ℤ) : IsOpen (timeOf day openingH openingM) := by
  simp only [IsOpen, openingH, openingM, closingH, closingM, timeOf]
  omega

/-- When a turn ends that begins within the working hours. -/
theorem clock_of_isOpen {next : ℤ} (h : IsOpen now)
    (hnext : nextTimePoint calendar now = .ok next) : ¬ now < next := by
  rw [nextTimePoint_of_isOpen h, Except.ok.injEq] at hnext
  obtain ⟨hge, -⟩ := h
  simp only [openingH, openingM, timeOf] at *
  omega

/-- **A turn keeps the thread sound.** -/
theorem Sound.turn (h : w.Sound) {answer : Unit}
    (hturn : w.turn calendar elapsed = .ok (w', answer)) : w'.Sound := by
  obtain ⟨next, hnext, hclock, hstarted, hturns, hcases⟩ := turn_cases hturn
  have hle : w.clock + elapsed ≤ w'.clock := by
    rw [hclock]
    split
    · next hlt => exact hlt.le
    · exact le_rfl
  refine ⟨?_, fun c hc => ?_, fun h0 => ?_⟩
  · rw [hstarted]
    have := h.clock
    omega
  · rcases hcases with ⟨-, -, -, he⟩ | ⟨hh, hm, -, he⟩ | ⟨-, -, he⟩
    · exact h.checks c (he ▸ hc)
    · rw [he, List.mem_append, List.mem_singleton] at hc
      rcases hc with hc | rfl
      · exact h.checks c hc
      · obtain ⟨day, rfl, hlt⟩ := nextTimePoint_of_not_isOpen (not_isOpen_of_closing hh hm) hnext
        rw [hclock, if_pos hlt]
        exact isOpen_timeOf day
    · exact h.checks c (he ▸ hc)
  · rw [hturns] at h0
    exact absurd h0 (Nat.succ_ne_zero _)

/-- **A turn under the condition** ends on time. -/
theorem Sound.onTime (h : w.Sound) (hp : w.OnTime) (hk : w.KeepsTime elapsed) :
    ∃ w' answer, w.turn calendar elapsed = .ok (w', answer) ∧ w'.OnTime := by
  obtain ⟨w', answer, hturn⟩ := exists_turn (nextTimePoint_of_isOpen hk.isOpen)
  obtain ⟨next, hnext, hclock, hstarted, -, hcases⟩ := turn_cases hturn
  rw [if_neg (clock_of_isOpen hk.isOpen hnext)] at hclock
  have hnil := h.checks_eq_nil hp
  obtain ⟨hworking, hchecks⟩ : w'.working = true ∧ w'.checks = [] := by
    rcases hcases with ⟨-, -, hw, he⟩ | ⟨hh, hm, -, -⟩ | ⟨hno, hw, he⟩
    · exact ⟨hw, he.trans hnil⟩
    · exact absurd hk.isOpen (not_isOpen_of_closing hh hm)
    · exact ⟨hw.trans (hk.flag.resolve_right hno), he.trans hnil⟩
  refine ⟨w', answer, hturn, fun _ => iff_of_true hworking (hclock ▸ hk.isOpen), ?_, ?_⟩
  · rw [hchecks]
    exact fun c hc => absurd hc List.not_mem_nil
  · intro _ closing hclosing hle hover
    rw [hstarted] at hle
    rw [hclock] at hover
    have hlt := hk.first closing hclosing hle
    simp only [nextOpening, openingH, openingM, closingH, closingM, timeOf] at hover
    omega

/-- **A turn that ends on time** meets the condition. -/
theorem Sound.keepsTime (h : w.Sound) (hp : w.OnTime) {answer : Unit}
    (hturn : w.turn calendar elapsed = .ok (w', answer)) (hp' : w'.OnTime) :
    w.KeepsTime elapsed := by
  obtain ⟨next, hnext, hclock, hstarted, hturns, hcases⟩ := turn_cases hturn
  have hnil := h.checks_eq_nil hp
  have hne : w'.turns ≠ 0 := by rw [hturns]; exact Nat.succ_ne_zero _
  -- no closing and opening have gone by, for the dates have not been checked
  have hnone : w'.checks = w.checks → ∀ closing, IsClosing closing → w.started ≤ closing →
      ¬ nextOpening closing ≤ w'.clock := fun he closing hclosing hle hover => by
    obtain ⟨c, hc, -⟩ := hp'.checked hne closing hclosing (hstarted ▸ hle) hover
    rw [he, hnil] at hc
    exact List.not_mem_nil hc
  by_cases hopen : IsOpen (w.clock + elapsed)
  · rw [if_neg (clock_of_isOpen hopen hnext)] at hclock
    have hworking : w'.working = true := (hp'.working hne).mpr (hclock ▸ hopen)
    obtain ⟨hflag, hchecks⟩ : (w.working = true ∨ (hour (w.clock + elapsed) = openingH ∧
        minute (w.clock + elapsed) = openingM)) ∧ w'.checks = w.checks := by
      rcases hcases with ⟨hh, hm, -, he⟩ | ⟨hh, hm, -, -⟩ | ⟨-, hw, he⟩
      · exact ⟨Or.inr ⟨hh, hm⟩, he⟩
      · exact absurd hopen (not_isOpen_of_closing hh hm)
      · exact ⟨Or.inl (hw ▸ hworking), he⟩
    refine ⟨hopen, fun closing hclosing hle => ?_, hflag⟩
    by_contra hlt
    refine hnone hchecks closing hclosing hle ?_
    rw [hclock]
    obtain ⟨hge, hlt'⟩ := hopen
    simp only [IsClosing, nextOpening, openingH, openingM, closingH, closingM, timeOf] at *
    omega
  · -- a turn that ends at the opening of a later day
    obtain ⟨day, rfl, hlt⟩ := nextTimePoint_of_not_isOpen hopen hnext
    rw [if_pos hlt] at hclock
    have hworking : w'.working = true := (hp'.working hne).mpr (hclock ▸ isOpen_timeOf day)
    rcases hcases with ⟨hh, hm, -, -⟩ | ⟨-, -, hw, -⟩ | ⟨-, hw, he⟩
    · exact absurd (isOpen_of_opening hh hm) hopen
    · rw [hw] at hworking
      exact absurd hworking (by simp)
    · have hflag : w.working = true := hw.symm.trans hworking
      have h0 : w.turns ≠ 0 := fun h0 => by
        rw [(h.start h0).1] at hflag
        exact absurd hflag (by simp)
      obtain ⟨hge, hlt'⟩ := (hp.working h0).mp hflag
      have hstart := h.clock
      -- the closing of the day on which the flag was set
      refine absurd ?_ (hnone he (timeOf (w.clock / 86400) closingH closingM) ?_ ?_)
      · rw [hclock]
        simp only [nextOpening, openingH, openingM, closingH, closingM, timeOf] at *
        omega
      · simp only [IsClosing, closingH, closingM, timeOf]
        omega
      · simp only [openingH, openingM, closingH, closingM, timeOf] at *
        omega

end WorkingThread

/-- **The thread is on time after every turn** exactly if each turn begins within the working
hours, before the first closing since the start, and the flag is set already or the turn begins
in the minute of the opening. -/
theorem onTime_iff (calendar : ℤ → CalendarDay) (now : ℤ) (elapsed : List ℕ) :
    Throughout (WorkingThread.turn calendar) WorkingThread.OnTime (.start now) elapsed ↔
      Meets (WorkingThread.turn calendar) WorkingThread.KeepsTime (.start now) elapsed :=
  throughout_iff_meets_of_fault (I := WorkingThread.Sound) (Q := fun _ => True)
    (fun _ _ _ h hp hk => h.onTime hp hk) (fun _ _ _ _ _ h _ hturn => h.turn hturn)
    (fun _ _ _ _ _ h hp hturn hp' => h.keepsTime hp hturn hp') (fun _ _ => trivial)
    ⟨le_rfl, fun _ hc => absurd hc List.not_mem_nil, fun _ => ⟨rfl, rfl⟩⟩
    ⟨fun h => absurd rfl h, fun _ hc => absurd hc List.not_mem_nil, fun h => absurd rfl h⟩

open WorkingThread in
/-- Started at 8:00 of the 7th of May 2024, the thread is at the opening with the flag unset;
started at the opening, it checks the dates of that day at an opening three days later. -/
theorem flag_late :
    (∃ w answers, runAll (turn fun _ => ⟨7, 4, 124⟩) (start (timeOf 19850 8 0)) [0] =
        .ok (w, answers) ∧ w.clock = timeOf 19850 9 30 ∧ w.working = false ∧ ¬ w.OnTime) ∧
    ∃ w answers, runAll (turn fun _ => ⟨7, 4, 124⟩) (start (timeOf 19850 9 30)) [0, 28800] =
        .ok (w, answers) ∧ w.checks = [timeOf 19853 9 30] ∧ w.working = false ∧ ¬ w.OnTime := by
  refine ⟨⟨_, _, rfl, rfl, rfl, fun h => ?_⟩, ⟨_, _, rfl, rfl, rfl, fun h => ?_⟩⟩
  · exact absurd ((h.working (by decide)).mpr (isOpen_timeOf 19850)) (by decide)
  · exact h.checks _ (List.mem_singleton.mpr rfl) (isOpen_timeOf 19853)

end LimitOrderBook
