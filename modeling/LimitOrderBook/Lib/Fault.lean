import Mathlib.Data.List.Basic
import Mathlib.Logic.Basic

/-!
# Programs that can fault

An imperative program is embedded as a function into `Except Fault`: a state
that is passed along explicitly, and an explicit error wherever the original
would have undefined behaviour, would not return, or would throw.

* `LimitOrderBook.Fault` – the three ways a run can go wrong;
* `LimitOrderBook.deref` – following a pointer that may be null;
* `LimitOrderBook.runAll` – a sequence of requests, each one a fallible step, with its
  invariant rule `LimitOrderBook.runAll_invariant`.

Loops of the original carry a fuel argument; running out of it is the fault
`Fault.outOfFuel`, so that a proof of `= .ok _` is also a proof that the loop
terminates.
-/

namespace LimitOrderBook

/-- What can go wrong while a program runs. -/
inductive Fault where
  /-- A null pointer, or a pointer to freed memory, was followed. -/
  | badPointer : Fault
  /-- A loop did not end within its fuel. -/
  | outOfFuel : Fault
  /-- `std::invalid_argument` was thrown, with this text. -/
  | invalidArgument (text : String) : Fault
  deriving DecidableEq, Repr

/-- Follow a pointer that may be null. -/
def deref {α : Type} : Option α → Except Fault α
  | some a => .ok a
  | none => .error .badPointer

@[simp] theorem deref_some {α : Type} (a : α) : deref (some a) = .ok a := rfl

@[simp] theorem ok_bind {ε α β : Type} (a : α) (f : α → Except ε β) :
    (Except.ok a >>= f) = f a := rfl

@[simp] theorem pure_eq_ok {α : Type} (a : α) : (pure a : Except Fault α) = .ok a := rfl

@[simp] theorem ok_map {α β : Type} (f : α → β) (a : α) :
    (f <$> (Except.ok a : Except Fault α)) = .ok (f a) := rfl

/-- The two parts of a computation that returns. -/
theorem bind_eq_ok {α β : Type} {x : Except Fault α} {f : α → Except Fault β} {b : β} :
    x >>= f = .ok b ↔ ∃ a, x = .ok a ∧ f a = .ok b := by
  cases x with
  | error e => simp [bind, Except.bind]
  | ok a => simp

/-- A computation that is known by what it returns. -/
theorem exists_ok_of_map {α β : Type} {x : Except Fault α} {f : α → β} {b : β}
    (h : x.toOption.map f = some b) : ∃ a, x = .ok a ∧ f a = b := by
  cases x with
  | error e => exact absurd h (by simp [Except.toOption])
  | ok a => exact ⟨a, rfl, by simpa [Except.toOption] using h⟩

theorem eq_of_ok_of_map {α β : Type} {x : Except Fault α} {a : α} {f : α → β} {b : β}
    (hx : x = .ok a) (h : x.toOption.map f = some b) : f a = b := by
  rw [hx] at h
  simpa [Except.toOption] using h

/-! ### Sequences of requests -/

section Runs

variable {σ ρ ω : Type} (step : σ → ρ → Except Fault (σ × ω))

/-- The requests of a list, one after the other; the answers are collected in
order. -/
def runAll : σ → List ρ → Except Fault (σ × List ω)
  | s, [] => .ok (s, [])
  | s, r :: rs => do
    let (s, answer) ← step s r
    let (s, answers) ← runAll s rs
    .ok (s, answer :: answers)

/-- The requests of a list all meet a condition that may depend on the state
each of them finds. -/
def Meets (cond : σ → ρ → Prop) : σ → List ρ → Prop
  | _, [] => True
  | s, r :: rs => cond s r ∧ ∀ s' answer, step s r = .ok (s', answer) → Meets cond s' rs

variable {step}

theorem runAll_cons {s s₁ s₂ : σ} {r : ρ} {rs : List ρ} {answer : ω} {answers : List ω}
    (h₁ : step s r = .ok (s₁, answer)) (h₂ : runAll step s₁ rs = .ok (s₂, answers)) :
    runAll step s (r :: rs) = .ok (s₂, answer :: answers) := by
  simp [runAll, h₁, h₂]

theorem runAll_cons_ok {s s₂ : σ} {r : ρ} {rs : List ρ} {answers : List ω}
    (h : runAll step s (r :: rs) = .ok (s₂, answers)) : ∃ s₁ answer rest,
      step s r = .ok (s₁, answer) ∧ runAll step s₁ rs = .ok (s₂, rest) ∧
        answers = answer :: rest := by
  rw [runAll] at h
  rcases hr : step s r with _ | ⟨s₁, answer⟩
  · rw [hr] at h
    exact absurd h (by simp [bind, Except.bind])
  rcases hrs : runAll step s₁ rs with _ | ⟨s', rest⟩
  · simp [hr, hrs, bind, Except.bind] at h
  obtain ⟨rfl, rfl⟩ : s' = s₂ ∧ answer :: rest = answers := by simpa [hr, hrs] using h
  exact ⟨s₁, answer, rest, rfl, hrs, rfl⟩

theorem runAll_append_ok {s s₂ : σ} {xs ys : List ρ} {answers : List ω}
    (h : runAll step s (xs ++ ys) = .ok (s₂, answers)) : ∃ s₁ answers₁ answers₂,
      runAll step s xs = .ok (s₁, answers₁) ∧ runAll step s₁ ys = .ok (s₂, answers₂) ∧
        answers = answers₁ ++ answers₂ := by
  induction xs generalizing s answers with
  | nil => exact ⟨s, [], answers, rfl, h, rfl⟩
  | cons r xs ih =>
    obtain ⟨s', answer, rest, hr, hrest, rfl⟩ := runAll_cons_ok h
    obtain ⟨s₁, answers₁, answers₂, hxs, hys, rfl⟩ := ih hrest
    exact ⟨s₁, answer :: answers₁, answers₂, runAll_cons hr hxs, hys, rfl⟩

/-- **The invariant rule for runs**: what every request preserves, under the
condition it meets, holds at the end of the run, and the run does not fault. The
invariant may look at the requests still to come. -/
theorem runAll_invariant {cond : σ → ρ → Prop} {I : σ → List ρ → Prop}
    (hstep : ∀ s r rs, I s (r :: rs) → cond s r →
      ∃ s' answer, step s r = .ok (s', answer) ∧ I s' rs) :
    ∀ {s : σ} {rs : List ρ}, I s rs → Meets step cond s rs →
      ∃ s' answers, runAll step s rs = .ok (s', answers) ∧ I s' [] := by
  intro s rs
  induction rs generalizing s with
  | nil => exact fun hI _ => ⟨s, [], rfl, hI⟩
  | cons r rs ih =>
    rintro hI ⟨hc, hrest⟩
    obtain ⟨s₁, answer, h₁, hI₁⟩ := hstep s r rs hI hc
    obtain ⟨s₂, answers, h₂, hI₂⟩ := ih hI₁ (hrest s₁ answer h₁)
    exact ⟨s₂, answer :: answers, runAll_cons h₁ h₂, hI₂⟩

theorem Meets.imp {cond cond' : σ → ρ → Prop} (himp : ∀ s r, cond s r → cond' s r) {s : σ}
    {rs : List ρ} (h : Meets step cond s rs) : Meets step cond' s rs := by
  induction rs generalizing s with
  | nil => trivial
  | cons r rs ih => exact ⟨himp s r h.1, fun s' answer hs' => ih (h.2 s' answer hs')⟩

theorem Meets.and {cond cond' : σ → ρ → Prop} {s : σ} {rs : List ρ}
    (h : Meets step cond s rs) (h' : Meets step cond' s rs) :
    Meets step (fun s r => cond s r ∧ cond' s r) s rs := by
  induction rs generalizing s with
  | nil => trivial
  | cons r rs ih =>
    exact ⟨⟨h.1, h'.1⟩, fun s' answer hs' => ih (h.2 s' answer hs') (h'.2 s' answer hs')⟩

/-- A run in two parts: the second meets the condition from where the first ends. -/
theorem Meets.of_append {cond : σ → ρ → Prop} {s : σ} {xs ys : List ρ}
    (h : Meets step cond s (xs ++ ys)) : Meets step cond s xs ∧
      ∀ s' answers, runAll step s xs = .ok (s', answers) → Meets step cond s' ys := by
  induction xs generalizing s with
  | nil =>
    refine ⟨trivial, fun s' answers hrun => ?_⟩
    obtain ⟨rfl, -⟩ : s = s' ∧ [] = answers := by simpa [runAll] using hrun
    exact h
  | cons r xs ih =>
    obtain ⟨hc, hrest⟩ := h
    refine ⟨⟨hc, fun s₁ answer h₁ => (ih (hrest s₁ answer h₁)).1⟩, fun s' answers hrun => ?_⟩
    obtain ⟨s₁, answer, rest, hr, hxs, -⟩ := runAll_cons_ok hrun
    exact (ih (hrest s₁ answer hr)).2 s' rest hxs

/-- A condition that holds wherever the run comes. -/
theorem meets_of_splits {cond : σ → ρ → Prop} {s : σ} {rs : List ρ}
    (h : ∀ xs r ys s' answers, rs = xs ++ r :: ys → runAll step s xs = .ok (s', answers) →
      cond s' r) : Meets step cond s rs := by
  induction rs generalizing s with
  | nil => trivial
  | cons r rs ih =>
    refine ⟨h [] r rs s [] rfl rfl, fun s₁ answer h₁ => ih fun xs r' ys s' answers hrs hrun => ?_⟩
    exact h (r :: xs) r' ys s' (answer :: answers) (by rw [hrs, List.cons_append])
      (runAll_cons h₁ hrun)

/-- A condition on the requests alone. -/
theorem meets_of_forall {P : ρ → Prop} {rs : List ρ} (h : ∀ r ∈ rs, P r) (s : σ) :
    Meets step (fun _ r => P r) s rs := by
  induction rs generalizing s with
  | nil => trivial
  | cons r rs ih =>
    exact ⟨h r (by simp), fun s' _ _ => ih (fun x hx => h x (List.mem_cons_of_mem _ hx)) s'⟩

/-- A condition on the requests alone is met in a run that does not fault exactly if it holds of
each of them. -/
theorem meets_iff_forall {P : ρ → Prop} {I : σ → Prop}
    (hstep : ∀ s r, I s → ∃ s' answer, step s r = .ok (s', answer) ∧ I s') {s : σ} (hI : I s)
    {rs : List ρ} : Meets step (fun _ r => P r) s rs ↔ ∀ r ∈ rs, P r := by
  refine ⟨fun h => ?_, fun h => meets_of_forall h s⟩
  induction rs generalizing s with
  | nil => simp
  | cons r rs ih =>
    obtain ⟨s', answer, hs', hI'⟩ := hstep s r hI
    exact List.forall_mem_cons.mpr ⟨h.1, ih hI' (h.2 s' answer hs')⟩

/-- The property holds after every part of a list of requests. -/
def Throughout (step : σ → ρ → Except Fault (σ × ω)) (P : σ → Prop) (s : σ) (rs : List ρ) : Prop :=
  ∀ xs ys, rs = xs ++ ys → ∃ s' answers, runAll step s xs = .ok (s', answers) ∧ P s'

theorem Throughout.imp {P Q : σ → Prop} (himp : ∀ s, P s → Q s) {s : σ} {rs : List ρ}
    (h : Throughout step P s rs) : Throughout step Q s rs := fun xs ys hrs =>
  (h xs ys hrs).imp fun s' hs' => hs'.imp fun _ hrun => ⟨hrun.1, himp s' hrun.2⟩

/-- The property holds of every state that a part of the requests leads to. -/
def Always (step : σ → ρ → Except Fault (σ × ω)) (P : σ → Prop) (s : σ) (rs : List ρ) : Prop :=
  ∀ xs ys s' answers, rs = xs ++ ys → runAll step s xs = .ok (s', answers) → P s'

theorem Always.head {P : σ → Prop} {s : σ} {rs : List ρ} (h : Always step P s rs) : P s :=
  h [] rs s [] rfl rfl

theorem Always.tail {P : σ → Prop} {s s₁ : σ} {r : ρ} {rs : List ρ} {answer : ω}
    (h : Always step P s (r :: rs)) (h₁ : step s r = .ok (s₁, answer)) :
    Always step P s₁ rs := fun xs ys s' answers hrs hrun =>
  h (r :: xs) ys s' (answer :: answers) (by rw [hrs, List.cons_append]) (runAll_cons h₁ hrun)

theorem always_cons {P : σ → Prop} {s : σ} {r : ρ} {rs : List ρ} :
    Always step P s (r :: rs) ↔
      P s ∧ ∀ s₁ answer, step s r = .ok (s₁, answer) → Always step P s₁ rs := by
  refine ⟨fun h => ⟨h.head, fun s₁ answer h₁ => h.tail h₁⟩, ?_⟩
  rintro ⟨hs, hrest⟩ (_ | ⟨x, xs⟩) ys s' answers hrs hrun
  · obtain ⟨rfl, -⟩ : s = s' ∧ [] = answers := by simpa [runAll] using hrun
    exact hs
  · obtain ⟨rfl, htail⟩ := List.cons.inj hrs
    obtain ⟨s₁, answer, rest, h₁, hxs, -⟩ := runAll_cons_ok hrun
    exact hrest s₁ answer h₁ xs ys s' rest htail hxs

theorem always_nil {P : σ → Prop} {s : σ} : Always step P s [] ↔ P s := by
  refine ⟨Always.head, fun hs xs ys s' answers hnil hrun => ?_⟩
  obtain ⟨rfl, rfl⟩ := List.append_eq_nil_iff.mp hnil.symm
  obtain ⟨rfl, -⟩ : s = s' ∧ [] = answers := by simpa [runAll] using hrun
  exact hs

/-- A property of what a computation returns. -/
instance decidableForallOk {α β : Type} {P : α → β → Prop} [∀ a b, Decidable (P a b)] :
    ∀ x : Except Fault (α × β), Decidable (∀ a b, x = .ok (a, b) → P a b)
  | .ok (a, b) => decidable_of_iff (P a b)
      ⟨fun h _ _ hx => by cases hx; exact h, fun h => h a b rfl⟩
  | .error _ => .isTrue fun _ _ hx => by cases hx

instance decidableMeets {cond : σ → ρ → Prop} [∀ s r, Decidable (cond s r)] :
    ∀ (s : σ) (rs : List ρ), Decidable (Meets step cond s rs)
  | _, [] => .isTrue trivial
  | s, r :: rs =>
    have : ∀ s', Decidable (Meets step cond s' rs) := fun s' => decidableMeets s' rs
    inferInstanceAs (Decidable (cond s r ∧
      ∀ s' answer, step s r = .ok (s', answer) → Meets step cond s' rs))

instance decidableAlways {P : σ → Prop} [DecidablePred P] :
    ∀ (s : σ) (rs : List ρ), Decidable (Always step P s rs)
  | _, [] => decidable_of_iff _ always_nil.symm
  | s, r :: rs =>
    have : ∀ s', Decidable (Always step P s' rs) := fun s' => decidableAlways s' rs
    decidable_of_iff (P s ∧ ∀ s₁ answer, step s r = .ok (s₁, answer) → Always step P s₁ rs)
      always_cons.symm

/-- The invariant rule, after every part of the requests. -/
theorem throughout_of_meets {cond : σ → ρ → Prop} {I : σ → Prop}
    (hstep : ∀ s r, I s → cond s r → ∃ s' answer, step s r = .ok (s', answer) ∧ I s')
    {s : σ} {rs : List ρ} (hI : I s) (h : Meets step cond s rs) : Throughout step I s rs := by
  rintro xs ys rfl
  exact runAll_invariant (I := fun s _ => I s) (fun s r _ => hstep s r) hI h.of_append.1

/-- **The exact condition for runs**, where a request that does not meet it may fault: it is
enough that a request keeps a property under the condition, and only then. What is known
besides may look at the requests still to come, and is only needed as long as the property
holds. -/
theorem throughout_iff_meets_of_rest {cond : σ → ρ → Prop} {I : σ → List ρ → Prop} {P : σ → Prop}
    (hkeep : ∀ s r rs, I s (r :: rs) → P s → cond s r →
      ∃ s' answer, step s r = .ok (s', answer) ∧ P s')
    (hinv : ∀ s r rs s' answer, I s (r :: rs) → P s → step s r = .ok (s', answer) → P s' →
      I s' rs)
    (honly : ∀ s r rs s' answer, I s (r :: rs) → P s → step s r = .ok (s', answer) → P s' →
      cond s r)
    {s : σ} {rs : List ρ} (hI : I s rs) (hP : P s) :
    Throughout step P s rs ↔ Meets step cond s rs := by
  induction rs generalizing s with
  | nil =>
    refine ⟨fun _ => trivial, fun _ xs ys h => ?_⟩
    obtain ⟨rfl, rfl⟩ := List.append_eq_nil_iff.mp h.symm
    exact ⟨s, [], rfl, hP⟩
  | cons r rs ih =>
    constructor
    · intro h
      obtain ⟨s₁, answers₁, hrun₁, hP₁⟩ := h [r] rs rfl
      obtain ⟨s', answer, rest, h₁, hnil, -⟩ := runAll_cons_ok hrun₁
      obtain ⟨rfl, -⟩ : s' = s₁ ∧ [] = rest := by simpa [runAll] using hnil
      refine ⟨honly s r rs s' answer hI hP h₁ hP₁, fun s'' answer' hs'' => ?_⟩
      obtain ⟨rfl, -⟩ : s' = s'' ∧ answer = answer' := by simpa [h₁] using hs''
      refine (ih (hinv s r rs s' answer hI hP h₁ hP₁) hP₁).mp fun xs ys hxs => ?_
      obtain ⟨s'', answers, hrun, hs''⟩ := h (r :: xs) ys (by rw [hxs, List.cons_append])
      obtain ⟨s₂, answer'', rest, h₂, hxsr, -⟩ := runAll_cons_ok hrun
      obtain ⟨rfl, -⟩ : s' = s₂ ∧ answer = answer'' := by simpa [h₁] using h₂
      exact ⟨s'', rest, hxsr, hs''⟩
    · rintro ⟨hc, hrest⟩ xs ys hxs
      obtain ⟨s₁, answer, h₁, hP₁⟩ := hkeep s r rs hI hP hc
      cases xs with
      | nil => exact ⟨s, [], rfl, hP⟩
      | cons x xs =>
        obtain ⟨rfl, htail⟩ := List.cons.inj hxs
        obtain ⟨s', answers, hrun, hs'⟩ := (ih (hinv s r rs s₁ answer hI hP h₁ hP₁) hP₁).mpr
          (hrest s₁ answer h₁) xs ys htail
        exact ⟨s', answer :: answers, runAll_cons h₁ hrun, hs'⟩

/-- The same, with what is known of the state and of each request apart. -/
theorem throughout_iff_meets_of_fault {cond : σ → ρ → Prop} {I P : σ → Prop} {Q : ρ → Prop}
    (hkeep : ∀ s r, Q r → I s → P s → cond s r →
      ∃ s' answer, step s r = .ok (s', answer) ∧ P s')
    (hinv : ∀ s r s' answer, Q r → I s → P s → step s r = .ok (s', answer) → I s')
    (honly : ∀ s r s' answer, Q r → I s → P s → step s r = .ok (s', answer) → P s' → cond s r)
    {s : σ} {rs : List ρ} (hQ : ∀ r ∈ rs, Q r) (hI : I s) (hP : P s) :
    Throughout step P s rs ↔ Meets step cond s rs :=
  throughout_iff_meets_of_rest (I := fun s rs => I s ∧ ∀ r ∈ rs, Q r)
    (fun s r _ h hP hc => hkeep s r (h.2 r List.mem_cons_self) h.1 hP hc)
    (fun s r _ s' answer h hP hs' _ => ⟨hinv s r s' answer (h.2 r List.mem_cons_self) h.1 hP hs',
      fun x hx => h.2 x (List.mem_cons_of_mem r hx)⟩)
    (fun s r _ s' answer h hP hs' => honly s r s' answer (h.2 r List.mem_cons_self) h.1 hP hs')
    ⟨hI, hQ⟩ hP

/-- **The exact condition for runs**: when a request keeps a property exactly under a
condition, the property holds throughout a run exactly if every request meets it. -/
theorem throughout_iff_meets {cond : σ → ρ → Prop} {I P : σ → Prop} {Q : ρ → Prop}
    (hstep : ∀ s r, Q r → I s → P s →
      ∃ s' answer, step s r = .ok (s', answer) ∧ I s' ∧ (P s' ↔ cond s r))
    {s : σ} {rs : List ρ} (hQ : ∀ r ∈ rs, Q r) (hI : I s) (hP : P s) :
    Throughout step P s rs ↔ Meets step cond s rs := by
  -- the state that a request leads to is the one of the hypothesis
  have hat : ∀ s r s' answer, Q r → I s → P s → step s r = .ok (s', answer) →
      I s' ∧ (P s' ↔ cond s r) := fun s r s' answer hr hI hP hs' => by
    obtain ⟨s₁, answer₁, h₁, hI₁, hiff⟩ := hstep s r hr hI hP
    obtain ⟨rfl, -⟩ : s₁ = s' ∧ answer₁ = answer := by simpa [h₁] using hs'
    exact ⟨hI₁, hiff⟩
  refine throughout_iff_meets_of_fault (fun s r hr hI hP hc => ?_)
    (fun s r s' answer hr hI hP hs' => (hat s r s' answer hr hI hP hs').1)
    (fun s r s' answer hr hI hP hs' => (hat s r s' answer hr hI hP hs').2.mp) hQ hI hP
  obtain ⟨s', answer, hs', -, hiff⟩ := hstep s r hr hI hP
  exact ⟨s', answer, hs', hiff.mpr hc⟩

end Runs

end LimitOrderBook
