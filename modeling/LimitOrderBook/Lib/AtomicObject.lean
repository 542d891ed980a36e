import LimitOrderBook.Lib.Fault
import Mathlib.Data.List.ReduceOption
import Mathlib.Logic.Function.Basic

/-!
# Atomic objects

An object that many clients call at the same time is *atomic* if every call can be thought to
take effect at one moment between its beginning and its end. The object is given by what one
call does when there is no other, a fallible step. Of a client the outside sees the beginning
of a call and its end (`LimitOrderBook.Visible`); the moment at which the call takes effect is
not seen.

`LimitOrderBook.AtomicObject.Runs` says which sequences of such events an atomic object allows,
with the calls in the order in which they take effect. That order is a run of the object without
concurrency (`LimitOrderBook.AtomicObject.Runs.runAll_eq`). A system is shown to be atomic by a
forward simulation (`LimitOrderBook.AtomicObject.runs_of_simulates`): each of its steps is matched
by steps of the atomic object.
-/

namespace LimitOrderBook

variable {σ C O A : Type}

/-- What the outside sees of the clients. -/
inductive Visible (C O A : Type) where
  | invoke (c : C) (op : O)
  | respond (c : C) (answer : A)
  deriving DecidableEq

/-- What is known of the call of a client. -/
inductive PendingCall (O A : Type) where
  | idle
  /-- The call has not taken effect. -/
  | invoked (op : O)
  /-- The call has taken effect, with this answer. -/
  | done (answer : A)

/-- A call that has taken effect. -/
structure PerformedCall (C O A : Type) where
  client : C
  op : O
  answer : A

/-- An object with its clients. -/
@[ext]
structure AtomicObject (σ C O A : Type) where
  object : σ
  call : C → PendingCall O A

namespace AtomicObject

/-- No client is in a call. -/
def start (x : σ) : AtomicObject σ C O A := ⟨x, fun _ => .idle⟩

variable [DecidableEq C]

/-- The call of one client moves on. -/
def setCall (s : AtomicObject σ C O A) (c : C) (p : PendingCall O A) : AtomicObject σ C O A :=
  { s with call := Function.update s.call c p }

/-- A call takes effect. -/
def perform (s : AtomicObject σ C O A) (c : C) (x : σ) (answer : A) : AtomicObject σ C O A :=
  { object := x, call := Function.update s.call c (.done answer) }

/-- **What an atomic object allows**: the visible events in their order, and the calls in the
order in which they take effect. -/
inductive Runs (step : σ → O → Except Fault (σ × A)) : AtomicObject σ C O A →
    List (Visible C O A) → List (PerformedCall C O A) → AtomicObject σ C O A → Prop where
  | nil (s) : Runs step s [] [] s
  | invoke {s t history log} (c : C) (op : O) (hidle : s.call c = .idle)
      (hrest : Runs step (s.setCall c (.invoked op)) history log t) :
      Runs step s (.invoke c op :: history) log t
  | perform {s t history log} (c : C) (op : O) (x : σ) (answer : A)
      (hinvoked : s.call c = .invoked op) (hstep : step s.object op = .ok (x, answer))
      (hrest : Runs step (s.perform c x answer) history log t) :
      Runs step s history (⟨c, op, answer⟩ :: log) t
  | respond {s t history log} (c : C) (answer : A) (hdone : s.call c = .done answer)
      (hrest : Runs step (s.setCall c .idle) history log t) :
      Runs step s (.respond c answer :: history) log t

variable {step : σ → O → Except Fault (σ × A)} {s t u : AtomicObject σ C O A}
  {history history' : List (Visible C O A)} {log log' : List (PerformedCall C O A)}

/-- One run after another. -/
theorem Runs.append (h : Runs step s history log t) (h' : Runs step t history' log' u) :
    Runs step s (history ++ history') (log ++ log') u := by
  induction h with
  | nil => exact h'
  | invoke c op hidle _ ih => exact .invoke c op hidle (ih h')
  | perform c op x answer hinvoked hstep _ ih => exact .perform c op x answer hinvoked hstep (ih h')
  | respond c answer hdone _ ih => exact .respond c answer hdone (ih h')

/-- **The effects are a run of the object without concurrency**, with the same answers. -/
theorem Runs.runAll_eq (h : Runs step s history log t) :
    runAll step s.object (log.map PerformedCall.op) =
      .ok (t.object, log.map PerformedCall.answer) := by
  induction h with
  | nil => rfl
  | invoke c op hidle _ ih => exact ih
  | perform c op x answer hinvoked hstep _ ih => exact runAll_cons hstep ih
  | respond c answer hdone _ ih => exact ih

/-- **Forward simulation**: when every step of a system is matched by steps of an atomic object
with the same visible event, so is every run. -/
theorem runs_of_simulates {S E : Type} {system : S → E → Except Fault (S × Option (Visible C O A))}
    {I : S → Prop} {cond : S → E → Prop} (view : S → AtomicObject σ C O A)
    (hstep : ∀ x e, I x → cond x e → ∃ x' v log, system x e = .ok (x', v) ∧ I x' ∧
      Runs step (view x) v.toList log (view x')) {x : S} (hx : I x) {es : List E}
    (hes : Meets system cond x es) : ∃ x' vs log, runAll system x es = .ok (x', vs) ∧ I x' ∧
      Runs step (view x) vs.reduceOption log (view x') := by
  induction es generalizing x with
  | nil => exact ⟨x, [], [], rfl, hx, .nil _⟩
  | cons e es ih =>
    obtain ⟨x₁, v, log₁, h₁, hx₁, hruns₁⟩ := hstep x e hx hes.1
    obtain ⟨x₂, vs, log₂, h₂, hx₂, hruns₂⟩ := ih hx₁ (hes.2 x₁ v h₁)
    refine ⟨x₂, v :: vs, log₁ ++ log₂, runAll_cons h₁ h₂, hx₂, ?_⟩
    have hsplit : (v :: vs).reduceOption = v.toList ++ vs.reduceOption := by
      cases v with
      | none => rw [List.reduceOption_cons_of_none, Option.toList_none, List.nil_append]
      | some v => rw [List.reduceOption_cons_of_some, Option.toList_some, List.singleton_append]
    rw [hsplit]
    exact hruns₁.append hruns₂

end AtomicObject

end LimitOrderBook
