import LimitOrderBook.Lib.Fault

/-!
# Runs and their histories

The history of a run is the list of its requests with their answers. What may be said of a request
and its answer often depends on the history so far – nothing is answered twice, what is returned
was submitted before – and is proved with an invariant of the state and the history
(`LimitOrderBook.runAll_history`).
-/

namespace LimitOrderBook

variable {σ ρ ω : Type} {step : σ → ρ → Except Fault (σ × ω)}

/-- Every entry of a history meets a condition on the entries before it. -/
def Follows (C : List (ρ × ω) → ρ × ω → Prop) (h : List (ρ × ω)) : Prop :=
  ∀ p x q, h = p ++ x :: q → C p x

theorem Follows.imp {C D : List (ρ × ω) → ρ × ω → Prop} {h : List (ρ × ω)} (hC : Follows C h)
    (himp : ∀ p x, C p x → D p x) : Follows D h :=
  fun p x q hq => himp p x (hC p x q hq)

/-- **The invariant rule for histories**, of runs whose requests meet a condition in the state they
find. -/
theorem runAll_history {I : σ → List (ρ × ω) → Prop} {C : List (ρ × ω) → ρ × ω → Prop}
    {cond : σ → ρ → Prop}
    (hstep : ∀ s h r, I s h → cond s r → ∃ s' answer, step s r = .ok (s', answer) ∧
      C h (r, answer) ∧ I s' (h ++ [(r, answer)])) {s : σ} (hI : I s []) {rs : List ρ}
    (hrs : Meets step cond s rs) :
    ∃ s' answers, runAll step s rs = .ok (s', answers) ∧ I s' (rs.zip answers) ∧
      Follows C (rs.zip answers) := by
  -- from a history that is not empty
  have hfrom : ∀ rs s h, I s h → Meets step cond s rs → ∃ s' answers,
      runAll step s rs = .ok (s', answers) ∧ I s' (h ++ rs.zip answers) ∧
        Follows (fun p x => C (h ++ p) x) (rs.zip answers) := by
    intro rs
    induction rs with
    | nil => exact fun s h hI _ => ⟨s, [], rfl, by simpa using hI, fun p x q hq => by simp at hq⟩
    | cons r rs ih =>
      rintro s h hI ⟨hr, hrest⟩
      obtain ⟨s₁, answer, h₁, hC, hI₁⟩ := hstep s h r hI hr
      obtain ⟨s₂, answers, h₂, hI₂, hfollows⟩ := ih s₁ _ hI₁ (hrest s₁ answer h₁)
      refine ⟨s₂, answer :: answers, runAll_cons h₁ h₂, ?_, fun p x q hq => ?_⟩
      · rw [List.zip_cons_cons, List.append_cons]
        exact hI₂
      · rw [List.zip_cons_cons] at hq
        rcases p with _ | ⟨y, p⟩
        · obtain ⟨rfl, -⟩ := List.cons.inj hq
          simpa using hC
        · obtain ⟨rfl, hrest⟩ := List.cons.inj hq
          rw [List.append_cons]
          exact hfollows p x q hrest
  simpa using hfrom rs s [] hI hrs

end LimitOrderBook
