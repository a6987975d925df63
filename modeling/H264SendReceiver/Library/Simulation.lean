import Mathlib.Tactic.Common

/-!
# Machines that answer calls

A machine takes a call and answers it, changing its state. Where one machine
simulates another call by call it gives the same answers to every sequence of
calls, and the states that stand for one abstract state cannot be told apart.
-/

namespace Simulation

variable {ι ο σ σ' τ : Type*}

/-- The answers to a sequence of calls, and the state behind them. -/
def answers (step : σ → ι → ο × σ) : List ι → σ → List ο × σ
  | [], s => ([], s)
  | c :: cs, s =>
      let (o, s) := step s c
      let (os, s) := answers step cs s
      (o :: os, s)

@[simp] theorem answers_nil (step : σ → ι → ο × σ) (s : σ) : answers step [] s = ([], s) := rfl

@[simp] theorem answers_cons (step : σ → ι → ο × σ) (c : ι) (cs : List ι) (s : σ) :
    answers step (c :: cs) s =
      ((step s c).1 :: (answers step cs (step s c).2).1, (answers step cs (step s c).2).2) := rfl

/-- Related states give the same answer and stay related. -/
def Simulates (step : σ → ι → ο × σ) (spec : τ → ι → ο × τ) (R : σ → τ → Prop) : Prop :=
  ∀ s t c, R s t → (step s c).1 = (spec t c).1 ∧ R (step s c).2 (spec t c).2

theorem Simulates.answers {step : σ → ι → ο × σ} {spec : τ → ι → ο × τ} {R : σ → τ → Prop}
    (h : Simulates step spec R) (cs : List ι) :
    ∀ {s t}, R s t → (Simulation.answers step cs s).1 = (Simulation.answers spec cs t).1 ∧
      R (Simulation.answers step cs s).2 (Simulation.answers spec cs t).2 := by
  induction cs with
  | nil => intro s t hR; exact ⟨rfl, hR⟩
  | cons c cs ih =>
      intro s t hR
      obtain ⟨hfirst, hnext⟩ := h s t c hR
      obtain ⟨hrest, hlast⟩ := ih hnext
      rw [answers_cons, answers_cons, hfirst, hrest]
      exact ⟨rfl, hlast⟩

/-- Two machines in states that stand for the same abstract state. -/
theorem Simulates.answers_eq {step : σ → ι → ο × σ} {step' : σ' → ι → ο × σ'}
    {spec : τ → ι → ο × τ} {R : σ → τ → Prop} {R' : σ' → τ → Prop}
    (h : Simulates step spec R) (h' : Simulates step' spec R') (cs : List ι) {s : σ} {s' : σ'}
    {t : τ} (hR : R s t) (hR' : R' s' t) :
    (Simulation.answers step cs s).1 = (Simulation.answers step' cs s').1 :=
  (h.answers cs hR).1.trans (h'.answers cs hR').1.symm

end Simulation
