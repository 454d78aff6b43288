import Minitalk.Lib.Machine

/-! # Implementations of a model

An implementation carries out operations on its state and answers each; an allocation that an operation needs may
fail. The model says what an operation does, what it answers and for which arguments it is refused. Next to the
implementation the model takes the steps that were not refused (`machine`); a relation that each step keeps holds
after every run (`refines_run`). -/

structure Implementation (σ τ ω ρ : Type) where
  /-- The operation on the state of the implementation, given whether its allocation succeeds. -/
  run : ω → Bool → σ → σ × ρ
  /-- The operation on the model, and its answer, when it is not refused. -/
  apply : ω → τ → τ
  answer : ω → τ → ρ
  /-- The arguments for which the operation is refused whether its allocation succeeds or not. -/
  Invalid : ω → τ → Prop
  refusal : ρ

namespace Implementation
variable {σ τ ω ρ : Type} [DecidableEq ρ] (I : Implementation σ τ ω ρ)

/-- The implementation next to its model. -/
def machine : Machine (σ × τ) (ω × Bool) ρ where
  step s i :=
    let (t, out) := I.run i.1 i.2 s.1
    ((t, if out = I.refusal then s.2 else I.apply i.1 s.2), [out])

/-- The operation was refused, for its arguments or for a failed allocation, and changed nothing, or it answered what
    it answers on the model. -/
def Answered (s : σ × τ) (i : ω × Bool) : Prop :=
  (I.run i.1 i.2 s.1 = (s.1, I.refusal) ∧ (I.Invalid i.1 s.2 ∨ i.2 = false)) ∨
    (¬I.Invalid i.1 s.2 ∧ (I.run i.1 i.2 s.1).2 = I.answer i.1 s.2)

/-- What is proved of each operation: it is refused without effect, or does on the state what it does on the model. -/
def Done (R : σ → τ → Prop) (op : ω) (ok : Bool) (s : σ) (t : τ) : Prop :=
  (I.run op ok s = (s, I.refusal) ∧ (I.Invalid op t ∨ ok = false)) ∨
    (¬I.Invalid op t ∧ ∃ s', I.run op ok s = (s', I.answer op t) ∧ R s' (I.apply op t))

variable {I} {R : σ → τ → Prop} {fits : σ × τ → ω × Bool → Prop}

/-- A relation that each operation keeps holds after every run whose steps meet the condition, and every operation of
    the run is refused without effect or answers what it answers on the model. -/
theorem refines_run (hanswer : ∀ op t, I.answer op t ≠ I.refusal)
    (hdone : ∀ s t op ok, R s t → fits (s, t) (op, ok) → I.Done R op ok s t)
    {s : σ} {t : τ} (hst : R s t) {ops : List (ω × Bool)} (hfits : I.machine.Meets fits (s, t) ops) :
    R (I.machine.run (s, t) ops).1 (I.machine.run (s, t) ops).2 ∧ I.machine.Meets I.Answered (s, t) ops := by
  refine Machine.Meets.run (I := fun s => R s.1 s.2) ?_ hst hfits
  rintro ⟨s, t⟩ ⟨op, ok⟩ hst hfit
  rcases hdone s t op ok hst hfit with ⟨hrun, hwhy⟩ | ⟨hvalid, s', hrun, hst'⟩
  · have hnext : (I.machine.step (s, t) (op, ok)).1 = (s, t) := by
      simp only [machine, hrun, if_true]
    exact ⟨by rwa [hnext], Or.inl ⟨hrun, hwhy⟩⟩
  · have hnext : (I.machine.step (s, t) (op, ok)).1 = (s', I.apply op t) := by
      simp only [machine, hrun, hanswer, if_false]
    exact ⟨by rwa [hnext], Or.inr ⟨hvalid, by simp only [hrun]⟩⟩

/-- One operation many times, through the models that it makes one of the other. -/
theorem run_replicate (op : ω) (ok : Bool) (out : ρ) {t : Nat → τ} (hout : out ≠ I.refusal)
    (hstep : ∀ s k, R s (t k) → ∃ s', I.run op ok s = (s', out) ∧ R s' (t (k + 1)))
    (happly : ∀ k, I.apply op (t k) = t (k + 1)) {s : σ} (hst : R s (t 0)) (k : Nat) :
    ∃ s', I.machine.run (s, t 0) (List.replicate k (op, ok)) = (s', t k) ∧ R s' (t k) := by
  induction k with
  | zero => exact ⟨s, rfl, hst⟩
  | succ k ih =>
    obtain ⟨s₁, hrun, hs₁⟩ := ih
    obtain ⟨s', hop, hs'⟩ := hstep s₁ k hs₁
    refine ⟨s', ?_, hs'⟩
    rw [List.replicate_succ', Machine.run_concat, hrun]
    simp only [machine, hop, hout, if_false, happly]

end Implementation
