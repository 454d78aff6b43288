/-! # Systems that take steps when they can

A system takes an action in a state or refuses it. A run is a list of actions none of which is refused. What one
step preserves, under a condition on the state and the action, holds after every run whose steps all meet the
condition (`run_invariant`); what it pays for out of a potential bounds what runs cost (`cost_le`); and a system each
of whose steps is followed by another one, in no step, one or several, is followed by it over whole runs
(`run_follows`). -/

structure Transition (σ α : Type) where
  step : σ → α → Option σ

namespace Transition
variable {σ α : Type} (t : Transition σ α)

/-- The state after a list of actions, if none is refused. -/
def run (s : σ) : List α → Option σ
  | [] => some s
  | a :: as => (t.step s a).bind fun s' => run s' as

/-- Every step of the run meets the condition in the state that it starts in. -/
def Meets (ok : σ → α → Prop) (s : σ) : List α → Prop
  | [] => True
  | a :: as => ok s a ∧ ∀ s', t.step s a = some s' → Meets ok s' as

instance decidableMeets (ok : σ → α → Prop) [∀ s a, Decidable (ok s a)] :
    ∀ (s : σ) (as : List α), Decidable (t.Meets ok s as)
  | _, [] => .isTrue trivial
  | s, a :: as =>
    have : Decidable (∀ s', t.step s a = some s' → t.Meets ok s' as) :=
      match t.step s a with
      | none => .isTrue fun _ hs => nomatch hs
      | some s' =>
        match decidableMeets ok s' as with
        | .isTrue hm => .isTrue fun _ hs => Option.some.inj hs ▸ hm
        | .isFalse hm => .isFalse fun hall => hm (hall s' rfl)
    inferInstanceAs (Decidable (_ ∧ _))

variable {t}

theorem run_cons (s : σ) (a : α) (as : List α) : t.run s (a :: as) = (t.step s a).bind (t.run · as) := rfl

/-- What each step that meets the condition preserves holds after every run whose steps meet it. -/
theorem run_invariant {I : σ → Prop} {ok : σ → α → Prop}
    (hstep : ∀ s a s', I s → ok s a → t.step s a = some s' → I s') {s s' : σ} {as : List α} (hs : I s)
    (hok : t.Meets ok s as) (hrun : t.run s as = some s') : I s' := by
  induction as generalizing s with
  | nil => exact Option.some.inj hrun ▸ hs
  | cons a as ih =>
    obtain ⟨s₁, hs₁, hrest⟩ := Option.bind_eq_some_iff.mp (run_cons s a as ▸ hrun)
    exact ih (hstep s a s₁ hs hok.1 hs₁) (hok.2 s₁ hs₁) hrest

theorem meets_true (s : σ) (as : List α) : t.Meets (fun _ _ => True) s as := by
  induction as generalizing s with
  | nil => trivial
  | cons a as ih => exact ⟨trivial, fun s' _ => ih s'⟩

theorem meets_of_forall {ok : α → Prop} (s : σ) {as : List α} (h : ∀ a ∈ as, ok a) :
    t.Meets (fun _ a => ok a) s as := by
  induction as generalizing s with
  | nil => trivial
  | cons a as ih => exact ⟨h a List.mem_cons_self, fun s' _ => ih s' fun b hb => h b (List.mem_cons_of_mem a hb)⟩

/-- A measure that every step lowers bounds the run. -/
theorem length_run_le {I : σ → Prop} {ok : σ → α → Prop} {μ : σ → Nat}
    (hstep : ∀ s a s', I s → ok s a → t.step s a = some s' → I s' ∧ μ s' < μ s) {s s' : σ} {as : List α} (hs : I s)
    (hok : t.Meets ok s as) (hrun : t.run s as = some s') : as.length + μ s' ≤ μ s := by
  induction as generalizing s with
  | nil =>
    cases hrun
    simp
  | cons a as ih =>
    obtain ⟨s₁, hs₁, hrest⟩ := Option.bind_eq_some_iff.mp (run_cons s a as ▸ hrun)
    obtain ⟨hI, hlt⟩ := hstep s a s₁ hs hok.1 hs₁
    have hle := ih hI (hok.2 s₁ hs₁) hrest
    rw [List.length_cons]
    omega

/-! ### Costs -/

section Cost
variable (t) (c : σ → α → Nat)

/-- What the steps of a run cost in all. -/
def cost (s : σ) : List α → Nat
  | [] => 0
  | a :: as => c s a + (t.step s a).elim 0 fun s' => cost s' as

variable {t c}

/-- What every step pays for out of a potential, the run pays for. -/
theorem cost_le {I : σ → Prop} {ok : σ → α → Prop} {m : σ → Nat}
    (hstep : ∀ s a s', I s → ok s a → t.step s a = some s' → I s' ∧ c s a + m s' ≤ m s) {s s' : σ} {as : List α}
    (hs : I s) (hok : t.Meets ok s as) (hrun : t.run s as = some s') : t.cost c s as + m s' ≤ m s := by
  induction as generalizing s with
  | nil =>
    cases hrun
    simp [cost]
  | cons a as ih =>
    obtain ⟨s₁, hs₁, hrest⟩ := Option.bind_eq_some_iff.mp (run_cons s a as ▸ hrun)
    obtain ⟨hI, hle⟩ := hstep s a s₁ hs hok.1 hs₁
    have hrun := ih hI (hok.2 s₁ hs₁) hrest
    simp only [cost, hs₁, Option.elim_some]
    omega

end Cost

/-! ### A run of another system for every step -/

theorem run_append (s : σ) (as bs : List α) : t.run s (as ++ bs) = (t.run s as).bind fun s' => t.run s' bs := by
  induction as generalizing s with
  | nil => rfl
  | cons a as ih =>
    rw [List.cons_append, run_cons, run_cons, Option.bind_assoc]
    exact congrArg _ (funext fun s' => ih s')

theorem Meets.append {ok : σ → α → Prop} {s s' : σ} {as bs : List α} (has : t.Meets ok s as)
    (hrun : t.run s as = some s') (hbs : t.Meets ok s' bs) : t.Meets ok s (as ++ bs) := by
  induction as generalizing s with
  | nil => exact Option.some.inj hrun ▸ hbs
  | cons a as ih =>
    obtain ⟨s₁, hs₁, hrest⟩ := Option.bind_eq_some_iff.mp (run_cons s a as ▸ hrun)
    exact ⟨has.1, fun s₂ hs₂ => ih (has.2 s₂ hs₂) (Option.some.inj (hs₁.symm.trans hs₂) ▸ hrest)⟩

section Follows
variable {τ β : Type} {u : Transition τ β} {f : σ → τ} {I : σ → Prop} {ok : σ → α → Prop} {ok' : τ → β → Prop}

/-- The other system goes from state to state as well, by no action, by one or by several, all of which meet its own
    condition. -/
def Follows (u : Transition τ β) (ok' : τ → β → Prop) (x x' : τ) : Prop :=
  ∃ bs, u.Meets ok' x bs ∧ u.run x bs = some x'

theorem Follows.refl (x : τ) : Follows u ok' x x := ⟨[], trivial, rfl⟩

theorem Follows.step {x x' : τ} {b : β} (hok : ok' x b) (h : u.step x b = some x') : Follows u ok' x x' :=
  ⟨[b], ⟨hok, fun _ _ => trivial⟩, by rw [run_cons, h]; rfl⟩

theorem Follows.trans {x y z : τ} (h : Follows u ok' x y) (h' : Follows u ok' y z) : Follows u ok' x z := by
  obtain ⟨bs, hok, hrun⟩ := h
  obtain ⟨bs', hok', hrun'⟩ := h'
  exact ⟨bs ++ bs', hok.append hrun hok', by rw [run_append, hrun]; exact hrun'⟩

/-- Steps that keep an invariant and are each followed by the other system make runs that do. -/
theorem run_follows (hstep : ∀ s a s', I s → ok s a → t.step s a = some s' → I s' ∧ Follows u ok' (f s) (f s'))
    {s s' : σ} {as : List α} (hs : I s) (hok : t.Meets ok s as) (hrun : t.run s as = some s') :
    I s' ∧ Follows u ok' (f s) (f s') := by
  induction as generalizing s with
  | nil =>
    cases hrun
    exact ⟨hs, .refl _⟩
  | cons a as ih =>
    obtain ⟨s₁, hs₁, hrest⟩ := Option.bind_eq_some_iff.mp (run_cons s a as ▸ hrun)
    obtain ⟨hI, hfollows⟩ := hstep s a s₁ hs hok.1 hs₁
    obtain ⟨hI', hfollows'⟩ := ih hI (hok.2 s₁ hs₁) hrest
    exact ⟨hI', hfollows.trans hfollows'⟩

end Follows

end Transition
