/-! # Programs with loops

A program has no result when an access of it is outside of its memory, or when it does not end. `Ends p Q` says that
`p` has a result of which `Q` holds. A loop whose end is not in sight has fuel for its turns, and `Halts p Q` says that
enough of it leads to such a result. -/

namespace Program
variable {σ τ : Type}

def Ends (p : Option σ) (Q : σ → Prop) : Prop := ∃ s, p = some s ∧ Q s

def Halts (p : Nat → Option σ) (Q : σ → Prop) : Prop := ∃ enough, ∀ fuel, enough ≤ fuel → Ends (p fuel) Q

/-! ### Loops -/

/-- `n` turns, the first of them at `i`. -/
def turnsUp (body : Int → σ → Option σ) : Nat → Int → σ → Option σ
  | 0, _, s => some s
  | n + 1, i, s => (body i s).bind (turnsUp body n (i + 1))

/-- `for (i = lo; i < hi; i++)` -/
def forUp (lo hi : Int) (body : Int → σ → Option σ) (s : σ) : Option σ := turnsUp body (hi - lo).toNat lo s

def turnsDown (body : Int → σ → Option σ) : Nat → Int → σ → Option σ
  | 0, _, s => some s
  | n + 1, i, s => (body i s).bind (turnsDown body n (i - 1))

/-- `for (i = hi; i > lo; i--)` -/
def forDown (hi lo : Int) (body : Int → σ → Option σ) (s : σ) : Option σ := turnsDown body (hi - lo).toNat hi s

/-- What a loop of total steps comes to. -/
def stepsDown (step : Int → σ → σ) : Nat → Int → σ → σ
  | 0, _, s => s
  | n + 1, i, s => stepsDown step n (i - 1) (step i s)

/-- One of the turns is bad, after others that were not. -/
def AnyDown (bad : Int → σ → Prop) (step : Int → σ → σ) : Nat → Int → σ → Prop
  | 0, _, _ => False
  | n + 1, i, s => bad i s ∨ AnyDown bad step n (i - 1) (step i s)

def whileLoop (cond : σ → Option Bool) (body : σ → Option σ) : Nat → σ → Option σ
  | 0, _ => none
  | fuel + 1, s => do if ← cond s then whileLoop cond body fuel (← body s) else some s

/-! ### Rules -/

section Rules
variable {p : Option σ} {P Q : σ → Prop} {s : σ}

theorem Ends.some (h : Q s) : Ends (some s) Q := ⟨s, rfl, h⟩

theorem Ends.mono (h : Ends p P) (hpq : ∀ s, P s → Q s) : Ends p Q := by
  obtain ⟨s, hs, hp⟩ := h
  exact ⟨s, hs, hpq s hp⟩

theorem Ends.bind {f : σ → Option τ} {R : τ → Prop} (h : Ends p P) (hf : ∀ s, P s → Ends (f s) R) :
    Ends (p.bind f) R := by
  obtain ⟨s, hs, hp⟩ := h
  rw [hs]
  exact hf s hp

theorem Halts.mono {p : Nat → Option σ} (h : Halts p P) (hpq : ∀ s, P s → Q s) : Halts p Q := by
  obtain ⟨enough, h⟩ := h
  exact ⟨enough, fun fuel hfuel => (h fuel hfuel).mono hpq⟩

/-- A program has one result. -/
theorem Halts.both {p : Nat → Option σ} (h : Halts p P) (h' : Halts p Q) : ∃ s, P s ∧ Q s := by
  obtain ⟨enough, h⟩ := h
  obtain ⟨enough', h'⟩ := h'
  obtain ⟨s, hs, hp⟩ := h (enough + enough') (Nat.le_add_right _ _)
  obtain ⟨s', hs', hq⟩ := h' (enough + enough') (Nat.le_add_left _ _)
  rw [hs] at hs'
  cases hs'
  exact ⟨s, hp, hq⟩

/-- What is known of each result decides on any property of it. -/
theorem Halts.iff {p : Nat → Option σ} {R : Prop} (h : Halts p P) (hiff : ∀ s, P s → (Q s ↔ R)) : Halts p Q ↔ R := by
  constructor
  · intro hq
    obtain ⟨s, hp, hq⟩ := h.both hq
    exact (hiff s hp).mp hq
  · exact fun hr => h.mono fun s hp => (hiff s hp).mpr hr

/-- A program that has one result from some fuel on. -/
theorem halts_of_const {p : Nat → Option σ} (n : Nat) (h : ∀ fuel, n ≤ fuel → p fuel = some s) : Halts p Q ↔ Q s := by
  constructor
  · rintro ⟨enough, hends⟩
    obtain ⟨s', hs', hq⟩ := hends (max n enough) (Nat.le_max_right _ _)
    rw [h _ (Nat.le_max_left _ _)] at hs'
    cases hs'
    exact hq
  · exact fun hq => ⟨n, fun fuel hfuel => ⟨s, h fuel hfuel, hq⟩⟩

theorem not_halts_of_none {p : Nat → Option σ} (n : Nat) (h : ∀ fuel, n ≤ fuel → p fuel = none) : ¬Halts p Q := by
  rintro ⟨enough, hends⟩
  obtain ⟨s, hs, -⟩ := hends (max n enough) (Nat.le_max_right _ _)
  rw [h _ (Nat.le_max_left _ _)] at hs
  cases hs

theorem turnsUp_rule {I : Int → σ → Prop} {body : Int → σ → Option σ} {lo hi : Int} {n : Nat} (hn : lo + n = hi)
    (h0 : I lo s) (hstep : ∀ i s, lo ≤ i → i < hi → I i s → Ends (body i s) (I (i + 1))) :
    Ends (turnsUp body n lo s) (I hi) := by
  induction n generalizing lo s with
  | zero =>
    obtain rfl : lo = hi := by omega
    exact .some h0
  | succ n ih =>
    refine (hstep lo s (Int.le_refl lo) (by omega) h0).bind fun s' hs' => ?_
    exact ih (by omega) hs' fun i s hi => hstep i s (by omega)

/-- An invariant of each turn holds at the end. -/
theorem forUp_rule (I : Int → σ → Prop) {body : Int → σ → Option σ} {lo hi : Int} (hle : lo ≤ hi) (h0 : I lo s)
    (hstep : ∀ i s, lo ≤ i → i < hi → I i s → Ends (body i s) (I (i + 1))) : Ends (forUp lo hi body s) (I hi) :=
  turnsUp_rule (by omega) h0 hstep

theorem turnsUp_keeps {I : Int → σ → Prop} {body : Int → σ → Option σ} {lo hi : Int} {n : Nat} (hn : lo + n = hi)
    (h0 : I lo s) (hbody : ∀ i s s', lo ≤ i → i < hi → I i s → body i s = some s' → I (i + 1) s') {r : σ}
    (h : turnsUp body n lo s = some r) : I hi r := by
  induction n generalizing lo s with
  | zero =>
    obtain rfl : lo = hi := by omega
    cases h
    exact h0
  | succ n ih =>
    obtain ⟨s', hs', h⟩ := Option.bind_eq_some_iff.mp h
    exact ih (by omega) (hbody lo s s' (Int.le_refl lo) (by omega) h0 hs') (fun i s s' hi => hbody i s s' (by omega)) h

/-- A loop that ends has an invariant of its turns at the end. -/
theorem forUp_reaches (I : Int → σ → Prop) {body : Int → σ → Option σ} {lo hi : Int} (hle : lo ≤ hi) (h0 : I lo s)
    (hbody : ∀ i s s', lo ≤ i → i < hi → I i s → body i s = some s' → I (i + 1) s') {r : σ}
    (h : forUp lo hi body s = some r) : I hi r := turnsUp_keeps (by omega) h0 hbody h

/-- What each turn keeps holds when the loop ends. -/
theorem forUp_keeps (I : σ → Prop) {body : Int → σ → Option σ} {lo hi : Int} (h0 : I s)
    (hbody : ∀ i s s', I s → body i s = some s' → I s') {r : σ} (h : forUp lo hi body s = some r) : I r :=
  turnsUp_keeps (I := fun _ => I) rfl h0 (fun i s s' _ _ => hbody i s s') h

theorem turnsUp_add (body : Int → σ → Option σ) (m n : Nat) (i : Int) (s : σ) :
    turnsUp body (m + n) i s = (turnsUp body m i s).bind (turnsUp body n (i + m)) := by
  induction m generalizing i s with
  | zero => rw [Nat.zero_add, turnsUp, Option.bind_some, Int.natCast_zero, Int.add_zero]
  | succ m ih =>
    have hnext : i + ((m + 1 : Nat) : Int) = i + 1 + m := by omega
    rw [Nat.add_right_comm, turnsUp, turnsUp, Option.bind_assoc, hnext]
    exact congrArg _ (funext (ih (i + 1)))

/-- The turns up to a certain one, and those from there on. -/
theorem forUp_split {lo i hi : Int} (hlo : lo ≤ i) (hhi : i ≤ hi) (body : Int → σ → Option σ) (s : σ) :
    forUp lo hi body s = (forUp lo i body s).bind (forUp i hi body) := by
  have hturns : (hi - lo).toNat = (i - lo).toNat + (hi - i).toNat := by omega
  have hnext : lo + ((i - lo).toNat : Int) = i := by omega
  rw [forUp, hturns, turnsUp_add, hnext]
  rfl

theorem forUp_of_le {lo hi : Int} (hle : hi ≤ lo) (body : Int → σ → Option σ) (s : σ) :
    forUp lo hi body s = some s := by
  rw [forUp, Int.toNat_of_nonpos (by omega), turnsUp]

theorem forUp_single (i : Int) (body : Int → σ → Option σ) : forUp i (i + 1) body = body i := by
  funext s
  have hcount : (i + 1 - i).toNat = 0 + 1 := by omega
  rw [forUp, hcount, turnsUp]
  cases body i s with
  | none => rfl
  | some s => rfl

theorem turnsDown_rule {I : Int → σ → Prop} {body : Int → σ → Option σ} {lo hi : Int} {n : Nat} (hn : lo + n = hi)
    (h0 : I hi s) (hstep : ∀ i s, lo < i → i ≤ hi → I i s → Ends (body i s) (I (i - 1))) :
    Ends (turnsDown body n hi s) (I lo) := by
  induction n generalizing hi s with
  | zero =>
    obtain rfl : lo = hi := by omega
    exact .some h0
  | succ n ih =>
    refine (hstep hi s (by omega) (Int.le_refl hi) h0).bind fun s' hs' => ?_
    exact ih (by omega) hs' fun i s hlo hi => hstep i s hlo (by omega)

theorem forDown_rule (I : Int → σ → Prop) {body : Int → σ → Option σ} {lo hi : Int} (hle : lo ≤ hi) (h0 : I hi s)
    (hstep : ∀ i s, lo < i → i ≤ hi → I i s → Ends (body i s) (I (i - 1))) : Ends (forDown hi lo body s) (I lo) :=
  turnsDown_rule (by omega) h0 hstep

theorem AnyDown.exists {bad : Int → σ → Prop} {step : Int → σ → σ} {n : Nat} {i : Int} (h : AnyDown bad step n i s) :
    ∃ j s', i - n < j ∧ j ≤ i ∧ bad j s' := by
  induction n generalizing i s with
  | zero => exact h.elim
  | succ n ih =>
    rcases h with hbad | hany
    · exact ⟨i, s, by omega, Int.le_refl i, hbad⟩
    · obtain ⟨j, s', hlo, hhi, hbad⟩ := ih hany
      exact ⟨j, s', by omega, by omega, hbad⟩

/-- Turns that change nothing lead to a bad one. -/
theorem AnyDown.of_stays {bad : Int → σ → Prop} {step : Int → σ → σ} {n : Nat} {i j : Int} (hbad : bad j s)
    (hji : j ≤ i) (hn : i - n < j) (hstays : ∀ k, j < k → k ≤ i → step k s = s) : AnyDown bad step n i s := by
  induction n generalizing i with
  | zero => omega
  | succ n ih =>
    rcases Int.lt_or_eq_of_le hji with hlt | rfl
    · refine Or.inr ?_
      rw [hstays i hlt (Int.le_refl i)]
      exact ih (by omega) (by omega) fun k hk hki => hstays k hk (by omega)
    · exact Or.inl hbad

/-- A loop whose bad turns have no result has none exactly when a turn is bad. -/
theorem turnsDown_cases {I : Int → σ → Prop} {body : Int → σ → Option σ} {bad : Int → σ → Prop} {step : Int → σ → σ}
    {lo hi : Int} {n : Nat} (hn : lo + n = hi) (h0 : I hi s)
    (hbad : ∀ i s, lo < i → i ≤ hi → I i s → bad i s → body i s = none)
    (hgood : ∀ i s, lo < i → i ≤ hi → I i s → ¬bad i s → body i s = some (step i s) ∧ I (i - 1) (step i s)) :
    (AnyDown bad step n hi s ∧ turnsDown body n hi s = none) ∨
      (¬AnyDown bad step n hi s ∧ turnsDown body n hi s = some (stepsDown step n hi s) ∧
        I lo (stepsDown step n hi s)) := by
  induction n generalizing hi s with
  | zero =>
    obtain rfl : lo = hi := by omega
    exact Or.inr ⟨id, rfl, h0⟩
  | succ n ih =>
    rw [turnsDown]
    by_cases hb : bad hi s
    · rw [hbad hi s (by omega) (Int.le_refl hi) h0 hb]
      exact Or.inl ⟨Or.inl hb, rfl⟩
    · obtain ⟨hbody, hnext⟩ := hgood hi s (by omega) (Int.le_refl hi) h0 hb
      rw [hbody, Option.bind_some]
      rcases ih (by omega) hnext (fun i s hlo hi => hbad i s hlo (by omega)) fun i s hlo hi => hgood i s hlo (by omega)
        with ⟨hany, hnone⟩ | ⟨hany, hsome, hend⟩
      · exact Or.inl ⟨Or.inr hany, hnone⟩
      · exact Or.inr ⟨fun hor => hor.elim hb hany, hsome, hend⟩

theorem exists_fuel {n fuel : Nat} (h : n < fuel) : ∃ k, fuel = k + 1 ∧ n ≤ k := ⟨fuel - 1, by omega, by omega⟩

theorem whileLoop_stop {cond : σ → Option Bool} (hcond : cond s = some false) (body : σ → Option σ) (fuel : Nat) :
    whileLoop cond body (fuel + 1) s = some s := by
  rw [whileLoop, hcond]
  rfl

theorem whileLoop_turn {cond : σ → Option Bool} {body : σ → Option σ} (hcond : cond s = some true) (fuel : Nat) :
    whileLoop cond body (fuel + 1) s = (body s).bind (whileLoop cond body fuel) := by
  rw [whileLoop, hcond, Option.bind_eq_bind, Option.bind_some, if_pos rfl]
  rfl

/-- A loop ends when each turn makes a bound of the turns that are left smaller. -/
theorem whileLoop_countdown (I : Nat → σ → Prop) {cond : σ → Option Bool} {body : σ → Option σ} {n fuel : Nat}
    (hfuel : n < fuel) (h0 : I n s)
    (hstep : ∀ n s, I n s → Ends (cond s) fun go =>
      if go then Ends (body s) (fun s' => ∃ m, m < n ∧ I m s') else Q s) :
    Ends (whileLoop cond body fuel s) Q := by
  induction fuel generalizing n s with
  | zero => omega
  | succ fuel ih =>
    obtain ⟨go, hgo, hturn⟩ := hstep n s h0
    rw [whileLoop, hgo, Option.bind_eq_bind, Option.bind_some]
    cases go with
    | false => exact .some hturn
    | true =>
      refine Ends.bind hturn fun s' ⟨m, hm, hs'⟩ => ?_
      exact ih (Nat.lt_of_lt_of_le hm (Nat.le_of_lt_succ hfuel)) hs'

theorem whileLoop_rule (I : σ → Prop) (measure : σ → Nat) {cond : σ → Option Bool} {body : σ → Option σ} {fuel : Nat}
    (hfuel : measure s < fuel) (h0 : I s)
    (hstep : ∀ s, I s → Ends (cond s) fun go =>
      if go then Ends (body s) (fun s' => I s' ∧ measure s' < measure s) else Q s) :
    Ends (whileLoop cond body fuel s) Q := by
  refine whileLoop_countdown (fun n s => I s ∧ measure s = n) hfuel ⟨h0, rfl⟩ ?_
  rintro n s ⟨hs, rfl⟩
  refine (hstep s hs).mono fun go hgo => ?_
  cases go with
  | false => exact hgo
  | true => exact Ends.mono hgo fun s' ⟨hs', hlt⟩ => ⟨measure s', hlt, hs', rfl⟩

/-- What each turn keeps holds when the loop ends. -/
theorem whileLoop_keeps (I : σ → Prop) {cond : σ → Option Bool} {body : σ → Option σ}
    (hbody : ∀ s s', I s → body s = some s' → I s') {fuel : Nat} {r : σ} (h0 : I s)
    (h : whileLoop cond body fuel s = some r) : I r := by
  induction fuel generalizing s with
  | zero => cases h
  | succ fuel ih =>
    rw [whileLoop] at h
    obtain ⟨go, -, h⟩ := Option.bind_eq_some_iff.mp h
    cases go with
    | false =>
      cases h
      exact h0
    | true =>
      obtain ⟨s', hs', h⟩ := Option.bind_eq_some_iff.mp h
      exact ih (hbody s s' h0 hs') h

/-- A loop whose condition each turn keeps does not end. -/
theorem whileLoop_forever (I : σ → Prop) {cond : σ → Option Bool} {body : σ → Option σ}
    (hcond : ∀ s, I s → cond s = some true) (hbody : ∀ s s', I s → body s = some s' → I s') (fuel : Nat) (h0 : I s) :
    whileLoop cond body fuel s = none := by
  induction fuel generalizing s with
  | zero => rfl
  | succ fuel ih =>
    rw [whileLoop_turn (hcond s h0)]
    cases hs : body s with
    | none => rfl
    | some s' => exact ih (hbody s s' h0 hs)

end Rules
end Program
