/-! # Machines with output

A machine takes its inputs one at a time; each step changes the state and emits a list of outputs. What one
step preserves, every run preserves (`run_invariant`), and a step-by-step simulation relates whole runs and
their outputs (`run_simulates`). `Lasting` says of a run that it has ended in a stretch without a certain kind of
step, and how often something else happened in it; a rank that such steps lower brings a run to its goal
(`reaches`). -/

structure Machine (σ ι ο : Type) where
  step : σ → ι → σ × List ο

namespace Machine
variable {σ τ ι ο : Type} (m : Machine σ ι ο) (n : Machine τ ι ο)

/-- The state after a list of inputs. -/
def run (s : σ) : List ι → σ
  | [] => s
  | i :: is => run (m.step s i).1 is

/-- What each input of a list makes the machine emit. -/
def outputs (s : σ) : List ι → List (List ο)
  | [] => []
  | i :: is => (m.step s i).2 :: outputs (m.step s i).1 is

variable {m n}

@[simp] theorem run_nil (s : σ) : m.run s [] = s := rfl

@[simp] theorem run_cons (s : σ) (i : ι) (is : List ι) : m.run s (i :: is) = m.run (m.step s i).1 is := rfl

@[simp] theorem outputs_nil (s : σ) : m.outputs s [] = [] := rfl

@[simp] theorem outputs_cons (s : σ) (i : ι) (is : List ι) :
    m.outputs s (i :: is) = (m.step s i).2 :: m.outputs (m.step s i).1 is := rfl

theorem run_append (s : σ) (is js : List ι) : m.run s (is ++ js) = m.run (m.run s is) js := by
  induction is generalizing s with
  | nil => rfl
  | cons i is ih => exact ih _

theorem outputs_append (s : σ) (is js : List ι) :
    m.outputs s (is ++ js) = m.outputs s is ++ m.outputs (m.run s is) js := by
  induction is generalizing s with
  | nil => rfl
  | cons i is ih => rw [List.cons_append, outputs_cons, outputs_cons, ih, List.cons_append, run_cons]

theorem run_concat (s : σ) (is : List ι) (i : ι) : m.run s (is ++ [i]) = (m.step (m.run s is) i).1 :=
  run_append s is [i]

theorem outputs_concat (s : σ) (is : List ι) (i : ι) :
    m.outputs s (is ++ [i]) = m.outputs s is ++ [(m.step (m.run s is) i).2] :=
  outputs_append s is [i]

/-- What each step preserves holds after every run. -/
theorem run_invariant {P : σ → Prop} (hstep : ∀ s i, P s → P (m.step s i).1) {s : σ} (hs : P s) (is : List ι) :
    P (m.run s is) := by
  induction is generalizing s with
  | nil => exact hs
  | cons i is ih => exact ih (hstep s i hs)

/-- Steps that stay related and emit the same make runs that stay related and emit the same. -/
theorem run_simulates {R : σ → τ → Prop}
    (hstep : ∀ s t i, R s t → R (m.step s i).1 (n.step t i).1 ∧ (m.step s i).2 = (n.step t i).2)
    {s : σ} {t : τ} (hst : R s t) (is : List ι) :
    R (m.run s is) (n.run t is) ∧ m.outputs s is = n.outputs t is := by
  induction is generalizing s t with
  | nil => exact ⟨hst, rfl⟩
  | cons i is ih =>
    obtain ⟨hrel, hout⟩ := hstep s t i hst
    obtain ⟨hrun, houts⟩ := ih hrel
    exact ⟨hrun, by rw [outputs_cons, outputs_cons, hout, houts]⟩

/-! ### Runs whose steps all meet a condition -/

section Meets
variable (m) (ok : σ → ι → Prop)

/-- Every step of the run meets the condition, in the state that it starts in. -/
def Meets (s : σ) : List ι → Prop
  | [] => True
  | i :: is => ok s i ∧ Meets (m.step s i).1 is

variable {m ok}

theorem meets_of_forall {is : List ι} (h : ∀ s, ∀ i ∈ is, ok s i) (s : σ) : m.Meets ok s is := by
  induction is generalizing s with
  | nil => trivial
  | cons i is ih => exact ⟨h s i List.mem_cons_self, ih (fun s j hj => h s j (List.mem_cons_of_mem i hj)) _⟩

/-- What each step that meets the condition preserves holds after a run whose steps meet it, and what it ensures
    holds of every step. -/
theorem Meets.run {I : σ → Prop} {Q : σ → ι → Prop} (hstep : ∀ s i, I s → ok s i → I (m.step s i).1 ∧ Q s i)
    {s : σ} (hs : I s) {is : List ι} (h : m.Meets ok s is) : I (m.run s is) ∧ m.Meets Q s is := by
  induction is generalizing s with
  | nil => exact ⟨hs, trivial⟩
  | cons i is ih =>
    obtain ⟨hnext, hq⟩ := hstep s i hs h.1
    obtain ⟨hrun, hmeets⟩ := ih hnext h.2
    exact ⟨hrun, hq, hmeets⟩

/-- While an invariant holds that the first condition preserves, and that makes both conditions the same for a step,
    the same runs meet them. -/
theorem meets_iff {I : σ → Prop} {Q : σ → ι → Prop} (hstep : ∀ s i, I s → (ok s i ↔ Q s i))
    (hkeep : ∀ s i, I s → ok s i → I (m.step s i).1) {s : σ} (hs : I s) (is : List ι) :
    m.Meets ok s is ↔ m.Meets Q s is := by
  induction is generalizing s with
  | nil => exact Iff.rfl
  | cons i is ih =>
    constructor
    · rintro ⟨hok, hrest⟩
      exact ⟨(hstep s i hs).mp hok, (ih (hkeep s i hs hok)).mp hrest⟩
    · rintro ⟨hq, hrest⟩
      have hok := (hstep s i hs).mpr hq
      exact ⟨hok, (ih (hkeep s i hs hok)).mpr hrest⟩

end Meets

/-! ### Inputs that change nothing -/

/-- The entries of a list at the inputs that are kept. -/
def keptOutputs (keep : ι → Bool) (is : List ι) (outs : List (List ο)) : List (List ο) :=
  ((is.zip outs).filter fun x => keep x.1).map Prod.snd

theorem keptOutputs_cons (keep : ι → Bool) (i : ι) (is : List ι) (out : List ο) (outs : List (List ο)) :
    keptOutputs keep (i :: is) (out :: outs) =
      if keep i then out :: keptOutputs keep is outs else keptOutputs keep is outs := by
  rw [keptOutputs, List.zip_cons_cons, List.filter_cons]
  split <;> rfl

/-- Inputs that leave the states of a run as they are can be deleted from it: the other inputs have the same
    outputs. -/
theorem run_filter {keep : ι → Bool} {P : σ → Prop} (hstep : ∀ s i, P s → keep i = false → (m.step s i).1 = s)
    {s : σ} {is : List ι} (hP : ∀ k, k < is.length → P (m.run s (is.take k))) :
    m.run s (is.filter keep) = m.run s is ∧
      m.outputs s (is.filter keep) = keptOutputs keep is (m.outputs s is) := by
  induction is generalizing s with
  | nil => exact ⟨rfl, rfl⟩
  | cons i is ih =>
    have hs : P s := hP 0 (by simp)
    obtain ⟨hrun, hout⟩ := ih (s := (m.step s i).1) fun k hk => hP (k + 1) (by simpa using hk)
    rw [outputs_cons, keptOutputs_cons]
    cases hk : keep i with
    | true =>
      rw [List.filter_cons_of_pos hk, run_cons, outputs_cons, hrun, hout]
      exact ⟨rfl, rfl⟩
    | false =>
      rw [hstep s i hs hk] at hrun hout
      rw [List.filter_cons_of_neg (by simp [hk]), run_cons, hstep s i hs hk]
      exact ⟨hrun, hout⟩

theorem flatMap_keptOutputs {κ : Type} {keep : ι → Bool} (f : List ο → List κ) {is : List ι}
    {outs : List (List ο)} (hlen : outs.length = is.length)
    (hf : ∀ x ∈ is.zip outs, keep x.1 = false → f x.2 = []) :
    (keptOutputs keep is outs).flatMap f = outs.flatMap f := by
  induction is generalizing outs with
  | nil =>
    rw [List.length_eq_zero_iff.mp hlen]
    rfl
  | cons i is ih =>
    match outs, hlen with
    | out :: outs, hlen =>
      have hlen : outs.length = is.length := by simpa using hlen
      have hrest := ih hlen fun x hx => hf x (List.mem_cons_of_mem _ hx)
      rw [keptOutputs_cons, List.flatMap_cons]
      cases hk : keep i with
      | true => rw [if_pos rfl, List.flatMap_cons, hrest]
      | false =>
        have hnil : f out = [] := hf (i, out) List.mem_cons_self hk
        rw [if_neg Bool.false_ne_true, hrest, hnil, List.nil_append]

theorem length_outputs (s : σ) (is : List ι) : (m.outputs s is).length = is.length := by
  induction is generalizing s with
  | nil => rfl
  | cons i is ih => rw [outputs_cons, List.length_cons, ih, List.length_cons]

theorem mem_zip_outputs {s : σ} {is : List ι} {x : ι × List ο} (h : x ∈ is.zip (m.outputs s is)) :
    ∃ k, k < is.length ∧ x.2 = (m.step (m.run s (is.take k)) x.1).2 := by
  induction is generalizing s with
  | nil => simp at h
  | cons i is ih =>
    rw [outputs_cons, List.zip_cons_cons, List.mem_cons] at h
    rcases h with rfl | h
    · exact ⟨0, by simp, rfl⟩
    · obtain ⟨k, hk, hx⟩ := ih h
      exact ⟨k + 1, by simpa using hk, hx⟩

/-! ### The end of a run -/

section Lasting
variable (m) (P : σ → Prop) (ok : σ → ι → Prop) (tick : σ → ι → Bool)

/-- How many steps of the run are ticks. -/
def ticks (s : σ) : List ι → Nat
  | [] => 0
  | i :: is => (if tick s i then 1 else 0) + ticks (m.step s i).1 is

/-- The state meets `P` all along, and every step meets `ok`. -/
def Throughout (s : σ) : List ι → Prop
  | [] => P s
  | i :: is => P s ∧ ok s i ∧ Throughout (m.step s i).1 is

/-- `P` and `ok` have held at the end of the run for at least `n` ticks. -/
def Lasting (n : Nat) (s : σ) (is : List ι) : Prop :=
  ∃ before during, is = before ++ during ∧ n ≤ m.ticks tick (m.run s before) during ∧
    m.Throughout P ok (m.run s before) during

variable {m P ok tick}

theorem ticks_concat (s : σ) (is : List ι) (i : ι) :
    m.ticks tick s (is ++ [i]) = m.ticks tick s is + if tick (m.run s is) i then 1 else 0 := by
  induction is generalizing s with
  | nil => exact Nat.add_comm _ _
  | cons j is ih => rw [List.cons_append, ticks, ticks, ih, run_cons, Nat.add_assoc]

theorem ticks_of_forall {is : List ι} (h : ∀ s, ∀ i ∈ is, tick s i = true) (s : σ) : m.ticks tick s is = is.length := by
  induction is generalizing s with
  | nil => rfl
  | cons i is ih =>
    rw [ticks, h s i List.mem_cons_self, ih (fun s j hj => h s j (List.mem_cons_of_mem i hj)), List.length_cons]
    exact Nat.add_comm _ _

theorem throughout_concat (s : σ) (is : List ι) (i : ι) :
    m.Throughout P ok s (is ++ [i]) ↔
      m.Throughout P ok s is ∧ ok (m.run s is) i ∧ P (m.run s (is ++ [i])) := by
  induction is generalizing s with
  | nil => exact and_assoc.symm.trans (and_assoc (a := P s))
  | cons j is ih => simp only [List.cons_append, Throughout, ih, run_cons, and_assoc]

theorem Throughout.last {s : σ} {is : List ι} (h : m.Throughout P ok s is) : P (m.run s is) := by
  induction is generalizing s with
  | nil => exact h
  | cons i is ih => exact ih h.2.2

section Steps
variable {n : Nat} {s : σ} {is : List ι} {i : ι}

theorem Lasting.zero (h : P (m.run s is)) : m.Lasting P ok tick 0 s is :=
  ⟨is, [], (List.append_nil is).symm, Nat.zero_le _, h⟩

theorem Lasting.mono {k : Nat} (h : m.Lasting P ok tick n s is) (hk : k ≤ n) : m.Lasting P ok tick k s is := by
  obtain ⟨before, during, his, hn, ht⟩ := h
  exact ⟨before, during, his, Nat.le_trans hk hn, ht⟩

theorem Lasting.concat (h : m.Lasting P ok tick n s is) (hok : ok (m.run s is) i) (hP : P (m.run s (is ++ [i]))) :
    m.Lasting P ok tick (n + if tick (m.run s is) i then 1 else 0) s (is ++ [i]) := by
  obtain ⟨before, during, rfl, hn, ht⟩ := h
  rw [run_append] at hok ⊢
  rw [List.append_assoc, run_append] at hP
  refine ⟨before, during ++ [i], List.append_assoc .., ?_, (throughout_concat _ _ _).mpr ⟨ht, hok, hP⟩⟩
  rw [ticks_concat]
  omega

/-- A stretch with a tick in it contains the last step. -/
theorem Lasting.of_concat (hn : 0 < n) (h : m.Lasting P ok tick n s (is ++ [i])) :
    m.Lasting P ok tick (n - if tick (m.run s is) i then 1 else 0) s is ∧ ok (m.run s is) i ∧ P (m.run s is) := by
  obtain ⟨before, during, his, hle, ht⟩ := h
  rcases List.eq_nil_or_concat during with rfl | ⟨during, j, hlast⟩
  · exact absurd (Nat.lt_of_lt_of_le hn hle) (Nat.lt_irrefl 0)
  · rw [List.concat_eq_append] at hlast
    subst hlast
    obtain ⟨rfl, hj⟩ := List.append_inj' (his.trans (List.append_assoc ..).symm) rfl
    obtain rfl : i = j := List.head_eq_of_cons_eq hj
    rw [ticks_concat] at hle
    obtain ⟨hthrough, hok, -⟩ := (throughout_concat _ _ _).mp ht
    rw [run_append]
    exact ⟨⟨before, during, rfl, by omega, hthrough⟩, hok, hthrough.last⟩

end Steps

/-- While a run has not reached its goal, each of its steps keeps an invariant, pays for its tick out of a rank, and
    pays for what it costs. Then it reaches the goal when its ticks have used up the rank, at a bounded cost. -/
theorem reaches {I G : σ → Prop} {c : σ → ι → Bool} {rank left : σ → Nat} (hpos : ∀ s, I s → 0 < rank s)
    (hstep : ∀ s i, I s → ok s i →
      (G (m.step s i).1 ∧ (if c s i then 1 else 0) ≤ left s) ∨
        (I (m.step s i).1 ∧ rank (m.step s i).1 + (if tick s i then 1 else 0) ≤ rank s ∧
          left (m.step s i).1 + (if c s i then 1 else 0) ≤ left s))
    {s : σ} (hs : I s) {is : List ι} (hok : m.Meets ok s is) (hticks : rank s ≤ m.ticks tick s is) :
    ∃ before rest, is = before ++ rest ∧ G (m.run s before) ∧ m.ticks c s before ≤ left s := by
  induction is generalizing s with
  | nil => exact absurd (Nat.lt_of_lt_of_le (hpos s hs) hticks) (Nat.lt_irrefl 0)
  | cons i is ih =>
    rcases hstep s i hs hok.1 with ⟨hgoal, hcost⟩ | ⟨hI, hrank, hleft⟩
    · exact ⟨[i], is, rfl, hgoal, hcost⟩
    · rw [ticks] at hticks
      obtain ⟨before, rest, rfl, hgoal, hcost⟩ := ih hI hok.2 (by omega)
      refine ⟨i :: before, rest, rfl, hgoal, ?_⟩
      rw [ticks]
      omega

end Lasting

end Machine
