/-! # A rotation that is written with signed shifts

`(x << 1) | (x >> (w - 1))` rotates an unsigned word. On a signed one the second shift copies the top bit, so a word
whose top bit is set becomes all ones. `fold` mixes words into an accumulator that is so rotated. Two lists of words
that differ in one place have the same result if and only if, at this place or later, a set bit comes to the top in
both (`fold_eq_iff`); whether it does is read off the words (`topAt_eq_carries`). -/

namespace SignedRotation
variable {w : Nat}

def rotate (x : BitVec w) : BitVec w := x <<< 1 ||| x.sshiftRight (w - 1)

def step (acc a : BitVec w) : BitVec w := rotate (acc ^^^ a)

def fold (acc : BitVec w) (words : List (BitVec w)) : BitVec w := words.foldl step acc

/-- At a word of the list, the top bit is set when the accumulator is to be rotated. -/
def topAt (acc : BitVec w) (words : List (BitVec w)) (j : Nat) : Bool :=
  match words[j]? with
  | some a => (fold acc (words.take j) ^^^ a).msb
  | none => false

/-- What the top bit depends on: whether the accumulator has been filled with ones, and the words since then, or since
    the start, the latest first. -/
structure Window (w : Nat) where
  filled : Bool := false
  recent : List (BitVec w) := []

/-- The parity of the bits that come to the top, one bit of each of the words. -/
def carried : Nat → List (BitVec w) → Bool
  | _, [] => false
  | k, a :: recent => (decide (k < w) && a.getLsbD (w - 1 - k)) ^^ carried (k + 1) recent

/-- The last of the ones has not left the accumulator before `w` rotations. -/
def Window.top (win : Window w) (a : BitVec w) : Bool :=
  (win.filled && decide (win.recent.length < w)) ^^ carried 0 (a :: win.recent)

def Window.next (win : Window w) (a : BitVec w) : Window w :=
  if win.top a then { filled := true } else { win with recent := a :: win.recent }

def window (words : List (BitVec w)) : Window w := words.foldl Window.next {}

/-- A word of the list brings a set bit to the top. -/
def carries (words : List (BitVec w)) (j : Nat) : Bool :=
  match words[j]? with
  | some a => (window (words.take j)).top a
  | none => false

/-! ### One rotation -/

section Rotation
variable {x y : BitVec w}

theorem rotate_of_msb (hx : x.msb = true) : rotate x = BitVec.allOnes w := by
  refine BitVec.eq_of_getLsbD_eq fun i hi => ?_
  have htop : x.getLsbD (w - 1) = true := BitVec.msb_eq_getLsbD_last x ▸ hx
  rw [rotate, BitVec.getLsbD_or, BitVec.getLsbD_sshiftRight, BitVec.getLsbD_allOnes, hx]
  rcases Nat.eq_zero_or_pos i with rfl | hpos
  · rw [Nat.add_zero, htop]
    simp [hi, Nat.ne_of_gt hi]
  · have hout : ¬w - 1 + i < w := by omega
    simp [hout, hi]

theorem rotate_of_not_msb (hx : x.msb = false) : rotate x = x <<< 1 := by
  refine BitVec.eq_of_getLsbD_eq fun i hi => ?_
  have htop : x.getLsbD (w - 1) = false := BitVec.msb_eq_getLsbD_last x ▸ hx
  rw [rotate, BitVec.getLsbD_or, BitVec.getLsbD_sshiftRight, hx]
  rcases Nat.eq_zero_or_pos i with rfl | hpos
  · simp [htop]
  · have hout : ¬w - 1 + i < w := by omega
    simp [hout]

theorem getLsbD_succ_shiftLeft {i : Nat} (hi : i + 1 < w) (x : BitVec w) :
    (x <<< 1).getLsbD (i + 1) = x.getLsbD i := by
  have hout : ¬i + 1 < 1 := by omega
  rw [BitVec.getLsbD_shiftLeft, decide_eq_true hi, decide_eq_false hout, Nat.add_sub_cancel, Bool.true_and,
    Bool.not_false, Bool.true_and]

/-- Nothing is lost to the shift when the top bit is not set. -/
theorem shiftLeft_inj (hx : x.msb = false) (hy : y.msb = false) : x <<< 1 = y <<< 1 ↔ x = y := by
  refine ⟨fun h => BitVec.eq_of_getLsbD_eq fun i hi => ?_, fun h => by rw [h]⟩
  rcases Nat.lt_or_ge (i + 1) w with hlt | hge
  · rw [← getLsbD_succ_shiftLeft hlt x, h, getLsbD_succ_shiftLeft hlt y]
  · obtain rfl : i = w - 1 := by omega
    rw [← BitVec.msb_eq_getLsbD_last, ← BitVec.msb_eq_getLsbD_last, hx, hy]

theorem getLsbD_zero_rotate (hw : 0 < w) (x : BitVec w) : (rotate x).getLsbD 0 = x.msb := by
  cases hx : x.msb with
  | true =>
    rw [rotate_of_msb hx, BitVec.getLsbD_allOnes]
    exact decide_eq_true hw
  | false =>
    rw [rotate_of_not_msb hx]
    simp

/-- Two words become the same only when they are, or the top bit is set in both. -/
theorem rotate_eq_iff (hw : 0 < w) : rotate x = rotate y ↔ x = y ∨ (x.msb = true ∧ y.msb = true) := by
  constructor
  · intro h
    have hmsb : x.msb = y.msb := by
      have hlow := congrArg (fun z : BitVec w => z.getLsbD 0) h
      simpa only [getLsbD_zero_rotate hw] using hlow
    cases hy : y.msb with
    | true => exact Or.inr ⟨hmsb.trans hy, rfl⟩
    | false =>
      rw [rotate_of_not_msb (hmsb.trans hy), rotate_of_not_msb hy] at h
      exact Or.inl ((shiftLeft_inj (hmsb.trans hy) hy).mp h)
  · rintro (rfl | ⟨hx, hy⟩)
    · rfl
    · rw [rotate_of_msb hx, rotate_of_msb hy]

theorem getLsbD_zero_rotateLeft (hw : 1 < w) (x : BitVec w) : (x.rotateLeft 1).getLsbD 0 = x.msb := by
  rw [BitVec.getLsbD_rotateLeft, Nat.mod_eq_of_lt hw, BitVec.msb_eq_getLsbD_last]
  simp

theorem getLsbD_succ_rotateLeft {i : Nat} (hi : i + 1 < w) (x : BitVec w) :
    (x.rotateLeft 1).getLsbD (i + 1) = x.getLsbD i := by
  rw [BitVec.getLsbD_rotateLeft, Nat.mod_eq_of_lt (by omega)]
  simp [hi]

theorem rotateLeft_of_not_msb (hw : 1 < w) (hx : x.msb = false) : x.rotateLeft 1 = x <<< 1 := by
  refine BitVec.eq_of_getLsbD_eq fun i hi => ?_
  cases i with
  | zero =>
    rw [getLsbD_zero_rotateLeft hw, hx]
    simp
  | succ i =>
    rw [getLsbD_succ_rotateLeft hi, getLsbD_succ_shiftLeft hi]

theorem rotateLeft_inj (hw : 1 < w) : x.rotateLeft 1 = y.rotateLeft 1 ↔ x = y := by
  refine ⟨fun h => BitVec.eq_of_getLsbD_eq fun i hi => ?_, fun h => by rw [h]⟩
  rcases Nat.lt_or_ge (i + 1) w with hlt | hge
  · rw [← getLsbD_succ_rotateLeft hlt x, h, getLsbD_succ_rotateLeft hlt y]
  · obtain rfl : i = w - 1 := by omega
    rw [← BitVec.msb_eq_getLsbD_last, ← BitVec.msb_eq_getLsbD_last, ← getLsbD_zero_rotateLeft hw x, h,
      getLsbD_zero_rotateLeft hw y]

theorem rotateLeft_allOnes (hw : 1 < w) : (BitVec.allOnes w).rotateLeft 1 = BitVec.allOnes w := by
  refine BitVec.eq_of_getLsbD_eq fun i hi => ?_
  cases i with
  | zero =>
    rw [getLsbD_zero_rotateLeft hw, BitVec.msb_eq_getLsbD_last, BitVec.getLsbD_allOnes, BitVec.getLsbD_allOnes,
      decide_eq_true hi, decide_eq_true (by omega)]
  | succ i =>
    rw [getLsbD_succ_rotateLeft hi, BitVec.getLsbD_allOnes, BitVec.getLsbD_allOnes, decide_eq_true hi,
      decide_eq_true (by omega)]

/-- It is a rotation by one bit unless the top bit is set, and another one is not. -/
theorem rotate_eq_rotateLeft (hw : 1 < w) : rotate x = x.rotateLeft 1 ↔ x.msb = false ∨ x = BitVec.allOnes w := by
  cases hx : x.msb with
  | false =>
    rw [rotate_of_not_msb hx, rotateLeft_of_not_msb hw hx]
    simp
  | true =>
    rw [rotate_of_msb hx, eq_comm, ← rotateLeft_allOnes hw, rotateLeft_inj hw, rotateLeft_allOnes hw]
    simp

end Rotation

/-! ### Two folds -/

section Folds
variable {s t a b : BitVec w} {words post : List (BitVec w)} {j : Nat}

theorem fold_cons (s a : BitVec w) (words : List (BitVec w)) : fold s (a :: words) = fold (step s a) words := rfl

theorem topAt_succ (s a : BitVec w) (words : List (BitVec w)) (j : Nat) :
    topAt s (a :: words) (j + 1) = topAt (step s a) words j := rfl

theorem topAt_append (s : BitVec w) (pre post : List (BitVec w)) (j : Nat) :
    topAt s (pre ++ post) (pre.length + j) = topAt (fold s pre) post j := by
  induction pre generalizing s with
  | nil => rw [List.nil_append, List.length_nil, Nat.zero_add]; rfl
  | cons a pre ih =>
    have hnext : (a :: pre).length + j = pre.length + j + 1 := by rw [List.length_cons]; omega
    rw [List.cons_append, hnext, topAt_succ, ih]
    rfl

/-- The rotated words differ as long as the top bits are not both set, and then never again. -/
theorem fold_cons_eq_iff (hw : 0 < w) (hne : s ^^^ a ≠ t ^^^ b) :
    fold s (a :: words) = fold t (b :: words) ↔
      ∃ j, topAt s (a :: words) j = true ∧ topAt t (b :: words) j = true := by
  induction words generalizing s t a b with
  | nil =>
    refine (rotate_eq_iff hw).trans ⟨fun h => ⟨0, h.resolve_left hne⟩, ?_⟩
    rintro ⟨j, hs, ht⟩
    cases j with
    | zero => exact Or.inr ⟨hs, ht⟩
    | succ j => cases hs
  | cons c words ih =>
    rw [fold_cons s a, fold_cons t b]
    by_cases hboth : (s ^^^ a).msb = true ∧ (t ^^^ b).msb = true
    · have hstep : step s a = step t b := (rotate_eq_iff hw).mpr (Or.inr hboth)
      rw [hstep]
      exact iff_of_true rfl ⟨0, hboth⟩
    · have hstep : step s a ≠ step t b := fun h => ((rotate_eq_iff hw).mp h).elim hne hboth
      refine (ih fun h => hstep ((BitVec.xor_left_inj c).mp h)).trans ⟨fun ⟨j, hj⟩ => ⟨j + 1, hj⟩, ?_⟩
      rintro ⟨j, hj⟩
      cases j with
      | zero => exact absurd hj hboth
      | succ j => exact ⟨j, hj⟩

/-- Two lists that differ in one word. -/
theorem fold_eq_iff (hw : 0 < w) (s : BitVec w) (hne : a ≠ b) (pre post : List (BitVec w)) :
    fold s (pre ++ a :: post) = fold s (pre ++ b :: post) ↔
      ∃ j, pre.length ≤ j ∧ topAt s (pre ++ a :: post) j = true ∧ topAt s (pre ++ b :: post) j = true := by
  have hsplit : ∀ words, fold s (pre ++ words) = fold (fold s pre) words := fun words => List.foldl_append
  rw [hsplit, hsplit, fold_cons_eq_iff hw fun h => hne ((BitVec.xor_right_inj _).mp h)]
  constructor
  · rintro ⟨j, hj⟩
    refine ⟨pre.length + j, Nat.le_add_right _ _, ?_⟩
    rwa [topAt_append, topAt_append]
  · rintro ⟨j, hle, hj⟩
    obtain ⟨j, rfl⟩ := Nat.exists_eq_add_of_le hle
    rw [topAt_append, topAt_append] at hj
    exact ⟨j, hj⟩

end Folds

/-! ### The top bit, from the words -/

section Windows
variable {k : Nat} {words : List (BitVec w)}

def shifted : Nat → List (BitVec w) → BitVec w
  | _, [] => 0
  | k, a :: recent => a <<< k ^^^ shifted (k + 1) recent

/-- The accumulator. -/
def Window.value (win : Window w) : BitVec w :=
  (if win.filled then BitVec.allOnes w <<< win.recent.length else 0) ^^^ shifted 1 win.recent

theorem msb_shiftLeft (a : BitVec w) (k : Nat) : (a <<< k).msb = (decide (k < w) && a.getLsbD (w - 1 - k)) := by
  rw [BitVec.msb_eq_getLsbD_last, BitVec.getLsbD_shiftLeft]
  rcases Nat.eq_zero_or_pos w with rfl | hw
  · simp
  · have hlast : w - 1 < w := by omega
    have hin : (!decide (w - 1 < k)) = decide (k < w) := by
      rw [← decide_not]
      exact decide_eq_decide.mpr (by omega)
    rw [decide_eq_true hlast, Bool.true_and, hin]

theorem msb_shifted (k : Nat) (words : List (BitVec w)) : (shifted k words).msb = carried k words := by
  induction words generalizing k with
  | nil => simp [shifted, carried]
  | cons a words ih => rw [shifted, carried, BitVec.msb_xor, msb_shiftLeft, ih]

theorem shifted_shiftLeft (k : Nat) (words : List (BitVec w)) : shifted k words <<< 1 = shifted (k + 1) words := by
  induction words generalizing k with
  | nil => rw [shifted, shifted, BitVec.ofNat_eq_ofNat, BitVec.zero_shiftLeft]
  | cons a words ih => rw [shifted, shifted, BitVec.shiftLeft_xor_distrib, ih, ← BitVec.shiftLeft_add]

theorem Window.value_xor (win : Window w) (a : BitVec w) :
    win.value ^^^ a =
      (if win.filled then BitVec.allOnes w <<< win.recent.length else 0) ^^^ shifted 0 (a :: win.recent) := by
  rw [value, shifted, BitVec.shiftLeft_zero, BitVec.xor_assoc, BitVec.xor_comm a]

theorem Window.msb_value (win : Window w) (a : BitVec w) : (win.value ^^^ a).msb = win.top a := by
  rw [value_xor, BitVec.msb_xor, msb_shifted, top]
  congr 1
  cases win.filled with
  | false => simp
  | true =>
    rw [if_pos rfl, msb_shiftLeft, BitVec.getLsbD_allOnes, Bool.true_and]
    by_cases hlt : win.recent.length < w
    · rw [decide_eq_true hlt, decide_eq_true (by omega), Bool.true_and]
    · rw [decide_eq_false hlt, Bool.false_and]

theorem Window.step_value (win : Window w) (a : BitVec w) : step win.value a = (win.next a).value := by
  have hmsb := win.msb_value a
  rw [step, next]
  cases htop : win.top a with
  | true =>
    rw [rotate_of_msb (hmsb.trans htop)]
    simp [value, shifted]
  | false =>
    rw [rotate_of_not_msb (hmsb.trans htop), value_xor, BitVec.shiftLeft_xor_distrib, shifted_shiftLeft]
    cases win.filled with
    | false => simp [value]
    | true => simp [value, BitVec.shiftLeft_add]

theorem fold_value (win : Window w) (words : List (BitVec w)) :
    fold win.value words = (words.foldl Window.next win).value := by
  induction words generalizing win with
  | nil => rfl
  | cons a words ih =>
    rw [fold_cons, win.step_value, ih, List.foldl_cons]

theorem fold_window (words : List (BitVec w)) : fold 0 words = (window words).value := by
  have hstart : ({} : Window w).value = 0 := by simp [Window.value, shifted]
  rw [window, ← fold_value, hstart]

theorem topAt_eq_carries (words : List (BitVec w)) (j : Nat) : topAt 0 words j = carries words j := by
  rw [topAt, carries]
  cases words[j]? with
  | none => rfl
  | some a =>
    simp only
    rw [fold_window, Window.msb_value]

/-- The word has no bit from `p` on. -/
def Low (p : Nat) (a : BitVec w) : Prop := ∀ i, p ≤ i → a.getLsbD i = false

theorem carried_of_low {p : Nat} (hlow : ∀ a ∈ words, Low p a) (hlen : k + words.length + p ≤ w) :
    carried k words = false := by
  induction words generalizing k with
  | nil => rfl
  | cons a words ih =>
    rw [List.length_cons] at hlen
    rw [carried, hlow a List.mem_cons_self (w - 1 - k) (by omega), Bool.and_false,
      ih (fun b hb => hlow b (List.mem_cons_of_mem a hb)) (by omega), Bool.xor_self]

theorem top_of_low {p : Nat} {a : BitVec w} {recent : List (BitVec w)} (ha : Low p a) (hlow : ∀ b ∈ recent, Low p b)
    (hlen : recent.length + 1 + p ≤ w) : ({ recent } : Window w).top a = false := by
  have hcarried : carried 0 (a :: recent) = false :=
    carried_of_low (List.forall_mem_cons.mpr ⟨ha, hlow⟩) (by rw [List.length_cons]; omega)
  rw [Window.top, hcarried]
  rfl

theorem foldl_next_of_low {p : Nat} {recent : List (BitVec w)} (hlow : ∀ a ∈ words, Low p a)
    (hrecent : ∀ a ∈ recent, Low p a) (hlen : recent.length + words.length + p ≤ w) :
    words.foldl Window.next { recent } = { recent := words.reverse ++ recent } := by
  induction words generalizing recent with
  | nil => rfl
  | cons a words ih =>
    rw [List.length_cons] at hlen
    obtain ⟨ha, hlow⟩ := List.forall_mem_cons.mp hlow
    rw [List.foldl_cons, Window.next, top_of_low ha hrecent (by omega), if_neg Bool.false_ne_true,
      ih hlow (List.forall_mem_cons.mpr ⟨ha, hrecent⟩) (by rw [List.length_cons]; omega), List.reverse_cons,
      List.append_assoc, List.singleton_append]

/-- Few words without high bits bring none to the top. -/
theorem carries_of_low {p : Nat} (hlow : ∀ a ∈ words, Low p a) (hlen : words.length + p ≤ w) (j : Nat) :
    carries words j = false := by
  rw [carries]
  split
  · rename_i a ha
    obtain ⟨hj, rfl⟩ := List.getElem?_eq_some_iff.mp ha
    have htake : ∀ b ∈ words.take j, Low p b := fun b hb => hlow b (List.mem_of_mem_take hb)
    have hnil : ∀ b ∈ ([] : List (BitVec w)), Low p b := fun b hb => absurd hb List.not_mem_nil
    have hwindow : window (words.take j) = { recent := (words.take j).reverse ++ [] } :=
      foldl_next_of_low htake hnil (by rw [List.length_nil, List.length_take]; omega)
    rw [hwindow, List.append_nil]
    refine top_of_low (hlow _ (List.getElem_mem hj)) (fun b hb => htake b (List.mem_reverse.mp hb)) ?_
    rw [List.length_reverse, List.length_take]
    omega
  · rfl

end Windows

end SignedRotation
