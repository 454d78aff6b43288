import Minitalk.Lib.CInt
import Minitalk.Libft.Split

/-! # `ft_strtok` (`libft/strings/ft_strtok.c`), and `ft_split` beside it

`ft_strtok` works in the string itself: a pointer into it is its block and an index. The cursor is kept between the
calls. -/

namespace Minitalk.Libft
open CText Heap Runs

/-! ### `ft_strchr.c`, `ft_memchr.c` -/

def ftMemchr (c : UInt8) : List UInt8 → Option Nat
  | [] => none
  | b :: s => if c = b then some 0 else (ftMemchr c s).map (· + 1)

/-- The NUL is found too. -/
def ftStrchr (s : CString) (c : UInt8) : Option Nat := ftMemchr c (s.1 ++ [0])

/-! ### `ft_strtok.c` -/

/-- The heap, and the static `last_token`. -/
structure Strtok where
  heap : Heap UInt8
  lastToken : Option (Ptr × Nat) := none

def ftSkipDelimiters (str : Ptr) (i : Nat) (delim : CString) (heap : Heap UInt8) : Heap UInt8 × Nat :=
  heap.scan (fun c => c == 0 || !(ftStrchr delim c).isSome) str i

def ftFindDelimiter (str : Ptr) (i : Nat) (delim : CString) (heap : Heap UInt8) : Heap UInt8 × Nat :=
  heap.scan (fun c => c == 0 || (ftStrchr delim c).isSome) str i

def ftStrtok (str : Option (Ptr × Nat)) (delim : Option CString) (s : Strtok) : Strtok × Option (Ptr × Nat) :=
  let lastToken := if str.isSome then str else s.lastToken
  match lastToken, delim with
  | some (p, i), some delim =>
    let (heap, i) := ftSkipDelimiters p i delim s.heap
    let (heap, c) := heap.load p i
    if c = 0 then ({ heap, lastToken := some (p, i) }, none)
    else
      let (heap, j) := ftFindDelimiter p i delim heap
      let (heap, c) := heap.load p j
      if c = 0 then ({ heap, lastToken := none }, some (p, i))
      else ({ heap := heap.store p j 0, lastToken := some (p, j + 1) }, some (p, i))
  | _, _ => ({ s with lastToken }, none)

/-- The call for the string, and as many for the rest of it. -/
def tokenCalls (str : Ptr × Nat) (delim : CString) (s : Strtok) : Nat → Strtok × Option (Ptr × Nat)
  | 0 => ftStrtok (some str) (some delim) s
  | k + 1 => ftStrtok none (some delim) (tokenCalls str delim s k).1

/-! ### What the calls return -/

/-- A string that begins within a block. -/
def StringAt (h : Heap UInt8) (p : Ptr) (i : Nat) (t : List UInt8) : Prop :=
  0 ∉ t ∧ ∃ pre post, pre.length = i ∧ h.At p (pre ++ t.map some ++ some 0 :: post)

/-- A pointer to the expected string, or a null pointer for none. -/
inductive Returned (h : Heap UInt8) : Option (Ptr × Nat) → Option (List UInt8) → Prop where
  | null : Returned h none none
  | token {p : Ptr} {i : Nat} {t : List UInt8} (ht : StringAt h p i t) : Returned h (some (p, i)) (some t)

/-- The cursor is in front of these tokens, or there is no cursor and there are no tokens. -/
inductive Ahead (q : UInt8 → Bool) (s : Strtok) : List (List UInt8) → Prop where
  | done (h : s.lastToken = none) : Ahead q s []
  | rest {p : Ptr} {pre : List (Option UInt8)} {text : List UInt8} {post : List (Option UInt8)}
      (hlast : s.lastToken = some (p, pre.length)) (h0 : 0 ∉ text)
      (hat : s.heap.At p (pre ++ text.map some ++ some 0 :: post)) : Ahead q s (runs q text)

section Calls
variable {s : Strtok} {delim : CString} {ts : List (List UInt8)}

def isDelimiter (delim : CString) (c : UInt8) : Bool := delim.1.contains c

theorem ftMemchr_isSome (c : UInt8) (s : List UInt8) : (ftMemchr c s).isSome = s.contains c := by
  induction s with
  | nil => rfl
  | cons b s ih =>
    rw [ftMemchr, List.contains_cons]
    by_cases hc : c = b
    · simp [hc]
    · rw [if_neg hc, Option.isSome_map, ih, beq_eq_false_iff_ne.mpr hc, Bool.false_or]

theorem ftStrchr_isSome (delim : CString) {c : UInt8} (hc : c ≠ 0) :
    (ftStrchr delim c).isSome = isDelimiter delim c := by
  rw [ftStrchr, ftMemchr_isSome, isDelimiter, List.contains_append]
  simp [hc]

/-- Within the string a scan goes over the characters that satisfy `q`. -/
theorem findIdx_takeWhile {stop q : UInt8 → Bool} {text : List UInt8} (h : ∀ c ∈ text, stop c = !q c) :
    text.findIdx stop = (text.takeWhile q).length := by
  induction text with
  | nil => rfl
  | cons c text ih =>
    have hrest := ih fun d hd => h d (List.mem_cons_of_mem c hd)
    rw [List.findIdx_cons, h c List.mem_cons_self]
    cases hc : q c with
    | true => rw [List.takeWhile_cons_of_pos hc, List.length_cons, ← hrest]; rfl
    | false => rw [List.takeWhile_cons_of_neg (by rw [hc]; decide)]; rfl

end Calls

section Scans
variable {heap : Heap UInt8} {p : Ptr} {pre post : List (Option UInt8)} {text : List UInt8}

theorem ftSkipDelimiters_at (delim : CString) (h0 : 0 ∉ text)
    (hat : heap.At p (pre ++ text.map some ++ some 0 :: post)) :
    ftSkipDelimiters p pre.length delim heap = (heap, pre.length + (text.takeWhile (isDelimiter delim)).length) := by
  rw [ftSkipDelimiters, hat.scan _ pre rfl, findIdx_takeWhile fun c hc => ?_]
  have hc0 : c ≠ 0 := fun h => h0 (h ▸ hc)
  rw [ftStrchr_isSome delim hc0, beq_eq_false_iff_ne.mpr hc0, Bool.false_or]

theorem ftFindDelimiter_at (delim : CString) (h0 : 0 ∉ text)
    (hat : heap.At p (pre ++ text.map some ++ some 0 :: post)) :
    ftFindDelimiter p pre.length delim heap =
      (heap, pre.length + (text.takeWhile (!isDelimiter delim ·)).length) := by
  rw [ftFindDelimiter, hat.scan _ pre rfl, findIdx_takeWhile fun c hc => ?_]
  have hc0 : c ≠ 0 := fun h => h0 (h ▸ hc)
  rw [ftStrchr_isSome delim hc0, beq_eq_false_iff_ne.mpr hc0, Bool.false_or, Bool.not_not]

end Scans

section Steps
variable {s : Strtok} {delim : CString} {ts : List (List UInt8)} {p : Ptr} {i : Nat} {front : List (Option UInt8)}

theorem ftStrtok_str (p : Ptr × Nat) (delim : Option CString) (s : Strtok) :
    ftStrtok (some p) delim s = ftStrtok none delim { s with lastToken := some p } := rfl

theorem ftStrtok_done (h : s.lastToken = none) (delim : CString) : ftStrtok none (some delim) s = (s, none) := by
  simp only [ftStrtok, Option.isSome_none, Bool.false_eq_true, if_false, h]
  rw [← h]

theorem ftStrtok_end {j : Nat} (hlast : s.lastToken = some (p, i))
    (hskip : ftSkipDelimiters p i delim s.heap = (s.heap, j)) (hload : s.heap.load p j = (s.heap, 0)) :
    ftStrtok none (some delim) s = ({ s with lastToken := some (p, j) }, none) := by
  simp only [ftStrtok, Option.isSome_none, Bool.false_eq_true, if_false, hlast, hskip, hload, if_true]

theorem ftStrtok_found {j k : Nat} {x c : UInt8} (hlast : s.lastToken = some (p, i))
    (hskip : ftSkipDelimiters p i delim s.heap = (s.heap, j)) (hload : s.heap.load p j = (s.heap, x)) (hx : x ≠ 0)
    (hfind : ftFindDelimiter p j delim s.heap = (s.heap, k)) (hend : s.heap.load p k = (s.heap, c)) :
    ftStrtok none (some delim) s =
      if c = 0 then ({ s with lastToken := none }, some (p, j))
      else ({ heap := s.heap.store p k 0, lastToken := some (p, k + 1) }, some (p, j)) := by
  simp only [ftStrtok, Option.isSome_none, Bool.false_eq_true, if_false, hlast, hskip, hload, if_neg hx, hfind, hend]

/-- Behind the delimiters the call returns the run that begins there, cut off at its end. -/
theorem ftStrtok_token {x : UInt8} {behind : List UInt8} {post : List (Option UInt8)}
    (hlast : s.lastToken = some (p, i)) (hskip : ftSkipDelimiters p i delim s.heap = (s.heap, front.length))
    (h0 : 0 ∉ x :: behind) (hat : s.heap.At p (front ++ (x :: behind).map some ++ some 0 :: post)) :
    Returned (ftStrtok none (some delim) s).1.heap (ftStrtok none (some delim) s).2
        (some ((x :: behind).takeWhile (!isDelimiter delim ·))) ∧
      Ahead (isDelimiter delim) (ftStrtok none (some delim) s).1
        (runs (isDelimiter delim) ((x :: behind).dropWhile (!isDelimiter delim ·))) := by
  have hx : x ≠ 0 := fun h => h0 (h ▸ List.mem_cons_self)
  have hload : s.heap.load p front.length = (s.heap, x) := At.load (by simpa using hat)
  have hfind := ftFindDelimiter_at delim h0 hat
  have hcut := List.takeWhile_append_dropWhile (p := (!isDelimiter delim ·)) (l := x :: behind)
  have ht0 : 0 ∉ (x :: behind).takeWhile (!isDelimiter delim ·) := fun hmem =>
    h0 ((List.takeWhile_sublist _).subset hmem)
  generalize (x :: behind).takeWhile (!isDelimiter delim ·) = t at hfind hcut ht0 ⊢
  have hend : front.length + t.length = (front ++ t.map some).length := by rw [List.length_append, List.length_map]
  rw [hend] at hfind
  cases hrest : (x :: behind).dropWhile (!isDelimiter delim ·) with
  | nil =>
    rw [hrest, List.append_nil] at hcut
    rw [← hcut] at hat
    rw [ftStrtok_found hlast hskip hload hx hfind hat.load, if_pos rfl]
    exact ⟨.token ⟨ht0, front, post, rfl, hat⟩, .done rfl⟩
  | cons d behind' =>
    have hd : isDelimiter delim d = true := by simpa using head_dropWhile hrest
    rw [hrest] at hcut
    have hd0 : d ≠ 0 := fun h => h0 (by rw [← hcut, h]; simp)
    rw [← hcut] at hat
    have hcells : s.heap.At p ((front ++ t.map some) ++ some d :: (behind'.map some ++ some 0 :: post)) := by
      simpa using hat
    have hstored := hcells.store 0
    have hbehind : (s.heap.store p (front ++ t.map some).length 0).At p
        ((front ++ t.map some ++ [some 0]) ++ behind'.map some ++ some 0 :: post) := by
      simpa using hstored
    rw [ftStrtok_found hlast hskip hload hx hfind hcells.load, if_neg hd0, runs_cons_of_pos hd]
    refine ⟨.token ⟨ht0, front, _, rfl, hstored⟩, .rest (by simp [Nat.add_assoc]) (fun hmem => h0 ?_) hbehind⟩
    rw [← hcut]
    exact List.mem_append_right _ (List.mem_cons_of_mem d hmem)

/-- A call returns the next token and leaves the cursor behind it. -/
theorem ftStrtok_step (h : Ahead (isDelimiter delim) s ts) :
    Returned (ftStrtok none (some delim) s).1.heap (ftStrtok none (some delim) s).2 ts.head? ∧
      Ahead (isDelimiter delim) (ftStrtok none (some delim) s).1 ts.tail := by
  cases h with
  | done hlast =>
    rw [ftStrtok_done hlast]
    exact ⟨.null, .done hlast⟩
  | @rest p pre text post hlast h0 hat =>
    have hskip := ftSkipDelimiters_at delim h0 hat
    have hcut := List.takeWhile_append_dropWhile (p := isDelimiter delim) (l := text)
    have hlen : pre.length + (text.takeWhile (isDelimiter delim)).length =
        (pre ++ (text.takeWhile (isDelimiter delim)).map some).length := by
      rw [List.length_append, List.length_map]
    rw [hlen] at hskip
    cases hdrop : text.dropWhile (isDelimiter delim) with
    | nil =>
      rw [hdrop, List.append_nil] at hcut
      rw [hcut] at hskip
      have hend : Ahead (isDelimiter delim) { s with lastToken := some (p, (pre ++ text.map some).length) }
        (runs (isDelimiter delim) []) := .rest rfl List.not_mem_nil (by simpa using hat)
      rw [runs_of_nil hdrop, ftStrtok_end hlast hskip hat.load]
      exact ⟨.null, hend⟩
    | cons x behind =>
      have hx0 : 0 ∉ x :: behind := fun hmem => h0 ((List.dropWhile_sublist (isDelimiter delim)).subset (hdrop ▸ hmem))
      have hstart : s.heap.At p (pre ++ (text.takeWhile (isDelimiter delim)).map some ++ (x :: behind).map some ++
          some 0 :: post) := by
        rw [← hcut, hdrop] at hat
        simpa using hat
      rw [runs_of_cons hdrop, List.head?_cons, List.tail_cons]
      exact ftStrtok_token hlast hskip hx0 hstart

end Steps

/-- The calls return the tokens one after the other, and then null pointers. -/
theorem tokenCalls_spec {state : Strtok} {b : Ptr} {text : List UInt8} (hs : Terminated 0 state.heap b text)
    (delim : CString) (k : Nat) :
    Returned (tokenCalls (b, 0) delim state k).1.heap (tokenCalls (b, 0) delim state k).2
        (runs (isDelimiter delim) text)[k]? ∧
      Ahead (isDelimiter delim) (tokenCalls (b, 0) delim state k).1 ((runs (isDelimiter delim) text).drop (k + 1)) := by
  induction k with
  | zero =>
    obtain ⟨post, hat⟩ := hs.cells
    have hahead : Ahead (isDelimiter delim) { state with lastToken := some (b, 0) } (runs (isDelimiter delim) text) :=
      @Ahead.rest _ _ b [] text post rfl hs.body hat
    have hstep := ftStrtok_step hahead
    rw [tokenCalls, ftStrtok_str, ← List.head?_eq_getElem?, Nat.zero_add, List.drop_one]
    exact hstep
  | succ k ih =>
    have hstep := ftStrtok_step ih.2
    rwa [List.head?_drop, List.tail_drop] at hstep

/-- Both tokenizers give the tokens of the string, and the count of the first is their number. -/
structure TokenizersAgree (s : CString) (c : UInt8) : Prop where
  split : ∀ heap : Heap Cell, heap.fault = false → (ftSplit (fun _ => true) (some s) c heap).1.fault = false ∧
    Complete (ftSplit (fun _ => true) (some s) c heap).1 (ftSplit (fun _ => true) (some s) c heap).2 (tokensOf s.1 c)
  count : (countSegments s.1 c).toInt = (tokensOf s.1 c).length
  strtok : ∀ (state : Strtok) (str : Ptr) (delim : CString), Terminated 0 state.heap str s.1 → delim.1 = [c] →
    ∀ k, Returned (tokenCalls (str, 0) delim state k).1.heap (tokenCalls (str, 0) delim state k).2
      (tokensOf s.1 c)[k]?

/-- The tokenizers agree exactly on the strings whose tokens can be counted in an `int`. -/
theorem tokenizersAgree_iff (s : CString) (c : UInt8) : TokenizersAgree s c ↔ (tokensOf s.1 c).length < 2 ^ 31 := by
  constructor
  · intro h
    have hcount := h.count
    rw [countSegments_eq] at hcount
    exact CInt.toInt_ofNat_iff.mp hcount
  · intro hlt
    refine ⟨fun heap hf => ftSplit_complete hf rfl hlt fun _ _ => rfl, ?_, fun state str delim hs hdelim k => ?_⟩
    · rw [countSegments_eq]
      exact CInt.toInt_ofNat hlt
    · have hq : isDelimiter delim = (· == c) := by
        funext d
        rw [isDelimiter, hdelim, List.contains_cons, List.contains_nil, Bool.or_false]
      have hcall := (tokenCalls_spec hs delim k).1
      rwa [hq] at hcall

/-- n tokens `a`, each with a comma behind it. -/
def manyTokens (n : Nat) : CString :=
  ⟨(List.replicate n (cstr "a,")).flatten, by
    intro b hb
    obtain ⟨l, hl, hb⟩ := List.mem_flatten.mp hb
    have hne : ∀ b ∈ cstr "a,", b ≠ 0 := by decide +kernel
    exact hne b (List.eq_of_mem_replicate hl ▸ hb)⟩

/-- 2^32 tokens are counted as none. -/
theorem tokenizers_overflow : ∃ s c, c ≠ 0 ∧ countSegments s.1 c = 0 ∧ ¬TokenizersAgree s c := by
  have hlen : (tokensOf (manyTokens (2 ^ 32)).1 (chr ',')).length = 2 ^ 32 :=
    length_runs_flatten (x := chr 'a') (y := chr ',') (by decide) (by decide) (2 ^ 32)
  have hcount : countSegments (manyTokens (2 ^ 32)).1 (chr ',') = 0 := by
    rw [countSegments_eq, hlen]
    decide
  refine ⟨manyTokens (2 ^ 32), chr ',', by decide, hcount, fun h => ?_⟩
  have hagree := h.count
  rw [hcount, hlen] at hagree
  exact absurd hagree (by decide)

end Minitalk.Libft
