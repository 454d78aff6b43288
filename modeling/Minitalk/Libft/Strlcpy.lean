import Mathlib.Algebra.Group.Nat.Defs
import Minitalk.Lib.CArray
import Minitalk.Libft.Strnstr

/-! # Copies into a buffer of a given size (`ft_strlcpy`, `ft_strlcat`)

A buffer is the memory from `dst` on; the string `src` is elsewhere. A `t_size` has 64 bits. -/

namespace Minitalk.Libft.Strlcpy
open CArray CText Program

/-- `while (src[i] != '\0' && i < dsize - 1)`, and the NUL behind it. -/
def strlcpyLoop (limit : Nat) : List UInt8 → Nat → List UInt8 → Option (List UInt8)
  | [], _, _ => none
  | c :: src, i, dst =>
    if c ≠ 0 ∧ i < limit then do strlcpyLoop limit src (i + 1) (← store dst i c) else store dst i 0

def ftStrlcpy (dst : List UInt8) (src : CString) (dsize : Nat) : Option (List UInt8 × Nat) := do
  let dst ← if 0 < dsize then strlcpyLoop (dsize - 1) (chars src) 0 dst else some dst
  some (dst, ← ftStrlen (chars src))

/-- `while (++i < dsize - dest_len - 1 && *src)`, and the NUL behind it. -/
def strlcatLoop (limit : Nat) : List UInt8 → Nat → Nat → List UInt8 → Option (List UInt8)
  | [], i, d, dst => if i < limit then none else store dst d 0
  | c :: src, i, d, dst =>
    if i < limit ∧ c ≠ 0 then do strlcatLoop limit src (i + 1) (d + 1) (← store dst d c) else store dst d 0

/-- It looks for the NUL of `dst` however small `dsize` is. -/
def ftStrlcat (dst : List UInt8) (src : CString) (dsize : Nat) : Option (List UInt8 × Nat) := do
  let destLen ← ftStrlen dst
  let srcLen ← ftStrlen (chars src)
  if dsize ≤ destLen then some (dst, (dsize + srcLen) % 2 ^ 64)
  else
    let dst ← strlcatLoop (dsize - destLen - 1) (chars src) 0 destLen dst
    some (dst, (destLen + srcLen) % 2 ^ 64)

/-! ### Calls with one buffer -/

inductive Call where
  | cpy (src : CString)
  | cat (src : CString)

def Call.src : Call → CString
  | .cpy src => src
  | .cat src => src

def call (dsize : Nat) : Call → List UInt8 → Option (List UInt8 × Nat)
  | .cpy src, dst => ftStrlcpy dst src dsize
  | .cat src, dst => ftStrlcat dst src dsize

/-- The buffer after the calls, and what they returned. -/
def run (dsize : Nat) : List Call → List UInt8 → Option (List UInt8 × List Nat)
  | [], dst => some (dst, [])
  | c :: calls, dst => do
    let (dst, r) ← call dsize c dst
    let (dst, rs) ← run dsize calls dst
    some (dst, r :: rs)

/-- The text that a call makes where there is no bound. -/
def Call.text : Call → List UInt8 → List UInt8
  | .cpy src, _ => src.1
  | .cat src, t => t ++ src.1

def textOf (t : List UInt8) (calls : List Call) : List UInt8 := calls.foldl (fun t c => c.text t) t

/-- The buffer holds the text, with its NUL. -/
structure HoldsText (t dst : List UInt8) : Prop where
  body : 0 ∉ t
  front : t ++ [0] <+: dst

section Loops
variable {s post : List UInt8}

theorem strlcpyLoop_eq (s : List UInt8) (limit i : Nat) (dst : List UInt8) :
    strlcpyLoop limit (s ++ [0]) i dst = strlcatLoop limit (s ++ [0]) i i dst := by
  induction s generalizing i dst with
  | nil => simp [strlcpyLoop, strlcatLoop]
  | cons c s ih =>
    simp only [List.cons_append, strlcpyLoop, strlcatLoop, ih, and_comm (a := c ≠ 0)]

/-- As much as there is room for is copied, and the cells behind the NUL stay. -/
theorem strlcatLoop_eq (limit i : Nat) (pre : List UInt8) (hs : 0 ∉ s)
    (hroom : (s.take (limit - i)).length < post.length) :
    strlcatLoop limit (s ++ [0]) i pre.length (pre ++ post) =
      some (pre ++ s.take (limit - i) ++ 0 :: post.drop ((s.take (limit - i)).length + 1)) := by
  induction s generalizing i pre post with
  | nil =>
    obtain ⟨p, post, rfl⟩ := List.exists_cons_of_length_pos (Nat.lt_of_le_of_lt (Nat.zero_le _) hroom)
    rw [List.nil_append, strlcatLoop, if_neg (by simp), store_append_length]
    simp
  | cons c s ih =>
    obtain ⟨p, post, rfl⟩ := List.exists_cons_of_length_pos (Nat.lt_of_le_of_lt (Nat.zero_le _) hroom)
    obtain ⟨hc, hs⟩ := nul_not_mem_cons hs
    rw [List.cons_append, strlcatLoop, store_append_length, store_append_length]
    split
    · rename_i hgo
      have hlimit : limit - i = limit - (i + 1) + 1 := by omega
      rw [hlimit, List.take_succ_cons, List.length_cons, List.length_cons, Nat.succ_lt_succ_iff] at hroom
      have hrest := ih (i + 1) (pre ++ [c]) hs hroom
      rw [List.length_append, List.length_singleton, List.append_assoc, List.singleton_append] at hrest
      rw [Option.bind_eq_bind, Option.bind_some, hrest, hlimit, List.take_succ_cons]
      simp
    · rename_i hstop
      have hlimit : limit - i = 0 := by
        have hnot : ¬i < limit := fun hlt => hstop ⟨hlt, hc⟩
        omega
      rw [hlimit]
      simp

end Loops

/-! ### One call -/

section Call
variable {n : Nat} {t u dst : List UInt8} {src : CString}

theorem strlen_chars (src : CString) : ftStrlen (chars src) = some src.1.length :=
  ftStrlen_chars (fun h => src.2 0 h rfl) []

/-- What a call does that makes the text `u`. -/
structure Truncates (n : Nat) (u dst : List UInt8) (r : List UInt8 × Nat) : Prop where
  text : HoldsText (u.take (n - 1)) r.1
  length : r.1.length = dst.length
  kept : r.1.drop n = dst.drop n
  returned : r.2 = u.length

theorem truncates_copied (hn : 0 < n) (hroom : n ≤ dst.length) (hu : 0 ∉ u) :
    Truncates n u dst (u.take (n - 1) ++ 0 :: dst.drop ((u.take (n - 1)).length + 1), u.length) where
  text := by
    refine ⟨fun h => hu (List.mem_of_mem_take h), dst.drop ((u.take (n - 1)).length + 1), ?_⟩
    rw [List.append_assoc, List.singleton_append]
  length := by
    rw [List.length_append, List.length_cons, List.length_drop, List.length_take]
    omega
  kept := by
    have hlen : (u.take (n - 1) ++ [0]).length = (u.take (n - 1)).length + 1 := List.length_append
    have hle : (u.take (n - 1)).length + 1 ≤ n := by
      rw [List.length_take]
      omega
    rw [List.append_cons, List.drop_append, List.drop_eq_nil_of_le (hlen.trans_le hle), List.nil_append, List.drop_drop,
      hlen, Nat.add_sub_cancel' hle]
  returned := rfl

theorem cpy_truncates (hn : 0 < n) (hroom : n ≤ dst.length) : Ends (ftStrlcpy dst src n) (Truncates n src.1 dst) := by
  have hs : 0 ∉ src.1 := fun h => src.2 0 h rfl
  have hfits : (src.1.take (n - 1 - 0)).length < dst.length := by
    rw [List.length_take]
    omega
  have hloop := strlcatLoop_eq (n - 1) 0 [] hs hfits
  rw [List.nil_append, List.nil_append, Nat.sub_zero, List.length_nil] at hloop
  rw [ftStrlcpy, if_pos hn, strlen_chars, chars, strlcpyLoop_eq, hloop]
  exact .some (truncates_copied hn hroom hs)

theorem cat_truncates (hroom : n ≤ dst.length) (hdst : HoldsText t dst) (hlen : t.length < n)
    (hfit : src.1.length + n ≤ 2 ^ 64) : Ends (ftStrlcat dst src n) (Truncates n (t ++ src.1) dst) := by
  have hs : 0 ∉ src.1 := fun h => src.2 0 h rfl
  obtain ⟨hbody, rest, rfl⟩ := hdst
  rw [List.append_assoc, List.singleton_append] at hroom ⊢
  have hcopied := truncates_copied (by omega) hroom fun h => (List.mem_append.mp h).elim hbody hs
  have hfits : (src.1.take (n - t.length - 1 - 0)).length < (0 :: rest).length := by
    rw [List.length_append] at hroom
    rw [List.length_take]
    omega
  have hloop := strlcatLoop_eq (n - t.length - 1) 0 t hs hfits
  have htake : (t ++ src.1).take (n - 1) = t ++ src.1.take (n - t.length - 1) := by
    rw [List.take_append, List.take_of_length_le (by omega), Nat.sub_right_comm]
  rw [htake, List.length_append, Nat.add_assoc, List.drop_length_add_append, List.length_append] at hcopied
  rw [ftStrlcat, ftStrlen_chars hbody, strlen_chars, Option.bind_eq_bind, Option.bind_some, Option.bind_some,
    if_neg (by omega), chars, hloop, Nat.mod_eq_of_lt (by omega)]
  exact .some hcopied

end Call

/-! ### All calls -/

section Calls
variable {n : Nat} {t dst : List UInt8} {calls : List Call}

/-- What is cut off from a text stays cut off from what is made of it. -/
theorem Call.take_text (c : Call) (k : Nat) (t : List UInt8) : (c.text (t.take k)).take k = (c.text t).take k := by
  cases c with
  | cpy src => rfl
  | cat src =>
    rw [Call.text, Call.text, List.take_append, List.take_append, List.take_take, Nat.min_self, List.length_take]
    congr 2
    omega

theorem take_textOf (k : Nat) (t : List UInt8) (calls : List Call) :
    (textOf (t.take k) calls).take k = (textOf t calls).take k := by
  induction calls generalizing t with
  | nil => rw [textOf, textOf, List.foldl_nil, List.foldl_nil, List.take_take, Nat.min_self]
  | cons c calls ih =>
    have hstep : textOf (t.take k) (c :: calls) = textOf (c.text (t.take k)) calls := rfl
    rw [hstep, ← ih, c.take_text, ih]
    rfl

theorem call_truncates {c : Call} (hroom : n ≤ dst.length) (hdst : HoldsText t dst) (hlen : t.length < n)
    (hfit : c.src.1.length + n ≤ 2 ^ 64) : Ends (call n c dst) (Truncates n (c.text t) dst) := by
  cases c with
  | cpy src => exact cpy_truncates (by omega) hroom
  | cat src => exact cat_truncates hroom hdst hlen hfit

/-- What the calls leave of the text `t`, and what they return. -/
structure Truncated (n : Nat) (t dst : List UInt8) (calls : List Call) (r : List UInt8 × List Nat) : Prop where
  text : HoldsText ((textOf t calls).take (n - 1)) r.1
  kept : r.1.drop n = dst.drop n
  whole : (∀ x ∈ r.2, x < n) ↔ ∀ k, (textOf t (calls.take k)).length < n

theorem Truncates.and_then {dst₁ : List UInt8} {x : Nat} {r : List UInt8 × List Nat} (h : Truncates n t dst (dst₁, x))
    (hr : Truncated n (t.take (n - 1)) dst₁ calls r) : Truncated n t dst calls (r.1, x :: r.2) where
  text := by
    rw [← take_textOf]
    exact hr.text
  kept := hr.kept.trans h.kept
  whole := by
    rw [List.forall_mem_cons, hr.whole, show x = t.length from h.returned]
    constructor
    · rintro ⟨hlen, hall⟩
      rwa [List.take_of_length_le (by omega)] at hall
    · intro hall
      have hlen : t.length < n := hall 0
      rw [List.take_of_length_le (by omega)]
      exact ⟨hlen, hall⟩

theorem run_truncated (hroom : n ≤ dst.length) (hdst : HoldsText t dst) (hlen : t.length < n)
    (hfit : ∀ c ∈ calls, c.src.1.length + n ≤ 2 ^ 64) : Ends (run n calls dst) (Truncated n t dst calls) := by
  induction calls generalizing t dst with
  | nil =>
    refine .some ⟨?_, rfl, iff_of_true nofun fun k => ?_⟩
    · rwa [textOf, List.foldl_nil, List.take_of_length_le (by omega)]
    · rwa [List.take_nil]
  | cons c calls ih =>
    obtain ⟨hc, hfit⟩ := List.forall_mem_cons.mp hfit
    rw [run]
    refine (call_truncates hroom hdst hlen hc).bind fun ⟨dst₁, x⟩ h => ?_
    have hrest := ih (h.length.symm ▸ hroom) h.text (by rw [List.length_take]; omega) hfit
    refine hrest.bind fun r hr => .some ?_
    obtain ⟨htext, hkept, hwhole⟩ := h.and_then hr
    refine ⟨htext, hkept, hwhole.trans ⟨fun hall k => ?_, fun hall k => hall (k + 1)⟩⟩
    cases k with
    | zero => exact hlen
    | succ k => exact hall k

/-- From a first `ft_strlcpy` on, the buffer holds the text that all calls make, as far as it goes, with its NUL, and
    nothing is written behind the buffer; the text is whole all the time exactly when no result reaches `dsize`. -/
theorem calls_truncate (src : CString) (hn : 0 < n) (hroom : n ≤ dst.length)
    (hfit : ∀ c ∈ calls, c.src.1.length + n ≤ 2 ^ 64) :
    Ends (run n (.cpy src :: calls) dst) (Truncated n src.1 dst calls) := by
  rw [run]
  refine (cpy_truncates hn hroom).bind fun ⟨dst₁, x⟩ h => ?_
  refine (run_truncated (h.length.symm ▸ hroom) h.text (by rw [List.length_take]; omega) hfit).bind fun r hr => ?_
  exact .some (h.and_then hr)

def textHi : CString := ⟨[104, 105], by decide +kernel⟩

/-- The second text is cut to its first character. -/
theorem calls_truncate_cut : Ends (run 4 [.cpy textHi, .cat textHi] [7, 7, 7, 7, 7])
    (Truncated 4 [104, 105] [7, 7, 7, 7, 7] [.cat textHi]) :=
  calls_truncate textHi (by decide) (by decide) (by decide)

end Calls
end Minitalk.Libft.Strlcpy
