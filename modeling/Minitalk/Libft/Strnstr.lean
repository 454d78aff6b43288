import Minitalk.Lib.CText
import Minitalk.Lib.Search

/-! # `ft_strnstr`, `ft_strstr` and `ft_strncmp` (`libft/strings`)

A pointer into a string is what is left of it, with its NUL; a read behind the NUL has no result. A pointer that is
returned is its distance from the haystack. -/

namespace Minitalk.Libft
open CText Search

/-- The array of a string. -/
def chars (s : CString) : List UInt8 := s.1 ++ [0]

def ftStrncmp : List UInt8 → List UInt8 → Nat → Option Int
  | _, _, 0 => some 0
  | a :: s1, b :: s2, n + 1 =>
    if a ≠ b then some (a.toNat - b.toNat) else if a = 0 then some 0 else ftStrncmp s1 s2 n
  | _, _, _ + 1 => none

def ftStrlen : List UInt8 → Option Nat
  | [] => none
  | c :: s => if c = 0 then some 0 else (ftStrlen s).map (· + 1)

/-! ### `ft_strnstr.c` -/

/-- The inner loop, up to the character of the needle that it reads last. -/
def matchLoop : List UInt8 → List UInt8 → Nat → Option UInt8
  | h :: subHaystack, d :: subNeedle, remaining =>
    if h ≠ 0 ∧ d ≠ 0 ∧ h = d ∧ remaining > 0 then matchLoop subHaystack subNeedle (remaining - 1) else some d
  | _, _, _ => none

def strnstrLoop (needle : List UInt8) : List UInt8 → Nat → Option (Option Nat)
  | [], _ => none
  | h :: haystack, n =>
    if h ≠ 0 ∧ n > 0 then
      (matchLoop (h :: haystack) needle n).bind fun c =>
        if c = 0 then some (some 0) else (strnstrLoop needle haystack (n - 1)).map (·.map (· + 1))
    else some none

def ftStrnstr (haystack needle : CString) (n : Nat) : Option (Option Nat) :=
  if (chars needle).head? = some 0 then some (some 0) else strnstrLoop (chars needle) (chars haystack) n

/-! ### `ft_strstr.c` -/

def strstrLoop (needle : List UInt8) (needleLen : Nat) : List UInt8 → Option (Option Nat)
  | [] => none
  | h :: haystack =>
    if h ≠ 0 then
      (ftStrncmp (h :: haystack) needle needleLen).bind fun diff =>
        if diff = 0 then some (some 0) else (strstrLoop needle needleLen haystack).map (·.map (· + 1))
    else some none

def ftStrstr : Option CString → Option CString → Option (Option Nat)
  | some haystack, some needle =>
    if (chars needle).head? = some 0 then some (some 0)
    else (ftStrlen (chars needle)).bind fun needleLen => strstrLoop (chars needle) needleLen (chars haystack)
  | _, _ => some none

section Attempts
variable {h d : List UInt8}

theorem nul_not_mem_cons {c : UInt8} (h0 : 0 ∉ c :: h) : c ≠ 0 ∧ 0 ∉ h :=
  ⟨Ne.symm (List.ne_of_not_mem_cons h0), List.not_mem_of_not_mem_cons h0⟩

theorem ftStrlen_chars (hd : 0 ∉ d) (rest : List UInt8) : ftStrlen (d ++ 0 :: rest) = some d.length := by
  induction d with
  | nil => rfl
  | cons c d ih =>
    obtain ⟨hc, hd⟩ := nul_not_mem_cons hd
    rw [List.cons_append, ftStrlen, if_neg hc, ih hd]
    rfl

/-- The needle is over at the end of an attempt, if and only if it stands there within what remains. -/
theorem matchLoop_eq (hh : 0 ∉ h) (hd : 0 ∉ d) (remaining : Nat) :
    ∃ c, matchLoop (h ++ [0]) (d ++ [0]) remaining = some c ∧ (c = 0 ↔ d <+: h ∧ d.length ≤ remaining) := by
  induction d generalizing h remaining with
  | nil => cases h with
    | nil => exact ⟨0, rfl, by simp⟩
    | cons a h => exact ⟨0, by simp [matchLoop], by simp⟩
  | cons b d ih =>
    obtain ⟨hb, hd'⟩ := nul_not_mem_cons hd
    cases h with
    | nil => exact ⟨b, by simp [matchLoop], by simp [hb]⟩
    | cons a h =>
      obtain ⟨ha, hh⟩ := nul_not_mem_cons hh
      rw [List.cons_append, List.cons_append, matchLoop]
      split
      · rename_i hgo
        obtain ⟨-, -, rfl, hpos⟩ := hgo
        obtain ⟨c, hrun, hc⟩ := ih hh hd' (remaining - 1)
        refine ⟨c, hrun, hc.trans ?_⟩
        rw [List.cons_prefix_cons, List.length_cons]
        have hle : d.length ≤ remaining - 1 ↔ d.length + 1 ≤ remaining := by omega
        simp [hle]
      · rename_i hstop
        refine ⟨b, rfl, iff_of_false hb ?_⟩
        rintro ⟨hpre, hle⟩
        obtain ⟨rfl, -⟩ := List.cons_prefix_cons.mp hpre
        exact hstop ⟨ha, hb, rfl, Nat.lt_of_lt_of_le (Nat.succ_pos _) hle⟩

/-- No more than the needle is compared, and no more than the haystack: its NUL differs from the needle. -/
theorem ftStrncmp_eq (hh : 0 ∉ h) (hd : 0 ∉ d) :
    ∃ diff, ftStrncmp (h ++ [0]) (d ++ [0]) d.length = some diff ∧ (diff = 0 ↔ d <+: h) := by
  induction d generalizing h with
  | nil => exact ⟨0, by simp [ftStrncmp], by simp⟩
  | cons b d ih =>
    obtain ⟨hb, hd'⟩ := nul_not_mem_cons hd
    cases h with
    | nil =>
      have hne : b.toNat ≠ 0 := fun hz => hb (UInt8.toNat_inj.mp hz)
      refine ⟨-b.toNat, by simp [ftStrncmp, Ne.symm hb], ?_⟩
      simp [hne]
    | cons a h =>
      obtain ⟨ha, hh⟩ := nul_not_mem_cons hh
      rw [List.cons_append, List.cons_append, List.length_cons, ftStrncmp]
      by_cases hab : a = b
      · subst hab
        obtain ⟨diff, hrun, hdiff⟩ := ih hh hd'
        refine ⟨diff, ?_, hdiff.trans ?_⟩
        · rw [if_neg (not_not.mpr rfl), if_neg ha, hrun]
        · rw [List.cons_prefix_cons, and_iff_right rfl]
      · refine ⟨a.toNat - b.toNat, if_pos hab, iff_of_false ?_ ?_⟩
        · have hne : a.toNat ≠ b.toNat := fun heq => hab (UInt8.toNat_inj.mp heq)
          omega
        · exact fun hpre => hab (List.cons_prefix_cons.mp hpre).1.symm

/-- The outer loop goes over the haystack; what is left of `n` shrinks with it. -/
theorem strnstrLoop_eq (hh : 0 ∉ h) (hd : 0 ∉ d) (hne : d ≠ []) (n : Nat) :
    ∃ r, strnstrLoop (d ++ [0]) (h ++ [0]) n = some r ∧ First (OccursWithin d h n) r := by
  induction h generalizing n with
  | nil => exact ⟨none, by simp [strnstrLoop], fun i hi => not_occursAt_nil hne hi.1⟩
  | cons a h ih =>
    obtain ⟨ha, hh'⟩ := nul_not_mem_cons hh
    cases n with
    | zero => exact ⟨none, by simp [strnstrLoop], fun i => not_occursWithin_zero hne⟩
    | succ n =>
      obtain ⟨c, hmatch, hc⟩ := matchLoop_eq hh hd (n + 1)
      rw [List.cons_append] at hmatch
      rw [List.cons_append, strnstrLoop, if_pos ⟨ha, Nat.succ_pos n⟩, hmatch, Option.bind_some]
      split
      · rename_i hzero
        exact ⟨some 0, rfl, First.zero (occursWithin_head.mpr (hc.mp hzero))⟩
      · rename_i hgo
        obtain ⟨r, hrun, hfirst⟩ := ih hh' n
        refine ⟨r.map (· + 1), by rw [Nat.add_sub_cancel, hrun]; rfl, ?_⟩
        refine First.shift (fun h0 => hgo (hc.mpr (occursWithin_head.mp h0))) ?_
        exact hfirst.congr fun i => occursWithin_succ.symm

theorem strstrLoop_eq (hh : 0 ∉ h) (hd : 0 ∉ d) (hne : d ≠ []) :
    ∃ r, strstrLoop (d ++ [0]) d.length (h ++ [0]) = some r ∧ First (OccursAt d h) r := by
  induction h with
  | nil => exact ⟨none, by simp [strstrLoop], fun i => not_occursAt_nil hne⟩
  | cons a h ih =>
    obtain ⟨ha, hh'⟩ := nul_not_mem_cons hh
    obtain ⟨diff, hcmp, hdiff⟩ := ftStrncmp_eq hh hd
    rw [List.cons_append] at hcmp
    rw [List.cons_append, strstrLoop, if_pos ha, hcmp, Option.bind_some]
    split
    · rename_i hzero
      exact ⟨some 0, rfl, First.zero (hdiff.mp hzero)⟩
    · rename_i hgo
      obtain ⟨r, hrun, hfirst⟩ := ih hh'
      refine ⟨r.map (· + 1), by rw [hrun]; rfl, ?_⟩
      exact First.shift (fun h0 => hgo (hdiff.mpr h0)) hfirst

end Attempts

/-- `ft_strnstr` finds the first occurrence that ends within `n` characters, which is that of `ft_strstr` when `n`
    covers the haystack. -/
theorem ftStrnstr_first (haystack needle : CString) (n : Nat) :
    ∃ r, ftStrnstr haystack needle n = some r ∧ First (OccursWithin needle.1 haystack.1 n) r ∧
      (needle.1 = [] → r = some 0) ∧
      (haystack.1.length ≤ n → ftStrstr (some haystack) (some needle) = some r) := by
  obtain ⟨h, hh⟩ := haystack
  obtain ⟨d, hd⟩ := needle
  have hh : 0 ∉ h := fun h0 => hh 0 h0 rfl
  have hd : 0 ∉ d := fun h0 => hd 0 h0 rfl
  cases d with
  | nil => exact ⟨some 0, rfl, First.zero ⟨List.nil_prefix, Nat.zero_le n⟩, fun _ => rfl, fun _ => rfl⟩
  | cons b d =>
    have hne : b :: d ≠ [] := List.cons_ne_nil b d
    have hhead : (chars ⟨b :: d, by assumption⟩).head? ≠ some 0 := fun h0 =>
      hd (by simpa [chars] using Or.inl (Option.some.inj h0).symm)
    obtain ⟨r, hrun, hfirst⟩ := strnstrLoop_eq hh hd hne n
    obtain ⟨r', hrun', hfirst'⟩ := strstrLoop_eq hh hd hne
    refine ⟨r, (if_neg hhead).trans hrun, hfirst, nofun, fun hle => ?_⟩
    have hsame : r' = r := hfirst'.unique (hfirst.congr fun i => occursWithin_of_length_le hne hle)
    rw [ftStrstr, if_neg hhead, chars, chars, ftStrlen_chars hd [], Option.bind_some, hrun', hsame]

end Minitalk.Libft
