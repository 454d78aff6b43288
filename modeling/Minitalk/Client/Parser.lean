import Minitalk.Libft.Atoi

/-! # The pid on the command line (`client/parser.c`, `client/inits.c`)

Both functions convert the same string with `ft_atoi`, which narrows a `long` to an `int`: a number above `INT_MAX`
is taken for the pid that it narrows to. -/

namespace Minitalk.Client
open CText Libft

/-- `kill(pid, 0)` succeeds for the pids that exist. -/
def validatePidString (pidExists : BitVec 32 → Bool) (str : Option CString) : Bool :=
  match str with
  | none => false
  | some s =>
    if s.1.isEmpty then false
    else if !s.1.all ftIsdigit then false
    else
      let pid := ftAtoi s.1
      if pid.toInt ≤ 0 then false
      else if !pidExists pid then false
      else true

/-- The `server_pid` of `init_data`; nothing when it exits. -/
def initData (argv1 : CString) : Option (BitVec 32) :=
  let serverPid := ftAtoi argv1.1
  if serverPid.toInt ≤ 0 then none else some serverPid

/-- The string is a number. -/
def IsNumber (s : CString) : Prop := s.1 ≠ [] ∧ ∀ c ∈ s.1, isDigit c = true

/-- The client talks to the pid that was typed. -/
structure TalksToTyped (pidExists : BitVec 32 → Bool) (s : CString) : Prop where
  accepted : validatePidString pidExists (some s) = true →
    ∃ pid, initData s = some pid ∧ pid.toInt = decimal s.1 ∧ 1 ≤ pid.toInt ∧ pid.toInt ≤ intMax.toInt ∧
      pidExists pid = true
  rejected : IsNumber s → intMax.toInt < decimal s.1 → validatePidString pidExists (some s) = false

section Pid
variable {pidExists : BitVec 32 → Bool} {s : CString}

theorem validatePidString_iff :
    validatePidString pidExists (some s) = true ↔
      IsNumber s ∧ 0 < (narrowed (decimal s.1)).toInt ∧ pidExists (narrowed (decimal s.1)) = true := by
  have hall : s.1.all ftIsdigit = true ↔ ∀ c ∈ s.1, isDigit c = true := by
    simp only [List.all_eq_true, ftIsdigit_eq]
  have hempty : s.1.isEmpty = true ↔ s.1 = [] := List.isEmpty_iff
  unfold validatePidString IsNumber
  constructor
  · intro h
    simp only at h
    split at h
    · cases h
    · rename_i hne
      split at h
      · cases h
      · rename_i hdigits
        have hs : ∀ c ∈ s.1, isDigit c = true := hall.mp (by simpa using hdigits)
        rw [ftAtoi_digits hs] at h
        split at h
        · cases h
        · rename_i hpos
          refine ⟨⟨fun hnil => hne (hempty.mpr hnil), hs⟩, by omega, ?_⟩
          simpa using h
  · rintro ⟨⟨hne, hs⟩, hpos, hexists⟩
    have hpos' : ¬(narrowed (decimal s.1)).toInt ≤ 0 := by omega
    simp [hempty, hne, hall.mpr hs, ftAtoi_digits hs, hpos', hexists]

theorem narrowed_of_le {n : Nat} (h : (n : Int) ≤ intMax.toInt) : (narrowed n).toInt = n := by
  have hmax : intMax.toInt = 2147483647 := by decide
  rw [narrowed, if_pos (by omega), BitVec.toInt_ofNat', Int.bmod_eq_of_le] <;> omega

/-- The client talks to the typed pid exactly when the number is an `int`, or the pid that it narrows to is refused. -/
theorem talksToTyped_iff (pidExists : BitVec 32 → Bool) (s : CString) :
    TalksToTyped pidExists s ↔
      (IsNumber s → (decimal s.1 : Int) ≤ intMax.toInt ∨ (narrowed (decimal s.1)).toInt ≤ 0 ∨
        pidExists (narrowed (decimal s.1)) = false) := by
  constructor
  · intro h hnum
    by_cases hle : (decimal s.1 : Int) ≤ intMax.toInt
    · exact Or.inl hle
    · refine Or.inr ?_
      have hrej := h.rejected hnum (by omega)
      by_cases hpos : (narrowed (decimal s.1)).toInt ≤ 0
      · exact Or.inl hpos
      · refine Or.inr (Bool.eq_false_iff.mpr fun hexists => ?_)
        rw [validatePidString_iff.mpr ⟨hnum, by omega, hexists⟩] at hrej
        cases hrej
  · intro h
    constructor
    · intro hacc
      obtain ⟨hnum, hpos, hexists⟩ := validatePidString_iff.mp hacc
      have hle : (decimal s.1 : Int) ≤ intMax.toInt := by
        rcases h hnum with hle | hneg | hno
        · exact hle
        · omega
        · rw [hexists] at hno
          cases hno
      have hpid := narrowed_of_le hle
      refine ⟨narrowed (decimal s.1), ?_, hpid, by omega, by omega, hexists⟩
      rw [initData, ftAtoi_digits hnum.2, if_neg (by omega)]
    · intro hnum hlt
      refine Bool.eq_false_iff.mpr fun hacc => ?_
      obtain ⟨-, hpos, hexists⟩ := validatePidString_iff.mp hacc
      rcases h hnum with hle | hneg | hno
      · omega
      · omega
      · rw [hexists] at hno
        cases hno

end Pid

/-- 2^32 + 1 -/
def longPid : CString := ⟨cstr "4294967297", by decide +kernel⟩

/-- The number 4294967297 is taken for the pid 1. -/
theorem longPid_accepted :
    validatePidString (fun _ => true) (some longPid) = true ∧ initData longPid = some 1 ∧
      decimal longPid.1 = 4294967297 ∧ ¬TalksToTyped (fun _ => true) longPid := by
  have hacc : validatePidString (fun _ => true) (some longPid) = true := by decide
  have hinit : initData longPid = some 1 := by decide
  have hdec : decimal longPid.1 = 4294967297 := by decide
  refine ⟨hacc, hinit, hdec, fun h => ?_⟩
  obtain ⟨pid, hpid, hval, -⟩ := h.accepted hacc
  rw [hinit, Option.some.injEq] at hpid
  rw [← hpid, hdec] at hval
  exact absurd hval (by decide)

end Minitalk.Client
