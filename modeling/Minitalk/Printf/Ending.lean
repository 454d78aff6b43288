import Minitalk.Printf.Parser
import Mathlib.Data.List.TakeWhile

/-! # Where `ft_process_format` stops

The loop stops at the NUL of the format exactly when every `%` that starts a conversion has a type letter behind
it. `ft_parse_flags` leaves a conversion without one at the NUL, and the `i++` of the outer loop goes past it. -/

namespace Minitalk.Printf
open CText
open Libft (ftIsdigit)

/-- Literal characters and conversions with their type letter; a `%` may stand at the very end. -/
inductive WellEnded : List UInt8 → Prop where
  | nil : WellEnded []
  | lone : WellEnded [chr '%']
  | literal {c : UInt8} {cs : List UInt8} : c ≠ chr '%' → WellEnded cs → WellEnded (c :: cs)
  | conversion {ms rest : List UInt8} {type : UInt8} : (∀ c ∈ ms, ftIstype c = false) → ftIstype type = true →
      WellEnded rest → WellEnded (chr '%' :: (ms ++ type :: rest))

theorem ftIsdigit_not_type {c : UInt8} (h : ftIsdigit c = true) : ftIstype c = false := by
  revert h
  obtain ⟨⟨c⟩⟩ := c
  revert c
  decide +kernel

theorem dropWhile_readDigits (target : BitVec 32) (s : List UInt8) :
    (readDigits target s).2.dropWhile (!ftIstype ·) = s.dropWhile (!ftIstype ·) := by
  induction s generalizing target with
  | nil => rfl
  | cons c cs ih =>
    rw [readDigits]
    split
    · rename_i hdigit
      rw [ih, List.dropWhile_cons_of_pos (by simp [ftIsdigit_not_type hdigit])]
    · rfl

theorem dropWhile_parseRound (args : VaList) (c : UInt8) (cs : List UInt8) (flags : Flags) (n : Nat) :
    (parseRound args c cs flags n).2.2.dropWhile (!ftIstype ·) = cs.dropWhile (!ftIstype ·) := by
  unfold parseRound
  split
  · rfl
  · split
    · rfl
    · split
      · rename_i hdigit
        simp only [ftProcessNumber, readDigits, hdigit, if_true]
        exact dropWhile_readDigits _ cs
      · rfl

theorem ftParseFlags_rest (args : VaList) (flags : Flags) (n : Nat) (format : List UInt8) :
    (ftParseFlags args flags n format).2.2 = format.dropWhile (!ftIstype ·) := by
  induction format using (measure List.length).wf.induction generalizing flags n with
  | _ format ih =>
    unfold ftParseFlags
    split
    · rfl
    · rename_i c cs
      split
      · rename_i htype
        rw [List.dropWhile_cons_of_neg (by simp [htype])]
      · rename_i htype
        rw [ih _ (Nat.lt_succ_of_le (length_parseRound args c cs flags n)), dropWhile_parseRound,
          List.dropWhile_cons_of_pos (by simpa using htype)]

theorem wellEnded_percent_iff {cs : List UInt8} (hcs : cs ≠ []) :
    WellEnded (chr '%' :: cs) ↔
      ∃ type rest, cs.dropWhile (!ftIstype ·) = type :: rest ∧ WellEnded rest := by
  constructor
  · intro h
    cases h with
    | lone => exact absurd rfl hcs
    | literal hc => exact absurd rfl hc
    | @conversion ms rest type hms htype hrest =>
      refine ⟨type, rest, ?_, hrest⟩
      rw [List.dropWhile_append_of_pos fun c hc => by simp [hms c hc], List.dropWhile_cons_of_neg (by simp [htype])]
  · rintro ⟨type, rest, hdrop, hrest⟩
    have htype : ftIstype type = true := by
      have := List.head_dropWhile_not (!ftIstype ·) (l := cs) (by rw [hdrop]; simp)
      simpa [hdrop] using this
    have hsplit : cs = cs.takeWhile (!ftIstype ·) ++ type :: rest := by
      rw [← hdrop, List.takeWhile_append_dropWhile]
    rw [hsplit]
    exact .conversion (fun c hc => by simpa using List.mem_takeWhile_imp hc) htype hrest

/-- The loop ends at the NUL exactly for these formats, whatever the arguments. -/
theorem processFrom_isSome_iff (args : VaList) (n : Nat) (format : List UInt8) :
    (processFrom args n format).isSome = true ↔ WellEnded format := by
  induction format using (measure List.length).wf.induction generalizing n with
  | _ format ih =>
    cases format with
    | nil => simp [processFrom, WellEnded.nil]
    | cons c cs =>
      rw [processFrom]
      by_cases hc : c = chr '%' ∧ cs ≠ []
      · obtain ⟨rfl, hcs⟩ := hc
        have hrest := ftParseFlags_rest args ftFlagsInit n cs
        rw [if_pos ⟨rfl, hcs⟩, wellEnded_percent_iff hcs, ← hrest]
        split
        · rename_i hflags
          simp [hflags]
        · rename_i flags m type rest hflags
          have hlen := length_ftParseFlags args ftFlagsInit n cs
          rw [hflags] at hlen
          rw [Option.isSome_map, ih rest (Nat.lt_succ_of_lt hlen), hflags]
          constructor
          · exact fun h => ⟨type, rest, rfl, h⟩
          · rintro ⟨type', rest', heq, h⟩
            exact (List.cons.inj heq).2 ▸ h
      · rw [if_neg hc, Option.isSome_map, ih cs (Nat.lt_succ_self _)]
        by_cases hpercent : c = chr '%'
        · obtain rfl : cs = [] := by simpa [hpercent] using hc
          rw [hpercent]
          exact ⟨fun _ => .lone, fun _ => .nil⟩
        · refine ⟨.literal hpercent, fun h => ?_⟩
          cases h with
          | lone => exact absurd rfl hpercent
          | literal _ h => exact h
          | conversion => exact absurd rfl hpercent

end Minitalk.Printf
