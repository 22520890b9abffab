import TextGrammar.Proofs.KeepsLoops

/-!
# Grammars keep admitted contracts

One induction over the grammar, inside an induction on the allowance: a reference to a rule is
followed within a smaller one.
-/

namespace TextGrammar

open Grammar

namespace Grammar

variable {c : Contract} {rules : Rules} {P : Grammar × Text → Prop} {n : Nat}

theorem keeps_rule_zero (name : String) : Keeps c rules P 0 (rule name) :=
  fun _ _ => Contract.kept_cutOff

theorem keeps_rule_succ {name : String} (h : Keeps c rules P n (rules name)) :
    Keeps c rules P (n + 1) (rule name) :=
  fun _ hP => Contract.kept_note (h.part hP .rule)

theorem keeps_of_rules (h : c.Admits rules P) (hrule : ∀ name, Keeps c rules P n (rule name))
    (g : Grammar) : Keeps c rules P n g := by
  -- A reference has no smaller grammar as its part, so it is dealt with before this induction.
  induction g using Grammar.induct with
  | leaf scanner => exact keeps_leaf h scanner
  | map f g ih => exact keeps_map f ih
  | bind g f ih ihf => exact keeps_bind ih ihf
  | peek g ih => exact fun s hP => Parser.kept_peek (ih.part hP .peek)
  | orElse first others ih iho => exact keeps_orElse ih iho
  | nearest alternatives ih => exact keeps_nearest h ih
  | seq parts ih => exact keeps_seq ih
  | pipe parts ih => exact keeps_pipe ih
  | repeated g bounds ih => exact keeps_repeated h bounds ih
  | manyUntil g stop ih ihs => exact keeps_manyUntil ih ihs
  | sepBy g separator ih ihs => exact keeps_sepBy ih ihs
  | optional g ih =>
    exact fun s hP => Parser.kept_map _ (Parser.kept_optional (ih.part hP .optional))
  | ignore g ih =>
    exact fun s hP => Parser.kept_map _ (Parser.kept_map _ (ih.part hP .ignore))
  | followedBy g next ih ihn => exact keeps_followedBy ih ihn
  | before g marker ih ihm => exact keeps_before h ih ihm
  | trace label g ih => exact fun s hP => Parser.kept_trace label (ih.part hP .trace)
  | fields fs ih => exact keeps_fields ih
  | rule name => exact hrule name
  | immediate g ih => exact fun s hP => ih.part hP .immediate
  | shared g ih => exact fun s hP => ih.part hP .shared
  | block steps finish ih => exact keeps_block h finish ih
  | procedure next ih => exact keeps_procedure h ih

end Grammar

/-- A grammar keeps a contract that is admitted wherever something is applied. -/
theorem Contract.Admits.kept {c : Contract} {rules : Rules} {P : Grammar × Text → Prop}
    (h : c.Admits rules P) (n : Nat) (g : Grammar) (s : Text)
    (hP : ∀ b, Applied rules (g, s) b → P b) : c.Kept s (g.parserWithin rules n s) := by
  induction n generalizing g s with
  | zero => exact keeps_of_rules h keeps_rule_zero g s hP
  | succ n ih => exact keeps_of_rules h (fun name => keeps_rule_succ (ih (rules name))) g s hP

end TextGrammar
