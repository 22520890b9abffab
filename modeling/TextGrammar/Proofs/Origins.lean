import TextGrammar.Json
import TextGrammar.Proofs.Remaining

/-!
# Where errors come from

Two kinds of grammar make an error: a leaf that refuses a text, and a nearest choice of which no
alternative succeeds. All others hand on the error of a part as it is, or drop it. Whatever text a
part is applied to is a contiguous part of the input, so an error always speaks of such a part.
-/

namespace TextGrammar

namespace Grammar

variable {rules : Rules}

/-- The error is made somewhere in the application of `g` to `input`: by a leaf, or by a nearest
choice all of whose alternatives refuse the text. -/
inductive Origin (rules : Rules) (g : Grammar) (input : Text) : ParseError → Prop
  | leaf {scanner : Scanner Value} {t : Text} {error : ParseError} :
    Applied rules (g, input) (.leaf scanner, t) → t <:+: input →
    scanner.scan t = .failure error → Origin rules g input error
  | nearest {gs : List Grammar} {t : Text} :
    Applied rules (g, input) (.nearest gs, t) → t <:+: input →
    (∀ alternative ∈ gs, alternative.Refuses rules t) →
    Origin rules g input (.noAlternative gs.length (Text.preview t))

end Grammar

namespace Contract

open Grammar

def errsFrom (rules : Rules) (g : Grammar) (input : Text) : Contract where
  leaves s t := t <:+: s
  errs := Origin rules g input
  faults _ := True
  leaves_of_suffix h := h.isInfix
  leaves_trans hst htu := htu.trans hst
  bytes_le_of_leaves := Text.bytes_le_of_infix

theorem errsFrom_admits (rules : Rules) (g : Grammar) (input : Text) :
    (errsFrom rules g input).Admits rules (Applied rules (g, input)) where
  leaf _ _ _ happlied he := .leaf happlied happlied.isInfix he
  nearest _ _ happlied hrefuse := .nearest happlied happlied.isInfix hrefuse
  repeated _ _ _ _ _ := trivial
  before _ _ _ _ _ _ hafter := Parser.ends_span_of_infix hafter trivial
  count _ _ _ _ := trivial

end Contract

namespace Grammar

/-- An error that a grammar returns was made by a leaf or by a nearest choice, on a contiguous part
of the input, and has come through unchanged. -/
theorem origin_of_failure (rules : Rules) (n : Nat) (g : Grammar) (input : Text)
    (error : ParseError) (h : (g.parserWithin rules n input).ending = .returns (.failure error)) :
    Origin rules g input error := by
  have hk := (Contract.errsFrom_admits rules g input).kept n g input fun _ hb => hb
  exact (Run.ends_iff.1 hk).1 _ h

/-- The list is refused at the letter, but the choice goes on; the error is that of its last
alternative. -/
theorem origin_of_failure_json :
    (Json.value.parserWithin Json.rules 3 ['[', '1', ',', 'x']).ending =
        .returns (.failure (.unequal ['\x7b'] ['['] ['[', '1', ',', 'x'])) ∧
      Origin Json.rules Json.value ['[', '1', ',', 'x']
        (.unequal ['\x7b'] ['['] ['[', '1', ',', 'x']) := by
  have hx : (Json.value.parserWithin Json.rules 3 ['[', '1', ',', 'x']).ending =
      .returns (.failure (.unequal ['\x7b'] ['['] ['[', '1', ',', 'x'])) := rfl
  exact ⟨hx, origin_of_failure _ _ _ _ _ hx⟩

end Grammar

end TextGrammar
