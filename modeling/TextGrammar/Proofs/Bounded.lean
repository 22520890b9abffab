import TextGrammar.Proofs.Remaining

/-!
# Where bounded parsers end

A bounded parser cuts its input at a byte count. The cut is where the marker stopped if what the
marker left is a suffix of the input, and only then. A marker that is itself bounded may leave text
that ends earlier; the span is too long then by what was left out behind it, or it would end inside
a character.
-/

namespace TextGrammar

namespace Parser

variable {α β : Type}

theorem before_eq_of_marker {p : Parser α} {marker : Parser β} {input after : Text} {value : β}
    (hm : (marker input).ending = .returns (.success value after)) :
    p.before marker input = marker input >>= fun _ => span input after >>= p := by
  change (marker input >>= _) = _
  rw [Run.bind_eq_of_returns _ hm, Run.bind_eq_of_returns _ hm]

theorem before_eq_of_span {p : Parser α} {marker : Parser β} {input after part : Text} {value : β}
    (hm : (marker input).ending = .returns (.success value after))
    (hspan : span input after = pure part) :
    p.before marker input = marker input >>= fun _ => p part := by
  rw [before_eq_of_marker hm, hspan]
  rfl

theorem ending_before_of_split {p : Parser α} {marker : Parser β} {input after : Text} {value : β}
    (hm : (marker input).ending = .returns (.success value after))
    (hspan : span input after = Run.fault .splitCharacter) :
    (p.before marker input).ending = .faults .splitCharacter := by
  rw [before_eq_of_marker hm, hspan, Run.ending_bind, hm]
  rfl

theorem span_of_infix (pre after post : Text) :
    (∃ part, span (pre ++ after ++ post) after = pure part ∧
      Text.bytes part = Text.bytes pre + Text.bytes post) ∨
    span (pre ++ after ++ post) after = Run.fault .splitCharacter ∧
      ∀ part, part <+: pre ++ after ++ post →
        Text.bytes part ≠ Text.bytes pre + Text.bytes post := by
  have hbytes : Text.bytes (pre ++ after ++ post) =
      Text.bytes pre + Text.bytes post + Text.bytes after := by
    rw [Text.bytes_append, Text.bytes_append]
    omega
  have hle : Text.bytes after ≤ Text.bytes (pre ++ after ++ post) := by omega
  rcases span_cases hle with ⟨part, hpart⟩ | hsplit
  · left
    obtain ⟨_, hb⟩ := span_eq_pure_iff.1 hpart
    exact ⟨part, hpart, by omega⟩
  · right
    refine ⟨hsplit, ?_⟩
    intro part hbegins hb
    have hpart : span (pre ++ after ++ post) after = pure part :=
      span_eq_pure_iff.2 ⟨hbegins, by omega⟩
    rw [hsplit] at hpart
    cases hpart

end Parser

namespace Grammar

/-- After its marker has left `after`, the bounded parser does what `g` does on a span of the input
that ends where `after` begins. -/
def EndsWhere (rules : Rules) (n : Nat) (g marker : Grammar) (input after : Text) : Prop :=
  ∃ part, part ++ after <+: input ∧ Parser.span input after = pure part ∧
    (before g marker).parserWithin rules n input =
      marker.parserWithin rules n input >>= fun _ => g.parserWithin rules n part

variable {rules : Rules} {n : Nat} {g marker : Grammar} {input after : Text} {value : Value}

theorem EndsWhere.isSuffix (h : EndsWhere rules n g marker input after) : after <:+ input := by
  obtain ⟨part, hbegins, hspan, _⟩ := h
  obtain ⟨_, hb⟩ := Parser.span_eq_pure_iff.1 hspan
  -- The span and what follows it have all the bytes of the input, so they are the input.
  have hall : part ++ after = input := by
    apply Text.eq_of_prefix_of_bytes_eq hbegins (List.prefix_refl input)
    rw [Text.bytes_append, hb]
  exact ⟨part, hall⟩

theorem endsWhere_of_isSuffix
    (h : (marker.parserWithin rules n input).ending = .returns (.success value after))
    (hs : after <:+ input) : EndsWhere rules n g marker input after := by
  obtain ⟨part, rfl⟩ := hs
  have hspan := Parser.span_append part after
  exact ⟨part, List.prefix_refl _, hspan, Parser.before_eq_of_span h hspan⟩

/-- A bounded parser ends where its marker stopped exactly if the marker left a suffix, as every
marker does that applies no bounded parser. For any other it cuts by length: too late by what is
missing behind the remaining text, or inside a character. -/
theorem before_endsWhere_iff (g : Grammar)
    (h : (marker.parserWithin rules n input).ending = .returns (.success value after)) :
    (EndsWhere rules n g marker input after ↔ after <:+ input) ∧
    ((∀ p m t, ¬ Applied rules (marker, input) (.before p m, t)) → after <:+ input) ∧
    ∃ pre post, input = pre ++ after ++ post ∧
      ((∃ part, part <+: input ∧ Text.bytes part = Text.bytes pre + Text.bytes post ∧
          (before g marker).parserWithin rules n input =
            marker.parserWithin rules n input >>= fun _ => g.parserWithin rules n part) ∨
        (∀ part, part <+: input → Text.bytes part ≠ Text.bytes pre + Text.bytes post) ∧
          ((before g marker).parserWithin rules n input).ending = .faults .splitCharacter) := by
  have hl : marker.Leaves rules input after := leaves_of_ending h
  refine ⟨⟨EndsWhere.isSuffix, endsWhere_of_isSuffix h⟩, hl.isSuffix, ?_⟩
  obtain ⟨pre, post, rfl⟩ := hl.isInfix
  refine ⟨pre, post, rfl, ?_⟩
  rcases Parser.span_of_infix pre after post with ⟨part, hspan, hb⟩ | ⟨hsplit, hnone⟩
  · left
    exact ⟨part, (Parser.span_eq_pure_iff.1 hspan).1, hb, Parser.before_eq_of_span h hspan⟩
  · right
    exact ⟨hnone, Parser.ending_before_of_split h hsplit⟩

theorem before_semicolon_endsWhere :
    ((searchFor [';']).parserWithin noRules 0 ['é', ';', 'z']).ending =
        .returns (.success (.text ['é']) ['z']) ∧
      EndsWhere noRules 0 (take 1) (searchFor [';']) ['é', ';', 'z'] ['z'] := by
  have hx : ((searchFor [';']).parserWithin noRules 0 ['é', ';', 'z']).ending =
      .returns (.success (.text ['é']) ['z']) := rfl
  have hs : ['z'] <:+ ['é', ';', 'z'] := ⟨['é', ';'], rfl⟩
  exact ⟨hx, (before_endsWhere_iff (take 1) hx).1.2 hs⟩

def firstBefore (c : Char) : Grammar := before (take 1) (searchFor [c])

/-- A marker that stops behind the first character, bounded by a later one: the span does not end
there, and in another text it would end inside a character. -/
theorem bounded_marker_misplaces_span :
    ((firstBefore 'c').parserWithin noRules 0 ['a', 'b', 'c', 'd']).ending =
        .returns (.success (.text ['a']) ['b', 'c']) ∧
      ((before breakToEnd (firstBefore 'c')).parserWithin noRules 0 ['a', 'b', 'c', 'd']).ending =
        .returns (.success (.text ['a', 'b']) []) ∧
      ¬ EndsWhere noRules 0 breakToEnd (firstBefore 'c') ['a', 'b', 'c', 'd'] ['b', 'c'] ∧
      ((firstBefore ';').parserWithin noRules 0 ['a', 'é', ';', 'z']).ending =
        .returns (.success (.text ['a']) ['é', ';']) ∧
      ((before breakToEnd (firstBefore ';')).parserWithin noRules 0 ['a', 'é', ';', 'z']).ending =
        .faults .splitCharacter := by
  refine ⟨rfl, rfl, ?_, rfl, rfl⟩
  intro h
  exact absurd h.isSuffix (by decide)

end Grammar

end TextGrammar
