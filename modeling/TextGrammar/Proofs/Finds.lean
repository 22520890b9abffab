import TextGrammar.Proofs.Combinators
import TextGrammar.Proofs.Induction

/-!
# What grammars find

The outcome of a combinator from the outcomes of its parts: what is found and what is left, or that
nothing is found. Each statement is about one allowance; only a rule is followed within a smaller
one.
-/

namespace TextGrammar

namespace Parser

variable {α β : Type} {s t : Text}

theorem ending_bind_of_success {p : Parser α} {value : α} (f : α → Parser β)
    (h : (p s).ending = .returns (.success value t)) :
    (p.bind f s).ending = (f value t).ending := by
  change (p s >>= _).ending = _
  rw [Run.ending_bind, h]

theorem ending_bind_of_failure {p : Parser α} {error : ParseError} (f : α → Parser β)
    (h : (p s).ending = .returns (.failure error)) :
    (p.bind f s).ending = .returns (.failure error) := by
  change (p s >>= _).ending = _
  rw [Run.ending_bind, h]
  rfl

theorem ending_orElse_of_success {first : Parser α} {value : α} (others : List (Parser α))
    (h : (first s).ending = .returns (.success value t)) :
    (first.orElse others s).ending = .returns (.success value t) := by
  cases others with
  | nil => exact h
  | cons second others =>
    change (first s >>= _).ending = _
    rw [Run.ending_bind, h]
    rfl

theorem ending_orElse_of_failure {first : Parser α} {error : ParseError} (second : Parser α)
    (others : List (Parser α)) (h : (first s).ending = .returns (.failure error)) :
    (first.orElse (second :: others) s).ending = (second.orElse others s).ending := by
  change (first s >>= _).ending = _
  rw [Run.ending_bind, h]

theorem exists_of_ending_bind {p : Parser α} {f : α → Parser β} {value : β}
    (h : (p.bind f s).ending = .returns (.success value t)) :
    ∃ found u, (p s).ending = .returns (.success found u) ∧
      (f found u).ending = .returns (.success value t) := by
  obtain ⟨o, ho, h⟩ := Run.ending_bind_eq_returns_iff.1 h
  cases o with
  | success found u => exact ⟨found, u, ho, h⟩
  | failure error => cases h

theorem exists_of_ending_orElse {first : Parser α} {others : List (Parser α)} {value : α}
    (h : (first.orElse others s).ending = .returns (.success value t)) :
    ∃ p ∈ first :: others, (p s).ending = .returns (.success value t) := by
  induction others generalizing first with
  | nil => exact ⟨first, List.mem_cons_self, h⟩
  | cons second others ih =>
    obtain ⟨o, ho, h⟩ := Run.ending_bind_eq_returns_iff.1 h
    cases o with
    | success found u => exact ⟨first, List.mem_cons_self, ho.trans h⟩
    | failure error =>
      obtain ⟨p, hmem, hp⟩ := ih h
      exact ⟨p, List.mem_cons_of_mem _ hmem, hp⟩

theorem ending_repeatWithin_of_success {p : Parser α} {least most : Nat} {value : α}
    {values : List α} {u : Text} (h : (p s).ending = .returns (.success value t))
    (hr : (p.repeatWithin (least - 1) most t).ending = .returns (.success values u)) :
    (p.repeatWithin least (most + 1) s).ending = .returns (.success (value :: values) u) := by
  rw [repeatWithin_succ, Run.ending_bind, h]
  dsimp only
  rw [Run.ending_bind, hr]
  rfl

theorem ending_repeatWithin_of_failure {p : Parser α} {most : Nat} {error : ParseError}
    (h : (p s).ending = .returns (.failure error)) :
    (p.repeatWithin 0 (most + 1) s).ending = .returns (.success [] s) := by
  rw [repeatWithin_succ, Run.ending_bind, h]
  rfl

theorem ending_afterSeparators_of_failure {p : Parser α} {separator : Parser β} {rounds : Nat}
    {error : ParseError} (h : (separator s).ending = .returns (.failure error)) :
    (p.afterSeparators separator (rounds + 1) s).ending = .returns (.success [] s) := by
  rw [afterSeparators_succ, Run.ending_bind, h]
  rfl

theorem ending_afterSeparators_of_success {p : Parser α} {separator : Parser β} {rounds : Nat}
    {found : β} {value : α} {values : List α} {u v : Text}
    (hsep : (separator s).ending = .returns (.success found t))
    (hp : (p t).ending = .returns (.success value u))
    (hr : (p.afterSeparators separator rounds u).ending = .returns (.success values v)) :
    (p.afterSeparators separator (rounds + 1) s).ending =
      .returns (.success (value :: values) v) := by
  rw [afterSeparators_succ, Run.ending_bind, hsep]
  dsimp only
  rw [Run.ending_bind, hp]
  dsimp only
  rw [Run.ending_bind, hr]
  rfl

theorem ending_sepBy_of_failure {p : Parser α} {separator : Parser β} {rounds : Nat}
    {error : ParseError} (h : (p s).ending = .returns (.failure error)) :
    (p.sepBy separator rounds s).ending = .returns (.success [] s) := by
  change (p s >>= _).ending = _
  rw [Run.ending_bind, h]
  rfl

theorem ending_sepBy_of_success {p : Parser α} {separator : Parser β} {rounds : Nat} {value : α}
    {values : List α} {u : Text} (hp : (p s).ending = .returns (.success value t))
    (hr : (p.afterSeparators separator rounds t).ending = .returns (.success values u)) :
    (p.sepBy separator rounds s).ending = .returns (.success (value :: values) u) := by
  change (p s >>= _).ending = _
  rw [Run.ending_bind, hp]
  dsimp only
  rw [Run.ending_bind, hr]
  rfl

section Items

variable {ι : Type} {p : Parser α} {separator : Parser β} {mark : Char} {last : Text}
  {written : ι → Text} {found : ι → α}

/-- Items are found one after the other, up to where none follows or no more are allowed. -/
theorem ending_repeatWithin_flatMap (items : List ι) (most : Nat)
    (hlast : ∃ error, (p last).ending = .returns (.failure error))
    (hp : ∀ item ∈ items, ∀ t,
      (p (written item ++ t)).ending = .returns (.success (found item) t)) :
    (p.repeatWithin 0 most (items.flatMap written ++ last)).ending =
      .returns (.success ((items.take most).map found)
        ((items.drop most).flatMap written ++ last)) := by
  induction items generalizing most with
  | nil =>
    rw [List.take_nil, List.drop_nil]
    cases most with
    | zero =>
      rw [repeatWithin_zero]
      rfl
    | succ most =>
      obtain ⟨error, herror⟩ := hlast
      exact ending_repeatWithin_of_failure herror
  | cons item items ih =>
    cases most with
    | zero =>
      rw [repeatWithin_zero]
      rfl
    | succ most =>
      rw [List.flatMap_cons, List.append_assoc]
      refine ending_repeatWithin_of_success (hp item List.mem_cons_self _) (ih most ?_)
      exact fun item' hmem => hp item' (List.mem_cons_of_mem _ hmem)

theorem ending_afterSeparators_flatMap (items : List ι) {rounds : Nat}
    (hsep : ∀ t, ∃ value, (separator (mark :: t)).ending = .returns (.success value t))
    (hlast : ∃ error, (separator last).ending = .returns (.failure error))
    (hp : ∀ item ∈ items, ∀ t, t = last ∨ (∃ u, t = mark :: u) →
      (p (written item ++ t)).ending = .returns (.success (found item) t))
    (hrounds : items.length < rounds) :
    (p.afterSeparators separator rounds
      (items.flatMap (fun item => mark :: written item) ++ last)).ending =
      .returns (.success (items.map found) last) := by
  induction items generalizing rounds with
  | nil =>
    obtain ⟨rounds, rfl⟩ := Nat.exists_eq_succ_of_ne_zero (Nat.ne_of_gt hrounds)
    obtain ⟨error, herror⟩ := hlast
    exact ending_afterSeparators_of_failure herror
  | cons item items ih =>
    obtain ⟨rounds, rfl⟩ := Nat.exists_eq_succ_of_ne_zero (Nat.ne_zero_of_lt hrounds)
    obtain ⟨value, hvalue⟩ := hsep (written item ++
      (items.flatMap (fun item => mark :: written item) ++ last))
    simp only [List.flatMap_cons, List.cons_append, List.append_assoc]
    refine ending_afterSeparators_of_success hvalue (hp item List.mem_cons_self _ ?_) (ih ?_ ?_)
    · cases items with
      | nil => exact Or.inl rfl
      | cons next items => exact Or.inr ⟨_, rfl⟩
    · exact fun item' hmem => hp item' (List.mem_cons_of_mem _ hmem)
    · exact Nat.lt_of_succ_lt_succ hrounds

theorem ending_sepBy_flatMap (item : ι) (items : List ι) {rounds : Nat}
    (hsep : ∀ t, ∃ value, (separator (mark :: t)).ending = .returns (.success value t))
    (hlast : ∃ error, (separator last).ending = .returns (.failure error))
    (hp : ∀ item' ∈ item :: items, ∀ t, t = last ∨ (∃ u, t = mark :: u) →
      (p (written item' ++ t)).ending = .returns (.success (found item') t))
    (hrounds : items.length < rounds) :
    (p.sepBy separator rounds
      (written item ++ (items.flatMap (fun item => mark :: written item) ++ last))).ending =
      .returns (.success ((item :: items).map found) last) := by
  refine ending_sepBy_of_success (hp item List.mem_cons_self _ ?_)
    (ending_afterSeparators_flatMap items hsep hlast ?_ hrounds)
  · cases items with
    | nil => exact Or.inl rfl
    | cons next items => exact Or.inr ⟨_, rfl⟩
  · exact fun item' hmem => hp item' (List.mem_cons_of_mem _ hmem)

end Items

end Parser

namespace Grammar

/-- Within the allowance `n`, the grammar finds `value` at the beginning of `s` and leaves `t`. -/
def Finds (rules : Rules) (n : Nat) (g : Grammar) (s : Text) (value : Value) (t : Text) : Prop :=
  (g.parserWithin rules n s).ending = .returns (.success value t)

/-- Within the allowance `n`, the grammar finds nothing at the beginning of `s`. -/
def Fails (rules : Rules) (n : Nat) (g : Grammar) (s : Text) : Prop :=
  ∃ error, (g.parserWithin rules n s).ending = .returns (.failure error)

/-- The grammars find the values one after the other, each in what the one before it leaves. -/
inductive FindsAll (rules : Rules) (n : Nat) : List Grammar → Text → List Value → Text → Prop
  | nil {s : Text} : FindsAll rules n [] s [] s
  | cons {g : Grammar} {gs : List Grammar} {s t u : Text} {value : Value} {values : List Value} :
    Finds rules n g s value t → FindsAll rules n gs t values u →
    FindsAll rules n (g :: gs) s (value :: values) u

/-- One of the grammars finds nothing in what those before it leave. -/
inductive FailsAll (rules : Rules) (n : Nat) : List Grammar → Text → Prop
  | head {g : Grammar} {gs : List Grammar} {s : Text} :
    Fails rules n g s → FailsAll rules n (g :: gs) s
  | tail {g : Grammar} {gs : List Grammar} {s t : Text} {value : Value} :
    Finds rules n g s value t → FailsAll rules n gs t → FailsAll rules n (g :: gs) s

variable {rules : Rules} {n : Nat} {g : Grammar} {s t u : Text} {value : Value}

theorem finds_leaf {scanner : Scanner Value} (h : scanner.scan s = .success value t) :
    Finds rules n (leaf scanner) s value t := congrArg Ending.returns h

theorem fails_leaf {scanner : Scanner Value} {error : ParseError}
    (h : scanner.scan s = .failure error) : Fails rules n (leaf scanner) s :=
  ⟨error, congrArg Ending.returns h⟩

theorem finds_literal (w t : Text) : Finds rules n (literal w) (w ++ t) (.text w) t := by
  apply finds_leaf
  have hd : Text.dropStart? w (w ++ t) = some t := Text.dropStart?_eq_some_iff.2 rfl
  simp only [Scanner.map, Scanner.literal, hd, Outcome.map_success]

theorem fails_literal {w : Text} (h : ¬ w <+: s) : Fails rules n (literal w) s := by
  have hd : Text.dropStart? w s = none := Text.dropStart?_eq_none_iff.2 h
  have hscan : ((Scanner.literal w).map Value.text).scan s =
      .failure (.unequal w (s.take w.length) (Text.preview s)) := by
    simp only [Scanner.map, Scanner.literal, hd, Outcome.map_failure]
  exact fails_leaf hscan

theorem finds_notLiteral {c : Char} (h : ¬ w <+: c :: s) :
    Finds rules n (notLiteral w) (c :: s) (.char c) s := by
  apply finds_leaf
  have hd : Text.dropStart? w (c :: s) = none := Text.dropStart?_eq_none_iff.2 h
  simp only [Scanner.map, Scanner.notLiteral, hd]
  rfl

theorem fails_notLiteral (h : w <+: s) : Fails rules n (notLiteral w) s := by
  obtain ⟨rest, rfl⟩ := h
  have hd : Text.dropStart? w (w ++ rest) = some rest := Text.dropStart?_eq_some_iff.2 rfl
  have hscan : ((Scanner.notLiteral w).map Value.char).scan (w ++ rest) =
      .failure (.excluded w) := by
    simp only [Scanner.map, Scanner.notLiteral, hd, Outcome.map_failure]
  exact fails_leaf hscan

theorem fails_notLiteral_nil (h : ¬ w <+: []) : Fails rules n (notLiteral w) [] := by
  have hd : Text.dropStart? w [] = none := Text.dropStart?_eq_none_iff.2 h
  have hscan : ((Scanner.notLiteral w).map Value.char).scan [] = .failure .noCharacter := by
    simp only [Scanner.map, Scanner.notLiteral, hd]
    rfl
  exact fails_leaf hscan

theorem finds_whitespace (h : s.dropWhile Text.isSpace = t) :
    Finds rules n whitespace s .unit t := by
  subst h
  rfl

theorem finds_map {found : Value} (f : Value → Value) (h : Finds rules n g s found t) :
    Finds rules n (map f g) s (f found) t := Parser.ending_map_of_success f h

theorem fails_map (f : Value → Value) (h : Fails rules n g s) : Fails rules n (map f g) s := by
  obtain ⟨error, h⟩ := h
  exact ⟨error, Parser.ending_bind_of_failure _ h⟩

theorem finds_orElse (others : List Grammar) (h : Finds rules n g s value t) :
    Finds rules n (orElse g others) s value t := Parser.ending_orElse_of_success _ h

theorem finds_orElse_cons {second : Grammar} {others : List Grammar} (hg : Fails rules n g s)
    (h : Finds rules n (orElse second others) s value t) :
    Finds rules n (orElse g (second :: others)) s value t := by
  obtain ⟨error, hg⟩ := hg
  exact (Parser.ending_orElse_of_failure _ _ hg).trans h

theorem fails_orElse_nil (h : Fails rules n g s) : Fails rules n (orElse g []) s := h

theorem fails_orElse_cons {second : Grammar} {others : List Grammar} (hg : Fails rules n g s)
    (h : Fails rules n (orElse second others) s) :
    Fails rules n (orElse g (second :: others)) s := by
  obtain ⟨error, hg⟩ := hg
  obtain ⟨last, h⟩ := h
  exact ⟨last, (Parser.ending_orElse_of_failure _ _ hg).trans h⟩

theorem finds_pipe {gs : List Grammar} {values : List Value} (h : FindsAll rules n gs s values t) :
    Finds rules n (pipe gs) s (.list values) t := by
  apply Parser.ending_map_of_success
  induction h with
  | nil => rfl
  | cons hg _ ih =>
    exact (Parser.ending_bind_of_success _ hg).trans (Parser.ending_map_of_success _ ih)

theorem fails_pipe {gs : List Grammar} (h : FailsAll rules n gs s) :
    Fails rules n (pipe gs) s := by
  suffices hpipe : ∃ error, (Parser.pipe (denoteAll n (rules.call n) gs) s).ending =
      .returns (.failure error) by
    obtain ⟨error, hpipe⟩ := hpipe
    exact ⟨error, Parser.ending_bind_of_failure _ hpipe⟩
  induction h with
  | head hg =>
    obtain ⟨error, hg⟩ := hg
    exact ⟨error, Parser.ending_bind_of_failure _ hg⟩
  | tail hg _ ih =>
    obtain ⟨error, ih⟩ := ih
    exact ⟨error,
      (Parser.ending_bind_of_success _ hg).trans (Parser.ending_bind_of_failure _ ih)⟩

/-- The record of the values that the fields have found, in their order. -/
def collected {π ρ : Type} (record : Record Value) : List (Field π ρ) → List Value → Record Value
  | .keep key _ :: fs, value :: values =>
    collected (if key = [] then record else record.insert key value) fs values
  | .skip _ :: fs, _ :: values => collected record fs values
  | _, _ => record

theorem finds_fields {fs : List (Field Grammar Grammar)} {values : List Value}
    (h : FindsAll rules n (fs.map Field.content) s values t) :
    Finds rules n (fields fs) s (.record (collected [] fs values)) t := by
  apply Parser.ending_map_of_success
  unfold Parser.fields
  generalize ([] : Record Value) = record
  induction fs generalizing s values record with
  | nil =>
    cases h
    rfl
  | cons f fs ih =>
    cases h with
    | cons hg h =>
      cases f with
      | keep key g => exact (Parser.ending_bind_of_success _ hg).trans (ih h _)
      | skip g =>
        have hskip := Parser.ending_map_of_success (fun _ => ()) hg
        exact (Parser.ending_bind_of_success _ hskip).trans (ih h record)

theorem exists_of_finds_fields {fs : List (Field Grammar Grammar)}
    (h : Finds rules n (fields fs) s value t) :
    ∃ values, FindsAll rules n (fs.map Field.content) s values t ∧
      value = .record (collected [] fs values) := by
  obtain ⟨entries, hfields, rfl⟩ := Parser.ending_of_map_success h
  clear h
  unfold Parser.fields at hfields
  generalize ([] : Record Value) = record at hfields ⊢
  induction fs generalizing s record with
  | nil =>
    cases hfields
    exact ⟨[], .nil, rfl⟩
  | cons f fs ih =>
    cases f with
    | keep key g =>
      obtain ⟨found, u, hg, hfs⟩ := Parser.exists_of_ending_bind hfields
      obtain ⟨values, hall, heq⟩ := ih _ hfs
      exact ⟨found :: values, .cons hg hall, heq⟩
    | skip g =>
      obtain ⟨_, u, hskip, hfs⟩ := Parser.exists_of_ending_bind hfields
      obtain ⟨found, hg, _⟩ := Parser.ending_of_map_success hskip
      obtain ⟨values, hall, heq⟩ := ih _ hfs
      exact ⟨found :: values, .cons hg hall, heq⟩

theorem fails_fields {fs : List (Field Grammar Grammar)}
    (h : FailsAll rules n (fs.map Field.content) s) : Fails rules n (fields fs) s := by
  suffices hfields : ∀ record, ∃ error,
      (Parser.fieldsInto record (denoteFields n (rules.call n) fs) s).ending =
        .returns (.failure error) by
    obtain ⟨error, hfields⟩ := hfields []
    exact ⟨error, Parser.ending_bind_of_failure _ hfields⟩
  induction fs generalizing s with
  | nil => cases h
  | cons f fs ih =>
    intro record
    cases h with
    | head hg =>
      obtain ⟨error, hg⟩ := hg
      cases f with
      | keep key g => exact ⟨error, Parser.ending_bind_of_failure _ hg⟩
      | skip g =>
        have hskip := Parser.ending_bind_of_failure (fun _ => Parser.pure ()) hg
        exact ⟨error, Parser.ending_bind_of_failure _ hskip⟩
    | tail hg h =>
      cases f with
      | keep key g =>
        obtain ⟨error, ih⟩ := ih h _
        exact ⟨error, (Parser.ending_bind_of_success _ hg).trans ih⟩
      | skip g =>
        have hskip := Parser.ending_map_of_success (fun _ => ()) hg
        obtain ⟨error, ih⟩ := ih h record
        exact ⟨error, (Parser.ending_bind_of_success _ hskip).trans ih⟩

theorem finds_many_flatMap {ι : Type} {written : ι → Text} {found : ι → Value} {last : Text}
    (items : List ι) (hlength : items.length < Text.wordLimit)
    (hg : ∀ item ∈ items, ∀ t, Finds rules n g (written item ++ t) (found item) t)
    (hlast : Fails rules n g last) :
    Finds rules n (many g) (items.flatMap written ++ last) (.list (items.map found)) last := by
  apply Parser.ending_map_of_success
  have hmost : items.length ≤ Bounds.any.most := Nat.le_sub_one_of_lt hlength
  have hrepeat := Parser.ending_repeatWithin_flatMap items Bounds.any.most hlast hg
  rw [List.take_of_length_le hmost, List.drop_of_length_le hmost] at hrepeat
  rw [Parser.repeated_of_le (Nat.zero_le _)]
  exact hrepeat

theorem finds_rule {name : String} (h : Finds rules n (rules name) s value t) :
    Finds rules (n + 1) (rule name) s value t := by
  change (Run.note _ >>= fun _ => (rules name).parserWithin rules n s).ending = _
  rw [Run.ending_bind]
  exact h

theorem fails_rule {name : String} (h : Fails rules n (rules name) s) :
    Fails rules (n + 1) (rule name) s := by
  obtain ⟨error, h⟩ := h
  refine ⟨error, ?_⟩
  change (Run.note _ >>= fun _ => (rules name).parserWithin rules n s).ending = _
  rw [Run.ending_bind]
  exact h

end Grammar

end TextGrammar
