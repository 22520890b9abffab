import TextGrammar.Proofs.Allowances
import TextGrammar.Proofs.Loops
import TextGrammar.Proofs.Sequences

/-!
# Separated lists

A list of items with separators between them is a first item and a repetition of separators followed
by items, if there is a first item. The loop that keeps its own text does the same as the repetition
in every round, and where a separator has no item behind it both go back in front of the separator.
-/

namespace TextGrammar

/-- A list that is given as an optional pair of its first item and the list of the others. -/
def Value.joined : Value → Value
  | option none => list []
  | option (some (list [first, list others])) => list (first :: others)
  | v => v

namespace Parser

section Loops

variable {α β : Type} {p : Parser α} {separator : Parser β} {s t : Text}

theorem ending_map_eq_unfinished_iff {f : α → β} :
    (p.map f s).ending = .unfinished ↔ (p s).ending = .unfinished := by
  change (p s >>= _).ending = _ ↔ _
  rw [Run.ending_bind]
  cases (p s).ending with
  | returns o => cases o <;> simp [Parser.pure]
  | faults fault => simp
  | unfinished => simp

theorem ending_sepBy_of_rounds {first : α} {rounds : List (Text × α)} {u : Text}
    {error : ParseError} (hp : (p s).ending = .returns (.success first t))
    (h : Rounds (separator.followedBy p) t rounds u)
    (he : (separator.followedBy p u).ending = .returns (.failure error)) {n : Nat}
    (hn : rounds.length < n) :
    (p.sepBy separator n s).ending = .returns (.success (first :: rounds.map Prod.snd) u) := by
  apply ending_sepBy_of_success hp
  rw [afterSeparators_eq_untilFailure, untilFailure_of_failure h he hn]

end Loops

/-! ## Whole lists -/

variable {p separator : Parser Value} {s t u : Text}

/-- A separated list as an optional pair of an item and a repetition. -/
def sepByMany (p separator : Parser Value) : Parser Value :=
  ((pipe [p, (many (separator.followedBy p)).map .list]).map .list).optional.map .option

/-- Fewer than `limit` items in a row follow the first one, each with a separator before it. -/
def SeparatedBelow (limit : Nat) (p separator : Parser Value) (s : Text) : Prop :=
  ∀ first t, (p s).ending = .returns (.success first t) →
    (separator.followedBy p).RoundsBelow limit t

theorem exists_of_ending_sepByMany {o : Outcome Value}
    (h : (sepByMany p separator s).ending = .returns o) :
    (∃ t, o = .success (.option none) t) ∨
      ∃ first others t, o = .success (.option (some (.list [first, .list others]))) t := by
  obtain ⟨o', hoptional, h⟩ := Run.ending_bind_eq_returns_iff.1 h
  obtain ⟨o'', hlist, hoptional⟩ := Run.ending_bind_eq_returns_iff.1 hoptional
  cases o'' with
  | failure error =>
    cases hoptional
    cases h
    exact Or.inl ⟨s, rfl⟩
  | success values t =>
    cases hoptional
    cases h
    obtain ⟨items, hpipe, rfl⟩ := ending_of_map_success hlist
    obtain ⟨first, u, _, hpipe⟩ := exists_of_ending_bind hpipe
    obtain ⟨others, hothers, rfl⟩ := ending_of_map_success hpipe
    obtain ⟨found, v, hmany, hothers⟩ := exists_of_ending_bind hothers
    obtain ⟨others, _, rfl⟩ := ending_of_map_success hmany
    cases hothers
    exact Or.inr ⟨first, others, _, rfl⟩

theorem SeparatedBelow.congr {limit : Nat} {q marker : Parser Value}
    (h : SeparatedBelow limit p separator s) (hp : ∀ s, (q s).ending = (p s).ending)
    (hs : ∀ s, (marker s).ending = (separator s).ending) : SeparatedBelow limit q marker s := by
  intro first t hfirst rounds u hrounds
  have hround : ∀ s, (marker.followedBy q s).ending = (separator.followedBy p s).ending :=
    fun s => ending_bind_congr (hs s) fun _ t => hp t
  exact h first t ((hp s).symm.trans hfirst) rounds u (hrounds.of_ending_eq hround)

theorem sepBy_eq_sepByMany {limit rounds : Nat} (h : SeparatedBelow limit p separator s)
    (hr : limit ≤ rounds) (hm : limit ≤ Text.wordLimit - 1) :
    (p.sepBy separator rounds).map Value.list s = (sepByMany p separator).map Value.joined s := by
  change (p s >>= _) >>= _ = ((((p s >>= _) >>= _) >>= _) >>= _) >>= _
  simp only [LawfulMonad.bind_assoc]
  apply Run.bind_congr_of_returns
  intro o ho
  cases o with
  | failure error => rfl
  | success first t =>
    have hmany : (separator.followedBy p).many t =
        (separator.followedBy p).repeatWithin 0 (Text.wordLimit - 1) t :=
      repeated_of_le (Nat.zero_le _) t
    dsimp only
    rw [afterSeparators_eq_untilFailure, untilFailure_eq_repeatWithin (h first t ho) hr hm, ← hmany]
    change _ = ((((separator.followedBy p).many t >>= _) >>= _) >>= _) >>= _
    simp only [LawfulMonad.bind_assoc]
    apply Run.bind_congr_of_returns
    intro others hothers
    cases others with
    | success values rest => rfl
    | failure error => exact absurd hothers (repeated_ne_failure rfl error)

theorem ending_sepBy_of_not_separatedBelow {rounds : Nat}
    (h : ¬ SeparatedBelow rounds p separator s) :
    (p.sepBy separator rounds s).ending = .unfinished := by
  simp only [SeparatedBelow, RoundsBelow, not_forall, Nat.not_lt] at h
  obtain ⟨first, t, hfirst, others, u, hothers, hle⟩ := h
  change (p s >>= _).ending = _
  rw [Run.bind_eq_of_returns _ hfirst]
  dsimp only
  rw [afterSeparators_eq_untilFailure,
    Run.bind_eq_of_unfinished _ (ending_untilFailure_of_rounds hothers hle)]

/-- The loop with enough rounds and the pair of an item and a repetition have the same runs that end
by themselves. -/
def SepByAgrees (p separator : Parser Value) (s : Text) : Prop :=
  ∀ x : Run (Outcome Value), x.ending ≠ .unfinished →
    ((∃ rounds, (p.sepBy separator rounds).map Value.list s = x) ↔
      (sepByMany p separator).map Value.joined s = x)

theorem sepByAgrees_of_separatedBelow (h : SeparatedBelow (Text.wordLimit - 1) p separator s) :
    SepByAgrees p separator s := by
  intro x hx
  constructor
  · rintro ⟨rounds, rfl⟩
    by_cases hrounds : SeparatedBelow rounds p separator s
    · rcases Nat.le_total rounds (Text.wordLimit - 1) with hle | hle
      · exact (sepBy_eq_sepByMany hrounds le_rfl hle).symm
      · exact (sepBy_eq_sepByMany h hle le_rfl).symm
    · have hcut := ending_sepBy_of_not_separatedBelow hrounds
      exact absurd (ending_map_eq_unfinished_iff.2 hcut) hx
  · rintro rfl
    exact ⟨Text.wordLimit - 1, sepBy_eq_sepByMany h le_rfl le_rfl⟩

end Parser

namespace Grammar

variable {rules : Rules} {g separator : Grammar} {s : Text} {x : Run (Outcome Value)}

def sepByMany (g separator : Grammar) : Grammar :=
  optional (pipe [g, many (followedBy separator g)])

theorem terminates_map_iff {f : Value → Value} :
    (map f g).Terminates rules s ↔ g.Terminates rules s := by
  have hmap : ∀ n, ((map f g).parserWithin rules n s).ending = .unfinished ↔
      (g.parserWithin rules n s).ending = .unfinished :=
    fun n => Parser.ending_map_eq_unfinished_iff
  constructor
  · rintro ⟨_, n, rfl, hx⟩
    exact ⟨_, n, rfl, fun h => hx ((hmap n).2 h)⟩
  · rintro ⟨_, n, rfl, hx⟩
    exact ⟨_, n, rfl, fun h => hx ((hmap n).1 h)⟩

theorem finishes_sepBy_iff
    (h : ∀ n, Parser.SeparatedBelow (Text.wordLimit - 1) (g.parserWithin rules n)
      (separator.parserWithin rules n) s) :
    (sepBy g separator).Finishes rules s x ↔
      (map Value.joined (sepByMany g separator)).Finishes rules s x := by
  constructor
  · rintro ⟨n, hn, hx⟩
    exact ⟨n, (Parser.sepByAgrees_of_separatedBelow (h n) x hx).1 ⟨n, hn⟩, hx⟩
  · intro hfinishes
    have ⟨_, _, hx⟩ := hfinishes
    -- Only a large allowance has as many rounds for the loop as the repetition has.
    obtain ⟨m, hm, hle⟩ :=
      (hfinishes.eventually_eq.and (Filter.eventually_ge_atTop (Text.wordLimit - 1))).exists
    exact ⟨m, (Parser.sepBy_eq_sepByMany (h m) hle le_rfl).trans hm, hx⟩

end Grammar

/-- As long as fewer items follow the first one than a repetition can count, the loop of a separated
list does what the pair of an item and a repetition does, whose value is read as one list: the same
runs end by themselves, and also with parsers that announce themselves, so that the same ones are
applied to the same texts in the same order. Where no item comes behind a separator, that separator
is left. For grammars too, one of the two terminates exactly if the other does; they end alike, and
never with a failure. -/
theorem sepBy_agrees_with_many :
    (∀ (p separator : Parser Value) (s : Text),
      Parser.SeparatedBelow (Text.wordLimit - 1) p separator s →
        Parser.SepByAgrees p separator s ∧
        ∀ a b, Parser.SepByAgrees (p.announced a) (separator.announced b) s) ∧
    (∀ (p separator : Parser Value) (s t u v : Text) (first found : Value)
      (rounds : List (Text × Value)) (error : ParseError),
      (p s).ending = .returns (.success first t) →
      Parser.Rounds (separator.followedBy p) t rounds u →
      (separator u).ending = .returns (.success found v) →
      (p v).ending = .returns (.failure error) → ∀ n, rounds.length < n →
        (p.sepBy separator n s).ending =
          .returns (.success (first :: rounds.map Prod.snd) u)) ∧
    ∀ (rules : Rules) (g separator : Grammar) (s : Text),
      (∀ n, Parser.SeparatedBelow (Text.wordLimit - 1) (g.parserWithin rules n)
        (separator.parserWithin rules n) s) →
      ((Grammar.sepBy g separator).Terminates rules s ↔
        (Grammar.sepByMany g separator).Terminates rules s) ∧
      (∀ x, (Grammar.sepBy g separator).Finishes rules s x ↔
        (Grammar.map Value.joined (Grammar.sepByMany g separator)).Finishes rules s x) ∧
      ∀ y, (Grammar.sepByMany g separator).Finishes rules s y →
        (∃ fault, y.ending = .faults fault) ∨
        (∃ t, y.ending = .returns (.success (.option none) t)) ∨
        ∃ first others t,
          y.ending = .returns (.success (.option (some (.list [first, .list others]))) t) := by
  refine ⟨?_, ?_, ?_⟩
  · intro p separator s h
    refine ⟨Parser.sepByAgrees_of_separatedBelow h, fun a b => ?_⟩
    apply Parser.sepByAgrees_of_separatedBelow
    exact h.congr (Parser.ending_announced a p) (Parser.ending_announced b separator)
  · intro p separator s t u v first found rounds error hp hrounds hseparator hitem n hn
    have he := (Parser.ending_bind_of_success (fun _ => p) hseparator).trans hitem
    exact Parser.ending_sepBy_of_rounds hp hrounds he hn
  · intro rules g separator s h
    have hfinishes := fun x => Grammar.finishes_sepBy_iff (x := x) h
    refine ⟨?_, hfinishes, ?_⟩
    · exact (exists_congr hfinishes).trans Grammar.terminates_map_iff
    · rintro y ⟨n, rfl, hy⟩
      cases hending : ((Grammar.sepByMany g separator).parserWithin rules n s).ending with
      | faults fault => exact Or.inl ⟨fault, rfl⟩
      | unfinished => exact absurd hending hy
      | returns o =>
        rcases Parser.exists_of_ending_sepByMany hending with ⟨t, rfl⟩ | ⟨first, others, t, rfl⟩
        · exact Or.inr (Or.inl ⟨t, rfl⟩)
        · exact Or.inr (Or.inr ⟨first, others, t, rfl⟩)

/-- Two vowels with a comma between them, and a comma that no vowel follows. -/
theorem sepBy_agrees_with_many_vowels :
    (∀ n, Parser.SeparatedBelow (Text.wordLimit - 1)
      (Grammar.vowel.parserWithin (fun _ => .vowel) n)
      ((Grammar.literal [',']).parserWithin (fun _ => .vowel) n) ['a', ',', 'e', ',', 'b']) ∧
    (Grammar.map Value.joined (Grammar.sepByMany .vowel (.literal [',']))).Finishes
      (fun _ => .vowel) ['a', ',', 'e', ',', 'b']
      ⟨[], .returns (.success (.list [.char 'a', .char 'e']) [',', 'b'])⟩ ∧
    (((Parser.ofScanner (Scanner.vowel.map Value.char)).sepBy
      (.ofScanner ((Scanner.literal [',']).map Value.text)) 2) ['a', ',', 'e', ',', 'b']).ending =
      .returns (.success [.char 'a', .char 'e'] [',', 'b']) := by
  have hrounds : Parser.Rounds
      ((Parser.ofScanner ((Scanner.literal [',']).map Value.text)).followedBy
        (.ofScanner (Scanner.vowel.map Value.char)))
      [',', 'e', ',', 'b'] [([',', 'e', ',', 'b'], .char 'e')] [',', 'b'] := .cons rfl .nil
  have hbelow : ∀ n, Parser.SeparatedBelow (Text.wordLimit - 1)
      (Grammar.vowel.parserWithin (fun _ => .vowel) n)
      ((Grammar.literal [',']).parserWithin (fun _ => .vowel) n) ['a', ',', 'e', ',', 'b'] := by
    intro n first t hfirst others u hothers
    cases hfirst
    have hlt := hrounds.below_of_failure rfl others u hothers
    exact hlt.trans (by decide)
  refine ⟨hbelow, ?_, ?_⟩
  · have hiff := (sepBy_agrees_with_many.2.2 (fun _ => .vowel) .vowel (.literal [',']) _ hbelow).2.1
    exact (hiff _).1 ⟨2, rfl, nofun⟩
  · exact sepBy_agrees_with_many.2.1 _ _ _ _ _ _ _ _ _ _ rfl hrounds rfl rfl 2 (by decide)

end TextGrammar
