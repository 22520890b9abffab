import Mathlib.Data.List.Forall2
import TextGrammar.Proofs.Sequences

/-!
# Named fields

Fields are applied from left to right, each to what the one before it has left, up to the first
failure. A record that is found holds, under each name, the value of the last field of that name.
A field without a name is applied like a skipped one and adds nothing.
-/

namespace TextGrammar

namespace Field

def parser {α : Type} : Field (Parser α) (Parser Unit) → Parser Unit
  | keep _ p => p.ignore
  | skip p => p

/-- The same field, or a skipped one in the place of one without a name. -/
inductive Skipped {π ρ : Type} (drop : π → ρ) : Field π ρ → Field π ρ → Prop
  | same (f : Field π ρ) : Skipped drop f f
  | unnamed (kept : π) : Skipped drop (keep [] kept) (skip (drop kept))

end Field

namespace Parser

variable {α : Type}

/-- The fields have been applied in order, each to what the one before it left of the first text,
and all have succeeded, the last one leaving the second text. The log is theirs, one after the
other. -/
inductive Passed : List (Field (Parser α) (Parser Unit)) → Text → Text → List Event → Prop
  | nil {s : Text} : Passed [] s s []
  | cons {f : Field (Parser α) (Parser Unit)} {fs : List (Field (Parser α) (Parser Unit))}
    {s t u : Text} {log : List Event} : (f.parser s).ending = .returns (.success () t) →
    Passed fs t u log → Passed (f :: fs) s u ((f.parser s).log ++ log)

/-- One of the fields has that name, which is not empty. -/
def Names (fs : List (Field (Parser α) (Parser Unit))) (key : Text) : Prop :=
  key ≠ [] ∧ ∃ p, .keep key p ∈ fs

/-- The last field of that name has found the value. -/
def LastFinds (fs : List (Field (Parser α) (Parser Unit))) (s key : Text) (value : α) : Prop :=
  key ≠ [] ∧ ∃ earlier p later t u log, fs = earlier ++ .keep key p :: later ∧
    ¬ Names later key ∧ Passed earlier s t log ∧ (p t).ending = .returns (.success value u)

/-- What the fields make of a record, applied to `s`: a name of theirs holds what the last field of
that name has found, and any other name what it held before. -/
structure Fills (fs : List (Field (Parser α) (Parser Unit))) (s : Text) (record last : Record α) :
    Prop where
  ordered : record.Ordered → last.Ordered
  get?_eq_some_iff : ∀ key value, last.get? key = some value ↔
    LastFinds fs s key value ∨ ¬ Names fs key ∧ record.get? key = some value

variable {f : Field (Parser α) (Parser Unit)} {fs : List (Field (Parser α) (Parser Unit))}
  {p : Parser α} {s t u key : Text} {value : α} {record middle last : Record α}
  {log : List Event} {error : ParseError}

theorem names_cons_iff : Names (f :: fs) key ↔ Names [f] key ∨ Names fs key := by
  simp only [Names, List.mem_cons, List.not_mem_nil, or_false, exists_or, and_or_left]

theorem names_keep_iff {name : Text} : Names [.keep name p] key ↔ key ≠ [] ∧ key = name := by
  simp [Names]

theorem lastFinds_singleton_iff :
    LastFinds [f] s key value ↔
      key ≠ [] ∧ ∃ p u, f = .keep key p ∧ (p s).ending = .returns (.success value u) := by
  refine and_congr_right fun _ => ?_
  constructor
  · rintro ⟨earlier, p, later, t, u, log, hf, _, hearlier, hp⟩
    cases earlier with
    | nil =>
      cases hf
      cases hearlier
      exact ⟨p, u, rfl, hp⟩
    | cons _ earlier => exact absurd (List.cons.inj hf).2 (by simp)
  · rintro ⟨p, u, rfl, hp⟩
    exact ⟨[], p, [], s, u, [], rfl, by simp [Names], .nil, hp⟩

theorem lastFinds_cons_iff (h : (f.parser s).ending = .returns (.success () t)) :
    LastFinds (f :: fs) s key value ↔
      LastFinds fs t key value ∨ ¬ Names fs key ∧ LastFinds [f] s key value := by
  constructor
  · rintro ⟨hkey, earlier, p, later, t', u, log, hfs, hlater, hearlier, hp⟩
    cases earlier with
    | nil =>
      cases hfs
      cases hearlier
      exact Or.inr ⟨hlater, lastFinds_singleton_iff.2 ⟨hkey, p, u, rfl, hp⟩⟩
    | cons _ earlier =>
      cases hfs
      cases hearlier with
      | cons hf hearlier =>
        cases h.symm.trans hf
        exact Or.inl ⟨hkey, earlier, p, later, t', u, _, rfl, hlater, hearlier, hp⟩
  · rintro (⟨hkey, earlier, p, later, t', u, log, rfl, hlater, hearlier, hp⟩ | ⟨hfs, hf⟩)
    · exact ⟨hkey, f :: earlier, p, later, t', u, _, rfl, hlater, .cons h hearlier, hp⟩
    · obtain ⟨hkey, p, u, rfl, hp⟩ := lastFinds_singleton_iff.1 hf
      exact ⟨hkey, [], p, fs, s, u, [], rfl, hfs, .nil, hp⟩

theorem fills_nil : Fills [] s record record where
  ordered h := h
  get?_eq_some_iff key value := by simp [LastFinds, Names]

theorem fills_skip {p : Parser Unit} : Fills [.skip p] s record record where
  ordered h := h
  get?_eq_some_iff key value := by simp [lastFinds_singleton_iff, Names]

theorem fills_keep {name : Text} (h : (p s).ending = .returns (.success value t)) :
    Fills [.keep name p] s record
      (if name = [] then record else record.insert name value) where
  ordered hr := by
    split
    · exact hr
    · exact hr.insert name value
  get?_eq_some_iff key found := by
    rw [names_keep_iff, lastFinds_singleton_iff]
    by_cases hkey : key = name
    · subst hkey
      by_cases hname : key = []
      · simp [hname]
      · simp [hname, h, Record.get?_insert]
    · have hget : Record.get? key (if name = [] then record else record.insert name value) =
          record.get? key := by
        split
        · rfl
        · rw [Record.get?_insert, if_neg hkey]
      simp [hget, hkey, Ne.symm hkey]

theorem Fills.cons (h : (f.parser s).ending = .returns (.success () t))
    (hf : Fills [f] s record middle) (hfs : Fills fs t middle last) :
    Fills (f :: fs) s record last where
  ordered hr := hfs.ordered (hf.ordered hr)
  get?_eq_some_iff key value := by
    -- What `f` has put under a name stays there only if no later field has that name.
    have hnames : Names (f :: fs) key ↔ Names [f] key ∨ Names fs key := names_cons_iff
    have hfinds : LastFinds (f :: fs) s key value ↔ _ := lastFinds_cons_iff h
    rw [hfs.get?_eq_some_iff, hf.get?_eq_some_iff, hnames, hfinds, not_or, and_or_left, or_assoc,
      and_assoc, and_left_comm]

/-! ## Runs -/

theorem exists_fieldsInto_cons (h : (f.parser s).ending = .returns (.success () t))
    (record : Record α) :
    ∃ next, Fills [f] s record next ∧ ∀ fs, fieldsInto record (f :: fs) s =
      ⟨(f.parser s).log ++ (fieldsInto next fs t).log, (fieldsInto next fs t).ending⟩ := by
  cases f with
  | keep name p =>
    obtain ⟨value, hp, _⟩ := ending_of_map_success h
    refine ⟨_, fills_keep hp, fun fs => ?_⟩
    have hlog : (p.ignore s).log = (p s).log := log_map _ p s
    change p s >>= _ = ⟨(p.ignore s).log ++ _, _⟩
    rw [Run.bind_eq_of_returns _ hp, hlog]
  | skip p =>
    have hp : (p s).ending = .returns (.success () t) := h
    refine ⟨record, fills_skip, fun fs => ?_⟩
    change p s >>= _ = _
    rw [Run.bind_eq_of_returns _ hp]
    rfl

theorem fieldsInto_of_failure (h : (f.parser s).ending = .returns (.failure error))
    (record : Record α) (fs : List (Field (Parser α) (Parser Unit))) :
    fieldsInto record (f :: fs) s = ⟨(f.parser s).log, .returns (.failure error)⟩ := by
  cases f with
  | keep name p =>
    have hp : (p s).ending = .returns (.failure error) := ending_map_eq_failure_iff.1 h
    have hlog : (p.ignore s).log = (p s).log := log_map _ p s
    change p s >>= _ = ⟨(p.ignore s).log, _⟩
    rw [Run.bind_eq_of_returns _ hp, hlog]
    exact congrArg₂ Run.mk (List.append_nil _) rfl
  | skip p =>
    have hp : (p s).ending = .returns (.failure error) := h
    change p s >>= _ = _
    rw [Run.bind_eq_of_returns _ hp]
    exact congrArg₂ Run.mk (List.append_nil _) rfl

theorem Passed.exists_fieldsInto_append (h : Passed fs s t log) (record : Record α) :
    ∃ last, Fills fs s record last ∧ ∀ later, fieldsInto record (fs ++ later) s =
      ⟨log ++ (fieldsInto last later t).log, (fieldsInto last later t).ending⟩ := by
  induction h generalizing record with
  | nil => exact ⟨record, fills_nil, fun later => rfl⟩
  | cons hf _ ih =>
    obtain ⟨next, hnext, hstep⟩ := exists_fieldsInto_cons hf record
    obtain ⟨last, hlast, hothers⟩ := ih next
    refine ⟨last, hnext.cons hf hlast, fun later => ?_⟩
    rw [List.cons_append, hstep, hothers, List.append_assoc]

theorem Passed.exists_fields (h : Passed fs s t log) :
    ∃ record, Fills fs s [] record ∧ fields fs s = ⟨log, .returns (.success record t)⟩ := by
  obtain ⟨record, hfills, hall⟩ := h.exists_fieldsInto_append []
  refine ⟨record, hfills, ?_⟩
  have hfields := hall []
  rw [List.append_nil] at hfields
  exact hfields.trans (congrArg₂ Run.mk (List.append_nil log) rfl)

theorem Passed.fields_of_failure (h : Passed fs s t log)
    (hf : (f.parser t).ending = .returns (.failure error))
    (later : List (Field (Parser α) (Parser Unit))) :
    fields (fs ++ f :: later) s = ⟨log ++ (f.parser t).log, .returns (.failure error)⟩ := by
  obtain ⟨record, _, hall⟩ := h.exists_fieldsInto_append []
  refine (hall (f :: later)).trans ?_
  rw [fieldsInto_of_failure hf]

theorem exists_ending_head {o : Outcome (Record α)}
    (h : (fieldsInto record (f :: fs) s).ending = .returns o) :
    ∃ o', (f.parser s).ending = .returns o' := by
  cases f with
  | keep name p =>
    obtain ⟨o', hp, _⟩ := Run.ending_bind_eq_returns_iff.1 h
    cases o' with
    | success value t => exact ⟨_, ending_map_of_success (fun _ => ()) hp⟩
    | failure error => exact ⟨_, ending_bind_of_failure _ hp⟩
  | skip p =>
    obtain ⟨o', hp, _⟩ := Run.ending_bind_eq_returns_iff.1 h
    exact ⟨o', hp⟩

theorem passed_or_fails {o : Outcome (Record α)}
    (h : (fieldsInto record fs s).ending = .returns o) :
    (∃ t log, Passed fs s t log) ∨ ∃ earlier f later t log error, fs = earlier ++ f :: later ∧
      Passed earlier s t log ∧ (f.parser t).ending = .returns (.failure error) := by
  induction fs generalizing record s with
  | nil => exact Or.inl ⟨s, [], .nil⟩
  | cons f fs ih =>
    obtain ⟨o', hf⟩ := exists_ending_head h
    cases o' with
    | failure error => exact Or.inr ⟨[], f, fs, s, [], error, rfl, .nil, hf⟩
    | success found t =>
      obtain ⟨next, _, hstep⟩ := exists_fieldsInto_cons hf record
      rw [hstep] at h
      rcases ih h with ⟨u, log, hfs⟩ | ⟨earlier, g, later, u, log, error, rfl, hearlier, hg⟩
      · exact Or.inl ⟨u, _, .cons hf hfs⟩
      · exact Or.inr ⟨f :: earlier, g, later, u, _, error, rfl, .cons hf hearlier, hg⟩

theorem fields_eq_success_iff :
    (∃ record, fields fs s = ⟨log, .returns (.success record t)⟩) ↔ Passed fs s t log := by
  constructor
  · rintro ⟨record, h⟩
    rcases passed_or_fails (congrArg Run.ending h) with
      ⟨u, log', hfs⟩ | ⟨earlier, f, later, u, log', error, rfl, hearlier, hf⟩
    · obtain ⟨record', _, hrun⟩ := hfs.exists_fields
      cases h.symm.trans hrun
      exact hfs
    · cases h.symm.trans (hearlier.fields_of_failure hf later)
  · intro h
    obtain ⟨record, _, hrun⟩ := h.exists_fields
    exact ⟨record, hrun⟩

theorem fields_eq_failure_iff :
    fields fs s = ⟨log, .returns (.failure error)⟩ ↔
      ∃ earlier f later t passed, fs = earlier ++ f :: later ∧ Passed earlier s t passed ∧
        (f.parser t).ending = .returns (.failure error) ∧ log = passed ++ (f.parser t).log := by
  constructor
  · intro h
    rcases passed_or_fails (congrArg Run.ending h) with
      ⟨u, log', hfs⟩ | ⟨earlier, f, later, u, log', error', rfl, hearlier, hf⟩
    · obtain ⟨record', _, hrun⟩ := hfs.exists_fields
      cases h.symm.trans hrun
    · cases h.symm.trans (hearlier.fields_of_failure hf later)
      exact ⟨earlier, f, later, u, log', rfl, hearlier, hf, rfl⟩
  · rintro ⟨earlier, f, later, t, passed, rfl, hearlier, hf, rfl⟩
    exact hearlier.fields_of_failure hf later

theorem Passed.exists_lastFinds (h : Passed fs s t log) (hn : Names fs key) :
    ∃ value, LastFinds fs s key value := by
  induction h with
  | nil => exact absurd hn (by simp [Names])
  | @cons f fs s t u _ hf _ ih =>
    by_cases hothers : Names fs key
    · obtain ⟨value, hvalue⟩ := ih hothers
      exact ⟨value, (lastFinds_cons_iff hf).2 (Or.inl hvalue)⟩
    · obtain ⟨hkey, p, hp⟩ := (names_cons_iff.1 hn).resolve_right hothers
      obtain rfl := List.mem_singleton.1 hp
      obtain ⟨value, hvalue, _⟩ := ending_of_map_success hf
      have hfirst : LastFinds [.keep key p] s key value :=
        lastFinds_singleton_iff.2 ⟨hkey, p, t, rfl, hvalue⟩
      exact ⟨value, (lastFinds_cons_iff hf).2 (Or.inr ⟨hothers, hfirst⟩)⟩

theorem LastFinds.names (h : LastFinds fs s key value) : Names fs key := by
  obtain ⟨hkey, earlier, p, later, _, _, _, rfl, _⟩ := h
  exact ⟨hkey, p, by simp⟩

theorem fields_found (h : (fields fs s).ending = .returns (.success record t)) :
    record.Ordered ∧ (∀ key, key ∈ record.keys ↔ Names fs key) ∧
      ∀ key value, record.get? key = some value ↔ LastFinds fs s key value := by
  have hfields : fields fs s = ⟨(fields fs s).log, .returns (.success record t)⟩ := by rw [← h]
  have hpassed := fields_eq_success_iff.1 ⟨record, hfields⟩
  obtain ⟨record', hfills, hrun⟩ := hpassed.exists_fields
  cases h.symm.trans (congrArg Run.ending hrun)
  have hget : ∀ key value, record.get? key = some value ↔ LastFinds fs s key value := by
    intro key value
    rw [hfills.get?_eq_some_iff]
    simp [Record.get?]
  refine ⟨hfills.ordered Record.ordered_nil, fun key => ?_, hget⟩
  rw [Record.mem_keys_iff]
  constructor
  · rintro ⟨value, hvalue⟩
    exact ((hget key value).1 hvalue).names
  · intro hn
    obtain ⟨value, hvalue⟩ := hpassed.exists_lastFinds hn
    exact ⟨value, (hget key value).2 hvalue⟩

/-! ## Fields without a name -/

theorem fieldsInto_congr_skipped {gs : List (Field (Parser α) (Parser Unit))}
    (h : List.Forall₂ (Field.Skipped ignore) fs gs) (record : Record α) :
    fieldsInto record fs = fieldsInto record gs := by
  induction h generalizing record with
  | nil => rfl
  | @cons f _ _ _ hf _ ih =>
    cases hf with
    | same =>
      cases f with
      | keep name p => exact congrArg (p >>= ·) (funext fun value => ih _)
      | skip p => exact congrArg (p >>= ·) (funext fun _ => ih record)
    | unnamed p =>
      change p.bind _ = (p.bind fun _ => Parser.pure ()).bind _
      rw [bind_assoc]
      exact congrArg p.bind (funext fun _ => ih record)

end Parser

theorem Grammar.parserWithin_fields_congr_skipped {gs hs : List (Field Grammar Grammar)}
    (h : List.Forall₂ (Field.Skipped id) gs hs) (rules : Rules) (n : Nat) :
    (fields gs).parserWithin rules n = (fields hs).parserWithin rules n := by
  have hall : List.Forall₂ (Field.Skipped Parser.ignore) (denoteFields n (rules.call n) gs)
      (denoteFields n (rules.call n) hs) := by
    induction h with
    | nil => exact .nil
    | cons hg _ ih =>
      refine .cons ?_ ih
      cases hg with
      | same => exact .same _
      | unnamed g => exact .unnamed _
  exact congrArg (Parser.map Value.record) (Parser.fieldsInto_congr_skipped hall [])

namespace Parser

variable {α : Type}

/-- Fields succeed exactly if they do one after the other, and they leave what the last one leaves.
Otherwise they fail with the error of the first one that does, and what stands behind it does not
matter. The keys of a record that is found are the names of the fields, in order and each once, and
each of them holds the value of the last field of that name. A field without a name may as well be
skipped, wherever it stands. -/
theorem fields_hold_last_values (fs : List (Field (Parser α) (Parser Unit))) (input : Text) :
    (∀ t log, (∃ record, fields fs input = ⟨log, .returns (.success record t)⟩) ↔
      Passed fs input t log) ∧
    (∀ error log, fields fs input = ⟨log, .returns (.failure error)⟩ ↔
      ∃ earlier f later t passed, fs = earlier ++ f :: later ∧ Passed earlier input t passed ∧
        (f.parser t).ending = .returns (.failure error) ∧ log = passed ++ (f.parser t).log ∧
          ∀ others, fields (earlier ++ f :: others) input = fields fs input) ∧
    (∀ record t, (fields fs input).ending = .returns (.success record t) →
      record.Ordered ∧ (∀ key, key ∈ record.keys ↔ Names fs key) ∧
        ∀ key value, record.get? key = some value ↔ LastFinds fs input key value) ∧
    (∀ gs, List.Forall₂ (Field.Skipped ignore) fs gs → fields gs = fields fs) ∧
    ∀ (rules : Rules) (n : Nat) (gs hs : List (Field Grammar Grammar)),
      List.Forall₂ (Field.Skipped id) gs hs →
        (Grammar.fields gs).parserWithin rules n = (Grammar.fields hs).parserWithin rules n := by
  refine ⟨fun t log => fields_eq_success_iff, ?_, fun record t => fields_found, ?_, ?_⟩
  · intro error log
    constructor
    · intro h
      obtain ⟨earlier, f, later, t, passed, hfs, hearlier, hf, hlog⟩ := fields_eq_failure_iff.1 h
      refine ⟨earlier, f, later, t, passed, hfs, hearlier, hf, hlog, fun others => ?_⟩
      rw [h, hearlier.fields_of_failure hf others, hlog]
    · rintro ⟨earlier, f, later, t, passed, hfs, hearlier, hf, hlog, _⟩
      exact fields_eq_failure_iff.2 ⟨earlier, f, later, t, passed, hfs, hearlier, hf, hlog⟩
  · intro gs h
    exact (fieldsInto_congr_skipped h []).symm
  · intro rules n gs hs h
    exact Grammar.parserWithin_fields_congr_skipped h rules n

def sides (sign : Field (Parser Char) (Parser Unit)) : List (Field (Parser Char) (Parser Unit)) :=
  [.keep ['c'] (ofScanner .anyChar), .skip (ofScanner .whitespace), sign,
    .skip (ofScanner .whitespace), .keep ['c'] (ofScanner .anyChar)]

/-- Only the second character is held, and it makes no difference how the sign is left out. -/
theorem fields_hold_last_values_sides :
    (fields (sides (.keep [] (ofScanner .anyChar))) ['x', ' ', '=', 'é', ';']).ending =
        .returns (.success [(['c'], 'é')] [';']) ∧
      LastFinds (sides (.keep [] (ofScanner .anyChar))) ['x', ' ', '=', 'é', ';'] ['c'] 'é' ∧
      fields (sides (.skip (ofScanner .anyChar).ignore)) =
        fields (sides (.keep [] (ofScanner .anyChar))) := by
  have h := fields_hold_last_values (sides (.keep [] (ofScanner .anyChar)))
    ['x', ' ', '=', 'é', ';']
  refine ⟨rfl, ((h.2.2.1 _ _ rfl).2.2 _ _).1 rfl, h.2.2.2.1 _ ?_⟩
  exact .cons (.same _) (.cons (.same _) (.cons (.unnamed _) (.cons (.same _)
    (.cons (.same _) .nil))))

end Parser

end TextGrammar
