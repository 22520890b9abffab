import TextGrammar.Proofs.Remaining
import TextGrammar.Proofs.Unwrapping

/-!
# Wrappers and references are transparent

Each version of an edited grammar is simulated by each other one. The induction on the edit is
inside one on the allowance, as the grammar of a reference that is unfolded gets the whole allowance
where that of the reference gets less.
-/

namespace TextGrammar

open Filter Grammar

def Edit.parserWithin (body : String → Edit) (v : Version) (n : Nat) (e : Edit) : Parser Value :=
  (e v).parserWithin (v.rules body) n

/-- What a version does within the allowance `n`, every version does within all large ones. -/
def Tracks (body : String → Edit) (n : Nat) (e : Edit) : Prop :=
  ∀ v w : Version, Parser.SimulatedBy (v.alike w) (e.parserWithin body v n) fun m =>
    e.parserWithin body w m

variable {body : String → Edit} {n : Nat} {e : Edit}

/-! ## Parts in lists -/

theorem tracks_orElse {first : Edit} {others : List Edit} (hf : Tracks body n first)
    (ho : ∀ e ∈ others, Tracks body n e) :
    Tracks body n fun v => .orElse (first v) (others.map (· v)) := by
  intro v w
  induction others generalizing first with
  | nil => exact hf v w
  | cons second others ih =>
    obtain ⟨hs, ho⟩ := List.forall_mem_cons.1 ho
    exact Parser.simulated_orElse_cons (hf v w) (ih hs ho)

theorem tracks_nearest {alternatives : List Edit} (h : ∀ e ∈ alternatives, Tracks body n e) :
    Tracks body n fun v => .nearest (alternatives.map (· v)) := by
  intro v w
  apply Parser.simulated_nearest
  · intro m
    simp only [denoteAll_eq_map, List.length_map]
  · intro s
    induction alternatives with
    | nil => exact Run.simulated_pure _
    | cons e alternatives ih =>
      obtain ⟨he, h⟩ := List.forall_mem_cons.1 h
      exact Parser.simulated_leastConsuming_cons (he v w) (ih h)

theorem tracks_pipe {parts : List Edit} (h : ∀ e ∈ parts, Tracks body n e) :
    Tracks body n fun v => .pipe (parts.map (· v)) := by
  intro v w
  apply Parser.simulated_map
  induction parts with
  | nil => exact Parser.simulated_const _
  | cons e parts ih =>
    obtain ⟨he, h⟩ := List.forall_mem_cons.1 h
    exact Parser.simulated_pipe_cons (he v w) (ih h)

theorem tracks_seq {parts : List Edit} (h : ∀ e ∈ parts, Tracks body n e) :
    Tracks body n fun v => .seq (parts.map (· v)) := by
  intro v w
  apply Parser.simulated_map
  induction parts with
  | nil => exact Parser.simulated_const _
  | cons e parts ih =>
    obtain ⟨he, h⟩ := List.forall_mem_cons.1 h
    exact Parser.simulated_seq_cons (he v w) (ih h)

theorem tracks_fields {fs : List (Field Edit Edit)} (h : ∀ f ∈ fs, Tracks body n f.content) :
    Tracks body n fun v => .fields (fs.map (Field.version v)) := by
  intro v w
  apply Parser.simulated_map
  unfold Parser.fields
  generalize ([] : Record Value) = record
  induction fs generalizing record with
  | nil => exact Parser.simulated_const _
  | cons f fs ih =>
    obtain ⟨hf, hfs⟩ := List.forall_mem_cons.1 h
    cases f with
    | keep key e => exact Parser.simulated_fieldsInto_keep key record (hf v w) (ih hfs)
    | skip e =>
      have he := Parser.simulated_map (fun _ => ()) (hf v w)
      exact Parser.simulated_fieldsInto_skip record he (ih hfs record)

/-! ## Loops -/

theorem tracks_manyUntil {stop : Edit} (h : Tracks body n e) (hs : Tracks body n stop) :
    Tracks body n fun v => .manyUntil (e v) (stop v) := by
  intro v w
  apply Parser.simulated_map
  exact Parser.simulated_manyUntil (h v w) (hs v w) (eventually_ge_atTop n)

theorem tracks_sepBy {separator : Edit} (h : Tracks body n e) (hs : Tracks body n separator) :
    Tracks body n fun v => .sepBy (e v) (separator v) := by
  intro v w
  apply Parser.simulated_map
  exact Parser.simulated_sepBy (h v w) (hs v w) (eventually_ge_atTop n)

theorem tracks_block {steps : List (List Value → Edit)} (finish : List Value → Value)
    (h : ∀ step ∈ steps, ∀ bound, Tracks body n (step bound)) :
    Tracks body n fun v => .block (steps.map fun step bound => step bound v) finish := by
  intro v w
  apply Procedure.simulated_proceed
  · intro state value
    simp only [Procedure.ResumesWith, Block.procedure, denoteSteps_getElem?, List.getElem?_map]
    cases hstep : steps[(state ++ value.toList).length]? with
    | none =>
      exact ⟨[], _, _, _, LogRelation.nil _, rfl, fun _ => rfl, .done _⟩
    | some step =>
      exact ⟨[.stepAsked _ _], _, _, _, LogRelation.unnamed _ rfl, rfl, fun _ => rfl,
        .yield (h step (List.mem_of_getElem? hstep) _ v w)⟩
  · simp only [length_denoteSteps, List.length_map]
    exact Eventually.of_forall fun _ => le_rfl

theorem tracks_procedure {next : List Value → Step Edit Value}
    (h : ∀ received e, next received = .yield e → Tracks body n e) :
    Tracks body n fun v => .procedure fun received => (next received).version v := by
  intro v w
  refine Procedure.simulated_proceed ?_ (eventually_ge_atTop n) 0 [] none
  intro state value
  refine ⟨[.resumed (value.map Value.toText)], state ++ value.toList, _, _,
    LogRelation.unnamed _ rfl, rfl, fun _ => rfl, ?_⟩
  dsimp only
  cases hnext : next (state ++ value.toList) with
  | yield e => exact .yield (h _ e hnext v w)
  | done output => exact .done output

/-! ## Traces and wrappers -/

theorem Parser.name?_closing {α : Type} (label : String) (s : Text) (o : Outcome α) :
    (Parser.closing label s o).name? = some label := by
  cases o <;> rfl

theorem Parser.rename_closing {α : Type} (f : String → String) (label : String) (s : Text)
    (o : Outcome α) : (Parser.closing label s o).rename f = Parser.closing (f label) s o := by
  cases o <;> rfl

theorem parserWithin_traced (removed : Bool) (label : String) (v : Version) (s : Text) :
    (e.traced removed label).parserWithin body v n s =
      Run.framed (v.lines [.entered (Mark.on removed label) (Text.preview s)])
        (e.parserWithin body v n s)
        fun o => v.lines [Parser.closing (Mark.on removed label) s o] := by
  have htrace : ∀ label, (Grammar.trace label (e v)).parserWithin (v.rules body) n s =
      Run.framed [.entered label (Text.preview s)] (e.parserWithin body v n s)
        fun o => [Parser.closing label s o] := by
    intro label
    apply Parser.trace_eq_framed
    intro value rest hx
    exact Text.bytes_le_of_infix (leaves_of_ending hx).isInfix
  cases v with
  | marked => exact htrace _
  | before =>
    simp only [Version.lines_before, Event.rename_entered, Parser.rename_closing, Mark.off_on]
    exact htrace label
  | after =>
    cases removed with
    | true =>
      have hopening : Version.after.lines [.entered (Mark.on true label) s.preview] = [] :=
        Version.lines_after_of_removed rfl
      have hclosing := fun o : Outcome Value =>
        Version.lines_after_of_removed (Parser.name?_closing (Mark.on true label) s o)
      simp only [hopening, hclosing]
      exact (Run.framed_nil _).symm
    | false =>
      have hopening : Version.after.lines [.entered (Mark.on false label) s.preview] = [_] :=
        Version.lines_after_of_kept rfl
      have hclosing := fun o : Outcome Value =>
        Version.lines_after_of_kept (Parser.name?_closing (Mark.on false label) s o)
      simp only [hopening, hclosing, Event.rename_entered, Parser.rename_closing, Mark.off_on]
      exact htrace label

theorem tracks_traced (removed : Bool) (label : String) (h : Tracks body n e) :
    Tracks body n (e.traced removed label) := by
  intro v w s
  simp only [parserWithin_traced]
  exact (h v w s).framed (v.alike_lines w _) fun o => v.alike_lines w _

theorem tracks_wrapped (wrapper : Grammar → Grammar)
    (hw : ∀ rules m g, (wrapper g).parserWithin rules m = g.parserWithin rules m) (removed : Bool)
    (h : Tracks body n e) : Tracks body n (e.wrapped wrapper removed) := by
  have heq : ∀ v m, (e.wrapped wrapper removed).parserWithin body v m =
      e.parserWithin body v m := by
    intro v m
    cases v with
    | marked => exact hw _ _ _
    | before => exact hw _ _ _
    | after =>
      cases removed with
      | true => rfl
      | false => exact hw _ _ _
  intro v w
  simp only [heq]
  exact h v w

/-! ## References -/

theorem Version.rules_marked_kept (name : String) :
    Version.marked.rules body (Mark.on false name) = body name .marked := by
  simp [Version.rules]

theorem Version.rules_marked_removed (name : String) :
    Version.marked.rules body (Mark.on true name) = always .unit := by
  simp [Version.rules]

theorem parserWithin_rule (rules : Rules) (name : String) (s : Text) :
    (rule name).parserWithin rules (n + 1) s = (do
      Run.note (.ruleBuilt name)
      (rules name).parserWithin rules n s) := rfl

theorem parserWithin_referred (name : String) (v : Version) (s : Text) :
    (Edit.referred name).parserWithin body v (n + 1) s = (do
      Run.emit (v.lines [.ruleBuilt (Mark.on false name)])
      (body name).parserWithin body v n s) := by
  cases v with
  | marked =>
    change (rule (Mark.on false name)).parserWithin _ (n + 1) s = _
    rw [parserWithin_rule, Version.rules_marked_kept]
    rfl
  | before =>
    rw [Version.lines_before, Event.rename_ruleBuilt, Mark.off_on]
    rfl
  | after =>
    rw [Version.lines_after_of_kept rfl, Event.rename_ruleBuilt, Mark.off_on]
    rfl

theorem tracks_referred {name : String} (h : ∀ k < n, Tracks body k (body name)) :
    Tracks body n (.referred name) := by
  intro v w s
  cases n with
  | zero => exact Run.simulated_of_unfinished (by cases v <;> rfl)
  | succ n =>
    apply Run.SimulatedBy.of_succ (F := fun _ k => (Edit.referred name).parserWithin body w k s)
      (eventually_ge_atTop 1)
    simp only [parserWithin_referred]
    apply (Run.simulated_emit (v.alike_lines w _)).bind
    intro _ _
    exact (h n (Nat.lt_succ_self n) v w s).comp (tendsto_sub_atTop_nat 1)

/-- What is left of an allowance to the grammar of a reference that is unfolded. -/
def Version.left : Version → Nat → Nat
  | .before, n => n - 1
  | _, n => n

theorem Version.tendsto_left (v : Version) : Tendsto v.left atTop atTop := by
  cases v with
  | before => exact tendsto_sub_atTop_nat 1
  | _ => exact tendsto_id

theorem Version.left_le (v : Version) (n : Nat) : v.left n ≤ n := by
  cases v with
  | before => exact Nat.sub_le n 1
  | _ => exact le_rfl

theorem parserWithin_unfolded {name : String} (he : e .before = body name .before) (v : Version)
    (s : Text) (hv : v = .after ∨ 0 < n) :
    (e.unfolded name).parserWithin body v n s = (do
      Run.emit (v.lines [.ruleBuilt (Mark.on true name)])
      e.parserWithin body v (v.left n) s) := by
  cases v with
  | after =>
    rw [Version.lines_after_of_removed rfl, Run.emit_nil_bind]
    rfl
  | marked =>
    have hpos : 0 < n := hv.resolve_left nofun
    obtain ⟨n, rfl⟩ := Nat.exists_eq_succ_of_ne_zero hpos.ne'
    change (rule (Mark.on true name)).parserWithin _ (n + 1) s >>= _ = _
    rw [parserWithin_rule, Version.rules_marked_removed, bind_assoc]
    rfl
  | before =>
    have hpos : 0 < n := hv.resolve_left nofun
    obtain ⟨n, rfl⟩ := Nat.exists_eq_succ_of_ne_zero hpos.ne'
    change (rule name).parserWithin _ (n + 1) s = _
    rw [parserWithin_rule, Version.lines_before, Event.rename_ruleBuilt, Mark.off_on]
    unfold Edit.parserWithin
    rw [he]
    rfl

theorem tracks_unfolded {name : String} (he : e .before = body name .before)
    (h : ∀ k ≤ n, Tracks body k e) : Tracks body n (e.unfolded name) := by
  intro v w s
  -- With no allowance left only the version without the reference does anything.
  by_cases hv : v = .after ∨ 0 < n
  · rw [parserWithin_unfolded he v s hv]
    have hsim := (Run.simulated_emit (v.alike_lines w [.ruleBuilt (Mark.on true name)])).bind
      fun _ _ => (h (v.left n) (v.left_le n) v w s).comp w.tendsto_left
    apply hsim.congr
    filter_upwards [eventually_gt_atTop 0] with m hm
    exact (parserWithin_unfolded he w s (Or.inr hm)).symm
  · obtain ⟨hafter, hn⟩ := not_or.1 hv
    obtain rfl : n = 0 := Nat.eq_zero_of_not_pos hn
    cases v with
    | after => exact absurd rfl hafter
    | marked => exact Run.simulated_of_unfinished rfl
    | before => exact Run.simulated_of_unfinished rfl

/-! ## Whole grammars -/

theorem tracks_of_unwraps (hbody : ∀ name, Unwraps body (body name)) (h : Unwraps body e)
    (n : Nat) : Tracks body n e := by
  -- Only a reference goes on to a smaller allowance; all other cases stay within this one.
  induction n using Nat.strong_induction_on generalizing e with
  | _ n ihn =>
    induction h with
    | leaf scanner => exact fun v w => Parser.simulated_const _
    | map f _ ih => exact fun v w => Parser.simulated_map f (ih v w)
    | bind _ _ ih ihf => exact fun v w => Parser.simulated_bind (ih v w) fun value => ihf value v w
    | peek _ ih => exact fun v w => Parser.simulated_peek (ih v w)
    | orElse _ _ ih iho => exact tracks_orElse ih iho
    | nearest _ ih => exact tracks_nearest ih
    | seq _ ih => exact tracks_seq ih
    | pipe _ ih => exact tracks_pipe ih
    | repeated bounds _ ih =>
      exact fun v w => Parser.simulated_map _ (Parser.simulated_repeated bounds (ih v w))
    | manyUntil _ _ ih ihs => exact tracks_manyUntil ih ihs
    | sepBy _ _ ih ihs => exact tracks_sepBy ih ihs
    | optional _ ih => exact fun v w => Parser.simulated_map _ (Parser.simulated_optional (ih v w))
    | ignore _ ih =>
      exact fun v w => Parser.simulated_map _ (Parser.simulated_map _ (ih v w))
    | followedBy _ _ ih ihn => exact fun v w => Parser.simulated_bind (ih v w) fun _ => ihn v w
    | before _ _ ih ihm => exact fun v w => Parser.simulated_before (ih v w) (ihm v w)
    | fields _ ih => exact tracks_fields ih
    | block finish _ ih => exact tracks_block finish ih
    | procedure _ ih => exact tracks_procedure ih
    | trace removed label _ ih => exact tracks_traced removed label ih
    | immediate removed _ ih => exact tracks_wrapped .immediate (fun _ _ _ => rfl) removed ih
    | shared removed _ ih => exact tracks_wrapped .shared (fun _ _ _ => rfl) removed ih
    | rule name => exact tracks_referred fun k hk => ihn k hk (hbody name)
    | unfolded h he ih =>
      refine tracks_unfolded he fun k hk => ?_
      -- The reference spends one of the allowance, and what replaces it spends nothing.
      rcases Nat.lt_or_eq_of_le hk with hk | rfl
      · exact ihn k hk h
      · exact ih

namespace Grammar

/-- The run of the grammar on `s` ends by itself, and it is `x`. -/
def Finishes (rules : Rules) (g : Grammar) (s : Text) (x : Run (Outcome Value)) : Prop :=
  ∃ n, g.parserWithin rules n s = x ∧ x.ending ≠ .unfinished

def Terminates (rules : Rules) (g : Grammar) (s : Text) : Prop := ∃ x, g.Finishes rules s x

end Grammar

variable {v : Version} {s : Text} {x y : Run (Outcome Value)}

theorem eventually_alike_of_finishes (hbody : ∀ name, Unwraps body (body name))
    (h : Unwraps body e) (hx : (e v).Finishes (v.rules body) s x) (w : Version) :
    ∀ᶠ m in atTop, ((e w).parserWithin (w.rules body) m s).ending = x.ending ∧
      (v.alike w).Holds x.log ((e w).parserWithin (w.rules body) m s).log := by
  obtain ⟨n, rfl, hend⟩ := hx
  exact tracks_of_unwraps hbody h n v w s hend

theorem terminates_of_version (hbody : ∀ name, Unwraps body (body name)) (h : Unwraps body e)
    (w : Version) (hv : (e v).Terminates (v.rules body) s) :
    (e w).Terminates (w.rules body) s := by
  obtain ⟨x, hx⟩ := hv
  obtain ⟨m, hm, _⟩ := (eventually_alike_of_finishes hbody h hx w).exists
  obtain ⟨_, _, hend⟩ := hx
  exact ⟨_, m, rfl, by rwa [hm]⟩

/-- Removing wrappers and unfolding references changes neither whether a run ends by itself nor
what it ends in. The logs of both runs are those of one with marked names: before, the names are
without their marks, and after, the lines with the name of something removed are left out too. -/
theorem runs_alike_of_unwraps (hbody : ∀ name, Unwraps body (body name)) (h : Unwraps body e)
    (s : Text) :
    ((e .before).Terminates (Version.before.rules body) s ↔
      (e .after).Terminates (Version.after.rules body) s) ∧
    ∀ x y, (e .before).Finishes (Version.before.rules body) s x →
      (e .after).Finishes (Version.after.rules body) s y → y.ending = x.ending ∧
      ∃ log, (e .marked).Finishes (Version.marked.rules body) s ⟨log, x.ending⟩ ∧
        x.log = log.map (Event.rename Mark.off) ∧
        y.log = (log.filter fun e => !e.isRemoved).map (Event.rename Mark.off) := by
  refine ⟨⟨terminates_of_version hbody h .after, terminates_of_version hbody h .before⟩, ?_⟩
  intro x y hx hy
  obtain ⟨m, ⟨hxm, hlogx⟩, hym, hlogy⟩ :=
    ((eventually_alike_of_finishes hbody h hx .marked).and
      (eventually_alike_of_finishes hbody h hy .marked)).exists
  obtain ⟨log, hlogx, hlog⟩ := hlogx
  obtain ⟨log', hlogy, hlog'⟩ := hlogy
  obtain rfl : log = log' := hlog.symm.trans hlog'
  obtain ⟨_, _, hend⟩ := hx
  refine ⟨hym.symm.trans hxm, log, ⟨m, ?_, hend⟩, hlogx, hlogy⟩
  exact congrArg₂ Run.mk hlog hxm

def bracketed (inner : Edit) : Edit := fun v =>
  .orElse (.followedBy (literal ['(']) (inner v)) ([fun _ => take 1].map (· v))

theorem unwraps_bracketed {inner : Edit} (h : Unwraps body inner) :
    Unwraps body (bracketed inner) := by
  refine .orElse (.followedBy (.leaf _) h) ?_
  simp only [List.forall_mem_singleton]
  exact .leaf _

def bracketRule : Edit := (bracketed (.referred "nested")).traced true "nested"

def unfoldedRule : Edit := (bracketed (bracketRule.unfolded "nested")).traced false "nested"

theorem unwraps_bracketRule : Unwraps (fun _ => bracketRule) bracketRule :=
  .trace true "nested" (unwraps_bracketed (.rule "nested"))

theorem runs_alike_brackets :
    ∃ log, (unfoldedRule.unfolded "nested" .marked).Finishes
        (Version.marked.rules fun _ => bracketRule) ['(', 'é']
        ⟨log, .returns (.success (.text ['é']) [])⟩ ∧
      [.ruleBuilt "nested", .entered "nested" ['(', 'é'], .ruleBuilt "nested",
        .entered "nested" ['é'], .consumed "nested" 2 [], .consumed "nested" 3 []] =
          log.map (Event.rename Mark.off) ∧
      [.entered "nested" ['(', 'é'], .consumed "nested" 3 []] =
        (log.filter fun e => !e.isRemoved).map (Event.rename Mark.off) := by
  have hrule : Unwraps (fun _ => bracketRule) unfoldedRule :=
    .trace false "nested" (unwraps_bracketed (.unfolded unwraps_bracketRule rfl))
  have hx : (unfoldedRule.unfolded "nested" .before).Finishes
      (Version.before.rules fun _ => bracketRule) ['(', 'é'] ⟨[.ruleBuilt "nested",
        .entered "nested" ['(', 'é'], .ruleBuilt "nested", .entered "nested" ['é'],
        .consumed "nested" 2 [], .consumed "nested" 3 []],
      .returns (.success (.text ['é']) [])⟩ := ⟨2, rfl, nofun⟩
  have hy : (unfoldedRule.unfolded "nested" .after).Finishes
      (Version.after.rules fun _ => bracketRule) ['(', 'é'] ⟨[.entered "nested" ['(', 'é'],
        .consumed "nested" 3 []], .returns (.success (.text ['é']) [])⟩ := ⟨2, rfl, nofun⟩
  exact ((runs_alike_of_unwraps (fun _ => unwraps_bracketRule) (.unfolded hrule rfl)
    ['(', 'é']).2 _ _ hx hy).2

end TextGrammar
