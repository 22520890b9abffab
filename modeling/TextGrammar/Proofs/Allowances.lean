import TextGrammar.Proofs.Transparency

/-!
# Runs that end by themselves

Every grammar has an edit that removes nothing, and so do all rules at once. Its versions simulate
each other, so a run that ends by itself is the only one that does, and all large allowances lead to
it.
-/

namespace TextGrammar

open Filter Grammar

namespace Edit

/-- The edit of `g` that only marks its names, whatever the rules are. -/
def RemovesNothing (g : Grammar) (e : Edit) : Prop :=
  (∀ body, Unwraps body e) ∧ ∀ v, v ≠ .marked → e v = g

theorem exists_map_eq {α β : Type} {P : β → Prop} {versionOf : Version → β → α} {items : List α}
    (h : ∀ item ∈ items, ∃ edited, P edited ∧ ∀ v, v ≠ .marked → versionOf v edited = item) :
    ∃ edits : List β, (∀ edited ∈ edits, P edited) ∧
      ∀ v, v ≠ .marked → edits.map (versionOf v) = items := by
  induction items with
  | nil => exact ⟨[], by simp, fun _ _ => rfl⟩
  | cons item items ih =>
    obtain ⟨⟨edited, hP, hv⟩, h⟩ := List.forall_mem_cons.1 h
    obtain ⟨edits, hPs, hvs⟩ := ih h
    refine ⟨edited :: edits, List.forall_mem_cons.2 ⟨hP, hPs⟩, ?_⟩
    intro v hne
    rw [List.map_cons, hv v hne, hvs v hne]

theorem exists_field {f : Field Grammar Grammar} (h : ∃ e, RemovesNothing f.content e) :
    ∃ edited : Field Edit Edit, (∀ body, Unwraps body edited.content) ∧
      ∀ v, v ≠ .marked → edited.version v = f := by
  obtain ⟨e, he, hg⟩ := h
  cases f with
  | keep key g => exact ⟨.keep key e, he, fun v hv => congrArg (Field.keep key) (hg v hv)⟩
  | skip g => exact ⟨.skip e, he, fun v hv => congrArg Field.skip (hg v hv)⟩

theorem exists_step {step : Step Grammar Value}
    (h : ∀ g, step = .yield g → ∃ e, RemovesNothing g e) :
    ∃ edited : Step Edit Value, (∀ e, edited = .yield e → ∀ body, Unwraps body e) ∧
      ∀ v, v ≠ .marked → edited.version v = step := by
  cases step with
  | done output => exact ⟨.done output, nofun, fun _ _ => rfl⟩
  | yield g =>
    obtain ⟨e, he, hg⟩ := h g rfl
    refine ⟨.yield e, ?_, fun v hv => congrArg Step.yield (hg v hv)⟩
    rintro _ ⟨⟩
    exact he

theorem traced_of_kept {label : String} (e : Edit) (v : Version) (hv : v ≠ .marked) :
    e.traced false label v = .trace label (e v) := by
  cases v with
  | marked => exact absurd rfl hv
  | before => rfl
  | after => rfl

theorem wrapped_of_kept (wrapper : Grammar → Grammar) (e : Edit) (v : Version) :
    e.wrapped wrapper false v = wrapper (e v) := by
  cases v <;> rfl

variable {g next : Grammar} {gs : List Grammar}

theorem exists_unary {c : Grammar → Grammar} {edit : Edit → Edit}
    (hedit : ∀ body e, Unwraps body e → Unwraps body (edit e))
    (hc : ∀ e v, v ≠ .marked → edit e v = c (e v)) (h : ∃ e, RemovesNothing g e) :
    ∃ e, RemovesNothing (c g) e := by
  obtain ⟨e, he, hg⟩ := h
  refine ⟨edit e, fun body => hedit body e (he body), ?_⟩
  intro v hv
  rw [hc e v hv, hg v hv]

theorem exists_binary {c : Grammar → Grammar → Grammar}
    (hedit : ∀ body e e', Unwraps body e → Unwraps body e' → Unwraps body fun v => c (e v) (e' v))
    (h : ∃ e, RemovesNothing g e) (h' : ∃ e, RemovesNothing next e) :
    ∃ e, RemovesNothing (c g next) e := by
  obtain ⟨e, he, hg⟩ := h
  obtain ⟨e', he', hg'⟩ := h'
  exact ⟨_, fun body => hedit body e e' (he body) (he' body),
    fun v hv => congrArg₂ c (hg v hv) (hg' v hv)⟩

theorem exists_listed {c : List Grammar → Grammar}
    (hedit : ∀ body (es : List Edit), (∀ e ∈ es, Unwraps body e) →
      Unwraps body fun v => c (es.map (· v))) (h : ∀ g ∈ gs, ∃ e, RemovesNothing g e) :
    ∃ e, RemovesNothing (c gs) e := by
  obtain ⟨es, hes, hgs⟩ := exists_map_eq h
  exact ⟨_, fun body => hedit body es fun e he => hes e he body,
    fun v hv => congrArg c (hgs v hv)⟩

theorem exists_removesNothing (g : Grammar) : ∃ e, RemovesNothing g e := by
  induction g using Grammar.induct with
  | leaf scanner => exact ⟨_, fun _ => .leaf scanner, fun _ _ => rfl⟩
  | map f g ih => exact exists_unary (fun _ _ => .map f) (fun _ _ _ => rfl) ih
  | bind g f ih ihf =>
    obtain ⟨e, he, hg⟩ := ih
    choose next hnext hf using ihf
    exact ⟨_, fun body => .bind (he body) fun value => hnext value body,
      fun v hv => congrArg₂ Grammar.bind (hg v hv) (funext fun value => hf value v hv)⟩
  | peek g ih => exact exists_unary (fun _ _ => .peek) (fun _ _ _ => rfl) ih
  | orElse first others ih iho =>
    obtain ⟨e, he, hg⟩ := ih
    obtain ⟨es, hes, hgs⟩ := exists_map_eq iho
    exact ⟨_, fun body => .orElse (he body) fun e h => hes e h body,
      fun v hv => congrArg₂ Grammar.orElse (hg v hv) (hgs v hv)⟩
  | nearest alternatives ih => exact exists_listed (fun _ _ => .nearest) ih
  | seq parts ih => exact exists_listed (fun _ _ => .seq) ih
  | pipe parts ih => exact exists_listed (fun _ _ => .pipe) ih
  | repeated g bounds ih =>
    exact exists_unary (c := (Grammar.repeated · bounds)) (fun _ _ => .repeated bounds)
      (fun _ _ _ => rfl) ih
  | manyUntil g stop ih ihs => exact exists_binary (fun _ _ _ => .manyUntil) ih ihs
  | sepBy g separator ih ihs => exact exists_binary (fun _ _ _ => .sepBy) ih ihs
  | optional g ih => exact exists_unary (fun _ _ => .optional) (fun _ _ _ => rfl) ih
  | ignore g ih => exact exists_unary (fun _ _ => .ignore) (fun _ _ _ => rfl) ih
  | followedBy g next ih ihn => exact exists_binary (fun _ _ _ => .followedBy) ih ihn
  | before g marker ih ihm => exact exists_binary (fun _ _ _ => .before) ih ihm
  | trace label g ih => exact exists_unary (fun _ _ => .trace false label) traced_of_kept ih
  | fields fs ih =>
    obtain ⟨es, hes, hgs⟩ := exists_map_eq fun f hf => exists_field (ih f hf)
    exact ⟨_, fun body => .fields fun f hf => hes f hf body,
      fun v hv => congrArg Grammar.fields (hgs v hv)⟩
  | rule name =>
    refine ⟨_, fun body => .rule name, fun v hv => ?_⟩
    cases v with
    | marked => exact absurd rfl hv
    | before => rfl
    | after => rfl
  | immediate g ih =>
    exact exists_unary (fun _ _ => .immediate false) (fun e v _ => wrapped_of_kept _ e v) ih
  | shared g ih =>
    exact exists_unary (fun _ _ => .shared false) (fun e v _ => wrapped_of_kept _ e v) ih
  | block steps finish ih =>
    have hsteps : ∀ step ∈ steps, ∃ edited : List Value → Edit,
        (∀ bound body, Unwraps body (edited bound)) ∧
          ∀ v, v ≠ .marked → (fun bound => edited bound v) = step := by
      intro step hstep
      choose edited hedited hv using ih step hstep
      exact ⟨edited, hedited, fun v hne => funext fun bound => hv bound v hne⟩
    obtain ⟨es, hes, hgs⟩ := exists_map_eq hsteps
    exact ⟨_, fun body => .block finish fun step h bound => hes step h bound body,
      fun v hv => congrArg (Grammar.block · finish) (hgs v hv)⟩
  | procedure next ih =>
    choose edited hedited hnext using fun received => exists_step (ih received)
    exact ⟨_, fun body => .procedure fun received e h => hedited received e h body,
      fun v hv => congrArg Grammar.procedure (funext fun received => hnext received v hv)⟩

end Edit

theorem exists_body (rules : Rules) : ∃ body : String → Edit,
    (∀ name, Unwraps body (body name)) ∧ Version.before.rules body = rules := by
  choose body hbody hv using fun name => Edit.exists_removesNothing (rules name)
  exact ⟨body, fun name => hbody name body, funext fun name => hv name .before nofun⟩

namespace Grammar

variable {rules : Rules} {g : Grammar} {s : Text} {x y : Run (Outcome Value)}

theorem Finishes.eventually_eq (hx : g.Finishes rules s x) :
    ∀ᶠ m in atTop, g.parserWithin rules m s = x := by
  obtain ⟨body, hbody, rfl⟩ := exists_body rules
  obtain ⟨e, he, hg⟩ := Edit.exists_removesNothing g
  obtain rfl : e .before = g := hg .before nofun
  filter_upwards [eventually_alike_of_finishes hbody (he body) hx .before] with m hm
  obtain ⟨hending, log, hlog, hlog'⟩ := hm
  exact congrArg₂ Run.mk (hlog'.trans hlog.symm) hending

/-- It does not depend on the allowance how a run ends that ends by itself, nor what it logs. -/
theorem Finishes.unique (hx : g.Finishes rules s x) (hy : g.Finishes rules s y) : x = y := by
  obtain ⟨m, hxm, hym⟩ := (hx.eventually_eq.and hy.eventually_eq).exists
  exact hxm.symm.trans hym

theorem returns_unique {n m : Nat} {o o' : Outcome Value}
    (h : (g.parserWithin rules n s).ending = .returns o)
    (h' : (g.parserWithin rules m s).ending = .returns o') : o = o' := by
  have hn : g.Finishes rules s (g.parserWithin rules n s) := ⟨n, rfl, by simp [h]⟩
  have hm : g.Finishes rules s (g.parserWithin rules m s) := ⟨m, rfl, by simp [h']⟩
  rw [hn.unique hm, h'] at h
  exact (Ending.returns.inj h).symm

end Grammar

end TextGrammar
