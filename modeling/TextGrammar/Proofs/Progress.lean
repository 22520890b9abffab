import TextGrammar.Proofs.Halts

/-!
# Progress of loops and of recursion

If the loops of a grammar repeat only what shortens the text, none of them takes more rounds than
there are characters; and a rule that is referred to only behind what shortens the text is applied
to shorter texts only.
-/

namespace TextGrammar

theorem Parser.Rounds.length_add_le {α : Type} {p : Parser α} {s t : Text}
    {rounds : List (Text × α)} (h : p.Rounds s rounds t)
    (hp : ∀ s value t, (p s).ending = .returns (.success value t) → t.length < s.length) :
    rounds.length + t.length ≤ s.length := by
  induction h with
  | nil => exact Nat.le_of_eq (Nat.zero_add _)
  | cons hs _ ih =>
    have hlt := hp _ _ _ hs
    rw [List.length_cons]
    omega

namespace Grammar

variable {rules : Rules} {n : Nat} {g separator first : Grammar} {gs others : List Grammar}
  {fs : List (Field Grammar Grammar)} {s t : Text} {a : Grammar × Text}

/-! ## What is applied directly -/

theorem mem_of_applies_orElse (h : Applies rules (orElse first others, s) a) :
    a.1 ∈ first :: others ∧ a.2 = s := by
  generalize hb : (orElse first others, s) = b at h
  induction h generalizing first others s with
  | first =>
    cases hb
    exact ⟨List.mem_cons_self, rfl⟩
  | other _ _ ih =>
    cases hb
    obtain ⟨hmem, hs⟩ := ih rfl
    exact ⟨List.mem_cons_of_mem _ hmem, hs⟩
  | _ => cases hb

theorem mem_of_applies_pipe (h : Applies rules (pipe gs, s) a) : a.1 ∈ gs := by
  generalize hb : (pipe gs, s) = b at h
  induction h generalizing gs s with
  | pipe =>
    cases hb
    exact List.mem_cons_self
  | pipeOther _ _ ih =>
    cases hb
    exact List.mem_cons_of_mem _ (ih rfl)
  | _ => cases hb

theorem exists_of_applies_fields (h : Applies rules (fields fs, s) a) :
    ∃ f ∈ fs, a.1 = f.content := by
  generalize hb : (fields fs, s) = b at h
  induction h generalizing fs s with
  | field =>
    cases hb
    exact ⟨_, List.mem_cons_self, rfl⟩
  | fieldOther _ _ ih =>
    cases hb
    obtain ⟨f, hmem, hf⟩ := ih rfl
    exact ⟨f, List.mem_cons_of_mem _ hmem, hf⟩
  | _ => cases hb

theorem eq_or_eq_of_applies_sepBy (h : Applies rules (sepBy g separator, s) a) :
    a.1 = g ∨ a.1 = separator := by
  generalize hb : (sepBy g separator, s) = b at h
  induction h generalizing s with
  | sepBy =>
    cases hb
    exact Or.inl rfl
  | separator _ =>
    cases hb
    exact Or.inr rfl
  | sepByAgain _ _ _ ih =>
    cases hb
    exact ih rfl
  | _ => cases hb

/-! ## Loops -/

/-- Put together with loops only over what shortens the text. -/
inductive LoopsAdvance (rules : Rules) : Grammar → Prop
  | leaf {scanner : Scanner Value} : LoopsAdvance rules (leaf scanner)
  | map {f : Value → Value} {g : Grammar} : LoopsAdvance rules g → LoopsAdvance rules (map f g)
  | orElse {first : Grammar} {others : List Grammar} :
    (∀ g ∈ first :: others, LoopsAdvance rules g) → LoopsAdvance rules (orElse first others)
  | pipe {gs : List Grammar} : (∀ g ∈ gs, LoopsAdvance rules g) → LoopsAdvance rules (pipe gs)
  | fields {fs : List (Field Grammar Grammar)} :
    (∀ f ∈ fs, LoopsAdvance rules f.content) → LoopsAdvance rules (fields fs)
  | repeated {g : Grammar} {bounds : Bounds} : bounds.least ≤ bounds.most → Advances rules g →
    LoopsAdvance rules g → LoopsAdvance rules (repeated g bounds)
  | sepBy {g separator : Grammar} : Advances rules (followedBy separator g) →
    LoopsAdvance rules g → LoopsAdvance rules separator → LoopsAdvance rules (sepBy g separator)
  | rule {name : String} : LoopsAdvance rules (rule name)

theorem LoopsAdvance.of_applies (h : LoopsAdvance rules g)
    (hrules : ∀ name, LoopsAdvance rules (rules name)) (ha : Applies rules (g, s) a) :
    LoopsAdvance rules a.1 := by
  cases h with
  | leaf => cases ha
  | map hg =>
    cases ha
    exact hg
  | orElse hall => exact hall _ (mem_of_applies_orElse ha).1
  | pipe hall => exact hall _ (mem_of_applies_pipe ha)
  | fields hall =>
    obtain ⟨f, hmem, hf⟩ := exists_of_applies_fields ha
    exact hf ▸ hall f hmem
  | repeated _ _ hg => exact eq_of_applies_repeated ha ▸ hg
  | sepBy _ hg hsep =>
    rcases eq_or_eq_of_applies_sepBy ha with h | h
    · exact h ▸ hg
    · exact h ▸ hsep
  | rule =>
    cases ha
    exact hrules _

theorem LoopsAdvance.applied (h : LoopsAdvance rules g)
    (hrules : ∀ name, LoopsAdvance rules (rules name)) (ha : Applied rules (g, s) a) :
    LoopsAdvance rules a.1 :=
  forall_applied_of_closed h (fun _ _ _ hg => hg.of_applies hrules) a ha

theorem LoopsAdvance.haltsBelow (h : LoopsAdvance rules g)
    (hrules : ∀ name, HaltsBelow rules n (.rule name) len) (hn : len ≤ n) :
    HaltsBelow rules n g len := by
  induction h with
  | leaf => exact haltsBelow_leaf _
  | map _ ih => exact haltsBelow_map _ ih
  | orElse _ ih => exact haltsBelow_orElse ih
  | pipe _ ih => exact haltsBelow_pipe ih
  | fields _ ih => exact haltsBelow_fields ih
  | repeated hb _ _ ih => exact haltsBelow_repeated hb ih
  | sepBy hadv _ _ ih ihsep => exact haltsBelow_sepBy hadv ih ihsep hn
  | rule => exact hrules _

/-! ## Recursion -/

/-- As long as the text is not shortened, the grammar refers to no other rules than these. -/
inductive Opens (rules : Rules) (names : String → Prop) : Grammar → Prop
  | leaf {scanner : Scanner Value} : Opens rules names (leaf scanner)
  | map {f : Value → Value} {g : Grammar} : Opens rules names g → Opens rules names (map f g)
  | orElse {first : Grammar} {others : List Grammar} :
    (∀ g ∈ first :: others, Opens rules names g) → Opens rules names (orElse first others)
  | pipe {g : Grammar} {gs : List Grammar} : Advances rules g → Opens rules names g →
    Opens rules names (pipe (g :: gs))
  | rule {name : String} : names name → Opens rules names (rule name)

variable {names : String → Prop} {name : String}

theorem Opens.mono {names' : String → Prop} (h : Opens rules names g)
    (hnames : ∀ name, names name → names' name) : Opens rules names' g := by
  induction h with
  | leaf => exact .leaf
  | map _ ih => exact .map ih
  | orElse _ ih => exact .orElse ih
  | pipe hadv _ ih => exact .pipe hadv ih
  | rule hname => exact .rule (hnames _ hname)

theorem Opens.of_applies (h : Opens rules names g)
    (hrules : ∀ name, names name → Opens rules names (rules name))
    (ha : Applies rules (g, s) a) : a.2.length < s.length ∨ Opens rules names a.1 ∧ a.2 = s := by
  cases h with
  | leaf => cases ha
  | map hg =>
    cases ha
    exact Or.inr ⟨hg, rfl⟩
  | orElse hall =>
    obtain ⟨hmem, hs⟩ := mem_of_applies_orElse ha
    exact Or.inr ⟨hall _ hmem, hs⟩
  | pipe hadv hg =>
    cases ha with
    | pipe => exact Or.inr ⟨hg, rfl⟩
    | pipeOther hl ha =>
      left
      exact Nat.lt_of_le_of_lt ha.isInfix.length_le (hadv _ _ hl)
  | rule hname =>
    cases ha
    exact Or.inr ⟨hrules _ hname, rfl⟩

theorem Opens.length_lt (h : Opens rules names g)
    (hrules : ∀ name, names name → Opens rules names (rules name)) (hname : ¬ names name)
    (ha : Applied rules (g, s) (.rule name, t)) : t.length < s.length := by
  have hall : ∀ b, Applied rules (g, s) b →
      b.2.length < s.length ∨ Opens rules names b.1 ∧ b.2 = s := by
    intro b hb
    induction hb with
    | refl => exact Or.inr ⟨h, rfl⟩
    | tail _ hab ih =>
      rcases ih with hlt | ⟨hopens, hs⟩
      · exact Or.inl (Nat.lt_of_le_of_lt hab.isInfix.length_le hlt)
      · rw [← hs]
        exact hopens.of_applies hrules hab
  rcases hall _ ha with hlt | ⟨hopens, _⟩
  · exact hlt
  · cases hopens with
    | rule h => exact absurd h hname

theorem Opens.haltsBelow (h : Opens rules names g) (hloops : LoopsAdvance rules g)
    (hnames : ∀ name, names name → HaltsBelow rules n (.rule name) (len + 1))
    (hrules : ∀ name, HaltsBelow rules n (.rule name) len) (hn : len ≤ n) :
    HaltsBelow rules n g (len + 1) := by
  induction h with
  | leaf => exact haltsBelow_leaf _
  | map _ ih =>
    cases hloops with
    | map hg => exact haltsBelow_map _ (ih hg)
  | orElse _ ih =>
    cases hloops with
    | orElse hall => exact haltsBelow_orElse fun g hmem => ih g hmem (hall g hmem)
  | pipe hadv _ ih =>
    cases hloops with
    | pipe hall =>
      obtain ⟨hg, hgs⟩ := List.forall_mem_cons.1 hall
      exact haltsBelow_pipe_of_advances hadv (ih hg) fun g hmem =>
        (hgs g hmem).haltsBelow hrules hn
  | rule hname => exact hnames _ hname

/-- Until the text is shortened, rules refer to rules of lower rank only, and their loops
advance. -/
structure Ranked (rules : Rules) (rank : String → Nat) (ranks : Nat) : Prop where
  rank_lt : ∀ name, rank name < ranks
  loops : ∀ name, LoopsAdvance rules (rules name)
  opens : ∀ name, Opens rules (fun other => rank other < rank name) (rules name)

variable {rank : String → Nat} {ranks : Nat}

theorem Ranked.length_lt (h : Ranked rules rank ranks)
    (ha : Applied rules (rules name, s) (rule name, t)) : t.length < s.length := by
  refine (h.opens name).length_lt ?_ (Nat.lt_irrefl _) ha
  intro other hother
  exact (h.opens other).mono fun _ hlt => Nat.lt_trans hlt hother

/-- All ranks may be gone through once for each character. -/
theorem Ranked.haltsBelow (h : Ranked rules rank ranks) (hn : ranks * len + rank name < n + ranks) :
    HaltsBelow rules n (rule name) len := by
  induction len generalizing n name with
  | zero => exact fun _ hs => absurd hs (Nat.not_lt_zero _)
  | succ len ih =>
    -- Up to the first character the rank goes down, and behind it the text is shorter.
    induction hr : rank name using Nat.strongRecOn generalizing n name with
    | ind r ihr =>
      rw [Nat.mul_succ] at hn
      obtain ⟨m, rfl⟩ : ∃ m, n = m + 1 := ⟨n - 1, by omega⟩
      have hlen : len ≤ ranks * len := Nat.le_mul_of_pos_left _ (Nat.zero_lt_of_lt (h.rank_lt name))
      apply haltsBelow_rule_iff.2
      refine (h.opens name).haltsBelow (h.loops name) ?_ ?_ (by omega)
      · intro other hother
        apply ihr (rank other) (hr ▸ hother) _ rfl
        rw [Nat.mul_succ]
        omega
      · intro other
        have hother := h.rank_lt other
        apply ih
        omega

end Grammar

end TextGrammar
