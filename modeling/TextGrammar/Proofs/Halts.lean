import TextGrammar.Proofs.Remaining
import TextGrammar.Proofs.Shortening

/-!
# Grammars that halt

What is left is never longer than the text, so a grammar halts on all texts below a length where its
parts do. A loop halts if its rounds shorten the text, and behind a part that shortens it the other
parts have to halt on shorter texts only.
-/

namespace TextGrammar

namespace Grammar

variable {rules : Rules} {n len : Nat} {g separator : Grammar} {gs others : List Grammar}
  {s t input : Text}

/-- Within the allowance `n`, the grammar halts on all texts shorter than `len`. -/
def HaltsBelow (rules : Rules) (n : Nat) (g : Grammar) (len : Nat) : Prop :=
  ∀ s, s.length < len → (g.parserWithin rules n s).Halts

/-- Wherever the grammar succeeds, the text gets shorter. -/
def Advances (rules : Rules) (g : Grammar) : Prop :=
  ∀ s t, g.Leaves rules s t → t.length < s.length

theorem Leaves.length_le (h : g.Leaves rules s t) : t.length ≤ s.length := h.isInfix.length_le

theorem Advances.ne (ha : Advances rules g) (h : g.Leaves rules s t) : t ≠ s := by
  rintro rfl
  exact Nat.lt_irrefl _ (ha t t h)

theorem advances_leaf {scanner : Scanner Value}
    (h : ∀ s value t, scanner.scan s = .success value t → t.length < s.length) :
    Advances rules (leaf scanner) := by
  rintro s t ⟨value, n, hx⟩
  exact h s value t (Ending.returns.inj hx)

theorem advances_char (accept : Char → Bool) (refusal : Option Char → ParseError)
    (f : Char → Value) : Advances rules (leaf ((Scanner.char accept refusal).map f)) := by
  apply advances_leaf
  intro s value t h
  obtain ⟨_, hscan, _⟩ := Outcome.map_eq_success h
  cases s with
  | nil => cases hscan
  | cons c s =>
    simp only [Scanner.char] at hscan
    split at hscan
    · cases hscan
      exact Nat.lt_succ_self _
    · cases hscan

theorem advances_literal (c : Char) (w : Text) : Advances rules (literal (c :: w)) := by
  apply advances_leaf
  intro s value t h
  obtain ⟨_, hscan, _⟩ := Outcome.map_eq_success h
  simp only [Scanner.literal] at hscan
  split at hscan
  · next hd =>
    cases hscan
    rw [Text.dropStart?_eq_some_iff.1 hd, List.length_append, List.length_cons]
    omega
  · cases hscan

theorem advances_notLiteral (w : Text) : Advances rules (notLiteral w) := by
  apply advances_leaf
  intro s value t h
  obtain ⟨_, hscan, _⟩ := Outcome.map_eq_success h
  simp only [Scanner.notLiteral] at hscan
  split at hscan
  · cases hscan
  · cases s with
    | nil => cases hscan
    | cons c s =>
      cases hscan
      exact Nat.lt_succ_self _

theorem advances_orElse {first : Grammar} (h : ∀ g ∈ first :: others, Advances rules g) :
    Advances rules (orElse first others) := by
  rintro s t ⟨value, n, hx⟩
  obtain ⟨p, hmem, hp⟩ := Parser.exists_of_ending_orElse hx
  rw [denoteAll_eq_map, ← List.map_cons] at hmem
  obtain ⟨g, hg, rfl⟩ := List.mem_map.1 hmem
  exact h g hg s t (leaves_of_ending hp)

theorem advances_followedBy (h : Advances rules separator) (g : Grammar) :
    Advances rules (followedBy separator g) := by
  rintro s t ⟨value, n, hx⟩
  obtain ⟨found, u, hsep, hg⟩ := Parser.exists_of_ending_bind hx
  exact Nat.lt_of_le_of_lt (leaves_of_ending hg).length_le (h s u (leaves_of_ending hsep))

theorem haltsBelow_leaf (scanner : Scanner Value) : HaltsBelow rules n (leaf scanner) len :=
  fun _ _ => Run.halts_pure _

theorem haltsBelow_map (f : Value → Value) (h : HaltsBelow rules n g len) :
    HaltsBelow rules n (map f g) len :=
  fun s hs => Parser.halts_map_iff.2 (h s hs)

theorem haltsBelow_orElse {first : Grammar} (h : ∀ g ∈ first :: others, HaltsBelow rules n g len) :
    HaltsBelow rules n (orElse first others) len := by
  intro s hs
  induction others generalizing first with
  | nil => exact h first List.mem_cons_self s hs
  | cons second others ih =>
    obtain ⟨hfirst, hothers⟩ := List.forall_mem_cons.1 h
    apply (hfirst s hs).bind
    intro o _
    cases o with
    | success value t => exact Run.halts_pure _
    | failure error => exact ih hothers

theorem halts_pipe_cons (hg : (g.parserWithin rules n s).Halts)
    (hgs : ∀ t, g.Leaves rules s t → ((pipe gs).parserWithin rules n t).Halts) :
    ((pipe (g :: gs)).parserWithin rules n s).Halts := by
  apply Parser.halts_map_iff.2
  refine Parser.halts_bind hg fun value t ht => ?_
  exact Parser.halts_map_iff.2 (Parser.halts_map_iff.1 (hgs t (leaves_of_ending ht)))

theorem haltsBelow_pipe (h : ∀ g ∈ gs, HaltsBelow rules n g len) :
    HaltsBelow rules n (pipe gs) len := by
  induction gs with
  | nil => exact fun s _ => Run.halts_pure _
  | cons g gs ih =>
    obtain ⟨hg, hgs⟩ := List.forall_mem_cons.1 h
    intro s hs
    refine halts_pipe_cons (hg s hs) fun t ht => ?_
    exact ih hgs t (Nat.lt_of_le_of_lt ht.length_le hs)

theorem haltsBelow_pipe_of_advances (ha : Advances rules g) (hg : HaltsBelow rules n g (len + 1))
    (hgs : ∀ g ∈ gs, HaltsBelow rules n g len) : HaltsBelow rules n (pipe (g :: gs)) (len + 1) := by
  intro s hs
  refine halts_pipe_cons (hg s hs) fun t ht => ?_
  exact haltsBelow_pipe hgs t (Nat.lt_of_lt_of_le (ha s t ht) (Nat.le_of_lt_succ hs))

theorem haltsBelow_fields {fs : List (Field Grammar Grammar)}
    (h : ∀ f ∈ fs, HaltsBelow rules n f.content len) : HaltsBelow rules n (fields fs) len := by
  intro s hs
  apply Parser.halts_map_iff.2
  unfold Parser.fields
  generalize ([] : Record Value) = record
  induction fs generalizing s record with
  | nil => exact Run.halts_pure _
  | cons f fs ih =>
    obtain ⟨hf, hfs⟩ := List.forall_mem_cons.1 h
    cases f with
    | keep key g =>
      refine Parser.halts_bind (hf s hs) fun value t ht => ?_
      exact ih hfs t (Nat.lt_of_le_of_lt (leaves_of_ending ht).length_le hs) _
    | skip g =>
      refine Parser.halts_bind (Parser.halts_map_iff.2 (hf s hs)) fun value t ht => ?_
      obtain ⟨found, hfound, _⟩ := Parser.ending_of_map_success ht
      exact ih hfs t (Nat.lt_of_le_of_lt (leaves_of_ending hfound).length_le hs) _

/-- A repetition counts its rounds down, so it halts where what it repeats does. -/
theorem haltsBelow_repeated {bounds : Bounds} (hb : bounds.least ≤ bounds.most)
    (h : HaltsBelow rules n g len) : HaltsBelow rules n (repeated g bounds) len := by
  intro s hs
  apply Parser.halts_map_iff.2
  rw [Parser.repeated_of_le hb]
  generalize bounds.least = least
  generalize bounds.most = most
  induction most generalizing s least with
  | zero =>
    rw [Parser.repeatWithin_zero]
    exact Run.halts_pure _
  | succ most ih =>
    rw [Parser.repeatWithin_succ]
    apply (h s hs).bind
    intro o ho
    cases o with
    | success value t =>
      have ht : t.length < len := Nat.lt_of_le_of_lt (leaves_of_ending ho).length_le hs
      exact (ih t ht (least - 1)).bind fun _ _ => Run.halts_pure _
    | failure error =>
      dsimp only
      split
      · exact Run.halts_pure _
      · exact Run.halts_pure _

theorem shortens_parserWithin (h : ∀ s t, s <:+: input → g.Leaves rules s t → t ≠ s) (n : Nat) :
    (g.parserWithin rules n).Shortens input := by
  intro s value t hs hx
  have hleaves : g.Leaves rules s t := leaves_of_ending hx
  exact ⟨hleaves.isInfix, h s t hs hleaves⟩

theorem haltsOnParts_followedBy
    (hsep : (separator.parserWithin rules n).HaltsOnParts input)
    (hg : (g.parserWithin rules n).HaltsOnParts input) :
    ((followedBy separator g).parserWithin rules n).HaltsOnParts input := by
  intro s hs
  refine Parser.halts_bind (hsep s hs) fun value t ht => ?_
  have hleaves : separator.Leaves rules s t := leaves_of_ending ht
  exact hg t (hleaves.isInfix.trans hs)

theorem haltsBelow_sepBy (ha : Advances rules (followedBy separator g))
    (hg : HaltsBelow rules n g len) (hsep : HaltsBelow rules n separator len) (hn : len ≤ n) :
    HaltsBelow rules n (sepBy g separator) len := by
  intro s hs
  have hshorter : ∀ t, t <:+: s → t.length < len :=
    fun t ht => Nat.lt_of_le_of_lt ht.length_le hs
  have hround : ((followedBy separator g).parserWithin rules n).HaltsOnParts s :=
    haltsOnParts_followedBy (fun t ht => hsep t (hshorter t ht)) fun t ht => hg t (hshorter t ht)
  have hshortens : ((followedBy separator g).parserWithin rules n).Shortens s :=
    shortens_parserWithin (fun _ _ _ => ha.ne) n
  obtain ⟨values, t, hx, _⟩ := Parser.exists_ending_sepBy (hg s hs)
    (fun value t ht => (leaves_of_ending ht).isInfix) hround hshortens (Nat.lt_of_lt_of_le hs hn)
  exact Parser.halts_map_iff.2 ⟨_, hx⟩

theorem haltsBelow_rule_iff {name : String} :
    HaltsBelow rules (n + 1) (rule name) len ↔ HaltsBelow rules n (rules name) len := by
  constructor
  · intro h s hs
    obtain ⟨o, ho⟩ := h s hs
    obtain ⟨_, _, ho⟩ := Run.ending_bind_eq_returns_iff.1 ho
    exact ⟨o, ho⟩
  · intro h s hs
    exact Run.Halts.bind ⟨(), rfl⟩ fun _ _ => h s hs

end Grammar

end TextGrammar
