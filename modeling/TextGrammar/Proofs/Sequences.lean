import Mathlib.Data.List.Nodup
import Mathlib.Tactic.IntervalCases
import TextGrammar.Proofs.Finds
import TextGrammar.Proofs.NestedBinds

/-!
# Sequences

Parsers in a row can be applied in several ways: as a tuple with a written-out order of places, from
left to right, from right to left, as nested binds, or as the steps of a block. They all come to the
same, once the order is turned where it runs the other way.
-/

namespace TextGrammar.Parser

variable {α β : Type}

/-- Logs all of the text that `p` is applied to, under a label. -/
def announced (label : String) (p : Parser α) : Parser α := fun s => do
  Run.note (.entered label s)
  p s

theorem ending_announced (label : String) (p : Parser α) (s : Text) :
    (p.announced label s).ending = (p s).ending := by
  unfold announced
  rw [Run.ending_bind]
  rfl

theorem log_map (f : α → β) (p : Parser α) (s : Text) : (p.map f s).log = (p s).log := by
  refine Eq.trans (Run.log_bind_congr fun o _ => ?_) (Run.log_bind_pure (p s) (Outcome.map f))
  cases o with
  | success value t => rfl
  | failure error => rfl

theorem map_eq_success_iff {f : α → β} {p : Parser α} {s t : Text} {found : β}
    {log : List Event} :
    p.map f s = ⟨log, .returns (.success found t)⟩ ↔
      ∃ value, p s = ⟨log, .returns (.success value t)⟩ ∧ f value = found := by
  constructor
  · intro h
    obtain ⟨value, hvalue, hfound⟩ := ending_of_map_success (congrArg Run.ending h)
    have hlog : (p s).log = log := (log_map f p s).symm.trans (congrArg Run.log h)
    exact ⟨value, congrArg₂ Run.mk hlog hvalue, hfound⟩
  · rintro ⟨value, h, rfl⟩
    have hlog : (p.map f s).log = log := (log_map f p s).trans (congrArg Run.log h)
    exact congrArg₂ Run.mk hlog (ending_map_of_success f (congrArg Run.ending h))

/-! ## The order of application -/

theorem pipe_append_singleton (ps : List (Parser α)) (p : Parser α) :
    pipe (ps ++ [p]) = (do
      let values ← pipe ps
      let value ← p
      pure (values ++ [value])) := by
  induction ps with
  | nil => simp [pipe]
  | cons q ps ih => simp [pipe_cons, ih]

theorem seq_eq_map_reverse (ps : List (Parser α)) :
    seq ps = (pipe ps.reverse).map List.reverse := by
  change seq ps = pipe ps.reverse >>= fun values => pure values.reverse
  induction ps with
  | nil => simp [seq, pipe]
  | cons p ps ih =>
    rw [seq_cons, ih, List.reverse_cons, pipe_append_singleton]
    simp

/-- The nested binds that find the values of the parsers in order, after the values in `found`. -/
def bindAll : List (Parser α) → List α → Parser (List α)
  | [], found => Parser.pure found
  | p :: ps, found => p.bind fun value => bindAll ps (found ++ [value])

theorem bindAll_eq (ps : List (Parser α)) (found : List α) :
    bindAll ps found = (pipe ps).map (found ++ ·) := by
  change bindAll ps found = pipe ps >>= fun values => pure (found ++ values)
  induction ps generalizing found with
  | nil =>
    simp only [pipe, LawfulMonad.pure_bind, List.append_nil]
    rfl
  | cons p ps ih =>
    change (p >>= fun value => bindAll ps (found ++ [value])) = _
    simp [ih, pipe_cons]

theorem ending_bind_eq_failure_iff {p : Parser α} {f : α → Parser β} {s : Text}
    {error : ParseError} :
    (p.bind f s).ending = .returns (.failure error) ↔
      (p s).ending = .returns (.failure error) ∨
        ∃ value t, (p s).ending = .returns (.success value t) ∧
          (f value t).ending = .returns (.failure error) := by
  constructor
  · intro h
    obtain ⟨o, ho, h⟩ := Run.ending_bind_eq_returns_iff.1 h
    cases o with
    | success value t => exact Or.inr ⟨value, t, ho, h⟩
    | failure e =>
      cases h
      exact Or.inl ho
  · rintro (h | ⟨value, t, hp, h⟩)
    · exact ending_bind_of_failure f h
    · exact (ending_bind_of_success f hp).trans h

theorem ending_map_eq_failure_iff {p : Parser α} {f : α → β} {s : Text} {error : ParseError} :
    (p.map f s).ending = .returns (.failure error) ↔
      (p s).ending = .returns (.failure error) := by
  refine ending_bind_eq_failure_iff.trans ⟨?_, Or.inl⟩
  rintro (h | ⟨_, _, _, h⟩)
  · exact h
  · cases h

theorem ending_pipe_eq_failure_iff {ps : List (Parser α)} {s : Text} {error : ParseError} :
    (pipe ps s).ending = .returns (.failure error) ↔
      ∃ earlier p later values t, ps = earlier ++ p :: later ∧
        (pipe earlier s).ending = .returns (.success values t) ∧
          (p t).ending = .returns (.failure error) := by
  induction ps generalizing s with
  | nil =>
    constructor
    · intro h
      cases h
    · rintro ⟨earlier, p, later, values, t, hps, _⟩
      exact absurd hps.symm (by simp)
  | cons q ps ih =>
    refine ending_bind_eq_failure_iff.trans ⟨?_, ?_⟩
    · rintro (hq | ⟨value, u, hq, h⟩)
      · exact ⟨[], q, ps, [], s, rfl, rfl, hq⟩
      · obtain ⟨earlier, p, later, values, t, rfl, hearlier, hp⟩ :=
          ih.1 (ending_map_eq_failure_iff.1 h)
        refine ⟨q :: earlier, p, later, value :: values, t, rfl, ?_, hp⟩
        exact (ending_bind_of_success _ hq).trans (ending_map_of_success _ hearlier)
    · rintro ⟨earlier, p, later, values, t, hps, hearlier, hp⟩
      cases earlier with
      | nil =>
        cases hps
        cases hearlier
        exact Or.inl hp
      | cons _ earlier =>
        cases hps
        obtain ⟨value, u, hq, h⟩ := exists_of_ending_bind hearlier
        obtain ⟨others, hothers, _⟩ := ending_of_map_success h
        refine Or.inr ⟨value, u, hq, ending_map_eq_failure_iff.2 (ih.2 ?_)⟩
        exact ⟨earlier, p, later, others, t, rfl, hothers, hp⟩

theorem length_of_ending_pipe {ps : List (Parser α)} {s t : Text} {values : List α}
    (h : (pipe ps s).ending = .returns (.success values t)) : values.length = ps.length := by
  induction ps generalizing s t values with
  | nil =>
    cases h
    rfl
  | cons p ps ih =>
    obtain ⟨_, u, _, h⟩ := exists_of_ending_bind h
    obtain ⟨others, ho, rfl⟩ := ending_of_map_success h
    rw [List.length_cons, List.length_cons, ih ho]

/-! ## Tuples -/

/-- The places of a tuple in the order in which a right-to-left sequence applies the parsers. -/
def seqOrder : Nat → List Nat
  | 2 => [1, 0]
  | 3 => [2, 1, 0]
  | 4 => [3, 2, 1, 0]
  | 5 => [4, 3, 2, 1, 0]
  | 6 => [5, 4, 3, 2, 1, 0]
  | 7 => [6, 5, 4, 3, 2, 1, 0]
  | 8 => [7, 6, 5, 4, 3, 2, 1, 0]
  | 9 => [8, 7, 6, 5, 4, 3, 2, 1, 0]
  | 10 => [9, 8, 7, 6, 5, 4, 3, 2, 1, 0]
  | _ => []

/-- The places of a tuple in the order in which a left-to-right sequence applies the parsers. -/
def pipeOrder : Nat → List Nat
  | 2 => [0, 1]
  | 3 => [0, 1, 2]
  | 4 => [0, 1, 2, 3]
  | 5 => [0, 1, 2, 3, 4]
  | 6 => [0, 1, 2, 3, 4, 5]
  | 7 => [0, 1, 2, 3, 4, 5, 6]
  | 8 => [0, 1, 2, 3, 4, 5, 6, 7]
  | 9 => [0, 1, 2, 3, 4, 5, 6, 7, 8]
  | 10 => [0, 1, 2, 3, 4, 5, 6, 7, 8, 9]
  | _ => []

/-- Applies the parsers of a tuple in the order of the given places. The values are listed in the
order of the tuple. -/
def inOrder (order : List Nat) (parts : List (Parser α)) : Parser (List α) :=
  (pipe (order.filterMap (parts[·]?))).map fun values =>
    (List.range parts.length).filterMap fun place => values[order.idxOf place]?

theorem seqOrder_eq {n : Nat} (h : 2 ≤ n) (h' : n ≤ 10) : seqOrder n = (List.range n).reverse := by
  interval_cases n <;> rfl

theorem pipeOrder_eq {n : Nat} (h : 2 ≤ n) (h' : n ≤ 10) : pipeOrder n = List.range n := by
  interval_cases n <;> rfl

theorem filterMap_getElem?_range (items : List β) :
    (List.range items.length).filterMap (items[·]?) = items := by
  induction items with
  | nil => rfl
  | cons item items ih =>
    rw [List.length_cons, List.range_succ_eq_map, List.filterMap_cons, List.filterMap_map]
    exact congrArg (item :: ·) ih

theorem idxOf_range {n place : Nat} (h : place < n) : (List.range n).idxOf place = place := by
  have hplace := List.nodup_range.idxOf_getElem place (by rwa [List.length_range])
  rwa [List.getElem_range] at hplace

theorem idxOf_reverse_range {n place : Nat} (h : place < n) :
    (List.range n).reverse.idxOf place = n - 1 - place := by
  have hlength : n - 1 - place < (List.range n).reverse.length := by
    rw [List.length_reverse, List.length_range]
    omega
  have hplace := (List.nodup_reverse.2 List.nodup_range).idxOf_getElem (n - 1 - place) hlength
  rw [List.getElem_reverse, List.getElem_range, List.length_range] at hplace
  rwa [show n - 1 - (n - 1 - place) = place by omega] at hplace

theorem map_pipe_congr {ps : List (Parser α)} {f g : List α → List β}
    (h : ∀ values, values.length = ps.length → f values = g values) :
    (pipe ps).map f = (pipe ps).map g := by
  funext s
  apply Run.bind_congr_of_returns
  intro o ho
  cases o with
  | success values t =>
    change Parser.pure (f values) t = Parser.pure (g values) t
    rw [h values (length_of_ending_pipe ho)]
  | failure error => rfl

theorem inOrder_range (parts : List (Parser α)) :
    inOrder (List.range parts.length) parts = pipe parts := by
  unfold inOrder
  rw [filterMap_getElem?_range, map_pipe_congr (g := id)]
  · exact bind_pure (pipe parts)
  · intro values hlength
    rw [← hlength]
    conv_rhs => rw [id, ← filterMap_getElem?_range values]
    refine List.filterMap_congr fun place hplace => ?_
    rw [idxOf_range (List.mem_range.1 hplace)]

theorem inOrder_reverse_range (parts : List (Parser α)) :
    inOrder (List.range parts.length).reverse parts = seq parts := by
  unfold inOrder
  rw [List.filterMap_reverse, filterMap_getElem?_range, seq_eq_map_reverse]
  apply map_pipe_congr
  intro values hlength
  rw [List.length_reverse] at hlength
  conv_rhs => rw [← filterMap_getElem?_range values.reverse, List.length_reverse, hlength]
  refine List.filterMap_congr fun place hplace => ?_
  have hlt : place < parts.length := List.mem_range.1 hplace
  rw [idxOf_reverse_range hlt, List.getElem?_reverse (by omega), hlength]

/-! ## Blocks -/

def listBlock (ps : List (Parser α)) : Block α (List α) where
  steps := ps.map fun p _ => pure p
  finish := id

theorem bindsFrom_listBlock (ps : List (Parser α)) (bound : List α) :
    Block.bindsFrom id (ps.map fun p _ => pure p) bound = bindAll ps bound := by
  induction ps generalizing bound with
  | nil => rfl
  | cons p ps ih =>
    change (Block.ask (fun _ => pure p) bound).bind _ = p.bind _
    exact congrArg₂ Parser.bind rfl (funext fun value => ih (bound ++ [value]))

theorem endsAs_listBlock (ps : List (Parser α)) (s : Text) :
    ((listBlock ps).parser s).EndsAs (Procedure.countLimit ≤ ps.length) (pipe ps s) := by
  have hbinds : (listBlock ps).nestedBinds = pipe ps := by
    have hall : (listBlock ps).nestedBinds = bindAll ps [] := bindsFrom_listBlock ps []
    rw [hall, bindAll_eq]
    exact bind_pure (pipe ps)
  rw [← hbinds]
  apply ((listBlock ps).endsAs_nestedBinds s).mono
  intro h
  have hle := h.le_length
  unfold listBlock at hle
  rwa [List.length_map] at hle

/-- The written-out orders of tuples with two to ten places are those of the two sequences. From
right to left, a sequence does what the turned one does from left to right: with parsers that
announce themselves, the same ones are applied to the same texts in the same order. It fails with
the error of the first parser that does. From left to right, it is the nested binds that collect
the values, and the block whose steps are the parsers ends as it does, unless the block has more
steps than are counted. -/
theorem sequences_agree (ps : List (Parser α)) :
    (2 ≤ ps.length → ps.length ≤ 10 →
      inOrder (seqOrder ps.length) ps = seq ps ∧ inOrder (pipeOrder ps.length) ps = pipe ps) ∧
    seq ps = (pipe ps.reverse).map List.reverse ∧
    (∀ (label : Nat → String) (s : Text),
      (seq (ps.mapIdx fun i p => p.announced (label i)) s).log =
        (pipe (ps.mapIdx fun i p => p.announced (label i)).reverse s).log) ∧
    (∀ s error, (pipe ps s).ending = .returns (.failure error) ↔
      ∃ earlier p later values t, ps = earlier ++ p :: later ∧
        (pipe earlier s).ending = .returns (.success values t) ∧
          (p t).ending = .returns (.failure error)) ∧
    pipe ps = bindAll ps [] ∧
    ∀ s, ((listBlock ps).parser s).EndsAs (Procedure.countLimit ≤ ps.length) (pipe ps s) := by
  refine ⟨?_, seq_eq_map_reverse ps, ?_, fun s error => ending_pipe_eq_failure_iff, ?_,
    endsAs_listBlock ps⟩
  · intro h h'
    rw [seqOrder_eq h h', pipeOrder_eq h h']
    exact ⟨inOrder_reverse_range ps, inOrder_range ps⟩
  · intro label s
    rw [seq_eq_map_reverse, log_map]
  · rw [bindAll_eq]
    exact (bind_pure (pipe ps)).symm

/-- The last of three parsers sees the text first. -/
theorem sequences_agree_three :
    2 ≤ [ofScanner (.take 1), ofScanner (.literal [':']), ofScanner (.take 2)].length ∧
    [ofScanner (.take 1), ofScanner (.literal [':']), ofScanner (.take 2)].length ≤ 10 ∧
    (inOrder (seqOrder 3) [ofScanner (.take 1), ofScanner (.literal [':']), ofScanner (.take 2)]
      ['é', 'b', ':', 'c', 'd']).ending =
        .returns (.success [['c'], [':'], ['é', 'b']] ['d']) := by
  refine ⟨by decide, by decide, ?_⟩
  have hagree := sequences_agree
    [ofScanner (.take 1), ofScanner (.literal [':']), ofScanner (.take 2)]
  have hseq := (hagree.1 (by decide) (by decide)).1
  exact congrArg (fun p : Parser (List Text) => (p ['é', 'b', ':', 'c', 'd']).ending) hseq

end TextGrammar.Parser
