import TextGrammar.Proofs.Documents
import TextGrammar.Proofs.Finds
import TextGrammar.Proofs.Numerals

/-!
# Renderings are read back

The grammar for values finds a document in each of its renderings, whatever follows, if only that
does not go on with a numeral. An allowance larger than the length of the rendering is enough.
-/

namespace TextGrammar.Json

open Grammar

variable {n : Nat} {s t : Text}

/-- The text goes on with a character that is neither blank nor part of a numeral. -/
def Closed (t : Text) : Prop :=
  ∃ c u, t = c :: u ∧ Text.isSpace c = false ∧ Scanner.isNumeric c = false

theorem closed_cons {c : Char} (hs : Text.isSpace c = false)
    (hn : Scanner.isNumeric c = false) (u : Text) : Closed (c :: u) := ⟨c, u, rfl, hs, hn⟩

theorem dropWhile_isSpace_cons {c : Char} (h : Text.isSpace c = false) (u : Text) :
    (c :: u).dropWhile Text.isSpace = c :: u :=
  List.dropWhile_cons_of_neg (by simp [h])

theorem Blank.dropWhile_append (b : Blank) (t : Text) :
    (b.chars ++ t).dropWhile Text.isSpace = t.dropWhile Text.isSpace :=
  List.dropWhile_append_of_pos b.isSpace

theorem isNumeric_of_isSpace {c : Char} (h : Text.isSpace c = true) :
    Scanner.isNumeric c = false := by
  simp only [Text.isSpace, decide_eq_true_eq, Bool.or_eq_true] at h
  rcases h with ((rfl | rfl) | rfl) | rfl <;> rfl

theorem Closed.not_numeric (h : Closed t) (b : Blank) :
    ∀ c ∈ (b.chars ++ t).head?, Scanner.isNumeric c = false := by
  obtain ⟨d, u, rfl, _, hd⟩ := h
  intro c hc
  cases hb : b.chars with
  | nil =>
    rw [hb] at hc
    cases hc
    exact hd
  | cons e chars =>
    rw [hb] at hc
    cases hc
    exact isNumeric_of_isSpace (b.isSpace _ (by rw [hb]; exact List.mem_cons_self))

/-! ## Where nothing is found -/

theorem not_prefix_cons {c d : Char} (h : c ≠ d) (w u : Text) : ¬ c :: w <+: d :: u := by
  intro hp
  exact h (List.cons_prefix_cons.1 hp).1

theorem fails_boolean {c : Char} (ht : c ≠ 't') (hf : c ≠ 'f') (u : Text) :
    Fails rules n boolean (c :: u) := by
  apply fails_map
  apply fails_orElse_cons (fails_literal (not_prefix_cons ht.symm _ _))
  exact fails_orElse_nil (fails_literal (not_prefix_cons hf.symm _ _))

theorem fails_string {c : Char} (hc : c ≠ '"') (u : Text) : Fails rules n string (c :: u) :=
  fails_map _ (fails_pipe (.head (fails_literal (not_prefix_cons hc.symm _ _))))

theorem fails_numberLiteral {c : Char} (hc : c.isDigit = false) (u : Text) :
    Fails rules n numberLiteral (c :: u) := by
  have hscan : (Scanner.numberLiteral.map Value.number).scan (c :: u) = .failure (.notDigit c) := by
    simp [Scanner.map, Scanner.numberLiteral, hc]
  exact fails_leaf hscan

theorem fails_enclosed {c first last : Char} (hc : c ≠ first) (item : Grammar) (u : Text) :
    Fails rules n (enclosed first last item) (c :: u) :=
  fails_map _ (fails_pipe (.head (fails_literal (not_prefix_cons hc.symm _ _))))

/-! ## Values by their first character -/

theorem finds_value_of_string {c : Char} {u : Text} {v : Value} (ht : c ≠ 't') (hf : c ≠ 'f')
    (h : Finds rules n string (c :: u) v t) : Finds rules n value (c :: u) v t :=
  finds_orElse_cons (fails_boolean ht hf u) (finds_orElse _ h)

theorem finds_value_of_number {c : Char} {u : Text} {v : Value} (hc : c.isDigit = true)
    (h : Finds rules n numberLiteral (c :: u) v t) : Finds rules n value (c :: u) v t := by
  have hne : ∀ d : Char, d.isDigit = false → c ≠ d := by
    rintro d hd rfl
    rw [hc] at hd
    cases hd
  apply finds_orElse_cons (fails_boolean (hne _ rfl) (hne _ rfl) u)
  exact finds_orElse_cons (fails_string (hne _ rfl) u) (finds_orElse _ h)

theorem finds_value_of_list {u : Text} {v : Value} (h : Finds rules n list ('[' :: u) v t) :
    Finds rules (n + 1) value ('[' :: u) v t := by
  apply finds_orElse_cons (fails_boolean (by decide) (by decide) u)
  apply finds_orElse_cons (fails_string (by decide) u)
  apply finds_orElse_cons (fails_numberLiteral rfl u)
  exact finds_orElse _ (finds_rule h)

theorem finds_value_of_object {u : Text} {v : Value}
    (h : Finds rules n object ('\x7b' :: u) v t) :
    Finds rules (n + 1) value ('\x7b' :: u) v t := by
  apply finds_orElse_cons (fails_boolean (by decide) (by decide) u)
  apply finds_orElse_cons (fails_string (by decide) u)
  apply finds_orElse_cons (fails_numberLiteral rfl u)
  apply finds_orElse_cons (fails_rule (fails_enclosed (by decide) element u))
  exact finds_orElse _ (finds_rule h)

theorem fails_value_of_bracket (u : Text) : Fails rules (n + 1) value (']' :: u) := by
  apply fails_orElse_cons (fails_boolean (by decide) (by decide) u)
  apply fails_orElse_cons (fails_string (by decide) u)
  apply fails_orElse_cons (fails_numberLiteral rfl u)
  apply fails_orElse_cons (fails_rule (fails_enclosed (by decide) element u))
  exact fails_orElse_nil (fails_rule (fails_map _ (fails_enclosed (by decide) pair u)))

/-! ## Strings -/

theorem finds_character {c : Char} (hq : c ≠ '"') (hb : c ≠ '\\') (u : Text) :
    Finds rules n (orElse (literal ['\\', '"']) [notLiteral ['"']]) (c :: u) (.char c) u := by
  apply finds_orElse_cons (fails_literal (not_prefix_cons hb.symm _ _))
  apply finds_orElse
  exact finds_notLiteral (not_prefix_cons hq.symm _ _)

theorem fails_character (u : Text) :
    Fails rules n (orElse (literal ['\\', '"']) [notLiteral ['"']]) ('"' :: u) := by
  apply fails_orElse_cons (fails_literal (not_prefix_cons (by decide) _ _))
  apply fails_orElse_nil
  exact fails_notLiteral (List.prefix_append ['"'] u)

theorem textOfAll_map_char (s : Text) : Value.textOfAll (s.map .char) = s := by
  induction s with
  | nil => rfl
  | cons c s ih =>
    rw [List.map_cons, Value.textOfAll, ih]
    rfl

theorem finds_string (s : PlainText) (t : Text) :
    Finds rules n string (s.quoted ++ t) (.text s.chars) t := by
  have hchars : Finds rules n (many (orElse (literal ['\\', '"']) [notLiteral ['"']]))
      (s.chars.flatMap (fun c => [c]) ++ '"' :: t) (.list (s.chars.map .char)) ('"' :: t) := by
    apply finds_many_flatMap _ s.length_lt _ (fails_character t)
    intro c hc u
    apply finds_character
    · rintro rfl
      exact s.noQuote hc
    · rintro rfl
      exact s.noBackslash hc
  rw [List.flatMap_singleton'] at hchars
  have hpipe := finds_pipe (.cons (finds_literal ['"'] _) (.cons hchars
    (.cons (finds_literal ['"'] t) .nil)))
  have hmap := finds_map second hpipe
  have hsecond : second (.list [.text ['"'], .list (s.chars.map .char), .text ['"']]) =
      .text s.chars := by
    change Value.text (Value.textOfAll (s.chars.map .char)) = _
    rw [textOfAll_map_char]
  rw [hsecond] at hmap
  simp only [PlainText.quoted, List.cons_append, List.append_assoc]
  exact hmap

/-! ## Documents inside brackets -/

theorem Renders.exists_cons {d : Document} {text : Text} (h : Renders d text) :
    ∃ c u, text = c :: u ∧ Text.isSpace c = false := by
  cases h with
  | number m =>
    obtain ⟨c, digits, hdigits, hc⟩ := Text.exists_ofNat_eq_cons m.val
    refine ⟨c, digits, hdigits, ?_⟩
    by_contra hspace
    rw [Bool.not_eq_false] at hspace
    have hn := isNumeric_of_isSpace hspace
    rw [Scanner.isNumeric, hc] at hn
    cases hn
  | _ => exact ⟨_, _, rfl, rfl⟩

/-- A document is found within any allowance larger than the length of its text, in front of
whatever does not continue a numeral. -/
def FoundIn (d : Document) (text : Text) : Prop :=
  ∀ n t, (∀ c ∈ t.head?, Scanner.isNumeric c = false) → text.length < n →
    Finds rules n value (text ++ t) d.toValue t

theorem finds_element {e : Element} (he : Renders e.document e.text)
    (hfound : FoundIn e.document e.text) (hn : e.text.length < n) (ht : Closed t) :
    Finds rules (n + 1) element (e.written ++ t) e.document.toValue t := by
  obtain ⟨c, u, htext, hc⟩ := he.exists_cons
  have hbefore : (e.written ++ t).dropWhile Text.isSpace = e.text ++ (e.after.chars ++ t) := by
    simp only [Element.written, List.append_assoc]
    rw [e.before.dropWhile_append, htext, List.cons_append, dropWhile_isSpace_cons hc]
  have hafter : (e.after.chars ++ t).dropWhile Text.isSpace = t := by
    obtain ⟨d, v, rfl, hd, _⟩ := ht
    rw [e.after.dropWhile_append, dropWhile_isSpace_cons hd]
  have hvalue : Finds rules (n + 1) (rule "value") (e.text ++ (e.after.chars ++ t))
      e.document.toValue (e.after.chars ++ t) :=
    finds_rule (hfound n _ (ht.not_numeric e.after) hn)
  exact finds_map (Value.item 1) (finds_pipe (.cons (finds_whitespace hbefore) (.cons hvalue
    (.cons (finds_whitespace hafter) .nil))))

def Element.unspaced (e : Element) : Element := { e with before := .none }

theorem Element.dropWhile_written {e : Element} (he : Renders e.document e.text) (u : Text) :
    (e.written ++ u).dropWhile Text.isSpace = e.unspaced.written ++ u := by
  obtain ⟨c, v, htext, hc⟩ := he.exists_cons
  simp only [Element.written, List.append_assoc]
  rw [e.before.dropWhile_append, htext, List.cons_append, dropWhile_isSpace_cons hc]
  simp [unspaced, Blank.none, htext]

theorem fails_element_of_bracket (u : Text) : Fails rules (n + 2) element (']' :: u) := by
  have hblank : (']' :: u).dropWhile Text.isSpace = ']' :: u := dropWhile_isSpace_cons rfl u
  exact fails_map _ (fails_pipe (.tail (finds_whitespace hblank)
    (.head (fails_rule (fails_value_of_bracket u)))))

def pairFields : List (Field Grammar Grammar) :=
  [.skip whitespace, .keep keyName string, .skip whitespace, .skip (literal [':']),
    .keep valueName element]

def Entry.found (e : Entry) : Value := .list [.text e.key.chars, e.document.toValue]

theorem finds_pair {e : Entry} (he : Renders e.document e.text)
    (hfound : FoundIn e.document e.text) (hn : e.text.length < n) (ht : Closed t) :
    Finds rules (n + 1) pair (e.written ++ t) e.found t := by
  have hkey : (e.written ++ t).dropWhile Text.isSpace =
      e.key.quoted ++ (e.afterKey.chars ++ ':' :: (e.toElement.written ++ t)) := by
    simp only [Entry.written, List.append_assoc, List.cons_append]
    rw [e.beforeKey.dropWhile_append]
    rfl
  have hcolon : (e.afterKey.chars ++ ':' :: (e.toElement.written ++ t)).dropWhile Text.isSpace =
      ':' :: (e.toElement.written ++ t) := by
    rw [e.afterKey.dropWhile_append, dropWhile_isSpace_cons rfl]
  have hall : FindsAll rules (n + 1) [whitespace, string, whitespace, literal [':'], element]
      (e.written ++ t) [.unit, .text e.key.chars, .unit, .text [':'], e.document.toValue] t :=
    .cons (finds_whitespace hkey) (.cons (finds_string e.key _)
      (.cons (finds_whitespace hcolon) (.cons (finds_literal [':'] _)
        (.cons (finds_element he hfound hn ht) .nil))))
  have hfields : Finds rules (n + 1) (fields pairFields) (e.written ++ t) _ t := finds_fields hall
  exact finds_map (Value.fields [keyName, valueName]) hfields

def Entry.unspaced (e : Entry) : Entry := { e with beforeKey := .none }

theorem Entry.dropWhile_written (e : Entry) (u : Text) :
    (e.written ++ u).dropWhile Text.isSpace = e.unspaced.written ++ u := by
  simp only [Entry.written, List.append_assoc]
  rw [e.beforeKey.dropWhile_append]
  rfl

theorem fails_pair_of_brace (u : Text) : Fails rules n pair ('\x7d' :: u) := by
  have hblank : ('\x7d' :: u).dropWhile Text.isSpace = '\x7d' :: u := dropWhile_isSpace_cons rfl u
  exact fails_map _ (fails_fields (.tail (finds_whitespace hblank)
    (.head (fails_string (by decide) u))))

/-! ## Brackets -/

/-- The blank characters behind the first bracket are skipped, and those before the last one. -/
theorem finds_enclosed {first last : Char} {item : Grammar} {inner rest t : Text} {v : Value}
    (h : Finds rules n (sepBy item (literal [','])) (inner.dropWhile Text.isSpace) v rest)
    (hrest : rest.dropWhile Text.isSpace = last :: t) :
    Finds rules n (enclosed first last item) (first :: inner) v t := by
  exact finds_map (Value.item 2) (finds_pipe (.cons (finds_literal [first] inner)
    (.cons (finds_whitespace rfl) (.cons h (.cons (finds_whitespace hrest)
      (.cons (finds_literal [last] t) .nil))))))

theorem finds_enclosed_none {first last : Char} {item : Grammar} (b : Blank)
    (hlast : Text.isSpace last = false) (h : Fails rules n item (last :: t)) :
    Finds rules n (enclosed first last item) (first :: (b.chars ++ [last]) ++ t) (.list []) t := by
  simp only [List.cons_append, List.append_assoc, List.nil_append]
  have hinner : (b.chars ++ last :: t).dropWhile Text.isSpace = last :: t := by
    rw [b.dropWhile_append, dropWhile_isSpace_cons hlast]
  refine finds_enclosed ?_ (dropWhile_isSpace_cons hlast t)
  rw [hinner]
  obtain ⟨error, h⟩ := h
  exact Parser.ending_map_of_success _ (Parser.ending_sepBy_of_failure h)

theorem finds_enclosed_separated {ι : Type} {first last : Char} {item : Grammar}
    {written : ι → Text} {found : ι → Value} (head head' : ι) (others : List ι)
    (hlast : Closed (last :: t)) (hcomma : last ≠ ',')
    (hhead : ∀ u, (written head ++ u).dropWhile Text.isSpace = written head' ++ u)
    (hitem : ∀ i ∈ head' :: others, ∀ u, Closed u →
      Finds rules n item (written i ++ u) (found i) u)
    (hn : others.length < n) :
    Finds rules n (enclosed first last item)
      (first :: (separated written head others ++ [last]) ++ t)
      (.list ((head' :: others).map found)) t := by
  have hspace : Text.isSpace last = false := by
    obtain ⟨c, u, he, hc, _⟩ := hlast
    cases he
    exact hc
  simp only [separated, List.cons_append, List.append_assoc, List.nil_append]
  refine finds_enclosed ?_ (dropWhile_isSpace_cons hspace t)
  rw [hhead]
  apply Parser.ending_map_of_success
  refine Parser.ending_sepBy_flatMap head' others ?_ ?_ ?_ hn
  · exact fun u => ⟨_, finds_literal [','] u⟩
  · exact fails_literal (not_prefix_cons hcomma.symm _ _)
  · intro i hi u hu
    apply hitem i hi
    rcases hu with rfl | ⟨v, rfl⟩
    · exact hlast
    · exact closed_cons rfl rfl v

/-! ## Every document -/

theorem foundIn_bool_true : FoundIn (.bool true) ['t', 'r', 'u', 'e'] := by
  intro n t _ _
  exact finds_orElse _ (finds_map _ (finds_orElse _ (finds_literal _ t)))

theorem foundIn_bool_false : FoundIn (.bool false) ['f', 'a', 'l', 's', 'e'] := by
  intro n t _ _
  have hfalse : Finds rules n (orElse (literal ['t', 'r', 'u', 'e'])
      [literal ['f', 'a', 'l', 's', 'e']]) (['f', 'a', 'l', 's', 'e'] ++ t)
      (.text ['f', 'a', 'l', 's', 'e']) t := by
    apply finds_orElse_cons (fails_literal (not_prefix_cons (by decide) _ _))
    exact finds_orElse _ (finds_literal _ t)
  exact finds_orElse _ (finds_map _ hfalse)

theorem foundIn_number (m : Fin (Number.maxInt + 1)) : FoundIn (.number m) (Text.ofNat m.val) := by
  intro n t ht _
  have hscan := Scanner.scan_numberLiteral_ofNat (Nat.le_of_lt_succ m.isLt) ht
  have hleaf : Finds rules n numberLiteral (Text.ofNat m.val ++ t) (.number (.int m.val)) t := by
    apply finds_leaf
    simp only [Scanner.map, hscan, Outcome.map_success]
  obtain ⟨c, digits, hdigits, hc⟩ := Text.exists_ofNat_eq_cons m.val
  rw [hdigits] at hleaf ⊢
  exact finds_value_of_number hc hleaf

theorem foundIn_string (s : PlainText) : FoundIn (.string s) s.quoted := by
  intro n t _ _
  exact finds_value_of_string (by decide) (by decide) (finds_string s t)

theorem foundIn_emptyList (b : Blank) : FoundIn (.list []) ('[' :: (b.chars ++ [']'])) := by
  intro n t _ hn
  rw [List.length_cons, List.length_append, List.length_singleton] at hn
  obtain ⟨m, rfl⟩ : ∃ m, n = m + 3 := ⟨n - 3, by omega⟩
  exact finds_value_of_list (finds_enclosed_none b rfl (fails_element_of_bracket t))

theorem foundIn_emptyObject (b : Blank) :
    FoundIn (.object []) ('\x7b' :: (b.chars ++ ['\x7d'])) := by
  intro n t _ hn
  obtain ⟨m, rfl⟩ : ∃ m, n = m + 1 := ⟨n - 1, by omega⟩
  apply finds_value_of_object
  exact finds_map Value.toRecord (finds_enclosed_none b rfl (fails_pair_of_brace t))

theorem foundIn_list {first : Element} {others : List Element}
    (hr : ∀ e ∈ first :: others, Renders e.document e.text)
    (h : ∀ e ∈ first :: others, FoundIn e.document e.text) :
    FoundIn (.list ((first :: others).map Element.document))
      ('[' :: (separated Element.written first others ++ [']'])) := by
  intro n t _ hn
  rw [List.length_cons, List.length_append, List.length_singleton] at hn
  obtain ⟨m, rfl⟩ : ∃ m, n = m + 2 := ⟨n - 2, by omega⟩
  have hothers := length_others_le_separated Element.written first others
  have hshort : ∀ e ∈ first :: others, e.text.length < m := by
    intro e he
    have hle : e.written.length ≤ (separated Element.written first others).length :=
      length_le_separated he
    simp only [Element.written, List.length_append] at hle hn
    omega
  have hclosed : Closed (']' :: t) := closed_cons rfl rfl t
  have hlist : Finds rules (m + 1) list
      ('[' :: (separated Element.written first others ++ [']']) ++ t)
      (.list ((first.unspaced :: others).map fun e => e.document.toValue)) t := by
    apply finds_enclosed_separated first first.unspaced others hclosed (by decide)
    · exact first.dropWhile_written (hr first List.mem_cons_self)
    · intro e he u hu
      rcases List.mem_cons.1 he with rfl | he
      · exact finds_element (hr first List.mem_cons_self) (h first List.mem_cons_self)
          (hshort first List.mem_cons_self) hu
      · have he := List.mem_cons_of_mem first he
        exact finds_element (hr e he) (h e he) (hshort e he) hu
    · omega
  apply finds_value_of_list
  rw [Document.toValue, Document.valuesOf_eq_map, List.map_map]
  exact hlist

theorem toRecord_found (entries : List Entry) :
    Value.toRecord (.list (entries.map Entry.found)) =
      (Document.object (entries.map fun e => (e.key, e.document))).toValue := by
  rw [Document.toValue, Document.entriesOf_eq_map, List.map_map]
  change Value.record (Record.ofList ((entries.map Entry.found).map _)) = _
  rw [List.map_map]
  rfl

theorem foundIn_object {first : Entry} {others : List Entry}
    (hr : ∀ e ∈ first :: others, Renders e.document e.text)
    (h : ∀ e ∈ first :: others, FoundIn e.document e.text) :
    FoundIn (.object ((first :: others).map fun e => (e.key, e.document)))
      ('\x7b' :: (separated Entry.written first others ++ ['\x7d'])) := by
  intro n t _ hn
  rw [List.length_cons, List.length_append, List.length_singleton] at hn
  obtain ⟨m, rfl⟩ : ∃ m, n = m + 2 := ⟨n - 2, by omega⟩
  have hothers := length_others_le_separated Entry.written first others
  have hshort : ∀ e ∈ first :: others, e.text.length < m := by
    intro e he
    have hle : e.written.length ≤ (separated Entry.written first others).length :=
      length_le_separated he
    simp only [Entry.written, Element.written, List.length_append, List.length_cons] at hle hn
    omega
  have hclosed : Closed ('\x7d' :: t) := closed_cons rfl rfl t
  have hpairs : Finds rules (m + 1) (enclosed '\x7b' '\x7d' pair)
      ('\x7b' :: (separated Entry.written first others ++ ['\x7d']) ++ t)
      (.list ((first.unspaced :: others).map Entry.found)) t := by
    apply finds_enclosed_separated first first.unspaced others hclosed (by decide)
    · exact first.dropWhile_written
    · intro e he u hu
      rcases List.mem_cons.1 he with rfl | he
      · exact finds_pair (hr first List.mem_cons_self) (h first List.mem_cons_self)
          (hshort first List.mem_cons_self) hu
      · have he := List.mem_cons_of_mem first he
        exact finds_pair (hr e he) (h e he) (hshort e he) hu
    · omega
  apply finds_value_of_object
  rw [← toRecord_found]
  exact finds_map Value.toRecord hpairs

theorem foundIn_of_renders {d : Document} {text : Text} (h : Renders d text) :
    FoundIn d text := by
  induction h with
  | yes => exact foundIn_bool_true
  | no => exact foundIn_bool_false
  | number m => exact foundIn_number m
  | string s => exact foundIn_string s
  | emptyList b => exact foundIn_emptyList b
  | list first others hr ih => exact foundIn_list hr ih
  | emptyObject b => exact foundIn_emptyObject b
  | object first others hr ih => exact foundIn_object hr ih

/-- A document is read back from each of its renderings, in front of any text that begins with no
digit and no point, which is left as it is. Of the entries of an object with one key the last one
counts. -/
theorem value_finds_rendering {d : Document} {text t : Text} {n : Nat} (h : Renders d text)
    (ht : ∀ c ∈ t.head?, c.isDigit = false ∧ c ≠ '.') (hn : text.length < n) :
    (value.parserWithin rules n (text ++ t)).ending = .returns (.success d.toValue t) ∧
    ∀ entries key, d = .object entries → ∃ record, d.toValue = .record record ∧
      Record.get? key record =
        (entries.map fun entry => (entry.1.chars, entry.2.toValue)).reverse.lookup key := by
  constructor
  · apply foundIn_of_renders h n t _ hn
    intro c hc
    obtain ⟨hdigit, hpoint⟩ := ht c hc
    simp [Scanner.isNumeric, hdigit, hpoint]
  · rintro entries key rfl
    refine ⟨_, rfl, ?_⟩
    rw [Record.get?_ofList, Document.entriesOf_eq_map]

def plainKey : PlainText := ⟨['a'], by decide, by decide, by decide⟩

def numberElement : Element where
  before := ⟨['\t'], by simp [Text.isSpace]⟩
  document := .number 7
  text := Text.ofNat 7
  after := .none

def booleanElement : Element where
  before := .none
  document := .bool true
  text := ['t', 'r', 'u', 'e']
  after := ⟨['\n'], by simp [Text.isSpace]⟩

def listEntry : Entry where
  before := ⟨[' '], by simp [Text.isSpace]⟩
  document := .list [.number 7, .bool true]
  text := '[' :: (separated Element.written numberElement [booleanElement] ++ [']'])
  after := .none
  beforeKey := ⟨['\r', '\n'], by simp [Text.isSpace]⟩
  key := plainKey
  afterKey := .none

def textEntry : Entry where
  before := .none
  document := .string plainKey
  text := plainKey.quoted
  after := ⟨[' ', ' '], by simp [Text.isSpace]⟩
  beforeKey := .none
  key := plainKey
  afterKey := ⟨[' '], by simp [Text.isSpace]⟩

theorem renders_listEntry : Renders listEntry.document listEntry.text := by
  refine Renders.list numberElement [booleanElement] ?_
  simp only [List.forall_mem_cons]
  exact ⟨.number 7, .yes, by simp⟩

theorem value_finds_repeated_key :
    (value.parserWithin rules 60 ('\x7b' :: (separated Entry.written listEntry [textEntry] ++
      ['\x7d']) ++ [',', '1'])).ending =
        .returns (.success (Document.object [(plainKey, listEntry.document),
          (plainKey, .string plainKey)]).toValue [',', '1']) ∧
    ∃ record, (Document.object [(plainKey, listEntry.document),
        (plainKey, .string plainKey)]).toValue = .record record ∧
      Record.get? ['a'] record = some (.text ['a']) := by
  have hall : ∀ e ∈ [listEntry, textEntry], Renders e.document e.text := by
    simp only [List.forall_mem_cons]
    exact ⟨renders_listEntry, .string plainKey, by simp⟩
  have ht : ∀ c ∈ [',', '1'].head?, c.isDigit = false ∧ c ≠ '.' := by
    rintro c ⟨⟩
    exact ⟨rfl, by decide⟩
  have h := value_finds_rendering (n := 60) (.object listEntry [textEntry] hall) ht (by decide)
  refine ⟨h.1, ?_⟩
  obtain ⟨record, hrecord, hget⟩ := h.2 _ ['a'] rfl
  exact ⟨record, hrecord, hget⟩

end TextGrammar.Json
