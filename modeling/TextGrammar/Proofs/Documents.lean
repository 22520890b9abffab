import TextGrammar.Json

/-!
# JSON documents and their renderings

A document is a tree of booleans, numbers, strings, lists and objects. It is rendered as a text with
any blank characters around the elements, keys, colons and commas inside its brackets, and it
stands for a value in which an object is a record.
-/

namespace TextGrammar

namespace Record

variable {α : Type}

theorem get?_foldl_insert (entries : List (Text × α)) (record : Record α) (key : Text) :
    get? key (entries.foldl (fun record (key, value) => insert key value record) record) =
      (entries.reverse.lookup key).or (get? key record) := by
  induction entries generalizing record with
  | nil => rfl
  | cons entry entries ih =>
    obtain ⟨k, value⟩ := entry
    rw [List.foldl_cons, ih, List.reverse_cons, List.lookup_append, get?_insert, Option.or_assoc]
    by_cases hk : key = k
    · subst hk
      simp
    · have hne : (key == k) = false := beq_eq_false_iff_ne.2 hk
      simp [hk, List.lookup_cons, hne]

theorem get?_ofList (entries : List (Text × α)) (key : Text) :
    get? key (ofList entries) = entries.reverse.lookup key := by
  unfold ofList
  rw [get?_foldl_insert]
  exact Option.or_none

end Record

namespace Json

/-- A text that a string holds as it is. -/
structure PlainText where
  chars : Text
  noQuote : '"' ∉ chars
  noBackslash : '\\' ∉ chars
  /-- No text is longer than the largest word. -/
  length_lt : chars.length < Text.wordLimit

inductive Document where
  | bool (b : Bool)
  | number (n : Fin (Number.maxInt + 1))
  | string (s : PlainText)
  | list (items : List Document)
  | object (entries : List (PlainText × Document))

namespace Document

mutual

/-- The value that the document stands for. Of equal keys in an object the last one counts. -/
def toValue : Document → Value
  | bool b => .bool b
  | number n => .number (.int n.val)
  | string s => .text s.chars
  | list items => .list (valuesOf items)
  | object entries => .record (Record.ofList (entriesOf entries))

def valuesOf : List Document → List Value
  | [] => []
  | item :: items => toValue item :: valuesOf items

def entriesOf : List (PlainText × Document) → List (Text × Value)
  | [] => []
  | entry :: entries => entryOf entry :: entriesOf entries

def entryOf : PlainText × Document → Text × Value
  | (key, item) => (key.chars, toValue item)

end

theorem valuesOf_eq_map (items : List Document) : valuesOf items = items.map toValue := by
  induction items with
  | nil => rfl
  | cons item items ih => rw [valuesOf, ih, List.map_cons]

theorem entriesOf_eq_map (entries : List (PlainText × Document)) :
    entriesOf entries = entries.map fun entry => (entry.1.chars, entry.2.toValue) := by
  induction entries with
  | nil => rfl
  | cons entry entries ih =>
    obtain ⟨key, item⟩ := entry
    rw [entriesOf, entryOf, ih, List.map_cons]

end Document

structure Blank where
  chars : Text
  isSpace : ∀ c ∈ chars, Text.isSpace c = true

def Blank.none : Blank := ⟨[], by simp⟩

def PlainText.quoted (s : PlainText) : Text := '"' :: (s.chars ++ ['"'])

/-- A document as it is written in a list, with the blank characters around it. -/
structure Element where
  before : Blank
  document : Document
  text : Text
  after : Blank

def Element.written (e : Element) : Text := e.before.chars ++ (e.text ++ e.after.chars)

/-- A document as it is written in an object, behind its key. -/
structure Entry extends Element where
  beforeKey : Blank
  key : PlainText
  afterKey : Blank

def Entry.written (e : Entry) : Text :=
  e.beforeKey.chars ++ (e.key.quoted ++ (e.afterKey.chars ++ ':' :: e.toElement.written))

def separated {ι : Type} (written : ι → Text) (first : ι) (others : List ι) : Text :=
  written first ++ others.flatMap fun item => ',' :: written item

theorem length_le_separated {ι : Type} {written : ι → Text} {first item : ι} {others : List ι}
    (h : item ∈ first :: others) :
    (written item).length ≤ (separated written first others).length := by
  unfold separated
  rw [List.length_append]
  rcases List.mem_cons.1 h with rfl | h
  · omega
  · obtain ⟨before, after, rfl⟩ := List.append_of_mem h
    rw [List.flatMap_append, List.flatMap_cons, List.length_append, List.length_append,
      List.length_cons]
    omega

theorem length_others_le_separated {ι : Type} (written : ι → Text) (first : ι)
    (others : List ι) : others.length ≤ (separated written first others).length := by
  unfold separated
  rw [List.length_append]
  induction others with
  | nil => exact Nat.zero_le _
  | cons item others ih =>
    rw [List.flatMap_cons, List.length_append, List.length_cons, List.length_cons]
    omega

/-- The texts that a document may be written as. -/
inductive Renders : Document → Text → Prop
  | yes : Renders (.bool true) ['t', 'r', 'u', 'e']
  | no : Renders (.bool false) ['f', 'a', 'l', 's', 'e']
  | number (n : Fin (Number.maxInt + 1)) : Renders (.number n) (Text.ofNat n)
  | string (s : PlainText) : Renders (.string s) s.quoted
  | emptyList (b : Blank) : Renders (.list []) ('[' :: (b.chars ++ [']']))
  | list (first : Element) (others : List Element) :
    (∀ e ∈ first :: others, Renders e.document e.text) →
    Renders (.list ((first :: others).map Element.document))
      ('[' :: (separated Element.written first others ++ [']']))
  | emptyObject (b : Blank) : Renders (.object []) ('\x7b' :: (b.chars ++ ['\x7d']))
  | object (first : Entry) (others : List Entry) :
    (∀ e ∈ first :: others, Renders e.document e.text) →
    Renders (.object ((first :: others).map fun e => (e.key, e.document)))
      ('\x7b' :: (separated Entry.written first others ++ ['\x7d']))

end Json

end TextGrammar
