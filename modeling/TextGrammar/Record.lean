import TextGrammar.Text.Basic

/-!
# Records

Values by name. The entries are kept in the order of their keys, so two records with the same
fields are equal.
-/

namespace TextGrammar

abbrev Record (α : Type) := List (Text × α)

namespace Record

variable {α : Type}

def get? (key : Text) : Record α → Option α
  | [] => none
  | (k, value) :: entries => if key = k then some value else get? key entries

/-- A value under a key that is present takes the place of the old one. -/
def insert (key : Text) (value : α) : Record α → Record α
  | [] => [(key, value)]
  | (k, old) :: entries =>
    if key = k then (key, value) :: entries
    else if key < k then (key, value) :: (k, old) :: entries
    else (k, old) :: insert key value entries

def erase (key : Text) : Record α → Record α
  | [] => []
  | (k, value) :: entries => if key = k then entries else (k, value) :: erase key entries

def keys (record : Record α) : List Text := record.map Prod.fst

/-- The entries are inserted one after the other, so of equal keys the last one counts. -/
def ofList (entries : List (Text × α)) : Record α :=
  entries.foldl (fun record (key, value) => insert key value record) []

theorem get?_insert (key : Text) (value : α) (record : Record α) (other : Text) :
    get? other (insert key value record) =
      if other = key then some value else get? other record := by
  induction record with
  | nil => rfl
  | cons entry entries ih =>
    obtain ⟨k, old⟩ := entry
    by_cases hk : key = k
    · subst hk
      simp only [insert, get?, if_true]
      split <;> rfl
    · by_cases hlt : key < k
      · simp [insert, get?, hk, hlt]
      · simp only [insert, get?, hk, hlt, if_false, ih]
        by_cases ho : other = k
        · simp [ho, Ne.symm hk]
        · simp [ho]

theorem mem_keys_iff {record : Record α} {key : Text} :
    key ∈ record.keys ↔ ∃ value, record.get? key = some value := by
  induction record with
  | nil => simp [keys, get?]
  | cons entry entries ih =>
    obtain ⟨k, value⟩ := entry
    by_cases hk : key = k
    · simp [keys, get?, hk]
    · simpa [keys, get?, hk] using ih

theorem mem_keys_insert_iff {record : Record α} {key other : Text} {value : α} :
    other ∈ (record.insert key value).keys ↔ other = key ∨ other ∈ record.keys := by
  rw [mem_keys_iff, mem_keys_iff, get?_insert]
  by_cases h : other = key
  · simp [h]
  · simp [h]

/-- The keys stand in order, so none of them is there twice. -/
def Ordered (record : Record α) : Prop := record.keys.Pairwise (· < ·)

theorem ordered_nil : Ordered ([] : Record α) := .nil

theorem Ordered.insert {record : Record α} (h : record.Ordered) (key : Text) (value : α) :
    (record.insert key value).Ordered := by
  induction record with
  | nil => exact List.pairwise_singleton _ _
  | cons entry entries ih =>
    obtain ⟨k, old⟩ := entry
    obtain ⟨hfirst, hothers⟩ := List.pairwise_cons.1 h
    by_cases hk : key = k
    · subst hk
      rw [Record.insert, if_pos rfl]
      exact h
    · rw [Record.insert, if_neg hk]
      by_cases hlt : key < k
      · rw [if_pos hlt]
        refine List.pairwise_cons.2 ⟨?_, h⟩
        intro other hother
        rcases List.mem_cons.1 hother with rfl | hother
        · exact hlt
        · exact List.lt_trans hlt (hfirst other hother)
      · rw [if_neg hlt]
        refine List.pairwise_cons.2 ⟨?_, ih hothers⟩
        intro other hother
        rcases mem_keys_insert_iff.1 hother with rfl | hother
        · exact (List.le_iff_lt_or_eq.1 (List.not_lt.1 hlt)).resolve_right (Ne.symm hk)
        · exact hfirst other hother

end Record

end TextGrammar
