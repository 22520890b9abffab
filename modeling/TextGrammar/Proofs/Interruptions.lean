import TextGrammar.Proofs.Decoding

/-!
# Sources with failing reads

A failing read drops the bytes of the character that is being read, so nothing is lost where it
comes between two characters: the source is then decoded like the one without failures. Wherever the
failures are, each request for a character ends after as many reads as the source has answers left
and one more. To count the reads, a request is taken apart into its single reads.
-/

namespace TextGrammar

namespace Source

/-! ## Failures between characters -/

/-- Delivers the text in UTF-8, with any number of failures before, between and after the
characters. -/
inductive Interrupted : Text → Source → Prop
  | nil : Interrupted [] []
  | failed {s : Text} {source : Source} : Interrupted s source → Interrupted s (.failed :: source)
  | char {c : Char} {s : Text} {source : Source} : Interrupted s source →
    Interrupted (c :: s) ((String.utf8EncodeChar c).map .byte ++ source)

variable {c : Char} {s : Text} {source other : Source}

theorem interrupted_ofText (s : Text) : Interrupted s (ofText s) := by
  induction s with
  | nil => exact .nil
  | cons c s ih =>
    unfold ofText
    rw [List.flatMap_cons, List.map_append]
    exact .char ih

theorem next_failed (source : Source) : next (.failed :: source) = next source :=
  next_eq (.failed :: source)

theorem Interrupted.next_nil (h : Interrupted [] source) : next source = (none, []) := by
  generalize hs : ([] : Text) = s at h
  induction h with
  | nil => exact Source.next_nil
  | failed _ ih =>
    rw [next_failed]
    exact ih hs
  | char _ _ => cases hs

theorem Interrupted.next_cons (h : Interrupted (c :: s) source) :
    ∃ rest, next source = (some (decoded c), rest) ∧ Interrupted s rest := by
  generalize hs : c :: s = text at h
  induction h with
  | nil => cases hs
  | failed _ ih =>
    rw [next_failed]
    exact ih hs
  | char hrest _ =>
    cases hs
    exact ⟨_, next_encoded c _, hrest⟩

theorem Interrupted.readText_eq (h : Interrupted s source) : readText source = s.map decoded := by
  induction s generalizing source with
  | nil =>
    rw [readText_eq, h.next_nil]
    rfl
  | cons c s ih =>
    obtain ⟨rest, hnext, hrest⟩ := h.next_cons
    rw [readText_eq, hnext, List.map_cons, ← ih hrest]

theorem nextChars_nil (times : Nat) : nextChars times [] = List.replicate times none := by
  induction times with
  | zero => rfl
  | succ times ih =>
    rw [nextChars, next_nil, ih]
    rfl

theorem Interrupted.nextChars_nil (h : Interrupted [] source) (times : Nat) :
    nextChars times source = List.replicate times none := by
  cases times with
  | zero => rfl
  | succ times =>
    rw [nextChars, h.next_nil, Source.nextChars_nil]
    rfl

theorem Interrupted.nextChars_eq (h : Interrupted s source) (times : Nat) :
    nextChars (s.length + times) source =
      s.map (fun c => some (decoded c)) ++ List.replicate times none := by
  induction s generalizing source with
  | nil =>
    rw [List.length_nil, Nat.zero_add]
    exact h.nextChars_nil times
  | cons c s ih =>
    obtain ⟨rest, hnext, hrest⟩ := h.next_cons
    rw [List.length_cons, Nat.add_right_comm, nextChars, hnext, ih hrest]
    rfl

theorem Interrupted.nextChars_congr (h : Interrupted s source) (h' : Interrupted s other)
    (times : Nat) : nextChars times source = nextChars times other := by
  induction times generalizing s source other with
  | zero => rfl
  | succ times ih =>
    cases s with
    | nil => rw [h.nextChars_nil, h'.nextChars_nil]
    | cons c s =>
      obtain ⟨rest, hnext, hrest⟩ := h.next_cons
      obtain ⟨rest', hnext', hrest'⟩ := h'.next_cons
      rw [nextChars, nextChars, hnext, hnext', ih hrest hrest']

/-! ## Single reads -/

def read : Source → Read × Source
  | [] => (.ended, [])
  | r :: source => (r, source)

namespace Reading

def charFrom (reading : Reading) (source : Source) : Option Char × Source :=
  match reading.decode source with
  | (.char c, rest) => (some c, rest)
  | (.ended, rest) => (none, rest)
  | (.failed, rest) => next rest

/-- Goes on reading for the request, but stops without an answer after `reads` reads. -/
def charWithin : (reads : Nat) → Reading → Source → Option (Option Char × Source)
  | 0, _, _ => none
  | reads + 1, reading, source =>
    match reading.after (read source).1 with
    | .inl reading => charWithin reads reading (read source).2
    | .inr (.char c) => some (some c, (read source).2)
    | .inr .ended => some (none, (read source).2)
    | .inr .failed => charWithin reads start (read source).2

theorem charFrom_start (source : Source) : start.charFrom source = next source :=
  (next_eq source).symm

theorem charFrom_cons (reading : Reading) (r : Read) (source : Source) :
    reading.charFrom (r :: source) =
      match reading.after r with
      | .inl reading => reading.charFrom source
      | .inr (.char c) => (some c, source)
      | .inr .ended => (none, source)
      | .inr .failed => start.charFrom source := by
  rw [charFrom, decode_cons]
  cases reading.after r with
  | inl reading => rfl
  | inr answer =>
    cases answer with
    | failed => exact (charFrom_start source).symm
    | _ => rfl

theorem charWithin_of_lt {reads : Nat} (reading : Reading) (h : source.length < reads) :
    reading.charWithin reads source = some (reading.charFrom source) := by
  induction source generalizing reads reading with
  | nil =>
    obtain ⟨reads, rfl⟩ := Nat.exists_eq_succ_of_ne_zero (Nat.ne_zero_of_lt h)
    cases reading <;> rfl
  | cons r source ih =>
    obtain ⟨reads, rfl⟩ := Nat.exists_eq_succ_of_ne_zero (Nat.ne_zero_of_lt h)
    rw [charFrom_cons, charWithin, read]
    cases reading.after r with
    | inl reading => exact ih reading (Nat.lt_of_succ_lt_succ h)
    | inr answer =>
      cases answer with
      | failed => exact ih start (Nat.lt_of_succ_lt_succ h)
      | _ => rfl

end Reading

theorem charWithin_start_of_lt {reads : Nat} (h : source.length < reads) :
    Reading.start.charWithin reads source = some (next source) := by
  rw [Reading.charWithin_of_lt .start h, Reading.charFrom_start]

/-- Requests characters up to the first request that finds none, but stops without a text after
`requests` requests, or if one of them takes more than `reads` reads. -/
def textWithin (reads : Nat) : (requests : Nat) → Source → Option Text
  | 0, _ => none
  | requests + 1, source =>
    match Reading.start.charWithin reads source with
    | none => none
    | some (none, _) => some []
    | some (some c, rest) => (textWithin reads requests rest).map (c :: ·)

theorem textWithin_of_lt {reads requests : Nat} (hreads : source.length < reads)
    (hrequests : source.length < requests) :
    textWithin reads requests source = some (readText source) := by
  induction requests generalizing source with
  | zero => exact absurd hrequests (Nat.not_lt_zero _)
  | succ requests ih =>
    rw [textWithin, charWithin_start_of_lt hreads, readText_eq]
    rcases hnext : next source with ⟨_ | c, rest⟩
    · rfl
    · have hlt := next_length_lt hnext
      dsimp only
      rw [ih (Nat.lt_trans hlt hreads) (by omega)]
      rfl

end Source

open Source

/-- Failing reads before, between and after the characters of a text lose nothing: the same text is
read, requests find the same characters and then none, and parsers run alike. On every source, with
whatever bytes, failures and ends, a request for a character is answered after as many reads as
there are answers left and one more, and all of the text is read after as many requests. -/
theorem failures_between_characters_lose_nothing :
    (∀ s source, Interrupted s source →
      source.readText = (ofText s).readText ∧
      (∀ times, nextChars times source = nextChars times (ofText s)) ∧
      (∀ times, nextChars (s.length + times) source =
        s.map (fun c => some (decoded c)) ++ List.replicate times none) ∧
      ∀ (α : Type) (p : Parser α), p.parseSource source = p.parseSource (ofText s)) ∧
    ∀ source : Source,
      (∀ reads, source.length + 1 ≤ reads →
        Reading.start.charWithin reads source = some (next source)) ∧
      ∀ reads requests, source.length + 1 ≤ reads → source.length + 1 ≤ requests →
        textWithin reads requests source = some source.readText := by
  constructor
  · intro s source h
    have hread : source.readText = (ofText s).readText := by
      rw [h.readText_eq, readText_ofText]
    refine ⟨hread, h.nextChars_congr (interrupted_ofText s), h.nextChars_eq, fun α p => ?_⟩
    unfold Parser.parseSource
    rw [hread]
  · intro source
    exact ⟨fun reads => charWithin_start_of_lt, fun reads requests => textWithin_of_lt⟩

/-- A character of three bytes between failures, and one of a single byte. -/
theorem failures_between_characters_lose_nothing_not_sign :
    Interrupted ['€', 'a']
      [.failed, .byte 0xe2, .byte 0x82, .byte 0xac, .failed, .failed, .byte 0x61, .failed] ∧
    nextChars 3 [.failed, .byte 0xe2, .byte 0x82, .byte 0xac, .failed, .failed, .byte 0x61,
      .failed] = [some '¬', some 'a', none] ∧
    Reading.start.charWithin 9 [.failed, .byte 0xe2, .byte 0x82, .byte 0xac, .failed, .failed,
      .byte 0x61, .failed] = some (some '¬', [.failed, .failed, .byte 0x61, .failed]) := by
  have hinterrupted : Interrupted ['€', 'a']
      [.failed, .byte 0xe2, .byte 0x82, .byte 0xac, .failed, .failed, .byte 0x61, .failed] :=
    .failed (.char (c := '€') (.failed (.failed (.char (c := 'a') (.failed .nil)))))
  refine ⟨hinterrupted, ?_, ?_⟩
  · exact (failures_between_characters_lose_nothing.1 _ _ hinterrupted).2.2.1 1
  · rw [(failures_between_characters_lose_nothing.2 _).1 9 (by decide), next_failed]
    exact congrArg some (next_encoded '€' _)

end TextGrammar
