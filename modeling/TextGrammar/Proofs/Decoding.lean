import TextGrammar.Proofs.Ends
import TextGrammar.Source

/-!
# Decoding encoded texts

A source that delivers a text in UTF-8 is decoded into as many characters as the text has. A
character of one byte comes back as it is; of a longer one only the last six bits do. So the text
itself comes back if its characters have one byte or lie between U+00C0 and U+00FF, and for every
other text there is a parser that tells the two apart.
-/

namespace TextGrammar

namespace Source

/-- The character that is found for the encoding of `c`. -/
def decoded (c : Char) : Char :=
  if c.toNat < 0x80 then c
  else if c.toNat < 0x800 then Char.ofNat (0xc0 + c.toNat % 0x40)
  else Char.ofNat (0x80 + c.toNat % 0x40)

/-- The characters that are found again. -/
def Recovered (c : Char) : Prop := c.toNat < 0x80 ∨ 0xc0 ≤ c.toNat ∧ c.toNat < 0x100

theorem toNat_ofNat_of_lt {n : Nat} (h : n < 0x100) : (Char.ofNat n).toNat = n := by
  have hvalid : n.isValidChar := Or.inl (by omega)
  rw [Char.ofNat, dif_pos hvalid]
  rfl

theorem decoded_eq_self_iff (c : Char) : decoded c = c ↔ Recovered c := by
  unfold decoded Recovered
  split
  · next h => simp [h]
  · next h =>
    have hmod : c.toNat % 0x40 < 0x40 := Nat.mod_lt _ (by decide)
    rw [← Char.toNat_inj]
    split
    · rw [toNat_ofNat_of_lt (by omega)]
      omega
    · rw [toNat_ofNat_of_lt (by omega)]
      omega

theorem lead_ofNat {n : Nat} (h : n < 0x100) :
    lead (UInt8.ofNat n) =
      if n < 0x80 then .single (Char.ofUInt8 (UInt8.ofNat n))
      else if n < 0xc0 then .malformed
      else if n < 0xe0 then .begins 0xc0 1
      else if n < 0xf0 then .begins 0x80 2
      else if n < 0xf8 then .begins 0x80 3
      else .malformed := by
  have hn : (UInt8.ofNat n).toNat = n := UInt8.toNat_ofNat_of_lt h
  simp only [lead, UInt8.lt_iff_toNat_lt, hn]
  rfl

theorem isContinuation_ofNat {k : Nat} (h : k < 0x40) :
    isContinuation (UInt8.ofNat (k + 0x80)) = true := by
  have hall : ∀ k : Fin 0x40, isContinuation (UInt8.ofNat (k + 0x80)) = true := by decide
  exact hall ⟨k, h⟩

theorem assemble_ofNat {base : UInt8} {k : Nat} (hbase : base = 0xc0 ∨ base = 0x80)
    (h : k < 0x40) : assemble base (UInt8.ofNat (k + 0x80)) = Char.ofNat (base.toNat + k) := by
  have hall : ∀ base : UInt8, base = 0xc0 ∨ base = 0x80 → ∀ k : Fin 0x40,
      assemble base (UInt8.ofNat (k + 0x80)) = Char.ofNat (base.toNat + k) := by
    rintro base (rfl | rfl) <;> decide
  exact hall base hbase ⟨k, h⟩

namespace Reading

variable {base : UInt8} {n i j k : Nat}

theorem afterByte_last (hbase : base = 0xc0 ∨ base = 0x80) (h : k < 0x40) :
    (within base 1).afterByte (UInt8.ofNat (k + 0x80)) =
      .inr (.char (Char.ofNat (base.toNat + k))) := by
  rw [afterByte, isContinuation_ofNat h, assemble_ofNat hbase h]
  rfl

theorem afterByte_step (h : k < 0x40) (following : Nat) :
    (within base (following + 2)).afterByte (UInt8.ofNat (k + 0x80)) =
      .inl (within base (following + 1)) := by
  rw [afterByte, isContinuation_ofNat h]
  rfl

theorem decode_ofNat (h : n < 0x80) (s : Source) :
    start.decode (.byte (UInt8.ofNat n) :: s) = (.char (Char.ofNat n), s) := by
  have hall : ∀ k : Fin 0x80, Char.ofUInt8 (UInt8.ofNat k) = Char.ofNat k := by decide
  rw [decode_cons, after, afterByte, lead_ofNat (by omega), if_pos h, ← hall ⟨n, h⟩]

theorem decode_ofNat_two (hn : n < 0x20) (hk : k < 0x40) (s : Source) :
    start.decode (.byte (UInt8.ofNat (n + 0xc0)) :: .byte (UInt8.ofNat (k + 0x80)) :: s) =
      (.char (Char.ofNat (0xc0 + k)), s) := by
  rw [decode_cons, after, afterByte, lead_ofNat (by omega), if_neg (by omega), if_neg (by omega),
    if_pos (by omega)]
  simp only [decode_cons, after, afterByte_last (Or.inl rfl) hk]
  rfl

theorem decode_ofNat_three (hn : n < 0x10) (hj : j < 0x40) (hk : k < 0x40) (s : Source) :
    start.decode (.byte (UInt8.ofNat (n + 0xe0)) :: .byte (UInt8.ofNat (j + 0x80)) ::
      .byte (UInt8.ofNat (k + 0x80)) :: s) = (.char (Char.ofNat (0x80 + k)), s) := by
  rw [decode_cons, after, afterByte, lead_ofNat (by omega), if_neg (by omega), if_neg (by omega),
    if_neg (by omega), if_pos (by omega)]
  simp only [decode_cons, after, afterByte_step hj, afterByte_last (Or.inr rfl) hk]
  rfl

theorem decode_ofNat_four (hn : n < 0x8) (hi : i < 0x40) (hj : j < 0x40) (hk : k < 0x40)
    (s : Source) :
    start.decode (.byte (UInt8.ofNat (n + 0xf0)) :: .byte (UInt8.ofNat (i + 0x80)) ::
      .byte (UInt8.ofNat (j + 0x80)) :: .byte (UInt8.ofNat (k + 0x80)) :: s) =
      (.char (Char.ofNat (0x80 + k)), s) := by
  rw [decode_cons, after, afterByte, lead_ofNat (by omega), if_neg (by omega), if_neg (by omega),
    if_neg (by omega), if_neg (by omega), if_pos (by omega)]
  simp only [decode_cons, after, afterByte_step hi, afterByte_step hj,
    afterByte_last (Or.inr rfl) hk]
  rfl

theorem decode_encoded (c : Char) (s : Source) :
    start.decode ((String.utf8EncodeChar c).map .byte ++ s) = (.char (decoded c), s) := by
  have hsize : c.val.toNat = c.toNat := rfl
  unfold String.utf8EncodeChar decoded
  simp only [hsize]
  by_cases h1 : c.toNat < 0x80
  · rw [if_pos (show c.toNat ≤ 0x7f by omega), if_pos h1]
    have hdecode := decode_ofNat h1 s
    rwa [Char.ofNat_toNat] at hdecode
  rw [if_neg (show ¬ c.toNat ≤ 0x7f by omega), if_neg h1]
  by_cases h2 : c.toNat < 0x800
  · rw [if_pos (show c.toNat ≤ 0x7ff by omega), if_pos h2]
    exact decode_ofNat_two (Nat.mod_lt _ (by decide)) (Nat.mod_lt _ (by decide)) s
  rw [if_neg (show ¬ c.toNat ≤ 0x7ff by omega), if_neg h2]
  by_cases h3 : c.toNat < 0x10000
  · rw [if_pos (show c.toNat ≤ 0xffff by omega)]
    exact decode_ofNat_three (Nat.mod_lt _ (by decide)) (Nat.mod_lt _ (by decide))
      (Nat.mod_lt _ (by decide)) s
  · rw [if_neg (show ¬ c.toNat ≤ 0xffff by omega)]
    exact decode_ofNat_four (Nat.mod_lt _ (by decide)) (Nat.mod_lt _ (by decide))
      (Nat.mod_lt _ (by decide)) (Nat.mod_lt _ (by decide)) s

end Reading

theorem next_encoded (c : Char) (s : Source) :
    next ((String.utf8EncodeChar c).map .byte ++ s) = (some (decoded c), s) := by
  rw [next_eq, Reading.decode_encoded]

theorem next_nil : next [] = (none, []) := next_eq []

theorem readText_ofText (s : Text) : readText (ofText s) = s.map decoded := by
  induction s with
  | nil =>
    change readText [] = []
    rw [readText_eq, next_nil]
  | cons c s ih =>
    have hnext : next (ofText (c :: s)) = (some (decoded c), ofText s) := by
      unfold ofText
      rw [List.flatMap_cons, List.map_append]
      exact next_encoded c _
    rw [readText_eq, hnext, List.map_cons, ← ih]

theorem map_decoded_eq_self_iff (s : Text) : s.map decoded = s ↔ ∀ c ∈ s, Recovered c := by
  induction s with
  | nil => simp
  | cons c s ih =>
    rw [List.map_cons, List.cons.injEq, decoded_eq_self_iff, ih, List.forall_mem_cons]

end Source

namespace Parser

open Source

variable {α : Type}

theorem ending_parseSource (p : Parser α) (source : Source) :
    (p.parseSource source).ending = (p.parse source.readText).ending := by
  change (Run.note _ >>= fun _ => p.parse source.readText).ending = _
  rw [Run.ending_bind]
  rfl

/-- The source of a text is read as the decoded text, and parsing it agrees with parsing the text
exactly where all of its characters are recovered. -/
theorem parseSource_ofText (s : Text) :
    (ofText s).readText = s.map decoded ∧
    (∀ (α : Type) (p : Parser α),
      (p.parseSource (ofText s)).ending = (p.parse (s.map decoded)).ending) ∧
    ((ofText s).readText = s ↔ ∀ c ∈ s, Recovered c) ∧
    ((∀ (α : Type) (p : Parser α), (p.parseSource (ofText s)).ending = (p.parse s).ending) ↔
      ∀ c ∈ s, Recovered c) := by
  have hread := readText_ofText s
  have hends : ∀ (α : Type) (p : Parser α),
      (p.parseSource (ofText s)).ending = (p.parse (s.map decoded)).ending := by
    intro α p
    rw [ending_parseSource, hread]
  refine ⟨hread, hends, ?_, ?_⟩
  · rw [hread, map_decoded_eq_self_iff]
  · rw [← map_decoded_eq_self_iff]
    constructor
    · intro h
      -- The parser that returns all of the text tells different texts apart.
      have hall := h Text (.ofScanner .breakToEnd)
      rw [hends] at hall
      exact Except.ok.inj (Ending.returns.inj hall)
    · intro h α p
      rw [hends, h]

/-- The euro sign takes three bytes, and a not sign is found in its place. -/
theorem parseSource_misreads_euro_sign :
    ofText ['€'] = [.byte 0xe2, .byte 0x82, .byte 0xac] ∧
      (ofText ['€']).readText = ['¬'] ∧
      ((ofScanner .breakToEnd).parseSource (ofText ['€'])).ending = .returns (.ok ['¬']) ∧
      ((ofScanner .breakToEnd).parse ['€']).ending = .returns (.ok ['€']) ∧
      ['¬'] ≠ ['€'] := by
  have hread : (ofText ['€']).readText = ['¬'] := readText_ofText ['€']
  refine ⟨rfl, hread, ?_, rfl, by decide⟩
  rw [ending_parseSource, hread]
  rfl

end Parser

end TextGrammar
