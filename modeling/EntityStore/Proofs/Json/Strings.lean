import EntityStore.Json.Printer
import EntityStore.Json.Reader

/-!
# Strings read back from JSON

A string is written with escapes where it has quotes, backslashes and control characters. Each
character is read back as one piece, and the pieces are decoded to the characters they were. No
control character is left in the text, so a string never breaks the line that it is on.
-/

namespace EntityStore.Json

/-- The control characters that have an escape of their own. -/
def shortControls : List Char := ['\n', '\r', '\t', '\x08', '\x0c']

/-- The piece that a character is read back as. Control characters are written by their numbers
where they have no escape of their own. -/
def pieceOf (c : Char) : Piece :=
  if c.toNat < 0x20 ∧ c ∉ shortControls then .unit c.toNat else .char c

/-- A character that stands for itself. -/
theorem readPieces?_plain {c : Char} (hquote : c ≠ '"') (hslash : c ≠ '\\') (cs : List Char) :
    readPieces? (c :: cs) = if c.toNat < 0x20 then none else
      (readPieces? cs).map fun (pieces, r) => (.char c :: pieces, r) := by
  rw [readPieces?.eq_def]
  split
  · next h => cases h
  · next h => exact absurd (List.cons.inj h).1 hquote
  · next h => exact absurd (List.cons.inj h).1 hslash
  · next h => exact absurd (List.cons.inj h).1 hslash
  · next h =>
    obtain ⟨rfl, rfl⟩ := List.cons.inj h
    simp only [hslash, or_false]

/-- A character that is escaped by a letter. -/
theorem readPieces?_escape {e : Char} (he : e ≠ 'u') (cs : List Char) :
    readPieces? ('\\' :: e :: cs) = (shortEscape? e).bind fun c =>
      (readPieces? cs).map fun (pieces, r) => (.char c :: pieces, r) := by
  rw [readPieces?]
  · cases shortEscape? e with
    | none => rfl
    | some c => cases readPieces? cs <;> rfl
  · intro _ _ _ _ _ heq
    exact absurd heq he

/-- A digit of a number below sixteen. -/
theorem hexDigit?_of_lt {n : Nat} (hn : n < 16) :
    hexDigit? (if n < 10 then Char.ofNat (48 + n) else Char.ofNat (87 + n)) = some n := by
  revert n
  decide

/-- A code unit is read back from its escape. -/
theorem readPieces?_unitEscape {c : Char} (hc : c.toNat < 0x20) (rest : List Char) :
    readPieces? (unitEscape c ++ rest)
      = (readPieces? rest).map fun (pieces, rest) => (.unit c.toNat :: pieces, rest) := by
  have hhigh := hexDigit?_of_lt (n := c.toNat / 16) (by omega)
  have hlow := hexDigit?_of_lt (n := c.toNat % 16) (by omega)
  have hzero : hexDigit? '0' = some 0 := rfl
  have hunit : ((0 * 16 + 0) * 16 + c.toNat / 16) * 16 + c.toNat % 16 = c.toNat := by omega
  unfold unitEscape
  simp only [List.cons_append, List.nil_append, readPieces?, hzero, hhigh, hlow, hunit, Option.bind_eq_bind,
    Option.bind_some]
  cases readPieces? rest <;> rfl

/-- How a character is written: with a backslash and a letter, by its number, or as it is. -/
theorem escapeChar_cases (c : Char) :
    (∃ e, escapeChar c = ['\\', e] ∧ 0x20 ≤ e.toNat ∧ e ≠ 'u' ∧ shortEscape? e = some c ∧
        pieceOf c = .char c) ∨
      (c.toNat < 0x20 ∧ escapeChar c = unitEscape c ∧ pieceOf c = .unit c.toNat) ∨
      (0x20 ≤ c.toNat ∧ c ≠ '"' ∧ c ≠ '\\' ∧ escapeChar c = [c] ∧ pieceOf c = .char c) := by
  by_cases hshort : c ∈ '"' :: '\\' :: shortControls
  · left
    simp only [shortControls, List.mem_cons, List.not_mem_nil, or_false] at hshort
    rcases hshort with rfl | rfl | rfl | rfl | rfl | rfl | rfl <;>
    exact ⟨_, rfl, by decide, by decide, rfl, rfl⟩
  · simp only [shortControls, List.mem_cons, List.not_mem_nil, or_false, not_or] at hshort
    obtain ⟨hquote, hslash, hn, hr, ht, hb, hf⟩ := hshort
    have hcontrols : c ∉ shortControls := by simp [shortControls, hn, hr, ht, hb, hf]
    have hescape : escapeChar c = if c.toNat < 0x20 then unitEscape c else [c] := by
      unfold escapeChar
      split <;> first | rfl | contradiction
    by_cases hlow : c.toNat < 0x20
    · rw [if_pos hlow] at hescape
      exact .inr (.inl ⟨hlow, hescape, if_pos ⟨hlow, hcontrols⟩⟩)
    · rw [if_neg hlow] at hescape
      exact .inr (.inr ⟨Nat.le_of_not_lt hlow, hquote, hslash, hescape, if_neg fun h => hlow h.1⟩)

/-- **A character is read back from its escape**, whatever follows. -/
theorem readPieces?_escapeChar (c : Char) (rest : List Char) :
    readPieces? (escapeChar c ++ rest)
      = (readPieces? rest).map fun (pieces, rest) => (pieceOf c :: pieces, rest) := by
  rcases escapeChar_cases c with ⟨e, hescape, -, hu, hshort, hpiece⟩ | ⟨hlow, hescape, hpiece⟩ |
    ⟨hhigh, hquote, hslash, hescape, hpiece⟩
  · rw [hescape, hpiece, List.cons_append, List.singleton_append, readPieces?_escape hu, hshort,
      Option.bind_some]
  · rw [hescape, hpiece]
    exact readPieces?_unitEscape hlow rest
  · rw [hescape, hpiece, List.singleton_append, readPieces?_plain hquote hslash,
      if_neg (Nat.not_lt.mpr hhigh)]

/-- A piece that was a character is decoded to it. -/
theorem decodePieces?_pieceOf (c : Char) (pieces : List Piece) :
    decodePieces? (pieceOf c :: pieces) = (decodePieces? pieces).map (c :: ·) := by
  unfold pieceOf
  split
  · next h =>
    obtain ⟨hlow, -⟩ := h
    have hself : Char.ofNat c.toNat = c := Char.ofNat_toNat c
    rw [decodePieces?.eq_def]
    split
    · next h => cases h
    · next h => cases (List.cons.inj h).1
    · next h =>
      obtain ⟨hunit, rfl⟩ := List.cons.inj h
      obtain rfl := Piece.unit.inj hunit
      rw [if_neg (by omega), if_neg (by omega), hself]
    · next h =>
      obtain ⟨hunit, rfl⟩ := List.cons.inj h
      obtain rfl := Piece.unit.inj hunit
      rw [if_neg (by omega), hself]
  · rw [decodePieces?]

/-- **A string is read back up to its closing quote.** -/
theorem readPieces?_escaped (cs rest : List Char) :
    readPieces? (cs.flatMap escapeChar ++ '"' :: rest) = some (cs.map pieceOf, rest) := by
  induction cs with
  | nil => rfl
  | cons c cs ih =>
    rw [List.flatMap_cons, List.append_assoc, readPieces?_escapeChar, ih]
    rfl

theorem decodePieces?_map_pieceOf (cs : List Char) : decodePieces? (cs.map pieceOf) = some cs := by
  induction cs with
  | nil => rfl
  | cons c cs ih => rw [List.map_cons, decodePieces?_pieceOf, ih, Option.map_some]

theorem decodeText?_pieces (s : String) : decodeText? (s.toList.map pieceOf) = some s := by
  rw [decodeText?, decodePieces?_map_pieceOf, Option.map_some, String.ofList_toList]

theorem toList_quote (s : String) :
    (quote s).toList = '"' :: (s.toList.flatMap escapeChar ++ ['"']) := by
  simp [quote]

/-- No control character is left in an escape. -/
theorem le_toNat_of_mem_escapeChar {c d : Char} (hd : d ∈ escapeChar c) : 0x20 ≤ d.toNat := by
  have hhex : ∀ n < 16, 0x20 ≤ (if n < 10 then Char.ofNat (48 + n) else Char.ofNat (87 + n)).toNat := by
    decide
  rcases escapeChar_cases c with ⟨e, hescape, he, -⟩ | ⟨hlow, hescape, -⟩ | ⟨hhigh, -, -, hescape, -⟩
  · rw [hescape] at hd
    simp only [List.mem_cons, List.not_mem_nil, or_false] at hd
    rcases hd with rfl | rfl
    · decide
    · exact he
  · rw [hescape, unitEscape] at hd
    simp only [List.mem_cons, List.not_mem_nil, or_false] at hd
    rcases hd with rfl | rfl | rfl | rfl | rfl | rfl
    · decide
    · decide
    · decide
    · decide
    · exact hhex _ (by omega)
    · exact hhex _ (by omega)
  · rw [hescape, List.mem_singleton] at hd
    rwa [hd]

theorem le_toNat_of_mem_quote {s : String} {c : Char} (hc : c ∈ (quote s).toList) :
    0x20 ≤ c.toNat := by
  rw [toList_quote] at hc
  rcases List.mem_cons.mp hc with rfl | hc
  · decide
  · rcases List.mem_append.mp hc with hc | hc
    · obtain ⟨d, -, hd⟩ := List.mem_flatMap.mp hc
      exact le_toNat_of_mem_escapeChar hd
    · rw [List.mem_singleton.mp hc]
      decide

end EntityStore.Json
