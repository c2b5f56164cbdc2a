import RecordCipher.Proofs.Expression.Splitting

/-!
# Names that can stand bare

The canonical text of an expression writes a name bare when its characters allow it, and lexing
decides by the characters it meets, one lexeme after the other. Both agree on every text: the
names that can stand bare are the texts that are read as one name, from their first byte on. A
text is also read as one name when there are blanks around it, but then the name is not the text.

## Main results

* `tokenize_eq_singleton_iff`: the texts of one lexeme
* `tokenize_eq_name_iff`: the texts of one bare name
* `isIdentifier_iff_tokenize`: the names that can stand bare
-/

namespace RecordCipher

/-- A text has a single token when there is nothing but blanks around one lexeme; the token is
where the blanks before it end. -/
theorem tokenize_eq_singleton_iff {text : String} {token : Token} :
    tokenize text = .ok [token] ↔
      ∃ before chars behind, text.toList = before ++ (chars ++ behind) ∧
        token.lexeme.Written chars ∧ token.position = byteLength before ∧
        (∀ c ∈ before, isBlank c = true) ∧ ∀ c ∈ behind, isBlank c = true := by
  constructor
  · intro h
    obtain ⟨pieces, trailing, hsplits, htokens⟩ :=
      (Cursor.tokens_eq_ok_iff (Nat.lt_succ_self _)).mp h
    rcases pieces with _ | ⟨p, _ | ⟨q, pieces⟩⟩
    · cases htokens
    · obtain ⟨behind, htext, -, rfl, hbehind⟩ := hsplits
      obtain rfl : (⟨p.lexeme, byteLength p.blanks⟩ : Token) = token := by
        simpa [tokensFrom, Cursor.start] using htokens
      exact ⟨p.blanks, p.chars, behind, htext, p.written, rfl, p.areBlank, hbehind⟩
    · simp [tokensFrom] at htokens
  · rintro ⟨before, chars, behind, htext, hwritten, hposition, hbefore, hbehind⟩
    have hends : token.lexeme.EndsBefore behind :=
      Lexeme.endsBefore_of_isBlank fun c hc => hbehind c (List.mem_of_mem_head? hc)
    apply (Cursor.tokens_eq_ok_iff (Nat.lt_succ_self _)).mpr
    refine ⟨[⟨before, chars, token.lexeme, hbefore, hwritten⟩], behind, ?_, ?_⟩
    · exact ⟨behind, htext, hends, rfl, hbehind⟩
    · simp [tokensFrom, Cursor.start, ← hposition]

/-- A text is read as one name when the name can stand bare and there is nothing but blanks
around it. -/
theorem tokenize_eq_name_iff {text name : String} {position : Nat} :
    tokenize text = .ok [⟨.name name, position⟩] ↔
      isIdentifier name = true ∧ ∃ before behind,
        text.toList = before ++ (name.toList ++ behind) ∧ position = byteLength before ∧
        (∀ c ∈ before, isBlank c = true) ∧ ∀ c ∈ behind, isBlank c = true := by
  rw [tokenize_eq_singleton_iff]
  constructor
  · rintro ⟨before, chars, behind, htext, hwritten, hposition, hbefore, hbehind⟩
    obtain ⟨hname, rfl⟩ := Lexeme.written_name_iff.mp hwritten
    exact ⟨hname, before, behind, htext, hposition, hbefore, hbehind⟩
  · rintro ⟨hname, before, behind, htext, hposition, hbefore, hbehind⟩
    exact ⟨before, name.toList, behind, htext, Lexeme.written_name_iff.mpr ⟨hname, rfl⟩,
      hposition, hbefore, hbehind⟩

/-- The names that can stand bare are the texts that are read as one name: the whole text, from
its first byte on. -/
theorem isIdentifier_iff_tokenize (text : String) :
    isIdentifier text = true ↔ tokenize text = .ok [⟨.name text, 0⟩] := by
  constructor
  · intro h
    have htext : text.toList = [] ++ (text.toList ++ []) := by simp
    exact tokenize_eq_name_iff.mpr ⟨h, [], [], htext, rfl, by simp, by simp⟩
  · intro h
    exact (tokenize_eq_name_iff.mp h).1

/-- Blanks behind a name are passed over, and the name is not the text any more. -/
example : tokenize "имя_2 " = .ok [⟨.name "имя_2", 0⟩] ∧ isIdentifier "имя_2 " = false := by
  decide +kernel

end RecordCipher
