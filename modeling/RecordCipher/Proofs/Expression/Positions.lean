import Mathlib.Data.List.Infix
import RecordCipher.Proofs.Expression.Beginnings

/-!
# Where faults stand in a text

Offsets count bytes, and characters take up to four of them. An offset is of use when the text can
be split there. The cursor counts the bytes of the characters it has passed, whatever it read them
as, so that it always stands at such an offset. Tokens and the faults of the lexer stand where the
cursor was when it had skipped the blanks, those of the parser stand at a token, at the end or at
the start. Only a text that is too long is refused at an offset that has nothing to do with its
characters, the greatest length itself.

## Main definitions

* `CanSplitAt`: the offsets at which a text can be split
* `Cursor.StandsIn`: a cursor is between two characters of a text

## Main results

* `scan_takes`: what is scanned takes characters, and as many bytes as they have
* `Cursor.StandsIn.next`, `Cursor.StandsIn.tokens`: reading one token, and all of them
* `Expression.position_of_parseWithin`: where a text is refused
-/

namespace RecordCipher

/-- A text can be split at an offset: that many bytes are those of its first characters. -/
def CanSplitAt (text : String) (offset : Nat) : Prop :=
  ∃ front back, text = front ++ back ∧ utf8Length front = offset

theorem canSplitAt_iff {text : String} {offset : Nat} :
    CanSplitAt text offset ↔ offset ∈ text.toList.inits.map byteLength := by
  simp only [List.mem_map, List.mem_inits]
  constructor
  · rintro ⟨front, back, rfl, rfl⟩
    exact ⟨front.toList, by rw [String.toList_append]; exact List.prefix_append .., rfl⟩
  · rintro ⟨front, ⟨back, hchars⟩, rfl⟩
    refine ⟨String.ofList front, String.ofList back, ?_, utf8Length_ofList front⟩
    rw [← String.ofList_append, hchars, String.ofList_toList]

instance (text : String) (offset : Nat) : Decidable (CanSplitAt text offset) :=
  decidable_of_iff _ canSplitAt_iff.symm

namespace CanSplitAt

variable {text : String} {offset : Nat}

theorem le (h : CanSplitAt text offset) : offset ≤ utf8Length text := by
  obtain ⟨front, back, rfl, rfl⟩ := h
  rw [utf8Length_append]
  exact Nat.le_add_right _ _

theorem zero (text : String) : CanSplitAt text 0 :=
  ⟨"", text, by simp, rfl⟩

theorem length (text : String) : CanSplitAt text (utf8Length text) :=
  ⟨text, "", by simp, rfl⟩

end CanSplitAt

/-! ## What is scanned -/

/-- Reading a quoted text takes characters, whether its closing quote is found or not. -/
theorem readQuoted_takes (quote : Char) (chars : List Char) :
    ∃ taken, chars = taken ++ (readQuoted quote chars).2.2 ∧
      (readQuoted quote chars).2.1 = byteLength taken := by
  -- Induction as the characters are read: two at a time behind a backslash.
  induction chars using readQuoted.induct quote with
  | case1 => exact ⟨[], by simp [readQuoted], by simp [readQuoted]⟩
  | case2 rest => exact ⟨[quote], by simp [readQuoted_close], by simp [readQuoted_close]⟩
  | case3 hne => exact ⟨['\\'], by simp [readQuoted, hne], by simp [readQuoted, hne]⟩
  | case4 escaped rest content size behind hread hne ih =>
    have hquote : quote ≠ '\\' := Ne.symm hne
    obtain ⟨taken, hrest, hsize⟩ := ih
    refine ⟨'\\' :: escaped :: taken, ?_, ?_⟩
    · rw [readQuoted_pair hquote, List.cons_append, List.cons_append, ← hrest]
    · rw [readQuoted_pair hquote, hsize, byteLength_cons, byteLength_cons, Nat.add_assoc]
  | case5 c rest hne hbackslash content size behind hread ih =>
    obtain ⟨taken, hrest, hsize⟩ := ih
    refine ⟨c :: taken, ?_, ?_⟩
    · rw [readQuoted_plain hne hbackslash, List.cons_append, ← hrest]
    · rw [readQuoted_plain hne hbackslash, hsize, byteLength_cons]

/-- What is scanned takes its first character and perhaps more of them, whether it is a lexeme or
a fault. -/
theorem scan_takes (c : Char) (rest : List Char) :
    ∃ taken, rest = taken ++ (scan c rest).rest ∧ (scan c rest).size = byteLength (c :: taken) := by
  have sign : c.utf8Size = 1 → ∃ taken, rest = taken ++ rest ∧ 1 = byteLength (c :: taken) :=
    fun hsize => ⟨[], rfl, by simp [hsize]⟩
  generalize hscan : scan c rest = scanned
  unfold scan at hscan
  -- the signs come first, one after the other
  split at hscan
  · next hc => exact hscan ▸ sign (by rw [hc]; rfl)
  split at hscan
  · next hc => exact hscan ▸ sign (by rw [hc]; rfl)
  split at hscan
  · next hc => exact hscan ▸ sign (by rw [hc]; rfl)
  split at hscan
  · next hc => exact hscan ▸ sign (by rw [hc]; rfl)
  split at hscan
  · next hc => exact hscan ▸ sign (by rw [hc]; rfl)
  split at hscan
  · next hquote =>
    have hsize : c.utf8Size = 1 := by
      rcases hquote with rfl | rfl <;> rfl
    obtain ⟨taken, hrest, htaken⟩ := readQuoted_takes c rest
    subst hscan
    exact ⟨taken, hrest, by simp [hsize, htaken]⟩
  split at hscan
  · subst hscan
    exact ⟨rest.takeWhile isDecimalDigit, List.takeWhile_append_dropWhile.symm, rfl⟩
  split at hscan
  · subst hscan
    exact ⟨rest.takeWhile isIdentifierPart, List.takeWhile_append_dropWhile.symm, rfl⟩
  · subst hscan
    exact ⟨[], rfl, by simp⟩

/-! ## Where the cursor stands -/

namespace Cursor

/-- A cursor stands in a text: behind it is what follows some first characters of the text, and
before it are their bytes. -/
def StandsIn (cursor : Cursor) (text : String) : Prop :=
  ∃ before, text.toList = before ++ cursor.rest ∧ byteLength before = cursor.offset

theorem standsIn_start (text : String) : (start text).StandsIn text :=
  ⟨[], rfl, rfl⟩

namespace StandsIn

variable {text : String} {cursor : Cursor}

theorem canSplitAt (h : cursor.StandsIn text) : CanSplitAt text cursor.offset := by
  obtain ⟨before, hchars, hoffset⟩ := h
  rw [canSplitAt_iff, List.mem_map]
  exact ⟨before, List.mem_inits _ _ |>.mpr ⟨cursor.rest, hchars.symm⟩, hoffset⟩

/-- Passing characters leads to a place in the text again. -/
theorem pass (h : cursor.StandsIn text) {taken rest : List Char}
    (hrest : cursor.rest = taken ++ rest) :
    StandsIn ⟨rest, cursor.offset + byteLength taken⟩ text := by
  obtain ⟨before, hchars, hoffset⟩ := h
  refine ⟨before ++ taken, ?_, ?_⟩
  · rw [hchars, hrest, List.append_assoc]
  · rw [byteLength_append, hoffset]

theorem skipBlanks (h : cursor.StandsIn text) : cursor.skipBlanks.StandsIn text :=
  h.pass List.takeWhile_append_dropWhile.symm

/-- Reading a token or a fault leads to a place in the text again. -/
theorem next (h : cursor.StandsIn text) : cursor.next.2.StandsIn text := by
  have hhere := h.skipBlanks
  rw [Cursor.next]
  cases hrest : cursor.skipBlanks.rest with
  | nil => simpa only [hrest] using hhere
  | cons c rest =>
    obtain ⟨taken, htaken, hsize⟩ := scan_takes c rest
    have hchars : cursor.skipBlanks.rest = (c :: taken) ++ (scan c rest).rest := by
      rw [hrest, List.cons_append, ← htaken]
    have hbehind := hhere.pass hchars
    rw [← hsize] at hbehind
    simpa only [hrest] using hbehind

/-- The text can be split where a token stands, and where a fault does. -/
theorem outcome (h : cursor.StandsIn text) :
    (∀ token, cursor.next.1 = some (.ok token) → CanSplitAt text token.position) ∧
      ∀ fault, cursor.next.1 = some (.error fault) → CanSplitAt text fault.position := by
  have hhere := h.skipBlanks.canSplitAt
  rw [Cursor.next]
  cases cursor.skipBlanks.rest with
  | nil => simp
  | cons c rest =>
    rcases hscan : scan c rest with ⟨reason | lexeme, size, behind⟩ <;> simp only [hscan]
    · refine ⟨by simp, ?_⟩
      rintro _ ⟨⟩
      exact hhere
    · refine ⟨?_, by simp⟩
      rintro _ ⟨⟩
      exact hhere

/-- The text can be split where any of its tokens stands, and at the first fault. -/
theorem tokens (h : cursor.StandsIn text) (fuel : Nat) :
    (∀ tokens, cursor.tokens fuel = .ok tokens → ∀ token ∈ tokens, CanSplitAt text token.position) ∧
      ∀ fault, cursor.tokens fuel = .error fault → CanSplitAt text fault.position := by
  -- Induction on the fuel, from whatever place in the text.
  induction fuel generalizing cursor with
  | zero => simp [Cursor.tokens]
  | succ fuel ih =>
    have hbehind := h.next
    obtain ⟨htoken, hfault⟩ := h.outcome
    rcases hnext : cursor.next with ⟨_ | fault | token, behind⟩ <;>
      simp only [hnext, Cursor.tokens] at hbehind htoken hfault ⊢
    · simp
    · refine ⟨by simp, ?_⟩
      rintro _ ⟨⟩
      exact hfault fault rfl
    · obtain ⟨hothers, hlater⟩ := ih hbehind
      constructor
      · intro tokens hread
        obtain ⟨others, hothersRead, hcons⟩ := bind_eq_ok_iff.mp hread
        obtain rfl : token :: others = tokens := Except.ok.inj hcons
        exact List.forall_mem_cons.mpr ⟨htoken token rfl, hothers others hothersRead⟩
      · intro fault hread
        rcases bind_eq_error_iff.mp hread with hread | ⟨others, -, hcons⟩
        · exact hlater fault hread
        · cases hcons

end StandsIn

end Cursor

/-! ## Where a text is refused -/

/-- A text that ends too early is refused at its end, or at its start when it has no tokens. -/
theorem Stage.canSplitAt_endFault (stage : Stage) (text : String) :
    CanSplitAt text (stage.endFault (utf8Length text)).position := by
  cases stage
  case start => exact .zero text
  all_goals exact .length text

theorem canSplitAt_of_segmentsFrom {text : String} {stage : Stage} {tokens : List Token}
    {fault : Fault} (htokens : ∀ token ∈ tokens, CanSplitAt text token.position)
    (h : segmentsFrom (utf8Length text) stage tokens = .error fault) :
    CanSplitAt text fault.position := by
  rcases segmentsFrom_eq_error h with ⟨before, token, after, _, rfl, -, -, hposition⟩ | hend
  · rw [hposition]
    exact htokens token (by simp)
  · obtain ⟨stage', -, rfl⟩ := hend
    exact stage'.canSplitAt_endFault text

namespace Expression

/-- A text that is short enough is refused where it can be split. -/
theorem canSplitAt_of_readWithin {limits : Limits} {text : String} {fault : Fault}
    (hlength : utf8Length text ≤ limits.maxLength) (h : readWithin limits text = .error fault) :
    CanSplitAt text fault.position := by
  obtain ⟨hplaces, hfaults⟩ := (Cursor.standsIn_start text).tokens (text.toList.length + 1)
  rw [readWithin, if_neg (Nat.not_lt.mpr hlength)] at h
  rcases bind_eq_error_iff.mp h with htokens | ⟨tokens, htokens, h⟩
  · exact hfaults fault htokens
  · rcases bind_eq_error_iff.mp h with hsegments | ⟨segments, -, h⟩
    · exact canSplitAt_of_segmentsFrom (hplaces tokens htokens) hsegments
    · -- too many tasks
      dsimp only at h
      split at h <;> cases h
      exact .zero text

/-- A text is refused at an offset within it, at which it can be split, except that one that is too
long is refused at the greatest length allowed, wherever that falls. -/
theorem position_of_parseWithin {limits : Limits} {text : String} {e : ParseError}
    (h : parseWithin limits text = .error e) :
    e.position ≤ utf8Length text ∧
      (CanSplitAt text e.position ↔
        utf8Length text ≤ limits.maxLength ∨ CanSplitAt text limits.maxLength) := by
  obtain ⟨fault, hfault, rfl⟩ := mapError_eq_error_iff.mp h
  by_cases hlength : utf8Length text ≤ limits.maxLength
  · have hsplit := canSplitAt_of_readWithin hlength hfault
    exact ⟨hsplit.le, fun _ => .inl hlength, fun _ => hsplit⟩
  · have hlong : limits.maxLength < utf8Length text := Nat.lt_of_not_le hlength
    rw [readWithin, if_pos hlong] at hfault
    cases hfault
    refine ⟨Nat.le_of_lt hlong, .inr, ?_⟩
    rintro (hle | hsplit)
    · exact absurd hle hlength
    · exact hsplit

/-- A name that is left out behind a character of two bytes. -/
theorem position_of_parseWithin_unnamed :
    ∃ e, parseWithin {} "$.é." = .error e ∧ e.position = 5 ∧ CanSplitAt "$.é." 5 := by
  have h : parseWithin {} "$.é." = .error ⟨"$.é.", 5, .unexpected .name none⟩ := by
    decide +kernel
  exact ⟨_, h, rfl, (position_of_parseWithin h).2.mpr (.inl (by decide))⟩

/-- A text that is too long is refused inside of a character when the greatest length ends
there. -/
theorem position_inside_character :
    ¬ ∀ (limits : Limits) (text : String) (e : ParseError), parseWithin limits text = .error e →
      e.position ≤ utf8Length text ∧ CanSplitAt text e.position := by
  intro h
  have hsplit := h ⟨3, 32⟩ "$.é" ⟨"$.é", 3, .tooLong 4 3⟩ (by decide +kernel)
  exact absurd hsplit.2 (by decide +kernel)

end Expression

end RecordCipher
