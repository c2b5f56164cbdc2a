import RecordCipher.Proofs.Expression.Positions

/-!
# Reading on behind faults

Reading all tokens of a text stops at the first fault. The cursor itself does not: it has passed
the characters of the fault, and can be asked again. Every answer takes at least one character,
whether it is a token or a fault, and stands behind the ones before it, so that there are no more
answers than characters. At the end of the text the cursor stays where it is.

## Main definitions

* `placeOf`: the offset that a token or a fault stands at
* `Cursor.after`: the cursor when it has been asked some times
* `Cursor.answers`: the tokens and faults it has answered with until then

## Main results

* `Cursor.next_eq_some`, `Cursor.next_eq_none`: what one answer does to the cursor
* `Cursor.start_progress`: what any number of answers does
-/

namespace RecordCipher

/-- The byte offset that a token or a fault stands at. -/
def placeOf : Except Fault Token → Nat
  | .ok token => token.position
  | .error fault => fault.position

namespace Cursor

/-- The cursor when it has been asked for a token a number of times, whatever it answered. -/
def after : Nat → Cursor → Cursor
  | 0, cursor => cursor
  | n + 1, cursor => after n cursor.next.2

/-- The tokens and faults that a cursor answers with when it is asked a number of times. Once it
is at the end of the text it has no more of them. -/
def answers : Nat → Cursor → List (Except Fault Token)
  | 0, _ => []
  | n + 1, cursor => cursor.next.1.toList ++ answers n cursor.next.2

theorem after_succ (n : Nat) (cursor : Cursor) :
    after (n + 1) cursor = (after n cursor).next.2 := by
  induction n generalizing cursor with
  | zero => rfl
  | succ n ih => exact ih cursor.next.2

theorem after_add (n k : Nat) (cursor : Cursor) :
    after (n + k) cursor = after k (after n cursor) := by
  induction k with
  | zero => rfl
  | succ k ih => rw [← Nat.add_assoc, after_succ, ih, after_succ]

/-! ## One answer -/

variable {cursor behind : Cursor}

/-- A token or a fault stands at the cursor or behind it, where the blanks end, and the cursor
comes to stand behind it with fewer characters left. -/
theorem next_eq_some {answer : Except Fault Token} (h : cursor.next = (some answer, behind)) :
    cursor.offset ≤ placeOf answer ∧ placeOf answer < behind.offset ∧
      behind.rest.length < cursor.rest.length := by
  have hblanks : cursor.skipBlanks.rest.length ≤ cursor.rest.length :=
    (List.dropWhile_suffix isBlank).length_le
  simp only [next] at h
  cases hrest : cursor.skipBlanks.rest with
  | nil => simp [hrest] at h
  | cons c rest =>
    simp only [hrest, Prod.mk.injEq, Option.some.injEq] at h
    obtain ⟨hanswer, rfl⟩ := h
    have hplace : placeOf answer = cursor.skipBlanks.offset := by
      subst hanswer
      cases (scan c rest).outcome <;> rfl
    -- what is scanned has one character at least
    obtain ⟨taken, htaken, hsize⟩ := scan_takes c rest
    have hfirst := c.utf8Size_pos
    have hlength := congrArg List.length htaken
    rw [hrest, List.length_cons] at hblanks
    rw [List.length_append] at hlength
    rw [byteLength_cons] at hsize
    refine ⟨?_, ?_, ?_⟩
    · rw [hplace]
      exact Nat.le_add_right _ _
    · rw [hplace]
      show cursor.skipBlanks.offset < cursor.skipBlanks.offset + (scan c rest).size
      omega
    · show (scan c rest).rest.length < cursor.rest.length
      omega

/-- At the end of a text there is nothing behind the cursor any more, which stays where it is when
it is asked again. -/
theorem next_eq_none (h : cursor.next = (none, behind)) :
    cursor.offset ≤ behind.offset ∧ behind.rest = [] ∧ behind.next = (none, behind) := by
  simp only [next] at h
  cases hrest : cursor.skipBlanks.rest with
  | nil =>
    simp only [hrest, Prod.mk.injEq, true_and] at h
    subst h
    refine ⟨Nat.le_add_right _ _, hrest, ?_⟩
    rcases hhere : cursor.skipBlanks with ⟨rest, offset⟩
    obtain rfl : rest = [] := by rw [← hrest, hhere]
    rfl
  | cons c rest => simp [hrest] at h

/-! ## Any number of answers -/

theorem StandsIn.after {text : String} (h : cursor.StandsIn text) (n : Nat) :
    (after n cursor).StandsIn text := by
  induction n generalizing cursor with
  | zero => exact h
  | succ n ih => exact ih h.next

/-- A cursor at the end of a text stays there. -/
theorem next_after_of_none (h : cursor.next.1 = none) (n : Nat) :
    (after n cursor).next.1 = none := by
  induction n generalizing cursor with
  | zero => exact h
  | succ n ih =>
    obtain ⟨-, -, hagain⟩ := next_eq_none (Prod.ext h rfl)
    exact ih (by rw [hagain])

/-- Every answer takes one of the characters that were behind the cursor. -/
theorem length_answers_le (n : Nat) (cursor : Cursor) :
    (answers n cursor).length ≤ cursor.rest.length := by
  induction n generalizing cursor with
  | zero => exact Nat.zero_le _
  | succ n ih =>
    rw [answers, List.length_append]
    rcases hnext : cursor.next with ⟨_ | answer, behind⟩ <;>
      have hothers : (answers n behind).length ≤ behind.rest.length := ih behind
    · obtain ⟨-, hend, -⟩ := next_eq_none hnext
      rw [hend] at hothers
      simp only [Option.toList_none, List.length_nil] at hothers ⊢
      omega
    · obtain ⟨-, -, hshorter⟩ := next_eq_some hnext
      simp only [Option.toList_some, List.length_singleton]
      omega

/-- Answers stand at the cursor or behind it. -/
theorem offset_le_of_mem_answers {n : Nat} {answer : Except Fault Token}
    (h : answer ∈ answers n cursor) : cursor.offset ≤ placeOf answer := by
  induction n generalizing cursor with
  | zero => cases h
  | succ n ih =>
    rw [answers, List.mem_append, Option.mem_toList] at h
    rcases hnext : cursor.next with ⟨_ | first, behind⟩ <;> rw [hnext] at h
    · obtain ⟨hle, -, -⟩ := next_eq_none hnext
      exact hle.trans (ih (h.resolve_left nofun))
    · obtain ⟨hle, hlt, -⟩ := next_eq_some hnext
      rcases h with h | h
      · obtain rfl : first = answer := Option.some.inj h
        exact hle
      · exact hle.trans (hlt.le.trans (ih h))

/-- Each answer stands behind the ones before it. -/
theorem pairwise_answers (n : Nat) (cursor : Cursor) :
    (answers n cursor).Pairwise fun earlier later => placeOf earlier < placeOf later := by
  induction n generalizing cursor with
  | zero => exact .nil
  | succ n ih =>
    rw [answers]
    rcases hnext : cursor.next with ⟨_ | first, behind⟩
    · exact ih behind
    · obtain ⟨-, hlt, -⟩ := next_eq_some hnext
      refine List.pairwise_cons.mpr ⟨fun later hm => ?_, ih behind⟩
      exact hlt.trans_le (offset_le_of_mem_answers hm)

/-- Whatever a cursor from the start of a text has answered, it stands between two characters of
the text, with the rest of the text behind it. A token or a fault moves it on, and stands behind
all that came before, so that there are at most as many of them as characters. Once there is
nothing more, there never is again. -/
theorem start_progress (text : String) :
    (∀ n, (after n (start text)).StandsIn text ∧ CanSplitAt text (after n (start text)).offset) ∧
    (∀ n answer, (after n (start text)).next.1 = some answer →
      (after n (start text)).offset ≤ placeOf answer ∧
        placeOf answer < (after (n + 1) (start text)).offset) ∧
    (∀ n, (answers n (start text)).Pairwise fun earlier later =>
      placeOf earlier < placeOf later) ∧
    (∀ n, (answers n (start text)).length ≤ text.length) ∧
    ∀ n k, (after n (start text)).next.1 = none → n ≤ k → (after k (start text)).next.1 = none := by
  refine ⟨fun n => ?_, fun n answer h => ?_, fun n => pairwise_answers n _, fun n => ?_, ?_⟩
  · have hstands := (standsIn_start text).after n
    exact ⟨hstands, hstands.canSplitAt⟩
  · obtain ⟨hle, hlt, -⟩ := next_eq_some (Prod.ext h rfl)
    rw [after_succ]
    exact ⟨hle, hlt⟩
  · exact length_answers_le n (start text)
  · rintro n k hnone hk
    obtain ⟨more, rfl⟩ := Nat.exists_eq_add_of_le hk
    rw [after_add]
    exact next_after_of_none hnone more

/-- Faults do not end the reading: a sign that nothing starts with, a number, and a name without
its closing quote. -/
example : answers 4 (start "-2 'é") =
    [.error ⟨0, .unexpectedCharacter '-'⟩, .ok ⟨.number 2, 1⟩,
      .error ⟨3, .unterminatedString⟩] := by
  decide +kernel

end Cursor

end RecordCipher
