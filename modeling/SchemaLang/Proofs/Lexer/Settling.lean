import SchemaLang.Proofs.Lexer.Faults
import SchemaLang.Proofs.Lexer.Resuming

/-!
# Asking for tokens over and over

The end of the input and an unexpected character are seen and not taken, every other answer
takes something. So a lexer that is asked over and over settles: it comes to one of the two
and repeats it for ever. How long that takes is bounded by the text that is left, and so is
the number of answers that the iterator gives.
-/
namespace SchemaLang

open Lexical

/-- The only fault whose character is left where it is. -/
theorem Lexical.taken_eq_nil_iff {cs : List Char} {f : Fault}
    (h : (scan cs).outcome = .error f) : (scan cs).taken = [] ↔ ∃ c, f = .unexpected c := by
  revert h
  fun_cases scan cs with
  | case3 c cs _ hc =>
    intro h
    obtain ⟨rfl, ds, -, -, -, -, htaken⟩ := badNumber_of_scanNumber hc h
    simp [htaken]
  | case4 cs =>
    intro h
    obtain ⟨rfl, -⟩ := breaksOff_of_scanString h
    simp
  | case8 c cs =>
    intro h
    exact iff_of_true rfl ⟨c, (Except.error.inj h).symm⟩
  | _ => simp [scanWord]

namespace Lexer

/-- What is answered and not taken: the end of the input, or an unexpected character. -/
def Settled : Except LexError Token → Prop
  | .ok t => t.kind = .endOfInput
  | .error (.unexpectedCharacter _ _) => True
  | .error _ => False

/-- The lexer behind `k` tokens or errors. -/
def behind (l : Lexer) (k : Nat) : Lexer := l.afterCalls (List.replicate k .nextToken)

/-- The answer that comes behind `k` others. -/
def answerAt (l : Lexer) (k : Nat) : Except LexError Token := (l.behind k).nextToken.1

section OneCall

variable {l : Lexer}

theorem settled_answer_iff (cs : List Char) (p : Position) :
    Settled ((scan cs).answer p) ↔ (scan cs).taken = [] := by
  cases ho : (scan cs).outcome with
  | ok kind =>
    have hanswer : (scan cs).answer p = .ok ⟨kind, String.ofList (scan cs).taken, p⟩ := by
      simp only [Scan.answer, ho]
    rw [hanswer]
    rcases lexeme_of_scan ho with ⟨rfl, rfl⟩ | hl
    · exact iff_of_true rfl rfl
    · exact iff_of_false (lexeme_kind_ne hl) (scan_taken_ne_nil ho (lexeme_kind_ne hl))
  | error f =>
    rw [taken_eq_nil_iff ho]
    cases f <;> simp [Scan.answer, ho, Settled]

/-- A call takes the layout in front and, unless it has settled, something behind that. -/
theorem exists_layout_taken (l : Lexer) :
    ∃ layout taken, l.unread = layout ++ (taken ++ l.nextToken.2.unread) ∧
      Gap layout (taken ++ l.nextToken.2.unread) ∧ (taken = [] ↔ Settled l.nextToken.1) := by
  refine ⟨(splitLayout false l.unread).1, (scan (splitLayout false l.unread).2).taken, ?_, ?_, ?_⟩
  · rw [nextToken, scan_append, splitLayout_append]
  · rw [nextToken, scan_append]
    exact (gap_splitLayout l.unread).1
  · exact (settled_answer_iff _ _).symm

/-- A call that has not settled leaves less to read. -/
theorem length_unread_lt (h : ¬ Settled l.nextToken.1) :
    l.nextToken.2.unread.length < l.unread.length := by
  obtain ⟨layout, taken, hunread, -, htaken⟩ := exists_layout_taken l
  have hpos : 0 < taken.length := List.length_pos_iff.2 (mt htaken.1 h)
  rw [hunread, List.length_append, List.length_append]
  omega

/-- Behind a call that has settled the next one gives the same answer and changes nothing. -/
theorem nextToken_of_settled (h : Settled l.nextToken.1) :
    l.nextToken.2.nextToken = (l.nextToken.1, l.nextToken.2) := by
  have htaken := (settled_answer_iff _ _).1 h
  have hrest := scan_append (splitLayout false l.unread).2
  rw [htaken, List.nil_append] at hrest
  have hclear : splitLayout false (splitLayout false l.unread).2 =
      ([], (splitLayout false l.unread).2) := (gap_splitLayout l.unread).2
  simp only [nextToken, htaken, hrest, hclear, Position.after_nil]

end OneCall

section LaterCalls

variable {l : Lexer} {a : Except LexError Token}

theorem isLast_of_settled (h : Settled a) : isLast a = true := by
  cases a with
  | ok t => exact decide_eq_true h
  | error e => rfl

/-- Where a lexer has settled, no call does more than set the flag. -/
theorem call_of_settled (ha : Settled a) (h : l.nextToken = (a, l)) (c : Call) :
    (l.call c).2.nextToken = (a, (l.call c).2) := by
  have hflag (b : Bool) : ({ l with finished := b } : Lexer).nextToken =
      (a, { l with finished := b }) := by
    change (l.nextToken.1, ({ l.nextToken.2 with finished := b } : Lexer)) = _
    rw [h]
  cases hf : l.finished with
  | true =>
    cases c with
    | next => rwa [call, next_of_finished hf]
    | nextToken => rwa [call, h]
    | drain => rwa [call, drain_of_finished hf]
  | false =>
    cases c with
    | next =>
      rw [call, next_eq hf, h]
      exact hflag _
    | nextToken => rwa [call, h]
    | drain =>
      rw [call, drain_eq hf, h, drain_of_finished (isLast_of_settled ha)]
      exact hflag _

/-- A lexer that has settled stays so, whatever is called. -/
theorem afterCalls_of_settled (ha : Settled a) (h : l.nextToken = (a, l)) (calls : List Call) :
    (l.afterCalls calls).nextToken = (a, l.afterCalls calls) := by
  induction calls generalizing l with
  | nil => exact h
  | cons c calls ih => exact ih (call_of_settled ha h c)

/-- From the first answer that settles on, all answers are this one, and it comes when as many
have been given as characters were left. -/
theorem exists_settling (l : Lexer) :
    ∃ k ≤ l.unread.length, ∀ j, (Settled (l.answerAt j) ↔ k ≤ j) ∧
      (k ≤ j → l.answerAt j = l.answerAt k) := by
  induction hn : l.unread.length using Nat.strongRecOn generalizing l with
  | ind n ih =>
    by_cases h : Settled l.nextToken.1
    · have hstays (j : Nat) : l.answerAt j = l.nextToken.1 := by
        cases j with
        | zero => rfl
        | succ j =>
          have hcalls := afterCalls_of_settled h (nextToken_of_settled h)
            (List.replicate j .nextToken)
          exact (congrArg Prod.fst hcalls :)
      refine ⟨0, Nat.zero_le n, fun j => ⟨?_, fun _ => ?_⟩⟩
      · rw [hstays]
        exact iff_of_true h (Nat.zero_le j)
      · rw [hstays, hstays]
    · have hlt := length_unread_lt h
      rw [hn] at hlt
      obtain ⟨k, hk, hanswers⟩ := ih _ hlt l.nextToken.2 rfl
      refine ⟨k + 1, by omega, fun j => ?_⟩
      cases j with
      | zero => exact ⟨iff_of_false h (by omega), fun hle => absurd hle (by omega)⟩
      | succ j =>
        obtain ⟨hsettled, hsame⟩ := hanswers j
        exact ⟨hsettled.trans (by omega), fun hle => hsame (by omega)⟩

/-- The iterator gives the same answers up to the first one that is the last. -/
theorem drain_eq_answers (h : l.finished = false) :
    ∃ k ≤ l.unread.length, l.drain.1 = (List.range (k + 1)).map l.answerAt ∧
      ∀ j ≤ k, isLast (l.answerAt j) = true ↔ j = k := by
  induction l using iterate_ind with
  | finished l hf => simp [hf] at h
  | step l hf ih =>
    rw [drain_eq hf]
    cases hlast : isLast l.nextToken.1 with
    | true =>
      refine ⟨0, Nat.zero_le _, ?_, ?_⟩
      · rw [drain_of_finished rfl]
        rfl
      · rintro _ ⟨⟩
        exact iff_of_true hlast rfl
    | false =>
      rw [hlast] at ih
      obtain ⟨k, hk, hdrain, hanswers⟩ := ih rfl
      have hlt := length_nextToken_lt hlast
      have hbehind : ({ l.nextToken.2 with finished := false } : Lexer) = l.nextToken.2 := by
        rw [← hf]
        rfl
      rw [hbehind] at hk hdrain hanswers ⊢
      refine ⟨k + 1, by omega, ?_, ?_⟩
      · rw [hdrain, List.range_succ_eq_map (n := k + 1), List.map_cons, List.map_map]
        rfl
      · intro j hj
        cases j with
        | zero => exact iff_of_false (by simp [answerAt, behind, afterCalls, hlast]) (by omega)
        | succ j => exact (hanswers j (by omega)).trans (by omega)

end LaterCalls

/-- Asking for tokens over and over always settles, whatever has been called before. Each call
takes layout and then something of its own, unless it finds the end of the input or an
unexpected character. These it finds again ever after, in the same place and with nothing
changed, whatever else is called between. So there are no more other answers than characters
are left, and behind so many the answer is always the same. The iterator that goes through a
whole text gives one more answer at most, and stops with its only end of the input or error. -/
theorem nextToken_settles (l : Lexer) :
    (∃ layout taken, l.unread = layout ++ (taken ++ l.nextToken.2.unread) ∧
      Gap layout (taken ++ l.nextToken.2.unread) ∧ (taken = [] ↔ Settled l.nextToken.1)) ∧
    (Settled l.nextToken.1 → ∀ calls,
      (l.nextToken.2.afterCalls calls).nextToken =
        (l.nextToken.1, l.nextToken.2.afterCalls calls)) ∧
    (∃ k ≤ l.unread.length, ∀ j, (Settled (l.answerAt j) ↔ k ≤ j) ∧
      (k ≤ j → l.answerAt j = l.answerAt k)) ∧
    (∀ j, l.unread.length ≤ j → l.answerAt j = l.answerAt l.unread.length) ∧
    ∀ source : String, ∃ front last, (ofText source.toList).drain.1 = front ++ [last] ∧
      front.length ≤ source.length ∧ isLast last = true ∧ ∀ a ∈ front, isLast a = false := by
  obtain ⟨k, hk, hanswers⟩ := exists_settling l
  refine ⟨exists_layout_taken l, fun h => afterCalls_of_settled h (nextToken_of_settled h),
    ⟨k, hk, hanswers⟩, ?_, ?_⟩
  · intro j hj
    rw [(hanswers j).2 (by omega), (hanswers l.unread.length).2 hk]
  · intro source
    obtain ⟨n, hn, hdrain, hlast⟩ := drain_eq_answers (l := ofText source.toList) rfl
    refine ⟨(List.range n).map (ofText source.toList).answerAt,
      (ofText source.toList).answerAt n, ?_, ?_, (hlast n (Nat.le_refl n)).2 rfl, ?_⟩
    · rw [hdrain, List.range_succ, List.map_append, List.map_singleton]
    · rw [List.length_map, List.length_range]
      exact hn.trans_eq String.length_toList
    · intro a ha
      obtain ⟨j, hj, rfl⟩ := List.mem_map.1 ha
      have hlt : j < n := List.mem_range.1 hj
      have hne := mt (hlast j (by omega)).1 (by omega)
      rwa [Bool.not_eq_true] at hne

end Lexer

end SchemaLang
