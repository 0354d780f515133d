import SchemaLang.Proofs.Lexer.Elsewhere

/-!
# Going on after anything

Any calls of a lexer, in any order, leave it right behind the text that they took. What
it answers from there on is what a new lexer answers on the text that is left, put in
place. Only `next` and `drain` see to it that nothing comes after the last answer.
-/
namespace SchemaLang

namespace Lexer

/-- What can be called: `next` and `drain` iterate, `nextToken` does not. -/
inductive Call where
  | next
  | nextToken
  | drain
  deriving DecidableEq, Repr

/-- The answers to a call and the lexer that it leaves. -/
def call (l : Lexer) : Call → List (Except LexError Token) × Lexer
  | .next => (l.next.1.toList, l.next.2)
  | .nextToken => ([l.nextToken.1], l.nextToken.2)
  | .drain => l.drain

/-- The lexer that calls leave, one after another. -/
def afterCalls (l : Lexer) (calls : List Call) : Lexer := calls.foldl (fun l c => (l.call c).2) l

/-- Of a text the lexer has taken `before` and stands right behind it. -/
structure StandsBehind (text before : List Char) (l : Lexer) : Prop where
  text_eq : text = before ++ l.unread
  position_eq : l.position = .behind before

/-- The answers lead from behind one text to behind another. Each of them is what a new lexer
answers on the text that is left then, which begins at its true place. -/
inductive Answered : List Char → List Char → List (Except LexError Token) → List Char →
    List Char → Prop where
  | nil {before unread : List Char} : Answered before unread [] before unread
  | cons {before unread taken before' unread' : List Char}
      {answers : List (Except LexError Token)} :
      unread = taken ++ (ofText unread).nextToken.2.unread →
      Answered (before ++ taken) (ofText unread).nextToken.2.unread answers before' unread' →
      Answered before unread (placeAnswer (.behind before) (ofText unread).nextToken.1 :: answers)
        before' unread'

/-- Some call of the iterator has given its last answer. -/
def Ended (l : Lexer) : List Call → Prop
  | [] => False
  | c :: calls => (c ≠ .nextToken ∧ ∃ a ∈ (l.call c).1, isLast a) ∨ Ended (l.call c).2 calls

section Answers

variable {text before : List Char} {l : Lexer}

/-- The answer is what a new lexer answers, put in place. -/
theorem nextToken_eq_placeAnswer (l : Lexer) :
    l.nextToken.1 = placeAnswer l.position (ofText l.unread).nextToken.1 := by
  have h := nextToken_within l.position (l := ofText l.unread) Position.counted_start
  rw [within, ofText, Position.translate_start] at h
  exact congrArg Prod.fst h

/-- The lexer moves on over what it takes, layout included. -/
theorem exists_taken (l : Lexer) :
    ∃ taken, l.unread = taken ++ l.nextToken.2.unread ∧
      l.nextToken.2.position = l.position.after taken := by
  refine ⟨(splitLayout false l.unread).1 ++ (scan (splitLayout false l.unread).2).taken, ?_, ?_⟩
  · rw [List.append_assoc, nextToken, scan_append, splitLayout_append]
  · rw [Position.after_append]
    rfl

/-- One answer comes first, and the others from behind what it takes. -/
theorem StandsBehind.nextToken (h : StandsBehind text before l) :
    ∃ taken, StandsBehind text (before ++ taken) l.nextToken.2 ∧
      ∀ answers before' unread',
        Answered (before ++ taken) l.nextToken.2.unread answers before' unread' →
        Answered before l.unread (l.nextToken.1 :: answers) before' unread' := by
  obtain ⟨taken, hunread, hposition⟩ := exists_taken l
  refine ⟨taken, ⟨?_, ?_⟩, ?_⟩
  · rw [List.append_assoc, ← hunread]
    exact h.text_eq
  · rw [hposition, h.position_eq, Position.after_behind]
  · intro answers before' unread' hrest
    rw [nextToken_eq_placeAnswer, h.position_eq]
    exact .cons hunread hrest

/-- All answers that the iterator still gives. -/
theorem StandsBehind.drain (h : StandsBehind text before l) :
    ∃ taken, StandsBehind text (before ++ taken) l.drain.2 ∧
      Answered before l.unread l.drain.1 (before ++ taken) l.drain.2.unread := by
  induction l using iterate_ind generalizing before with
  | finished l hf =>
    rw [drain_of_finished hf]
    refine ⟨[], ?_, ?_⟩
    · rwa [List.append_nil]
    · rw [List.append_nil]
      exact .nil
  | step l hf ih =>
    obtain ⟨taken, hbehind, hanswers⟩ := h.nextToken
    obtain ⟨taken', hbehind', hanswers'⟩ := ih ⟨hbehind.text_eq, hbehind.position_eq⟩
    rw [List.append_assoc] at hbehind' hanswers'
    rw [drain_eq hf]
    exact ⟨taken ++ taken', hbehind', hanswers _ _ _ hanswers'⟩

/-- The answers to a call, and where it leaves the lexer. -/
theorem StandsBehind.call (h : StandsBehind text before l) (c : Call) :
    ∃ taken, StandsBehind text (before ++ taken) (l.call c).2 ∧
      Answered before l.unread (l.call c).1 (before ++ taken) (l.call c).2.unread := by
  cases c with
  | next =>
    cases hf : l.finished with
    | true =>
      rw [Lexer.call, next_of_finished hf]
      refine ⟨[], ?_, ?_⟩
      · rwa [List.append_nil]
      · rw [List.append_nil]
        exact .nil
    | false =>
      obtain ⟨taken, hbehind, hanswers⟩ := h.nextToken
      rw [Lexer.call, next_eq hf]
      exact ⟨taken, ⟨hbehind.text_eq, hbehind.position_eq⟩, hanswers _ _ _ .nil⟩
  | nextToken =>
    obtain ⟨taken, hbehind, hanswers⟩ := h.nextToken
    exact ⟨taken, hbehind, hanswers _ _ _ .nil⟩
  | drain => exact h.drain

/-- After any calls the lexer stands behind what they took. -/
theorem StandsBehind.afterCalls (h : StandsBehind text before l) (calls : List Call) :
    ∃ taken, StandsBehind text (before ++ taken) (l.afterCalls calls) := by
  induction calls generalizing before l with
  | nil => exact ⟨[], by rwa [List.append_nil]⟩
  | cons c calls ih =>
    obtain ⟨taken, hbehind, -⟩ := h.call c
    obtain ⟨taken', hbehind'⟩ := ih hbehind
    exact ⟨taken ++ taken', by rwa [← List.append_assoc]⟩

end Answers

section LastAnswers

variable {l : Lexer}

/-- The iterator stops with its last answer. -/
theorem drain_ends (h : l.finished = false) :
    (∃ a ∈ l.drain.1, isLast a) ∧ l.drain.2.finished = true := by
  induction l using iterate_ind with
  | finished l hf => simp [hf] at h
  | step l hf ih =>
    rw [drain_eq hf]
    cases hlast : isLast l.nextToken.1 with
    | true =>
      rw [drain_of_finished rfl]
      exact ⟨⟨_, List.mem_cons_self, hlast⟩, rfl⟩
    | false =>
      rw [hlast] at ih
      obtain ⟨⟨a, ha, hal⟩, hf'⟩ := ih rfl
      exact ⟨⟨a, List.mem_cons_of_mem _ ha, hal⟩, hf'⟩

/-- The iterator, and nothing else, sets the flag, and it does so with its last answer. -/
theorem call_finished (l : Lexer) (c : Call) :
    (l.call c).2.finished = true ↔
      l.finished = true ∨ (c ≠ .nextToken ∧ ∃ a ∈ (l.call c).1, isLast a) := by
  cases hf : l.finished with
  | true => cases c <;> simp [call, next_of_finished hf, drain_of_finished hf, hf]
  | false =>
    cases c with
    | next => simp [call, next_eq hf]
    | nextToken => simp [call, hf]
    | drain => simp [call, drain_ends hf]

theorem afterCalls_finished (l : Lexer) (calls : List Call) :
    (l.afterCalls calls).finished = true ↔ l.finished = true ∨ l.Ended calls := by
  induction calls generalizing l with
  | nil => simp [afterCalls, Ended]
  | cons c calls ih =>
    have h := ih (l.call c).2
    rw [call_finished, or_assoc] at h
    exact h

/-- With the flag set the iterator does nothing. -/
theorem call_of_finished (h : l.finished = true) {c : Call} (hc : c ≠ .nextToken) :
    l.call c = ([], l) := by
  cases c with
  | next => simp [call, next_of_finished h]
  | nextToken => exact absurd rfl hc
  | drain => exact drain_of_finished h

/-- Without it the iterator answers. -/
theorem call_ne_nil (h : l.finished = false) (c : Call) : (l.call c).1 ≠ [] := by
  cases c with
  | next => simp [call, next_eq h]
  | nextToken => simp [call]
  | drain => simp [call, drain_eq h]

/-- A lexer can be resumed after anything. After any calls it stands behind a front of the
text that no further call gives back, and at the true place; what it answers then is what a
new lexer answers on the text that is left, put in that place. The iterator gives nothing more
and takes nothing once it has given a last answer, and answers until then. The flag that it
keeps for this is not seen and not touched by the single call. -/
theorem resumes_after_calls (source : String) (calls : List Call) :
    let l := (ofText source.toList).afterCalls calls
    ∃ before, StandsBehind source.toList before l ∧
      (∀ c, ∃ taken, StandsBehind source.toList (before ++ taken) (l.call c).2 ∧
        Answered before l.unread (l.call c).1 (before ++ taken) (l.call c).2.unread) ∧
      (∀ c, c ≠ .nextToken →
        ((ofText source.toList).Ended calls → l.call c = ([], l)) ∧
        (¬ (ofText source.toList).Ended calls → (l.call c).1 ≠ [])) ∧
      ∀ flag, ({ l with finished := flag } : Lexer).nextToken =
        (l.nextToken.1, { l.nextToken.2 with finished := flag }) := by
  intro l
  have hfront : StandsBehind source.toList [] (ofText source.toList) := ⟨rfl, rfl⟩
  obtain ⟨before, hbehind⟩ := hfront.afterCalls calls
  have hflag : l.finished = true ↔ (ofText source.toList).Ended calls :=
    (afterCalls_finished _ calls).trans (by simp [ofText])
  refine ⟨before, hbehind, fun c => hbehind.call c, fun c hc => ⟨fun h => ?_, fun h => ?_⟩, ?_⟩
  · exact call_of_finished (hflag.2 h) hc
  · have hf : l.finished = false := by
      rwa [← hflag, Bool.not_eq_true] at h
    exact call_ne_nil hf c
  · intro flag
    rfl

end LastAnswers

end Lexer

end SchemaLang
