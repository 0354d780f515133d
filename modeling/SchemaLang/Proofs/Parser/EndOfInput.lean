import SchemaLang.Proofs.Parser.ViablePrefix

/-!
# Where the tokens end

Of the end of the input nothing but its place is ever seen, and that only in the error of an
early end. So a list parses with an end of its own as it does without one, up to that place,
which is right behind the last lexeme if there is no token to say it. Nothing may come behind
an end.
-/
namespace SchemaLang

/-- The same error, with an early end moved to `p`. -/
def ParseError.endingAt (p : Position) : ParseError → ParseError
  | unexpectedEnd x _ => unexpectedEnd x p
  | e => e

/-- The same reading, with an early end moved to `p`. -/
def Reading.endingAt (p : Position) (r : Reading) : Reading :=
  { r with failure := r.failure.map (·.endingAt p) }

section Runs

variable {limit : Option Nat} {s : State} {t : Token} {e : ParseError}

/-- No token leads to the error of an early end. -/
theorem State.endingAt_of_step (h : s.step limit t = .fail e) (p : Position) :
    e.endingAt p = e := by
  have hk := (State.step_move limit s t).keeps_error (E := fun e => e.endingAt p = e)
    (fun _ _ => rfl) ?_ ?_ ?_ ?_
  · rwa [h] at hk
  · rintro _ ⟨name, scope, first, second, rfl⟩
    rfl
  · intro e he
    rw [typeLeaf?_eq_error he]
    rfl
  · intro e he
    rw [scalar?_eq_error he]
    rfl
  · intro m e he
    rw [number?_eq_error he]
    rfl

/-- Runs that differ in where the input ends differ in where they place an early end. -/
theorem State.run_endingAt (limit : Option Nat) (p q : Position) (s : State) (ts : List Token) :
    s.run limit p ts = (s.run limit q ts).endingAt p := by
  induction ts generalizing s with
  | nil => cases s <;> rfl
  | cons t ts ih =>
    rw [State.run, State.run]
    cases hstep : s.step limit t with
    | shift u => exact ih u
    | done m => simp only [ih .between, Reading.endingAt]
    | fail e => simp only [Reading.endingAt, Option.map_some, State.endingAt_of_step hstep p]
    | reject => rfl

theorem Reading.result_endingAt (p : Position) (r : Reading) :
    (r.endingAt p).result = r.result.mapError (·.endingAt p) := by
  obtain ⟨ms, failure, ts⟩ := r
  cases failure <;> rfl

/-- The results of two runs that differ in where the input ends are the same, unless it ends
too early. -/
theorem State.run_result_eq_or (limit : Option Nat) (p q : Position) (s : State)
    (ts : List Token) :
    ((s.run limit p ts).result = (s.run limit q ts).result ∧
      ∀ x r, (s.run limit q ts).result ≠ .error (.unexpectedEnd x r)) ∨
    ∃ x, (s.run limit p ts).result = .error (.unexpectedEnd x p) ∧
      (s.run limit q ts).result = .error (.unexpectedEnd x q) := by
  have hp := congrArg Reading.result (s.run_endingAt limit p q ts)
  have hq := congrArg Reading.result (s.run_endingAt limit q q ts)
  rw [Reading.result_endingAt] at hp hq
  rw [hp]
  cases hr : (s.run limit q ts).result with
  | ok P => exact .inl ⟨rfl, fun x r h => nomatch h⟩
  | error e =>
    rw [hr] at hq
    cases e with
    | unexpectedEnd x r => exact .inr ⟨x, rfl, hq⟩
    | _ => exact .inl ⟨rfl, fun x r h => nomatch h⟩

end Runs

section Lists

variable {ts : List Token}

/-- The implied end is the start, or right behind the last lexeme. -/
theorem impliedEnd_append (front : List Token) (last : Token) :
    Parser.impliedEnd (front ++ [last]) =
      ⟨last.position.line, last.position.column + last.lexeme.length⟩ := by
  simp only [Parser.impliedEnd, List.getLast?_append, List.getLast?_singleton, Option.some_or]

/-- A list with an end that is not its last token, taken apart at the first end. -/
theorem exists_first_end (h : ∃ e ∈ ts.dropLast, e.kind = .endOfInput) :
    ∃ front e extra rest, ts = front ++ e :: extra :: rest ∧ EndFree front ∧
      e.kind = .endOfInput := by
  induction ts with
  | nil => simp at h
  | cons t ts ih =>
    cases ts with
    | nil => simp at h
    | cons u us =>
      by_cases ht : t.kind = .endOfInput
      · exact ⟨[], t, u, us, rfl, by simp [EndFree], ht⟩
      · rw [List.dropLast_cons_cons] at h
        obtain ⟨e, he, hk⟩ := h
        rcases List.mem_cons.1 he with rfl | he
        · exact absurd hk ht
        · obtain ⟨front, e, extra, rest, hts, hfront, hk⟩ := ih ⟨e, he, hk⟩
          exact ⟨t :: front, e, extra, rest, congrArg (t :: ·) hts,
            List.forall_mem_cons.2 ⟨ht, hfront⟩, hk⟩

/-- Whatever comes behind the first end is refused. -/
theorem parse_of_tokens_after_end {front rest : List Token} {e extra : Token}
    (hfront : EndFree front) (he : e.kind = .endOfInput) :
    parse (front ++ e :: extra :: rest) =
      .error (.tokensAfterEnd extra.lexeme extra.position) := by
  have hp : ∀ t ∈ front, decide (t.kind ≠ .endOfInput) = true := by simpa [EndFree] using hfront
  have hdrop : (front ++ e :: extra :: rest).dropWhile (·.kind ≠ .endOfInput) =
      e :: extra :: rest := by
    rw [List.dropWhile_append_of_pos hp]
    simp [he]
  have hparser : Parser.ofTokens (front ++ e :: extra :: rest) =
      .error (.tokensAfterEnd extra.lexeme extra.position) := by
    simp only [Parser.ofTokens, hdrop]
  rw [parse, parseWithin, hparser]
  rfl

end Lists

end SchemaLang
