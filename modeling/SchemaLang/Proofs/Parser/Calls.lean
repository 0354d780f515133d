import SchemaLang.Proofs.Parser.DescentMachine

/-!
# One parser called again and again

After an error a parser can be called again, and goes on where the error has left it. The
descent follows the machine from call to call (`Cursor.Follows`), so that all its calls
return, and each of them answers as a new parser would on the tokens that are left. A call
takes a token or leaves the parser as it was (`Parser.afterCalls_eq_or_le`), so the answers
change no more once there have been as many calls as tokens.
-/
namespace SchemaLang

/-- The parser that some calls leave, one after another. -/
def Parser.afterCalls (p : Parser) : Nat → Parser
  | 0 => p
  | k + 1 => (p.afterCalls k).parseProgram.2

/-- The answer to a call, the first one being call number 0. -/
def Parser.answer (p : Parser) (k : Nat) : Except ParseError Program :=
  (p.afterCalls k).parseProgram.1

/-- A call returns with this answer and leaves this cursor: its procedures need not call each
other deeper than there are tokens in the list, and it makes no difference if they may. -/
def Cursor.Returns (c : Cursor) (answer : Except ParseError Program) (c' : Cursor) : Prop :=
  ∀ n, c.tokens.length ≤ n → c.parseProgram n = some (answer, c')

/-- The cursor that some calls leave, one after another, if all of them return. -/
def Cursor.afterCalls (c : Cursor) : Nat → Option Cursor
  | 0 => some c
  | k + 1 => (c.afterCalls k).bind fun c' => (c'.parseProgram c'.tokens.length).map (·.2)

/-- Between two calls the cursor is on the list that was given, in front of one of its tokens
or of its end. No object is open, and never have more than 128 been. -/
structure Cursor.Rests (ts : List Token) (c : Cursor) : Prop where
  tokens : c.tokens = ts
  inside : c.index < ts.length
  depth : c.depth = 0
  shallow : c.deepest ≤ 128

/-- The call returns and does not go back. A new parser for the tokens that were unread gives
the same answer. -/
structure Cursor.Answers (c : Cursor) (answer : Except ParseError Program) (c' : Cursor) :
    Prop where
  returns : c.Returns answer c'
  onward : c.index ≤ c'.index
  fresh : ∃ new used, Cursor.ofTokens (c.tokens.drop c.index) = .ok new ∧
    new.Returns answer used
  parse_eq : parse (c.tokens.drop c.index) = answer

theorem Cursor.Answers.afterCalls {c before behind : Cursor} {k : Nat}
    {answer : Except ParseError Program} (h : before.Answers answer behind)
    (hc : c.afterCalls k = some before) : c.afterCalls (k + 1) = some behind := by
  rw [Cursor.afterCalls, hc, Option.bind_some, h.returns _ (Nat.le_refl _), Option.map_some]

section Settling

/-- What a run has not taken is the end of what it was given. -/
theorem State.run_unread_suffix (limit : Option Nat) (p : Position) (s : State)
    (ts : List Token) : (s.run limit p ts).unread <:+ ts := by
  obtain ⟨pre, ms, u, -, ⟨-, hrun⟩ | ⟨t, post, rfl, ⟨e, -, hrun⟩ | ⟨-, hrun⟩⟩⟩ :=
    State.run_cases limit p s ts
  · rw [hrun]
    exact List.nil_suffix
  · rw [hrun]
    exact ⟨pre ++ [t], by simp⟩
  · rw [hrun]
    exact List.suffix_append pre (t :: post)

/-- A call takes a token or leaves the parser as it was. -/
theorem Parser.parseProgram_eq_or_lt (p : Parser) :
    p.parseProgram.2 = p ∨ p.parseProgram.2.unread.length < p.unread.length := by
  have hsuffix : p.parseProgram.2.unread <:+ p.unread :=
    State.run_unread_suffix (some maxNesting) p.endPosition .between p.unread
  rcases hsuffix.length_le.eq_or_lt with heq | hlt
  · have hunread : p.parseProgram.2.unread = p.unread := hsuffix.eq_of_length heq
    exact .inl (congrArg (Parser.mk · p.endPosition) hunread)
  · exact .inr hlt

/-- The next call changes nothing, or all the calls have taken a token each. -/
theorem Parser.afterCalls_eq_or_le (p : Parser) (k : Nat) :
    p.afterCalls (k + 1) = p.afterCalls k ∨
      (p.afterCalls (k + 1)).unread.length + (k + 1) ≤ p.unread.length := by
  induction k with
  | zero => exact p.parseProgram_eq_or_lt
  | succ k ih =>
    rcases ih with hsame | hle
    · exact .inl (congrArg (·.parseProgram.2) hsame)
    · rcases (p.afterCalls (k + 1)).parseProgram_eq_or_lt with hsame | hlt
      · exact .inl hsame
      · refine .inr ?_
        change (p.afterCalls (k + 1)).parseProgram.2.unread.length + (k + 2) ≤ _
        omega

/-- As many calls as there are tokens settle the parser. -/
theorem Parser.afterCalls_settled (p : Parser) {k : Nat} (hk : p.unread.length ≤ k) :
    p.afterCalls k = p.afterCalls p.unread.length := by
  induction k, hk using Nat.le_induction with
  | base => rfl
  | succ k hk ih =>
    rcases p.afterCalls_eq_or_le k with hsame | hle
    · exact hsame.trans ih
    · omega

end Settling

/-- The list of a cursor has one end of the input, which is its last token. -/
theorem Cursor.ofTokens_append_end {us : List Token} {eof : Token} (hus : EndFree us)
    (heof : eof.kind = .endOfInput) :
    Cursor.ofTokens (us ++ [eof]) = .ok ⟨us ++ [eof], 0, 0, 0⟩ := by
  simp only [Cursor.ofTokens, dropWhile_append_end hus heof]

/-- A cursor and a parser for the same list have the same tokens in front of the same end. -/
theorem Cursor.exists_of_ofTokens {ts : List Token} {p : Parser}
    (h : Parser.ofTokens ts = .ok p) :
    ∃ c eof, Cursor.ofTokens ts = .ok c ∧ c = ⟨p.unread ++ [eof], 0, 0, 0⟩ ∧
      EndFree p.unread ∧ eof.kind = .endOfInput ∧ eof.position = p.endPosition := by
  obtain ⟨hus, ⟨rfl, hend⟩ | ⟨eof, rfl, heof, hend⟩⟩ := ofTokens_eq_ok h
  · refine ⟨_, ⟨.endOfInput, "", p.endPosition⟩, ?_, rfl, hus, rfl, rfl⟩
    simp only [Cursor.ofTokens, dropWhile_of_forall hus, hend]
  · exact ⟨_, eof, Cursor.ofTokens_append_end hus heof, rfl, hus, heof, hend.symm⟩

/-- The tokens ahead and the end are part of the list. -/
theorem Cursor.Sees.length_add_lt {c : Cursor} {us : List Token} {eof : Token}
    (h : c.Sees us eof) : c.index + us.length < c.tokens.length := by
  have hlength := congrArg List.length h.ahead
  rw [List.length_drop, List.length_append, List.length_singleton] at hlength
  omega

/-- A call returns, with the answer of the machine. -/
theorem Cursor.returns_of_sees {c : Cursor} {us : List Token} {eof : Token}
    (h : c.Sees us eof) (hd : c.depth = 0) :
    ∃ c', c.Returns (State.between.runTo eof us).result c' ∧ c.Onward c' ∧
      c'.Sees (State.between.runTo eof us).unread eof := by
  have hlength := h.length_add_lt
  obtain ⟨c', hcall, hrest⟩ :=
    Cursor.parseProgram_of_sees (n := c.tokens.length) (by omega) h hd
  exact ⟨c', fun n hn => Cursor.parseProgram_of_le hcall hn, hrest⟩

/-- The cursor is where the parser is, which ends at `eof`. -/
structure Cursor.Follows (ts : List Token) (eof : Token) (c : Cursor) (p : Parser) : Prop where
  tokens : c.tokens = ts
  depth : c.depth = 0
  sees : c.Sees p.unread eof
  ending : eof.position = p.endPosition

namespace Cursor.Follows

variable {ts : List Token} {eof : Token} {c : Cursor} {p : Parser}

theorem rests (h : c.Follows ts eof p) : c.Rests ts := by
  have hlength := h.sees.length_add_lt
  rw [h.tokens] at hlength
  exact ⟨h.tokens, by omega, h.depth, h.sees.shallow⟩

/-- A call of each, and the cursor has followed. -/
theorem call (h : c.Follows ts eof p) :
    ∃ c', c.Answers p.parseProgram.1 c' ∧ c'.Follows ts eof p.parseProgram.2 := by
  have hrun : State.between.runTo eof p.unread = p.readWithin (some maxNesting) := by
    rw [State.runTo, h.ending, Parser.readWithin]
  obtain ⟨c', hreturns, honward, hsees⟩ := Cursor.returns_of_sees h.sees h.depth
  rw [hrun] at hreturns hsees
  have hnew : Cursor.Sees ⟨p.unread ++ [eof], 0, 0, 0⟩ p.unread eof :=
    ⟨rfl, h.sees.free, h.sees.ending, Nat.zero_le _⟩
  obtain ⟨used, hused, -⟩ := Cursor.returns_of_sees hnew rfl
  rw [hrun] at hused
  have hfollows : c'.Follows ts eof p.parseProgram.2 :=
    ⟨honward.tokens.trans h.tokens, honward.depth.trans h.depth, hsees, h.ending⟩
  refine ⟨c', ⟨hreturns, honward.index, ?_, ?_⟩, hfollows⟩
  · rw [h.sees.ahead]
    exact ⟨_, used, Cursor.ofTokens_append_end h.sees.free h.sees.ending, hused⟩
  · rw [h.sees.ahead, parse,
      parseWithin_of_ofTokens (SchemaLang.ofTokens_append_end h.sees.free h.sees.ending), h.ending]
    rfl

/-- All calls return, and the cursor follows the parser through them. -/
theorem afterCalls (h : c.Follows ts eof p) (k : Nat) :
    ∃ c', c.afterCalls k = some c' ∧ c'.Follows ts eof (p.afterCalls k) := by
  induction k with
  | zero => exact ⟨c, rfl, h⟩
  | succ k ih =>
    obtain ⟨c', hc', hfollows⟩ := ih
    obtain ⟨c'', hanswers, hfollows'⟩ := hfollows.call
    exact ⟨c'', hanswers.afterCalls hc', hfollows'⟩

end Cursor.Follows

end SchemaLang
