import SchemaLang.Proofs.Parser.ViablePrefix

/-!
# What an error leaves of a program

The modules that are complete when a run ends are those of the longest front of its tokens
that is a program by itself. So what a parser has seen before an error does not depend on the
error, nor on anything behind that front.
-/
namespace SchemaLang

open Grammar

/-- Of all fronts of the tokens that parse, this is the longest, and `P` is its program. -/
structure LongestFront (ts front : List Token) (P : Program) : Prop where
  isPrefix : front <+: ts
  parses : parse front = .ok P
  longest : ∀ other Q, other <+: ts → parse other = .ok Q → other.length ≤ front.length

variable {limit : Option Nat} {p : Position} {ts : List Token}

theorem EndFree.of_isPrefix {us : List Token} (h : EndFree ts) (hu : us <+: ts) : EndFree us :=
  fun t ht => h t (hu.subset ht)

/-- A run completes the modules of some front of the tokens. -/
theorem exists_front_of_run (limit : Option Nat) (p : Position) (ts : List Token) :
    ∃ front, front <+: ts ∧ Derives front ⟨(State.between.run limit p ts).modules⟩ ∧
      ∀ m ∈ (State.between.run limit p ts).modules, m.Fits limit := by
  obtain ⟨pre, ms, u, hr, hstop⟩ := State.run_cases limit p .between ts
  obtain ⟨front, rest, rfl, hms, hfit, -, -⟩ := hr.sound
  rcases hstop with ⟨rfl, hrun⟩ | ⟨t, post, rfl, ⟨e, -, hrun⟩ | ⟨-, hrun⟩⟩
  · rw [hrun]
    exact ⟨front, List.prefix_append front rest, hms, hfit⟩
  · rw [hrun]
    exact ⟨front, by simp, hms, hfit⟩
  · rw [hrun]
    exact ⟨front, by simp, hms, hfit⟩

/-- No program at the front goes on behind what a run has completed. -/
theorem length_le_of_derives {front other : List Token} {Q : Program} (hfront : front <+: ts)
    (h : Derives front ⟨(State.between.run limit p ts).modules⟩)
    (hf : ∀ m ∈ (State.between.run limit p ts).modules, m.Fits limit)
    (hother : other <+: ts) (hQ : Derives other Q) (hfit : ∀ m ∈ Q.modules, m.Fits limit) :
    other.length ≤ front.length := by
  rcases Nat.le_total other.length front.length with hle | hle
  · exact hle
  obtain ⟨more, rfl⟩ := List.prefix_of_prefix_length_le hfront hother hle
  obtain ⟨rest, rfl⟩ := hother
  generalize hmodules : (State.between.run limit p (front ++ more ++ rest)).modules = ms at h hf
  -- the modules of the other program are those of the front and those of what comes behind it,
  -- but the run has completed no others than the front
  have hsplit : (State.between.run limit p more).behind ms = ⟨Q.modules, none, []⟩ :=
    ((reads_modules h hf).run_append p more).symm.trans
      ((reads_modules hQ hfit).run_of_between p)
  obtain ⟨hwhole, hfailure, -⟩ := Reading.mk.inj hsplit
  have hnone : (State.between.run limit p more).modules = [] := by
    have hall := congrArg Reading.modules ((reads_modules hQ hfit).run_append p rest)
    rw [hmodules] at hall
    have hlength := congrArg List.length hall
    simp only [Reading.behind, ← hwhole, List.length_append] at hlength
    exact List.length_eq_zero_iff.1 (by omega)
  have hempty : (State.between.run limit p more).result = .ok ⟨[]⟩ := by
    rw [Reading.result, hfailure, hnone]
  have hderives : Many IsModule more [] := (run_result_eq_ok_iff.1 hempty).1
  cases hderives with
  | nil => simp

/-- The modules that a run completes are the program of the longest front. -/
theorem exists_longestFront (h : EndFree ts) (p : Position) :
    ∃ front, LongestFront ts front ⟨(State.between.run (some maxNesting) p ts).modules⟩ := by
  obtain ⟨front, hfront, hderives, hfits⟩ := exists_front_of_run (some maxNesting) p ts
  refine ⟨front, hfront, ?_, ?_⟩
  · rw [parse_of_endFree (h.of_isPrefix hfront)]
    exact run_result_eq_ok_iff.2 ⟨hderives, hfits⟩
  · intro other Q hother hQ
    rw [parse_of_endFree (h.of_isPrefix hother)] at hQ
    obtain ⟨hQderives, hQfits⟩ := run_result_eq_ok_iff.1 hQ
    exact length_le_of_derives hfront hderives hfits hother hQderives hQfits

theorem LongestFront.derives {front : List Token} {P : Program} (h : LongestFront ts front P)
    (hts : EndFree ts) : Derives front P := by
  have hparses := h.parses
  rw [parse_of_endFree (hts.of_isPrefix h.isPrefix)] at hparses
  exact (run_result_eq_ok_iff.1 hparses).1

/-- There is one such front only, with one program. -/
theorem LongestFront.unique {front front' : List Token} {P P' : Program}
    (h : LongestFront ts front P) (h' : LongestFront ts front' P') : front = front' ∧ P = P' := by
  have hlength : front.length = front'.length :=
    Nat.le_antisymm (h'.longest _ _ h.isPrefix h.parses) (h.longest _ _ h'.isPrefix h'.parses)
  obtain rfl : front = front' :=
    (List.prefix_of_prefix_length_le h.isPrefix h'.isPrefix hlength.le).eq_of_length hlength
  exact ⟨rfl, Except.ok.inj (h.parses.symm.trans h'.parses)⟩

end SchemaLang
