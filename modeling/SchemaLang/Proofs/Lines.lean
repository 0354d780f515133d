import Mathlib.Data.List.DropRight
import SchemaLang.Diagnostic
import SchemaLang.Proofs.Location

/-!
# The line of a place

A place between two parts of a text lies in one line: what stands behind the last line
feed of the first part (`lastLine`) and what the second part has in front of its first
line end (`firstLine`). Counting line feeds finds that line among the lines of the text.
-/
namespace SchemaLang

/-- What stands behind the last line feed of a text. -/
def lastLine (text : List Char) : List Char := text.rtakeWhile (· ≠ '\n')

/-- What stands in front of the first line end of a text: a line feed, together with one
carriage return right before it. -/
def firstLine : List Char → List Char
  | [] => []
  | c :: cs => if c = '\n' ∨ c = '\r' ∧ cs.head? = some '\n' then [] else c :: firstLine cs

theorem column_behind (text : List Char) :
    (Position.behind text).column = (lastLine text).length + 1 := by
  rw [Position.behind, lastLine, List.rtakeWhile, List.length_reverse]

theorem not_mem_lastLine (text : List Char) : '\n' ∉ lastLine text := by
  intro h
  simpa using List.mem_rtakeWhile_imp h

theorem not_mem_firstLine (text : List Char) : '\n' ∉ firstLine text := by
  fun_induction firstLine text <;> simp_all [eq_comm]

theorem lastLine_of_not_mem {cs : List Char} (h : '\n' ∉ cs) : lastLine cs = cs := by
  rw [lastLine, List.rtakeWhile_eq_self_iff]
  intro c hc
  have hne : c ≠ '\n' := fun he => h (he ▸ hc)
  simpa using hne

/-- What stands in front of a line feed is not in the last line. -/
theorem lastLine_cons_of_mem {c : Char} {cs : List Char} (h : '\n' ∈ cs) :
    lastLine (c :: cs) = lastLine cs := by
  induction cs using List.reverseRecOn with
  | nil => simp at h
  | append_singleton cs d ih =>
    have hcons : c :: (cs ++ [d]) = c :: cs ++ [d] := rfl
    rw [lastLine, lastLine, hcons, List.rtakeWhile_concat, List.rtakeWhile_concat]
    by_cases hd : d = '\n'
    · simp only [hd, ne_eq, not_true, decide_false, Bool.false_eq_true, if_false]
    · have hcs : '\n' ∈ cs := by simpa [eq_comm, hd] using h
      rw [show List.rtakeWhile _ (c :: cs) = _ from ih hcs]
      rfl

/-- Behind a line feed a line begins. -/
theorem lastLine_line (cs : List Char) : lastLine ('\n' :: cs) = lastLine cs := by
  by_cases h : '\n' ∈ cs
  · exact lastLine_cons_of_mem h
  · rw [lastLine_of_not_mem h, lastLine, List.rtakeWhile, List.reverse_cons]
    have hall : ∀ d ∈ cs.reverse, decide (d ≠ '\n') = true := by
      intro d hd
      have hne : d ≠ '\n' := fun he => h (he ▸ List.mem_reverse.1 hd)
      simpa using hne
    rw [List.takeWhile_append_of_pos hall]
    simp

/-- A character that ends no line stands at the front of the first line. -/
theorem splitLines_cons {c : Char} {cs : List Char} (hc : c ≠ '\n')
    (hr : ¬(c = '\r' ∧ cs.head? = some '\n')) :
    splitLines (c :: cs) = (c :: (splitLines cs).getD 0 []) :: (splitLines cs).tail := by
  rw [splitLines, if_neg hc, if_neg hr]
  cases splitLines cs with
  | nil => rfl
  | cons l ls => rfl

/-- A text begins with its first line. -/
theorem getD_splitLines_zero (text : List Char) : (splitLines text).getD 0 [] = firstLine text := by
  induction text with
  | nil => rfl
  | cons c cs ih =>
    by_cases hc : c = '\n'
    · simp [splitLines, firstLine, hc]
    · by_cases hr : c = '\r' ∧ cs.head? = some '\n'
      · have hcs : firstLine cs = [] := by
          cases cs with
          | nil => rfl
          | cons d ds =>
            obtain rfl : d = '\n' := by simpa using hr.2
            simp [firstLine]
        rw [splitLines, if_neg hc, if_pos hr, ih, hcs, firstLine, if_pos (.inr hr)]
      · rw [splitLines_cons hc hr, ih, firstLine, if_neg (not_or.2 ⟨hc, hr⟩)]
        rfl

/-- Of the lines of a text the one with the number of a place in it is the line of that place,
if what follows is not a line feed. -/
theorem getD_splitLines_append {before rest : List Char} (h : rest.head? ≠ some '\n') :
    (splitLines (before ++ rest)).getD (before.count '\n') [] =
      lastLine before ++ firstLine rest := by
  induction before with
  | nil => exact getD_splitLines_zero rest
  | cons c cs ih =>
    rw [List.cons_append]
    by_cases hc : c = '\n'
    · simp only [hc, splitLines, if_true, List.count_cons_self, List.getD_cons_succ, ih,
        lastLine_line]
    · rw [List.count_cons_of_ne hc]
      by_cases hr : c = '\r' ∧ (cs ++ rest).head? = some '\n'
      · -- the line feed stands in front of the place, as `rest` does not begin with it
        have hmem : '\n' ∈ cs := by
          cases cs with
          | nil => exact absurd hr.2 h
          | cons d ds =>
            obtain rfl : d = '\n' := by simpa using hr.2
            simp
        rw [splitLines, if_neg hc, if_pos hr, ih, lastLine_cons_of_mem hmem]
      · rw [splitLines_cons hc hr]
        by_cases hmem : '\n' ∈ cs
        · obtain ⟨n, hn⟩ := Nat.exists_eq_succ_of_ne_zero
            (Nat.ne_of_gt (List.count_pos_iff.2 hmem))
          rw [hn] at ih ⊢
          rw [lastLine_cons_of_mem hmem, ← ih]
          cases splitLines (cs ++ rest) with
          | nil => rfl
          | cons l ls => rfl
        · have hall : '\n' ∉ c :: cs := by simp [eq_comm, hc, hmem]
          rw [List.count_eq_zero.2 hmem, lastLine_of_not_mem hmem] at ih
          rw [List.count_eq_zero.2 hmem, lastLine_of_not_mem hall, ih]
          rfl

end SchemaLang
