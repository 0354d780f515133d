import Mathlib.Data.List.TakeWhile
import SchemaLang.Proofs.Lexer.Lexical

/-!
# The front of a text is cut as the lexical grammar cuts it

`splitLayout` takes off exactly the gap at the front, and `scan` exactly the lexeme
that stands there; where no lexeme stands, `scan` finds a fault.
-/
namespace SchemaLang.Lexical

/-- No gap is in front of the text. -/
def Clear (cs : List Char) : Prop := splitLayout false cs = ([], cs)

theorem takeWhile_append_of_head {p : Char → Bool} {cs rest : List Char} (h : ∀ c ∈ cs, p c)
    (hr : ∀ c ∈ rest.head?, p c = false) : (cs ++ rest).takeWhile p = cs := by
  rw [List.takeWhile_append_of_pos h]
  cases rest with
  | nil => simp
  | cons c rest => simp [hr c rfl]

theorem dropWhile_append_of_head {p : Char → Bool} {cs rest : List Char} (h : ∀ c ∈ cs, p c)
    (hr : ∀ c ∈ rest.head?, p c = false) : (cs ++ rest).dropWhile p = rest := by
  rw [List.dropWhile_append_of_pos h]
  cases rest with
  | nil => rfl
  | cons c rest => simp [hr c rfl]

theorem head?_dropWhile (p : Char → Bool) (cs : List Char) :
    ∀ c ∈ (cs.dropWhile p).head?, p c = false := by
  induction cs with
  | nil => simp
  | cons c cs ih =>
    rw [List.dropWhile_cons]
    split
    · exact ih
    · next h => simpa using h

section Layout

/-- Up to the end of its line, all of a comment is layout. -/
theorem splitLayout_comment {body cs : List Char} (hb : '\n' ∉ body)
    (hc : ∀ c ∈ cs.head?, c = '\n') :
    splitLayout true (body ++ cs) =
      (body ++ (splitLayout false cs).1, (splitLayout false cs).2) := by
  induction body with
  | nil =>
    cases cs with
    | nil => rfl
    | cons c cs =>
      obtain rfl : c = '\n' := hc c rfl
      simp [splitLayout, isBlank]
  | cons b body ih =>
    obtain ⟨hne, hb'⟩ : b ≠ '\n' ∧ '\n' ∉ body := by
      simpa [eq_comm] using hb
    simp [splitLayout, hne, ih hb']

/-- A gap and the layout behind it are split off together. -/
theorem splitLayout_gap_append {gap rest : List Char} (h : Gap gap rest) :
    splitLayout false (gap ++ rest) =
      (gap ++ (splitLayout false rest).1, (splitLayout false rest).2) := by
  induction h with
  | nil => rfl
  | blank hb _ ih => simp [splitLayout, hb, ih]
  | @comment body cs rest hb hc _ ih =>
    have hbody : '\n' ∉ '/' :: body := by simpa using hb
    have hcomment := splitLayout_comment hbody hc
    rw [ih] at hcomment
    have hs : isBlank '/' = false := by decide
    simpa [splitLayout, hs] using hcomment

/-- A gap in front of a text without one is all that is split off. -/
theorem splitLayout_of_gap {gap rest : List Char} (h : Gap gap rest) (hr : Clear rest) :
    splitLayout false (gap ++ rest) = (gap, rest) := by
  rw [splitLayout_gap_append h, show splitLayout false rest = ([], rest) from hr, List.append_nil]

theorem not_mem_takeWhile_line (ds : List Char) : '\n' ∉ ds.takeWhile (· ≠ '\n') := by
  intro hm
  simpa using List.mem_takeWhile_imp hm

theorem head?_dropWhile_line (ds : List Char) :
    ∀ d ∈ (ds.dropWhile (· ≠ '\n')).head?, d = '\n' := by
  intro d hd
  simpa using head?_dropWhile _ ds d hd

/-- Two slashes open a comment. It reaches up to the next line feed, and the layout goes on
there. -/
theorem splitLayout_slashes (ds : List Char) :
    splitLayout false ('/' :: '/' :: ds) =
      ('/' :: '/' :: (ds.takeWhile (· ≠ '\n') ++ (splitLayout false (ds.dropWhile (· ≠ '\n'))).1),
        (splitLayout false (ds.dropWhile (· ≠ '\n'))).2) := by
  have hbody : '\n' ∉ '/' :: ds.takeWhile (· ≠ '\n') := by
    have hslash : '\n' ≠ '/' := by decide
    rw [List.mem_cons, not_or]
    exact ⟨hslash, not_mem_takeWhile_line ds⟩
  have hcomment := splitLayout_comment hbody (head?_dropWhile_line ds)
  rw [List.cons_append, List.takeWhile_append_dropWhile] at hcomment
  have hstep : splitLayout false ('/' :: '/' :: ds) =
      ('/' :: (splitLayout true ('/' :: ds)).1, (splitLayout true ('/' :: ds)).2) := rfl
  rw [hstep, hcomment]
  rfl

/-- What is split off is a gap, and no gap is left. -/
theorem gap_splitLayout (cs : List Char) :
    Gap (splitLayout false cs).1 (splitLayout false cs).2 ∧ Clear (splitLayout false cs).2 := by
  match cs with
  | [] => exact ⟨.nil, rfl⟩
  | c :: cs =>
    by_cases hb : isBlank c
    · obtain ⟨hg, hc⟩ := gap_splitLayout cs
      simp only [splitLayout, hb, if_true]
      exact ⟨.blank hb hg, hc⟩
    by_cases hs : c = '/' ∧ cs.head? = some '/'
    · obtain ⟨rfl, hcs⟩ := hs
      obtain ⟨ds, hds⟩ : ∃ ds, cs = '/' :: ds := List.head?_eq_some_iff.1 hcs
      obtain ⟨hg, hc⟩ := gap_splitLayout (ds.dropWhile (· ≠ '\n'))
      have hend := head?_dropWhile_line ds
      rw [← splitLayout_append false (ds.dropWhile (· ≠ '\n'))] at hend
      rw [hds, splitLayout_slashes]
      exact ⟨.comment (not_mem_takeWhile_line ds) hend hg, hc⟩
    · have hclear : splitLayout false (c :: cs) = ([], c :: cs) := by
        simp only [splitLayout, hb, hs, if_false, Bool.false_eq_true]
      rw [hclear]
      exact ⟨.nil, hclear⟩
termination_by cs.length
decreasing_by
  · exact Nat.lt_succ_self _
  · have hle := (List.dropWhile_sublist (· ≠ '\n') (l := ds)).length_le
    simp only [hds, List.length_cons]
    omega

end Layout

section Classes

/-- Every word has exactly one class. -/
theorem wordClass_iff (word : String) (kind : TokenKind) :
    WordClass word kind ↔ TokenKind.ofWord word = kind := by
  constructor
  · intro h
    cases h with
    | keyword h => simp [TokenKind.ofWord, h]
    | typeName h =>
      have hk : word ∉ keywords := by
        intro hk
        simp only [keywords, typeNames, List.mem_cons, List.not_mem_nil, or_false] at hk h
        rcases hk with rfl | rfl | rfl | rfl <;> simp at h
      simp [TokenKind.ofWord, hk, h]
    | boolean h =>
      have hk : word ∉ keywords ∧ word ∉ typeNames := by
        simp only [List.mem_cons, List.not_mem_nil, or_false] at h
        rcases h with rfl | rfl <;> decide
      have hb : word = "true" ∨ word = "false" := by simpa using h
      simp [TokenKind.ofWord, hk.1, hk.2, hb]
    | identifier hk ht hb =>
      have hb' : ¬(word = "true" ∨ word = "false") := by simpa using hb
      simp [TokenKind.ofWord, hk, ht, hb']
  · rintro rfl
    unfold TokenKind.ofWord
    split
    · next hk => exact .keyword hk
    · next hk =>
      split
      · next ht => exact .typeName ht
      · next ht =>
        split
        · next hb => exact .boolean (by simpa using hb)
        · next hb => exact .identifier hk ht (by simpa using hb)

theorem ofWord_ne_endOfInput (word : String) : TokenKind.ofWord word ≠ .endOfInput := by
  unfold TokenKind.ofWord
  split
  · simp
  · split
    · simp
    · split <;> simp

theorem isDigit_not_isAlpha {c : Char} (h : c.isDigit) : c.isAlpha = false := by
  have hle : c.toNat ≤ 57 := (Char.isDigit_iff_toNat.1 h).2
  have hupper : c.isUpper = decide ('A'.val ≤ c.val ∧ c.val ≤ 'Z'.val) := rfl
  have hlower : c.isLower = (decide ('a'.val ≤ c.val) && decide (c.val ≤ 'z'.val)) := rfl
  have hA : ¬ 'A'.val ≤ c.val := by
    rw [UInt32.le_iff_toNat_le]
    change ¬ 65 ≤ c.toNat
    omega
  have ha : ¬ 'a'.val ≤ c.val := by
    rw [UInt32.le_iff_toNat_le]
    change ¬ 97 ≤ c.toNat
    omega
  change (c.isUpper || c.isLower) = false
  rw [hupper, hlower, decide_eq_false ha, decide_eq_false fun h => hA h.1]
  rfl

/-- No gap begins with a letter, a digit, a quote or a symbol. -/
theorem clear_cons {c : Char} {cs : List Char} (hb : isBlank c = false) (hs : c ≠ '/') :
    Clear (c :: cs) := by
  simp [Clear, splitLayout, hb, hs]

theorem not_layout_of_isAlphanum {c : Char} (h : c.isAlphanum) : isBlank c = false ∧ c ≠ '/' := by
  constructor
  · simp only [isBlank, decide_eq_false_iff_not]
    rintro (rfl | rfl | rfl | rfl) <;> exact absurd h (by decide)
  · rintro rfl
    exact absurd h (by decide)

theorem clear_of_isAlphanum {c : Char} {cs : List Char} (h : c.isAlphanum) : Clear (c :: cs) :=
  clear_cons (not_layout_of_isAlphanum h).1 (not_layout_of_isAlphanum h).2

/-- Where a lexeme stands, no gap does. -/
theorem clear_of_lexeme {kind : TokenKind} {l rest : List Char} (h : Lexeme kind l rest) :
    Clear (l ++ rest) := by
  cases h with
  | word hw =>
    cases hw with
    | mk hc => exact clear_of_isAlphanum (by simp [Char.isAlphanum, hc])
  | integer hds =>
    obtain ⟨d, ds, rfl, hd⟩ := hds.exists_cons
    exact clear_of_isAlphanum (by simp [Char.isAlphanum, hd])
  | float hds =>
    obtain ⟨d, ds, rfl, hd⟩ := hds.exists_cons
    exact clear_of_isAlphanum (by simp [Char.isAlphanum, hd])
  | string => exact clear_cons (by decide) (by decide)
  | arrow => exact clear_cons (by decide) (by decide)
  | equals => exact clear_cons (by decide) (by decide)
  | punctuation hc =>
    simp only [List.mem_cons, List.not_mem_nil, or_false] at hc
    rcases hc with rfl | rfl | rfl | rfl | rfl | rfl | rfl | rfl <;>
      exact clear_cons (by decide) (by decide)

end Classes

section Scanners

theorem scanWord_of_lexeme {w rest : List Char} (hw : ∀ c ∈ w, isWordChar c)
    (hr : ∀ c ∈ rest.head?, isWordChar c = false) :
    scanWord (w ++ rest) = ⟨.ok (.ofWord (String.ofList w)), w, rest⟩ := by
  simp only [scanWord, takeWhile_append_of_head hw hr, dropWhile_append_of_head hw hr]

theorem scanNumber_of_integer {ds rest : List Char} (hd : ∀ d ∈ ds, d.isDigit)
    (hr : ∀ c ∈ rest.head?, c.isDigit = false ∧ c ≠ '.') :
    scanNumber (ds ++ rest) = ⟨.ok .integer, ds, rest⟩ := by
  have hdigit : ∀ c ∈ rest.head?, c.isDigit = false := fun c hc => (hr c hc).1
  simp only [scanNumber, takeWhile_append_of_head hd hdigit, dropWhile_append_of_head hd hdigit]
  split
  · exact absurd rfl (hr '.' rfl).2
  · rfl

/-- Behind the dot a digit decides. -/
theorem scanNumber_dot {ds tail : List Char} (hd : ∀ d ∈ ds, d.isDigit) :
    scanNumber (ds ++ '.' :: tail) =
      if tail.head?.any Char.isDigit then
        ⟨.ok .float, ds ++ '.' :: tail.takeWhile Char.isDigit, tail.dropWhile Char.isDigit⟩
      else ⟨.error .badNumber, ds ++ ['.'], tail⟩ := by
  have hdot : ∀ c ∈ ('.' :: tail).head?, c.isDigit = false := by
    rintro c ⟨⟩
    decide
  simp only [scanNumber, takeWhile_append_of_head hd hdot, dropWhile_append_of_head hd hdot]

theorem scanNumber_of_float {ds fs rest : List Char} (hd : ∀ d ∈ ds, d.isDigit)
    (hf : IsDigits fs) (hr : ∀ c ∈ rest.head?, c.isDigit = false) :
    scanNumber (ds ++ '.' :: (fs ++ rest)) = ⟨.ok .float, ds ++ '.' :: fs, rest⟩ := by
  have hhead : (fs ++ rest).head?.any Char.isDigit = true := by
    obtain ⟨f, tail, rfl, hdigit⟩ := hf.exists_cons
    simpa using hdigit
  rw [scanNumber_dot hd, if_pos hhead, takeWhile_append_of_head hf.2 hr,
    dropWhile_append_of_head hf.2 hr]

theorem scanString_plain {c : Char} (hq : c ≠ '"') (hb : c ≠ '\\') (hn : c ≠ '\n')
    (cs : List Char) : scanString (c :: cs) = (scanString cs).prepend [c] := by
  rw [scanString]
  · exact hq
  · exact hn
  · exact fun _ h _ => hb h
  · exact fun _ _ h _ => hb h

theorem scanString_escape {c : Char} (hn : c ≠ '\n') (cs : List Char) :
    scanString ('\\' :: c :: cs) = (scanString cs).prepend ['\\', c] := by
  rw [scanString]
  exact hn

theorem scanString_of_body {body : List Char} (h : StringBody body) (rest : List Char) :
    scanString (body ++ '"' :: rest) = ⟨.ok .string, body ++ ['"'], rest⟩ := by
  induction h with
  | nil => rfl
  | plain hq hb hn _ ih =>
    rw [List.cons_append, scanString_plain hq hb hn, ih]
    rfl
  | escape hn _ ih =>
    rw [List.cons_append, List.cons_append, scanString_escape hn, ih]
    rfl

/-- A string literal that has been read is a body and its closing quote. -/
theorem body_of_scanString {cs : List Char} {kind : TokenKind}
    (h : (scanString cs).outcome = .ok kind) :
    kind = .string ∧ ∃ body, (scanString cs).taken = body ++ ['"'] ∧ StringBody body := by
  fun_induction scanString cs with
  | case1 => simp at h
  | case2 cs => exact ⟨(Except.ok.inj h).symm, [], rfl, .nil⟩
  | case3 => simp at h
  | case4 => simp at h
  | case5 c cs hn ih =>
    obtain ⟨hk, body, ht, hb⟩ := ih h
    exact ⟨hk, '\\' :: c :: body, by simp [ht], .escape hn hb⟩
  | case6 c cs hq hn h4 h5 ih =>
    obtain ⟨hk, body, ht, hb⟩ := ih h
    have hne : c ≠ '\\' := by
      rintro rfl
      cases cs with
      | nil => simp [scanString] at h
      | cons d cs => exact h5 d cs rfl rfl
    exact ⟨hk, c :: body, by simp [ht], .plain hq hne hn hb⟩

theorem scan_of_isAlpha {c : Char} (hc : c.isAlpha) (cs : List Char) :
    scan (c :: cs) = scanWord (c :: cs) := by
  simp only [scan, hc, if_true]

theorem scan_of_isDigit {c : Char} (hc : c.isDigit) (cs : List Char) :
    scan (c :: cs) = scanNumber (c :: cs) := by
  simp only [scan, isDigit_not_isAlpha hc, hc, if_true, if_false, Bool.false_eq_true]

/-- Where a lexeme stands, it is scanned. -/
theorem scan_of_lexeme {kind : TokenKind} {l rest : List Char} (h : Lexeme kind l rest) :
    scan (l ++ rest) = ⟨.ok kind, l, rest⟩ := by
  cases h with
  | word hw hk hr =>
    cases hw with
    | @mk c cs hc hcs =>
      have hall : ∀ d ∈ c :: cs, isWordChar d := by
        rw [List.forall_mem_cons]
        exact ⟨by simp [isWordChar, Char.isAlphanum, hc], hcs⟩
      rw [List.cons_append, scan_of_isAlpha hc, ← List.cons_append, scanWord_of_lexeme hall hr,
        (wordClass_iff _ _).1 hk]
  | integer hds hr =>
    have hnumber := scanNumber_of_integer hds.2 hr
    obtain ⟨d, ds, rfl, hd⟩ := hds.exists_cons
    rw [List.cons_append] at hnumber ⊢
    rw [scan_of_isDigit hd, hnumber]
  | @float ds fs rest hds hf hr =>
    have hnumber := scanNumber_of_float hds.2 hf hr
    obtain ⟨d, ds, rfl, hd⟩ := hds.exists_cons
    rw [List.cons_append] at hnumber
    rw [List.append_assoc, List.cons_append, List.cons_append, scan_of_isDigit hd, hnumber]
  | @string body rest hb =>
    have hstring := scanString_of_body hb rest
    simp [scan, hstring, Scan.prepend]
  | arrow => rfl
  | @equals rest hr =>
    cases rest with
    | nil => rfl
    | cons c rest =>
      have hne : c ≠ '>' := hr c rfl
      simp [scan, hne]
  | punctuation hc =>
    simp only [List.mem_cons, List.not_mem_nil, or_false] at hc
    rcases hc with rfl | rfl | rfl | rfl | rfl | rfl | rfl | rfl <;> rfl

theorem lexeme_of_scanWord {c : Char} {cs : List Char} (hc : c.isAlpha) :
    Lexeme (.ofWord (String.ofList (scanWord (c :: cs)).taken)) (scanWord (c :: cs)).taken
      (scanWord (c :: cs)).rest := by
  have hword : isWordChar c := by simp [isWordChar, Char.isAlphanum, hc]
  refine .word ?_ ((wordClass_iff _ _).2 rfl) (head?_dropWhile _ _)
  simp only [scanWord, List.takeWhile_cons, hword, if_true]
  exact .mk hc fun d hd => List.mem_takeWhile_imp hd

theorem lexeme_of_scanNumber {c : Char} {cs : List Char} {kind : TokenKind} (hc : c.isDigit)
    (h : (scanNumber (c :: cs)).outcome = .ok kind) :
    Lexeme kind (scanNumber (c :: cs)).taken (scanNumber (c :: cs)).rest := by
  have hwhole : IsDigits ((c :: cs).takeWhile Char.isDigit) :=
    ⟨by simp [hc], fun d hd => List.mem_takeWhile_imp hd⟩
  have hrest := head?_dropWhile Char.isDigit (c :: cs)
  unfold scanNumber at h ⊢
  split at h
  · next tail ht =>
    split at h
    · next hf =>
      obtain rfl : TokenKind.float = kind := Except.ok.inj h
      simp only [hf, if_true]
      obtain ⟨f, tail, rfl⟩ : ∃ f tail', tail = f :: tail' := by
        cases tail with
        | nil => simp at hf
        | cons f tail => exact ⟨f, tail, rfl⟩
      have hdigit : f.isDigit := by simpa using hf
      refine .float hwhole ⟨by simp [hdigit], fun d hd => List.mem_takeWhile_imp hd⟩ ?_
      exact head?_dropWhile _ _
    · simp at h
  · next hdot =>
    obtain rfl : TokenKind.integer = kind := Except.ok.inj h
    refine .integer hwhole fun d hd => ⟨hrest d hd, ?_⟩
    rintro rfl
    obtain ⟨tail, ht⟩ := List.head?_eq_some_iff.1 hd
    exact hdot tail ht

/-- What is scanned with success is a lexeme, unless it is the end. -/
theorem lexeme_of_scan {cs : List Char} {kind : TokenKind} (h : (scan cs).outcome = .ok kind) :
    (cs = [] ∧ kind = .endOfInput) ∨ Lexeme kind (scan cs).taken (scan cs).rest := by
  revert h
  fun_cases scan cs with
  | case1 => exact fun h => .inl ⟨rfl, (Except.ok.inj h).symm⟩
  | case2 c cs hc =>
    intro h
    obtain rfl := Except.ok.inj h
    exact .inr (lexeme_of_scanWord hc)
  | case3 c cs _ hc => exact fun h => .inr (lexeme_of_scanNumber hc h)
  | case4 cs =>
    intro h
    obtain ⟨rfl, body, ht, hb⟩ := body_of_scanString h
    refine .inr ?_
    simp only [Scan.prepend_taken, Scan.prepend_rest, ht, List.singleton_append]
    exact .string hb
  | case5 rest =>
    intro h
    obtain rfl := Except.ok.inj h
    exact .inr .arrow
  | case6 rest hr =>
    intro h
    obtain rfl := Except.ok.inj h
    refine .inr (.equals fun c hc => ?_)
    rintro rfl
    obtain ⟨tail, rfl⟩ := List.head?_eq_some_iff.1 hc
    exact hr tail rfl
  | case7 c cs _ _ _ _ hp =>
    intro h
    obtain rfl := Except.ok.inj h
    exact .inr (.punctuation hp)
  | case8 => simp

end Scanners

end SchemaLang.Lexical
