import SchemaLang.Command.Run
import SchemaLang.Proofs.Source.Caret

/-!
# A listing says all about its tokens

Every token has a line in a listing, as no lexeme goes over the end of one. The line can be
read (`tokenOfLine?`): numbers may be wider than their columns, but a colon or a blank stands
behind them, the name of a class is narrower than its column, and the lexeme comes last and is
never padded. So the whole listing can be read, line by line (`tokensOfListing?`).
-/
namespace SchemaLang.Command

open Lexical

section Columns

theorem toList_padLeft (width : Nat) (s : String) :
    (padLeft width s).toList = List.replicate (width - s.length) ' ' ++ s.toList := by
  rw [padLeft, String.toList_append, String.toList_ofList]

theorem toList_padRight (width : Nat) (s : String) :
    (padRight width s).toList = s.toList ++ List.replicate (width - s.length) ' ' := by
  rw [padRight, String.toList_append, String.toList_ofList]

/-- The text behind the blanks at its front. -/
def dropBlanks (cs : List Char) : List Char := cs.dropWhile (· = ' ')

theorem dropBlanks_replicate_append (n : Nat) (cs : List Char) :
    dropBlanks (List.replicate n ' ' ++ cs) = dropBlanks cs := by
  refine List.dropWhile_append_of_pos ?_
  intro c hc
  simpa using (List.mem_replicate.1 hc).2

theorem dropBlanks_cons {c : Char} (h : c ≠ ' ') (cs : List Char) :
    dropBlanks (c :: cs) = c :: cs :=
  List.dropWhile_cons_of_neg (by simpa using h)

/-- The number at the front of a text, blanks before it aside, and what comes behind it. -/
def splitNumber (cs : List Char) : Nat × List Char :=
  let text := dropBlanks cs
  (Numeral.natural (text.takeWhile Char.isDigit), text.dropWhile Char.isDigit)

theorem splitNumber_replicate_append (k : Nat) (cs : List Char) :
    splitNumber (List.replicate k ' ' ++ cs) = splitNumber cs := by
  simp only [splitNumber, dropBlanks_replicate_append]

/-- However many digits a number has, it ends where something else begins. -/
theorem splitNumber_toDigits_append (n : Nat) {rest : List Char}
    (h : ∀ c ∈ rest.head?, c.isDigit = false) :
    splitNumber (Nat.toDigits 10 n ++ rest) = (n, rest) := by
  have hdigits := Numeral.isDigits_toDigits n
  have hfront : dropBlanks (Nat.toDigits 10 n ++ rest) = Nat.toDigits 10 n ++ rest := by
    obtain ⟨d, ds, hds, hd⟩ := hdigits.exists_cons
    rw [hds]
    refine dropBlanks_cons ?_ (ds ++ rest)
    rintro rfl
    exact absurd hd (by decide)
  rw [splitNumber, hfront, takeWhile_append_of_head hdigits.2 h,
    dropWhile_append_of_head hdigits.2 h, Numeral.natural_toDigits]

/-- The class as it fills its column. -/
def kindColumn (kind : TokenKind) : List Char := (padRight 15 kind.name).toList

/-- All classes. -/
def allKinds : List TokenKind :=
  [.keyword, .identifier, .typeName, .symbol, .integer, .float, .string, .boolean, .endOfInput]

/-- The class that fills a column in the given way. -/
def kindOfColumn? (column : List Char) : Option TokenKind :=
  allKinds.find? fun kind => kindColumn kind = column

theorem kindOfColumn?_kindColumn (kind : TokenKind) :
    kindOfColumn? (kindColumn kind) = some kind := by
  cases kind <;> decide

/-- No name is wider than the column. -/
theorem length_kindColumn (kind : TokenKind) : (kindColumn kind).length = 15 := by
  have hname : kind.name.length ≤ 15 := by cases kind <;> decide
  rw [kindColumn, toList_padRight, List.length_append, List.length_replicate, String.length_toList]
  omega

/-- The class begins with a letter, so that the blanks before it end there. -/
theorem exists_cons_kindColumn (kind : TokenKind) :
    ∃ c cs, kindColumn kind = c :: cs ∧ c ≠ ' ' := by
  cases kind <;> exact ⟨_, _, rfl, by decide⟩

end Columns

section Lines

/-- The token with the class and the lexeme that stand behind a place. -/
def tokenOfFields? (p : Position) (fields : List Char) : Option Token :=
  let cs := dropBlanks fields
  (kindOfColumn? (cs.take 15)).map fun kind => ⟨kind, String.ofList (cs.drop 16), p⟩

/-- The token that a line shows. -/
def tokenOfLine? (line : String) : Option Token :=
  match splitNumber line.toList with
  | (number, ':' :: rest) =>
    let (column, fields) := splitNumber rest
    tokenOfFields? ⟨number, column⟩ fields
  | _ => none

/-- The fields of a line, one behind another. A blank at least stands behind the place. -/
theorem toList_tokenLine (t : Token) :
    (tokenLine t).toList =
      List.replicate (4 - (toString t.position.line).length) ' ' ++
        (Nat.toDigits 10 t.position.line ++ ':' ::
          (Nat.toDigits 10 t.position.column ++
            (List.replicate (4 - (toString t.position.column).length + 1) ' ' ++
              (kindColumn t.kind ++ ' ' :: t.lexeme.toList)))) := by
  have hnumber (n : Nat) : (toString n).toList = Nat.toDigits 10 n := String.toList_ofList
  have hcolon : ":".toList = [':'] := rfl
  have hblank : " ".toList = [' '] := rfl
  simp only [tokenLine, String.toList_append, toList_padLeft, toList_padRight, hnumber, hcolon,
    hblank, kindColumn, List.replicate_succ', List.append_assoc, List.cons_append, List.nil_append]

theorem tokenOfFields?_append (p : Position) (k : Nat) (kind : TokenKind) (lexeme : List Char) :
    tokenOfFields? p (List.replicate k ' ' ++ (kindColumn kind ++ ' ' :: lexeme)) =
      some ⟨kind, String.ofList lexeme, p⟩ := by
  have hfront :
      dropBlanks (kindColumn kind ++ ' ' :: lexeme) = kindColumn kind ++ ' ' :: lexeme := by
    obtain ⟨c, cs, hcolumn, hc⟩ := exists_cons_kindColumn kind
    rw [hcolumn]
    exact dropBlanks_cons hc _
  have hlexeme : (kindColumn kind ++ ' ' :: lexeme).drop 16 = lexeme := by
    rw [List.append_cons]
    exact List.drop_left' (by rw [List.length_append, length_kindColumn, List.length_singleton])
  simp only [tokenOfFields?, dropBlanks_replicate_append, hfront, hlexeme,
    List.take_left' (length_kindColumn kind), kindOfColumn?_kindColumn, Option.map_some]

/-- A line shows its token, whatever the lexeme consists of. -/
theorem tokenOfLine?_tokenLine (t : Token) : tokenOfLine? (tokenLine t) = some t := by
  have hcolon (rest : List Char) : ∀ c ∈ (':' :: rest).head?, c.isDigit = false := by
    rintro c ⟨⟩
    rfl
  have hblank (k : Nat) (rest : List Char) :
      ∀ c ∈ (List.replicate (k + 1) ' ' ++ rest).head?, c.isDigit = false := by
    rintro c ⟨⟩
    rfl
  simp only [tokenOfLine?, toList_tokenLine, splitNumber_replicate_append,
    splitNumber_toDigits_append _ (hcolon _), splitNumber_toDigits_append _ (hblank _ _),
    tokenOfFields?_append, String.ofList_toList]

/-- Both numbers are wider than their columns here. -/
example : tokenOfLine? "12345:678901 Symbol          =" =
    some ⟨.symbol, "=", ⟨12345, 678901⟩⟩ := by decide +kernel

theorem oneLine_tokenLine {t : Token} (h : OneLine t.lexeme) : OneLine (tokenLine t) := by
  have hblanks (n : Nat) : '\n' ∉ List.replicate n ' ' :=
    oneLine_ofList_iff.1 (oneLine_replicate n)
  have hdigits (n : Nat) : '\n' ∉ Nat.toDigits 10 n := (Numeral.isDigits_toDigits n).not_mem_line
  have hkind : '\n' ∉ kindColumn t.kind := by cases t.kind <;> decide
  rw [OneLine, toList_tokenLine]
  simp only [List.mem_append, List.mem_cons, not_or]
  exact ⟨hblanks _, hdigits _, by decide, hdigits _, hblanks _, hkind, by decide, h⟩

end Lines

section Listings

/-- The tokens that a listing shows, if each of its lines shows one. -/
def tokensOfListing? (text : String) : Option (List Token) :=
  ((text.toList.splitOn '\n').dropLast.map String.ofList).mapM tokenOfLine?

/-- Lines that are put together come apart at their ends, and nothing stands behind the last. -/
theorem splitOn_join {lines : List String} (h : ∀ l ∈ lines, OneLine l) :
    (String.join (lines.map (· ++ "\n"))).toList.splitOn '\n' =
      lines.map String.toList ++ [[]] := by
  induction lines with
  | nil => rfl
  | cons l ls ih =>
    obtain ⟨hl, hls⟩ := List.forall_mem_cons.1 h
    have htext : (String.join ((l :: ls).map (· ++ "\n"))).toList =
        l.toList ++ '\n' :: (String.join (ls.map (· ++ "\n"))).toList := by
      rw [List.map_cons, String.join_cons, String.toList_append, String.toList_append,
        List.append_assoc]
      rfl
    rw [htext, List.splitOn_append_cons_self_of_not_mem hl, ih hls]
    rfl

theorem listing_eq_join (ts : List Token) :
    listing ts = String.join ((ts.map tokenLine).map (· ++ "\n")) := by
  rw [listing, List.map_map]
  rfl

theorem mapM_tokenOfLine? (ts : List Token) : (ts.map tokenLine).mapM tokenOfLine? = some ts := by
  induction ts with
  | nil => rfl
  | cons t ts ih =>
    rw [List.map_cons, List.mapM_cons, tokenOfLine?_tokenLine, ih]
    rfl

/-- The listing of tokens whose lexemes fit on a line shows these tokens. -/
theorem tokensOfListing?_listing {ts : List Token} (h : ∀ t ∈ ts, OneLine t.lexeme) :
    tokensOfListing? (listing ts) = some ts := by
  have hlines : ∀ l ∈ ts.map tokenLine, OneLine l :=
    List.forall_mem_map.2 fun t ht => oneLine_tokenLine (h t ht)
  have htexts : ((ts.map tokenLine).map String.toList).map String.ofList = ts.map tokenLine := by
    simp only [List.map_map, Function.comp_def, String.ofList_toList]
  rw [tokensOfListing?, listing_eq_join, splitOn_join hlines, List.dropLast_concat, htexts,
    mapM_tokenOfLine?]

/-- No lexeme of a text goes over the end of a line. -/
theorem oneLine_of_tokenize {source : String} {ts : List Token} (h : tokenize source = .ok ts) :
    ∀ t ∈ ts, OneLine t.lexeme := by
  obtain ⟨us, p, rfl, hlexed⟩ := exists_lexed_of_tokenize h
  have hend : OneLine (endAt p).lexeme := by simp [endAt, OneLine]
  exact List.forall_mem_append.2
    ⟨fun t ht => (hlexed t ht).oneLine, List.forall_mem_singleton.2 hend⟩

/-- What is printed to list the tokens of a text. -/
theorem answer_tokens {source : String} {ts : List Token} (h : tokenize source = .ok ts)
    (verbosity : Nat) (file : String) :
    (Invocation.answer ⟨verbosity, .tokens .text, file⟩ (.ok source)).exitCode = 0 ∧
    (Invocation.answer ⟨verbosity, .tokens .text, file⟩ (.ok source)).stdout = listing ts := by
  simp only [Invocation.answer, Action.answer, h, TokenFormat.render, and_self]

/-- The listing of tokens is lossless. For each token of a text, the end of the input included,
one line is printed, in order, and the line shows all of the token. So texts whose listings are
the same have the same tokens, whatever else is asked for. -/
theorem listing_lossless {source : String} {ts : List Token} (h : tokenize source = .ok ts) :
    let answer (verbosity : Nat) (file text : String) : Outcome :=
      Invocation.answer ⟨verbosity, .tokens .text, file⟩ (.ok text)
    (∃ us p, ts = us ++ [endAt p]) ∧
    (∃ lines : List String, (∀ line ∈ lines, OneLine line) ∧
      lines.map tokenOfLine? = ts.map some ∧
      ∀ verbosity file, (answer verbosity file source).exitCode = 0 ∧
        (answer verbosity file source).stdout = String.join (lines.map (· ++ "\n"))) ∧
    ∀ (other : String) (us : List Token), tokenize other = .ok us →
      ∀ (m n : Nat) (file name : String),
        (answer m file source).stdout = (answer n name other).stdout → ts = us := by
  intro answer
  obtain ⟨front, p, hts, -⟩ := exists_lexed_of_tokenize h
  refine ⟨⟨front, p, hts⟩, ⟨ts.map tokenLine, ?_, ?_, ?_⟩, ?_⟩
  · exact List.forall_mem_map.2 fun t ht => oneLine_tokenLine (oneLine_of_tokenize h t ht)
  · simp only [List.map_map, Function.comp_def, tokenOfLine?_tokenLine]
  · intro verbosity file
    rw [← listing_eq_join]
    exact answer_tokens h verbosity file
  · intro other us hother m n file name hsame
    have hlisting : listing ts = listing us := by
      rw [← (answer_tokens h m file).2, ← (answer_tokens hother n name).2]
      exact hsame
    have hread : some ts = some us := by
      rw [← tokensOfListing?_listing (oneLine_of_tokenize h),
        ← tokensOfListing?_listing (oneLine_of_tokenize hother), hlisting]
    exact Option.some.inj hread

/-- A string that looks like a line, with a carriage return in it, then `gap` and a name. -/
def lookalikeText (gap : String) : String := "\"1:2 Symbol\\\" é\r\"" ++ gap ++ "x\n"

def lookalikeTokens : List Token :=
  [⟨.string, "\"1:2 Symbol\\\" é\r\"", ⟨1, 1⟩⟩, ⟨.identifier, "x", ⟨1, 19⟩⟩, endAt ⟨2, 1⟩]

/-- It does not matter whether a blank or a tab is between them. -/
theorem lookalikeTokens_listed :
    tokenize (lookalikeText " ") = .ok lookalikeTokens ∧
    (∃ lines : List String, (∀ line ∈ lines, OneLine line) ∧
      lines.map tokenOfLine? = lookalikeTokens.map some ∧
      (Invocation.answer ⟨0, .tokens .text, "m.jl"⟩ (.ok (lookalikeText " "))).stdout =
        String.join (lines.map (· ++ "\n"))) ∧
    ∃ us, tokenize (lookalikeText "\t") = .ok us ∧
      (Invocation.answer ⟨0, .tokens .text, "m.jl"⟩ (.ok (lookalikeText " "))).stdout =
        (Invocation.answer ⟨2, .tokens .text, "n.jl"⟩ (.ok (lookalikeText "\t"))).stdout ∧
      lookalikeTokens = us := by
  have hblank : tokenize (lookalikeText " ") = .ok lookalikeTokens := by decide +kernel
  have htab : tokenize (lookalikeText "\t") = .ok lookalikeTokens := by decide +kernel
  have hsame := (answer_tokens hblank 0 "m.jl").2.trans (answer_tokens htab 2 "n.jl").2.symm
  obtain ⟨-, ⟨lines, hlines, hread, hprinted⟩, hinjective⟩ := listing_lossless hblank
  exact ⟨hblank, ⟨lines, hlines, hread, (hprinted 0 "m.jl").2⟩, _, htab, hsame,
    hinjective _ _ htab 0 2 "m.jl" "n.jl" hsame⟩

end Listings

end SchemaLang.Command
