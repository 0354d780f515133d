import Mathlib.Algebra.Group.Int.Defs
import Mathlib.Algebra.Group.Nat.Defs
import SchemaLang.Proofs.Lexer.Places
import SchemaLang.Proofs.Parser.Integers
import SchemaLang.Proofs.Source.Reading

/-!
# Integer literals are exact

Digits of any length denote a number, and the literal is that number if it fits into 64 bits,
its sign included. The sign is a token of its own: it belongs to the number if nothing is
between the two in the text, which is what the parser sees from their places. A program has
its integers in the order of their tokens, so that each is traced back to its digits.
-/
namespace SchemaLang

open Grammar Lexical

variable {source : String} {ts : List Token} {p : Program}

section Numerals

variable {text : String}

theorem int64?_of_digits (h : IsDigits text.toList) :
    Numeral.int64? text = Numeral.narrow? (Numeral.natural text.toList) := by
  have hint := Numeral.int64?_of_isDigits h
  rwa [String.ofList_toList] at hint

theorem int64?_minus_of_digits (h : IsDigits text.toList) :
    Numeral.int64? ("-" ++ text) = Numeral.narrow? (-Numeral.natural text.toList) := by
  have hint := Numeral.int64?_negated_of_isDigits h
  rwa [← Numeral.minus_append, String.ofList_toList] at hint

end Numerals

section Readings

theorem endsOnly_of_tokenize (h : tokenize source = .ok ts) : EndsOnly ts := by
  obtain ⟨us, p, rfl, hlexed⟩ := exists_lexed_of_tokenize h
  intro t ht
  rw [List.dropLast_concat] at ht
  exact (hlexed t ht).kind_ne

theorem isDigits_of_tokenize (h : tokenize source = .ok ts) {t : Token} (ht : t ∈ ts)
    (hk : t.kind = .integer) : IsDigits t.lexeme.toList := by
  obtain ⟨us, p, rfl, hlexed⟩ := exists_lexed_of_tokenize h
  rcases List.mem_append.1 ht with ht | ht
  · obtain ⟨rest, hl⟩ := hlexed t ht
    rw [hk] at hl
    exact isDigits_of_integer hl
  · obtain rfl := List.mem_singleton.1 ht
    exact nomatch hk

/-- What is parsed out of the tokens of a text mentions them one by one. -/
theorem spelledOut_of_parse (h : tokenize source = .ok ts) (hp : parse ts = .ok p) :
    SpelledOut p.reading (contents none ts) := by
  obtain ⟨us, e, rfl, hlexed⟩ := exists_lexed_of_tokenize h
  have hparser := ofTokens_append_end (e := endAt e) (fun t ht => (hlexed t ht).kind_ne) rfl
  have hrun := (parseWithin_of_ofTokens hparser).symm.trans hp
  obtain ⟨hderives, -⟩ := run_result_eq_ok_iff.1 hrun
  rw [contents_append, contents_cons_of_not rfl, contents_nil, List.append_nil]
  exact spellsPiece_isModule.many _ _ none hlexed hderives

/-- Lists that are related one by one are so at each index. -/
theorem rel_getElem? {α β : Type} {R : α → β → Prop} {as : List α} {bs : List β}
    (h : List.Forall₂ R as bs) (k : Nat) : Option.Rel R as[k]? bs[k]? := by
  induction h generalizing k with
  | nil => exact .none
  | cons hab _ ih =>
    cases k with
    | zero => exact .some hab
    | succ k => exact ih k

/-- Nothing but an integer is made of the token of an integer. -/
theorem eq_integer_of_spelledBy {m : Mention} {x : Option Token × Token} (h : m.SpelledBy x)
    (hk : x.2.kind = .integer) : ∃ n : Int64, m = .scalar (.integer n) := by
  cases h with
  | name _ hname => exact nomatch hname.symm.trans hk
  | key _ hname => exact nomatch hname.symm.trans hk
  | primitive _ htype => exact nomatch htype.symm.trans hk
  | scalar hv =>
    cases hv with
    | integer => exact ⟨_, rfl⟩
    | float hfloat => exact nomatch hfloat.symm.trans hk
    | string hstring => exact nomatch hstring.symm.trans hk
    | boolean hboolean => exact nomatch hboolean.symm.trans hk

/-- An integer comes from a token of that class, and is the number of its digits with the sign
that is right before it. -/
theorem value_of_spelledBy {n : Int64} {x : Option Token × Token}
    (h : (Mention.scalar (.integer n)).SpelledBy x) :
    x.2.kind = .integer ∧
      n.toInt = Numeral.signed (isMinus x.1) (Numeral.natural x.2.lexeme.toList) := by
  cases h with
  | scalar hv =>
    cases hv with
    | integer hk _ hn => exact ⟨hk, hn⟩

end Readings

/-- Behind the tokens `front` the parser fills the place with the integer `v`, which `number` is
with its sign, and every program made of all the tokens mentions it in its turn. -/
def LiteralPlace.TakesInteger (x : LiteralPlace) (ts front : List Token) (number : Token)
    (v : Int) : Prop :=
  ∃ n : Int64, n.toInt = v ∧ Reaches (front ++ [number]) (x.filled (.integer n)) ∧
    ∀ p, parse ts = .ok p →
      p.reading[(contents none front).length]? = some (.scalar (.integer n))

section Literals

variable {front rest : List Token} {number : Token}

/-- A program mentions an integer when it comes to the token. -/
theorem getElem?_reading_of_integer (h : tokenize source = .ok (front ++ number :: rest))
    (hk : number.kind = .integer) (hp : parse (front ++ number :: rest) = .ok p) :
    ∃ n : Int64, p.reading[(contents none front).length]? = some (.scalar (.integer n)) ∧
      n.toInt = Numeral.signed (isMinus front.getLast?)
        (Numeral.natural number.lexeme.toList) := by
  have hcontents : (contents none (front ++ number :: rest))[(contents none front).length]? =
      some (front.getLast?, number) := by
    rw [contents_append, contents_cons (by rw [hk]; rfl), Option.or_none,
      List.getElem?_append_right (Nat.le_refl _), Nat.sub_self, List.getElem?_cons_zero]
  have hrel := rel_getElem? (spelledOut_of_parse h hp) (contents none front).length
  rw [hcontents] at hrel
  generalize p.reading[(contents none front).length]? = mention at hrel
  cases hrel with
  | some hm =>
    obtain ⟨n, rfl⟩ := eq_integer_of_spelledBy hm hk
    exact ⟨n, rfl, (value_of_spelledBy hm).2⟩

/-- Where the machine reads an integer as a numeral of `v`, it takes `v` if that is in range
and refuses the numeral otherwise. -/
theorem integer_of_step {x : LiteralPlace} {s : State} {text : String} {q : Position} {v : Int}
    (h : tokenize source = .ok (front ++ number :: rest)) (hk : number.kind = .integer)
    (hs : Reaches front s) (hstep : s.step (some maxNesting) number = x.numeral text q)
    (htext : Numeral.int64? text = Numeral.narrow? v)
    (hv : v = Numeral.signed (isMinus front.getLast?) (Numeral.natural number.lexeme.toList)) :
    (-2 ^ 63 ≤ v → v < 2 ^ 63 → x.TakesInteger (front ++ number :: rest) front number v) ∧
      (v < -2 ^ 63 ∨ 2 ^ 63 ≤ v →
        parse (front ++ number :: rest) = .error (.invalidLiteral text q)) := by
  rw [LiteralPlace.numeral, htext] at hstep
  constructor
  · intro hlow hhigh
    cases hn : Numeral.narrow? v with
    | none =>
      have hrange := Numeral.narrow?_eq_none hn
      omega
    | some n =>
      rw [hn] at hstep
      have hvalue := Numeral.toInt_of_narrow? hn
      refine ⟨n, hvalue, hs.snoc hstep, fun p hp => ?_⟩
      obtain ⟨n', hmention, hvalue'⟩ := getElem?_reading_of_integer h hk hp
      have heq : n = n' := Int64.toInt_inj.1 (hvalue.trans (hv.trans hvalue'.symm))
      rw [hmention, heq]
  · intro hrange
    rw [Numeral.narrow?_of_outside hrange] at hstep
    exact hs.parse_of_fail (endsOnly_of_tokenize h) (by simp [hk]) hstep

/-- No sign is right before a place where a literal is due. -/
theorem isMinus_of_due {x : LiteralPlace} (h : Reaches front x.due) :
    isMinus front.getLast? = false := by
  obtain ⟨before, q, rfl, hq⟩ := h.exists_last_of_due
  have hleads : q.Leads := by
    rcases hq with hq | hq
    · exact Token.leads_of_isSymbol hq (by decide)
    · exact Token.leads_of_isSymbol hq (by decide)
  rw [List.getLast?_concat]
  exact hleads.isMinus

end Literals

/-- Integer literals are exact. Where a literal is expected, an integer is the number that its
digits denote, however many these are, if it is below `2 ^ 63`, and is refused otherwise. Behind a
minus sign it is the negated number, down to `-2 ^ 63`, if nothing is between the two in the text;
otherwise it is not expected there. So every integer of a program is the number of its token,
with its sign. -/
theorem integer_literals (h : tokenize source = .ok ts) :
    (∀ number ∈ ts, number.kind = .integer → IsDigits number.lexeme.toList) ∧
    (∀ s front number rest, ts = front ++ number :: rest → number.kind = .integer →
      Reaches front s → s.expected = .literal →
      ∃ x : LiteralPlace, s = x.due ∧
        (Numeral.natural number.lexeme.toList < 2 ^ 63 →
          x.TakesInteger ts front number (Numeral.natural number.lexeme.toList)) ∧
        (2 ^ 63 ≤ Numeral.natural number.lexeme.toList →
          parse ts = .error (.invalidLiteral number.lexeme number.position))) ∧
    (∀ s front minus number rest, ts = front ++ minus :: number :: rest →
      minus.isSymbol "-" → number.kind = .integer → Reaches front s → s.expected = .literal →
      ∃ (x : LiteralPlace) (before gap after : List Char), s = x.due ∧
        source.toList = before ++ '-' :: (gap ++ (number.lexeme.toList ++ after)) ∧
        minus.position = .behind before ∧ number.position = .behind (before ++ '-' :: gap) ∧
        (gap = [] →
          (Numeral.natural number.lexeme.toList ≤ 2 ^ 63 →
            x.TakesInteger ts (front ++ [minus]) number
              (-Numeral.natural number.lexeme.toList)) ∧
          (2 ^ 63 < Numeral.natural number.lexeme.toList →
            parse ts = .error (.invalidLiteral ("-" ++ number.lexeme) minus.position))) ∧
        (gap ≠ [] →
          parse ts = .error
            (.unexpectedToken .adjacentNumber number.lexeme number.position))) ∧
    ∀ p, parse ts = .ok p → ∀ (k : Nat) (n : Int64),
      p.reading[k]? = some (.scalar (.integer n)) →
      ∃ previous number, (contents none ts)[k]? = some (previous, number) ∧
        number.kind = .integer ∧
        n.toInt = Numeral.signed (isMinus previous) (Numeral.natural number.lexeme.toList) := by
  refine ⟨fun number => isDigits_of_tokenize h, ?_, ?_, ?_⟩
  · rintro s front number rest rfl hk hs hliteral
    obtain ⟨x, rfl⟩ := State.expected_eq_literal_iff.1 hliteral
    have hdigits := isDigits_of_tokenize h (by simp) hk
    have hv : (Numeral.natural number.lexeme.toList : Int) =
        Numeral.signed (isMinus front.getLast?) (Numeral.natural number.lexeme.toList) := by
      rw [isMinus_of_due hs]
      rfl
    obtain ⟨htakes, hrefuses⟩ := integer_of_step h hk hs (LiteralPlace.step_integer hk)
      (int64?_of_digits hdigits) hv
    exact ⟨x, rfl, fun hlt => htakes (by omega) (by omega), fun hle => hrefuses (.inr (by omega))⟩
  · rintro s front minus number rest rfl hminus hk hs hliteral
    obtain ⟨x, rfl⟩ := State.expected_eq_literal_iff.1 hliteral
    have hdigits := isDigits_of_tokenize h (t := number) (by simp) hk
    obtain ⟨before, gap, after, htext, hfirst, hsecond⟩ := exists_between h (by simp [hk])
    rw [(Token.isSymbol_iff.1 hminus).2] at htext hsecond
    -- the parser compares places, and these are one column apart when no character is between
    have hnext : number.position = minus.position.next ↔ gap = [] := by
      rw [hfirst, hsecond]
      exact Position.behind_eq_next_iff (by decide)
    have hsigned := hs.snoc (LiteralPlace.step_minus hminus)
    rw [List.append_cons] at h ⊢
    refine ⟨x, before, gap, after, rfl, htext, hfirst, hsecond, fun hgap => ?_, fun hgap => ?_⟩
    · have hv : (-Numeral.natural number.lexeme.toList : Int) =
          Numeral.signed (isMinus (front ++ [minus]).getLast?)
            (Numeral.natural number.lexeme.toList) := by
        rw [List.getLast?_concat, show isMinus (some minus) = true from hminus]
        rfl
      obtain ⟨htakes, hrefuses⟩ := integer_of_step h hk hsigned
        (LiteralPlace.step_touching hk (hnext.2 hgap)) (int64?_minus_of_digits hdigits) hv
      exact ⟨fun hle => htakes (by omega) (by omega), fun hlt => hrefuses (.inl (by omega))⟩
    · exact hsigned.parse_of_reject (endsOnly_of_tokenize h) (by simp [hk])
        (LiteralPlace.step_apart (mt hnext.1 hgap))
  · intro p hp k n hn
    have hrel := rel_getElem? (spelledOut_of_parse h hp) k
    rw [hn] at hrel
    generalize (contents none ts)[k]? = content at hrel
    cases hrel with
    | @some _ x hm => exact ⟨x.1, x.2, rfl, value_of_spelledBy hm⟩

/-- The least integer, with zeros in front, and behind its sign. -/
def leastText : String := "module m \x7b let n = -009223372036854775808 \x7d"

def leastFront : List Token :=
  [⟨.keyword, "module", ⟨1, 1⟩⟩, ⟨.identifier, "m", ⟨1, 8⟩⟩, ⟨.symbol, "\x7b", ⟨1, 10⟩⟩,
    ⟨.keyword, "let", ⟨1, 12⟩⟩, ⟨.identifier, "n", ⟨1, 16⟩⟩, ⟨.symbol, "=", ⟨1, 18⟩⟩]

def leastNumber : Token := ⟨.integer, "009223372036854775808", ⟨1, 21⟩⟩

def leastTokens : List Token :=
  leastFront ++ ⟨.symbol, "-", ⟨1, 20⟩⟩ :: leastNumber ::
    [⟨.symbol, "\x7d", ⟨1, 43⟩⟩, endAt ⟨1, 44⟩]

/-- The place of the literal, in a module that has no declaration yet. -/
def leastPlace : LiteralPlace := ⟨⟨⟨"m", ⟨1, 8⟩⟩, []⟩, .letBound, ⟨"n", ⟨1, 16⟩⟩, []⟩

theorem leastText_integer : tokenize leastText = .ok leastTokens ∧
    Reaches leastFront leastPlace.due ∧
    leastPlace.TakesInteger leastTokens (leastFront ++ [⟨.symbol, "-", ⟨1, 20⟩⟩]) leastNumber
      (-2 ^ 63) := by
  have h : tokenize leastText = .ok leastTokens := by decide +kernel
  have hs : Reaches leastFront leastPlace.due :=
    ⟨[], .shift rfl (.shift rfl (.shift rfl (.shift rfl (.shift rfl (.shift rfl .nil)))))⟩
  obtain ⟨x, _, gap, _, hx, -, -, -, htouching, hapart⟩ :=
    (integer_literals h).2.2.1 leastPlace.due leastFront _ leastNumber _ rfl rfl rfl hs rfl
  obtain rfl := LiteralPlace.due_inj hx
  have hgap : gap = [] := by
    by_contra hne
    obtain ⟨p, hp⟩ : ∃ p, parse leastTokens = .ok p := ⟨_, rfl⟩
    exact nomatch hp.symm.trans (hapart hne)
  have hdigits : Numeral.natural leastNumber.lexeme.toList = 2 ^ 63 := by decide +kernel
  have htakes := (htouching hgap).1 (Nat.le_of_eq hdigits)
  rw [hdigits] at htakes
  exact ⟨h, hs, htakes⟩

end SchemaLang
