import SchemaLang.Text.Json
import SchemaLang.Proofs.Numeral.Layout

/-!
# JSON on one line is unambiguous

The text of a document on one line ends where the document does, whatever comes behind it,
so long as that is the end of the text or what can stand behind a document. And no two
documents have the same text, if all of their doubles are finite.
-/
namespace SchemaLang.Json

open Numeral Lexical

/-- No double in the document is infinite or undefined. -/
inductive Finite : Json → Prop where
  | bool {value : Bool} : Finite (.bool value)
  | integer {value : Int} : Finite (.integer value)
  | float {value : Binary64} : value.isFinite → Finite (.float value)
  | string {value : String} : Finite (.string value)
  | array {items : List Json} : (∀ item ∈ items, Finite item) → Finite (.array items)
  | object {members : List (String × Json)} :
      (∀ m ∈ members, Finite m.2) → Finite (.object members)

section Rendering

theorem bracket_compact (depth : Nat) (opening closing : String) (parts : List String) :
    bracket .compact depth opening closing parts =
      opening ++ String.intercalate "," parts ++ closing := by
  unfold bracket
  split
  · next hnil =>
    rw [hnil]
    simp
  · simp [Spread.lineBreak]

mutual

/-- On one line depth does not count. -/
theorem render_compact (d e : Nat) : ∀ json : Json, render .compact d json = render .compact e json
  | .bool _ => rfl
  | .integer _ => rfl
  | .float _ => rfl
  | .string _ => rfl
  | .array items => by
    rw [render, render, renderItems_compact (d + 1) (e + 1) items, bracket_compact, bracket_compact]
  | .object members => by
    rw [render, render, renderMembers_compact (d + 1) (e + 1) members, bracket_compact,
      bracket_compact]

theorem renderItems_compact (d e : Nat) :
    ∀ items : List Json, renderItems .compact d items = renderItems .compact e items
  | [] => rfl
  | item :: items => by
    rw [renderItems, renderItems, render_compact d e item, renderItems_compact d e items]

theorem renderMembers_compact (d e : Nat) : ∀ members : List (String × Json),
    renderMembers .compact d members = renderMembers .compact e members
  | [] => rfl
  | (name, value) :: members => by
    rw [renderMembers, renderMembers, render_compact d e value, renderMembers_compact d e members]

end

/-- The characters of the document on one line. -/
def chars (json : Json) : List Char := (json.text .compact).toList

/-- A name and its value. -/
def memberChars (m : String × Json) : List Char := (quote m.1).toList ++ ':' :: chars m.2

theorem toList_renderItems (depth : Nat) (items : List Json) :
    (renderItems .compact depth items).map String.toList = items.map chars := by
  induction items with
  | nil => rfl
  | cons item items ih =>
    rw [renderItems, List.map_cons, List.map_cons, ih, render_compact depth 0]
    rfl

theorem toList_renderMembers (depth : Nat) (members : List (String × Json)) :
    (renderMembers .compact depth members).map String.toList = members.map memberChars := by
  induction members with
  | nil => rfl
  | cons m members ih =>
    obtain ⟨name, value⟩ := m
    have hmember : (label .compact name ++ render .compact depth value).toList =
        memberChars (name, value) := by
      rw [label, render_compact depth 0, String.toList_append, String.toList_append,
        List.append_assoc]
      rfl
    rw [renderMembers, List.map_cons, List.map_cons, ih, hmember]

theorem chars_array (items : List Json) :
    chars (.array items) = '[' :: ([','].intercalate (items.map chars) ++ [']']) := by
  rw [chars, text, render, bracket_compact, String.toList_append, String.toList_append,
    String.toList_intercalate, toList_renderItems]
  rfl

theorem chars_object (members : List (String × Json)) : chars (.object members) =
    '{' :: ([','].intercalate (members.map memberChars) ++ ['}']) := by
  rw [chars, text, render, bracket_compact, String.toList_append, String.toList_append,
    String.toList_intercalate, toList_renderMembers]
  rfl

end Rendering

section Strings

/-- The value of a hexadecimal digit. -/
def hexValue (d : Char) : Nat := if d.isDigit then d.toNat - 48 else d.toNat - 87

/-- What a backslash and the characters behind it stand for, and what follows them. -/
def unescapeTail : List Char → Option (Char × List Char)
  | 'u' :: '0' :: '0' :: high :: low :: cs =>
    some (Char.ofNat (16 * hexValue high + hexValue low), cs)
  | 'b' :: cs => some ('\x08', cs)
  | 'f' :: cs => some ('\x0c', cs)
  | 'n' :: cs => some ('\n', cs)
  | 'r' :: cs => some ('\r', cs)
  | 't' :: cs => some ('\t', cs)
  | c :: cs => some (c, cs)
  | [] => none

/-- The first character of an escaped text, if there is one before the quote, and what follows. -/
def unescapeFront : List Char → Option (Char × List Char)
  | '"' :: _ => none
  | '\\' :: cs => unescapeTail cs
  | c :: cs => some (c, cs)
  | [] => none

theorem hexValue_digitChar : ∀ n < 32,
    16 * hexValue (Nat.digitChar (n / 16)) + hexValue (Nat.digitChar (n % 16)) = n := by
  decide

theorem unescapeFront_escape (c : Char) (cs : List Char) :
    unescapeFront (escape c ++ cs) = some (c, cs) := by
  unfold escape
  split
  · rfl
  · rfl
  · rfl
  · rfl
  · rfl
  · rfl
  · rfl
  · next hquote hslash _ _ _ _ _ =>
    split
    · next hcontrol =>
      simp only [List.cons_append, List.nil_append, unescapeFront, unescapeTail]
      rw [hexValue_digitChar _ hcontrol, Char.ofNat_toNat]
    · rw [List.cons_append, List.nil_append, unescapeFront]
      · exact hquote
      · exact hslash

/-- A text within quotes ends at its quote. -/
theorem escaped_inj {xs ys r s : List Char}
    (h : xs.flatMap escape ++ '"' :: r = ys.flatMap escape ++ '"' :: s) : xs = ys ∧ r = s := by
  induction xs generalizing ys with
  | nil =>
    cases ys with
    | nil => exact ⟨rfl, List.tail_eq_of_cons_eq h⟩
    | cons y ys =>
      rw [List.flatMap_cons, List.append_assoc] at h
      have hfront := congrArg unescapeFront h
      rw [unescapeFront_escape] at hfront
      exact nomatch hfront
  | cons x xs ih =>
    cases ys with
    | nil =>
      rw [List.flatMap_cons, List.append_assoc] at h
      have hfront := congrArg unescapeFront h
      rw [unescapeFront_escape] at hfront
      exact nomatch hfront
    | cons y ys =>
      rw [List.flatMap_cons, List.flatMap_cons, List.append_assoc, List.append_assoc] at h
      have hfront := congrArg unescapeFront h
      rw [unescapeFront_escape, unescapeFront_escape] at hfront
      obtain ⟨rfl, hrest⟩ := Prod.mk.inj (Option.some.inj hfront)
      obtain ⟨rfl, rfl⟩ := ih hrest
      exact ⟨rfl, rfl⟩

theorem toList_quote (s : String) : (quote s).toList = '"' :: (s.toList.flatMap escape ++ ['"']) :=
  String.toList_ofList

theorem quote_inj {a b : String} {r s : List Char}
    (h : (quote a).toList ++ r = (quote b).toList ++ s) : a = b ∧ r = s := by
  simp only [toList_quote, List.cons_append, List.append_assoc, List.nil_append,
    List.cons.injEq, true_and] at h
  obtain ⟨hlist, hrest⟩ := escaped_inj h
  exact ⟨String.toList_inj.1 hlist, hrest⟩

end Strings

section Numbers

/-- Nothing is left, or what can stand behind a document. -/
def Ends (rest : List Char) : Prop := ∀ c ∈ rest.head?, c ∈ [',', ']', '}']

theorem Ends.not_isNumeralChar {rest : List Char} (h : Ends rest) :
    ∀ c ∈ rest.head?, isNumeralChar c = false := by
  intro c hc
  have hmem := h c hc
  simp only [List.mem_cons, List.not_mem_nil, or_false] at hmem
  rcases hmem with rfl | rfl | rfl <;> decide

theorem numberLayout_sound : numberLayout.Sound := ⟨.inr rfl, by decide, by decide⟩

/-- The text of a finite double reads as that double. -/
theorem ofText?_number {x : Binary64} (h : x.isFinite) : Binary64.ofText? (number x) = some x := by
  rw [number, if_pos h, Layout.ofText?_write numberLayout_sound h]

/-- A document that is a number. -/
inductive IsNumeral : Json → Prop where
  | integer {value : Int} : IsNumeral (.integer value)
  | float {value : Binary64} : value.isFinite → IsNumeral (.float value)

theorem isNumeralChar_of_mem_integer (v : Int) :
    ∀ c ∈ (toString v).toList, isNumeralChar c ∧ c ≠ '.' ∧ c ≠ 'e' := by
  have hdigits : ∀ c ∈ Nat.toDigits 10 v.natAbs, isNumeralChar c ∧ c ≠ '.' ∧ c ≠ 'e' := by
    intro c hc
    have hdigit := (isDigits_toDigits v.natAbs).2 c hc
    refine ⟨isNumeralChar_of_isDigit hdigit, ?_, ?_⟩
    · rintro rfl
      exact absurd hdigit (by decide)
    · rintro rfl
      exact absurd hdigit (by decide)
  rw [toList_toString]
  split
  · rw [List.forall_mem_cons]
    exact ⟨by decide, hdigits⟩
  · exact hdigits

/-- A double is written with a fraction or an exponent. -/
theorem isNumeralChar_of_mem_number {x : Binary64} (h : x.isFinite) :
    (∀ c ∈ (number x).toList, isNumeralChar c) ∧
      ('.' ∈ (number x).toList ∨ 'e' ∈ (number x).toList) := by
  rw [number, if_pos h]
  exact Layout.isNumeralChar_of_mem_write numberLayout_sound h

theorem integer_ne_number (v : Int) {x : Binary64} (h : x.isFinite) :
    (toString v).toList ≠ (number x).toList := by
  intro heq
  rcases (isNumeralChar_of_mem_number h).2 with hdot | hletter
  · exact (isNumeralChar_of_mem_integer v _ (heq ▸ hdot)).2.1 rfl
  · exact (isNumeralChar_of_mem_integer v _ (heq ▸ hletter)).2.2 rfl

namespace IsNumeral

variable {j k : Json}

theorem isNumeralChar (h : j.IsNumeral) : ∀ c ∈ j.chars, isNumeralChar c := by
  cases h with
  | integer => exact fun c hc => (isNumeralChar_of_mem_integer _ c hc).1
  | float hx => exact (isNumeralChar_of_mem_number hx).1

theorem chars_ne_nil (h : j.IsNumeral) : j.chars ≠ [] := by
  intro hnil
  cases h with
  | @integer v =>
    have hread := integer?_toString v
    rw [show (toString v).toList = [] from hnil] at hread
    exact nomatch hread
  | @float x hx =>
    have hmarked := (isNumeralChar_of_mem_number hx).2
    rw [show (number x).toList = [] from hnil] at hmarked
    simp at hmarked

theorem eq_of_chars (hj : j.IsNumeral) (hk : k.IsNumeral) (h : j.chars = k.chars) : j = k := by
  cases hj with
  | @integer v =>
    cases hk with
    | @integer w =>
      have hread := integer?_toString v
      rw [show (toString v).toList = (toString w).toList from h, integer?_toString] at hread
      rw [Option.some.inj hread]
    | float hy => exact absurd h (integer_ne_number v hy)
  | @float x hx =>
    cases hk with
    | @integer w => exact absurd h.symm (integer_ne_number w hx)
    | @float y hy =>
      have hread := ofText?_number hx
      rw [show number x = number y from String.toList_inj.1 h, ofText?_number hy] at hread
      rw [Option.some.inj hread]

/-- Numbers end where their characters do. -/
theorem inj (hj : j.IsNumeral) (hk : k.IsNumeral) {r s : List Char} (hr : Ends r) (hs : Ends s)
    (h : j.chars ++ r = k.chars ++ s) : j = k ∧ r = s := by
  have htake := congrArg (List.takeWhile Numeral.isNumeralChar) h
  have hdrop := congrArg (List.dropWhile Numeral.isNumeralChar) h
  rw [takeWhile_append_of_head hj.isNumeralChar hr.not_isNumeralChar,
    takeWhile_append_of_head hk.isNumeralChar hs.not_isNumeralChar] at htake
  rw [dropWhile_append_of_head hj.isNumeralChar hr.not_isNumeralChar,
    dropWhile_append_of_head hk.isNumeralChar hs.not_isNumeralChar] at hdrop
  exact ⟨hj.eq_of_chars hk htake, hdrop⟩

end IsNumeral

end Numbers

section Sequences

variable {α : Type} {item : α → List Char} {good : α → Prop}

/-- The text of `a` ends where `a` does, and tells it from everything else that is good. -/
def Delimits (item : α → List Char) (good : α → Prop) (a : α) : Prop :=
  ∀ (b : α) (r s : List Char), good b → Ends r → Ends s → item a ++ r = item b ++ s →
    a = b ∧ r = s

/-- The text begins with something else than a separator or a closing bracket. -/
def Opens (cs : List Char) : Prop := ∃ c tail, cs = c :: tail ∧ c ∉ [',', ']', '}']

theorem intercalate_cons (cs : List Char) (rest : List (List Char)) :
    [','].intercalate (cs :: rest) = cs ++ rest.flatMap fun ds => ',' :: ds := by
  induction rest generalizing cs with
  | nil => simp
  | cons ds rest ih =>
    rw [List.intercalate_cons_cons, ih, List.flatMap_cons, List.append_assoc]
    rfl

variable {as bs : List α} {close : Char} {r s : List Char}

theorem ends_more (hclose : close ∈ [']', '}']) (rest : List (List Char)) :
    Ends ((rest.flatMap fun ds => ',' :: ds) ++ close :: r) := by
  cases rest with
  | nil =>
    rintro c ⟨⟩
    exact List.mem_cons_of_mem _ hclose
  | cons ds rest =>
    rintro c ⟨⟩
    exact List.mem_cons_self

/-- Further items, each behind a comma, up to the closing bracket. -/
theorem more_inj (hclose : close ∈ [']', '}']) (has : ∀ a ∈ as, Delimits item good a)
    (hbs : ∀ b ∈ bs, good b)
    (h : ((as.map item).flatMap fun cs => ',' :: cs) ++ close :: r =
      ((bs.map item).flatMap fun cs => ',' :: cs) ++ close :: s) : as = bs ∧ r = s := by
  have hcomma : close ≠ ',' := by
    rintro rfl
    exact absurd hclose (by decide)
  induction as generalizing bs with
  | nil =>
    cases bs with
    | nil => exact ⟨rfl, List.tail_eq_of_cons_eq h⟩
    | cons b bs => exact absurd (List.head_eq_of_cons_eq h) hcomma
  | cons a as ih =>
    cases bs with
    | nil => exact absurd (List.head_eq_of_cons_eq h).symm hcomma
    | cons b bs =>
      obtain ⟨ha, has'⟩ := List.forall_mem_cons.1 has
      obtain ⟨hb, hbs'⟩ := List.forall_mem_cons.1 hbs
      simp only [List.map_cons, List.flatMap_cons, List.cons_append, List.append_assoc,
        List.cons.injEq, true_and] at h
      -- behind the first item comes a comma or the bracket, so it ends in both texts
      obtain ⟨rfl, hrest⟩ := ha b _ _ hb (ends_more hclose _) (ends_more hclose _) h
      obtain ⟨rfl, rfl⟩ := ih has' hbs' hrest
      exact ⟨rfl, rfl⟩

/-- All items up to the closing bracket. -/
theorem items_inj (hclose : close ∈ [']', '}']) (has : ∀ a ∈ as, Delimits item good a)
    (hbs : ∀ b ∈ bs, good b) (hopens : ∀ a ∈ as ++ bs, Opens (item a))
    (h : [','].intercalate (as.map item) ++ close :: r =
      [','].intercalate (bs.map item) ++ close :: s) : as = bs ∧ r = s := by
  have hfront {c : α} (hc : c ∈ as ++ bs) (rest cs : List Char) :
      item c ++ rest ≠ close :: cs := by
    obtain ⟨d, tail, hitem, hd⟩ := hopens c hc
    rw [hitem]
    intro heq
    rw [List.head_eq_of_cons_eq heq] at hd
    exact hd (List.mem_cons_of_mem _ hclose)
  cases as with
  | nil =>
    cases bs with
    | nil => exact ⟨rfl, List.tail_eq_of_cons_eq h⟩
    | cons b bs =>
      rw [List.map_cons, intercalate_cons, List.append_assoc] at h
      exact absurd h.symm (hfront (by simp) _ _)
  | cons a as =>
    cases bs with
    | nil =>
      rw [List.map_cons, intercalate_cons, List.append_assoc] at h
      exact absurd h (hfront (by simp) _ _)
    | cons b bs =>
      obtain ⟨ha, has'⟩ := List.forall_mem_cons.1 has
      obtain ⟨hb, hbs'⟩ := List.forall_mem_cons.1 hbs
      rw [List.map_cons, List.map_cons, intercalate_cons, intercalate_cons, List.append_assoc,
        List.append_assoc] at h
      obtain ⟨rfl, hrest⟩ := ha b _ _ hb (ends_more hclose _) (ends_more hclose _) h
      obtain ⟨rfl, rfl⟩ := more_inj hclose has' hbs' hrest
      exact ⟨rfl, rfl⟩

end Sequences

section Documents

/-- The first character of the document's text, zero for all numbers. -/
def mark : Json → Char
  | bool true => 't'
  | bool false => 'f'
  | integer _ => '0'
  | float _ => '0'
  | string _ => '"'
  | array _ => '['
  | object _ => '{'

theorem IsNumeral.mark_eq {json : Json} (h : json.IsNumeral) : json.mark = '0' := by
  cases h with
  | integer => rfl
  | float => rfl

theorem isNumeral_of_mark {json : Json} (h : json.Finite) (hmark : json.mark = '0') :
    json.IsNumeral := by
  cases h with
  | @bool value => cases value <;> simp [mark] at hmark
  | integer => exact .integer
  | float hx => exact .float hx
  | string => simp [mark] at hmark
  | array => simp [mark] at hmark
  | object => simp [mark] at hmark

theorem IsNumeral.exists_cons {json : Json} (h : json.IsNumeral) :
    ∃ c cs, json.chars = c :: cs ∧ (if Numeral.isNumeralChar c then '0' else c) = json.mark := by
  obtain ⟨c, cs, hcons⟩ := List.exists_cons_of_ne_nil h.chars_ne_nil
  have hc := h.isNumeralChar c (by simp [hcons])
  exact ⟨c, cs, hcons, by rw [if_pos hc, h.mark_eq]⟩

theorem exists_cons_chars {json : Json} (h : json.Finite) :
    ∃ c cs, json.chars = c :: cs ∧ (if isNumeralChar c then '0' else c) = json.mark := by
  cases h with
  | @bool value =>
    cases value with
    | true => exact ⟨'t', ['r', 'u', 'e'], rfl, rfl⟩
    | false => exact ⟨'f', ['a', 'l', 's', 'e'], rfl, rfl⟩
  | integer => exact IsNumeral.integer.exists_cons
  | float hx => exact (IsNumeral.float hx).exists_cons
  | string => exact ⟨_, _, toList_quote _, rfl⟩
  | array => exact ⟨_, _, chars_array _, rfl⟩
  | object => exact ⟨_, _, chars_object _, rfl⟩

/-- Equal texts begin alike. -/
theorem mark_eq_of_chars {j k : Json} (hj : j.Finite) (hk : k.Finite) {r s : List Char}
    (h : j.chars ++ r = k.chars ++ s) : j.mark = k.mark := by
  obtain ⟨c, cs, hc, hmark⟩ := exists_cons_chars hj
  obtain ⟨d, ds, hd, hmark'⟩ := exists_cons_chars hk
  rw [hc, hd] at h
  rw [← hmark, ← hmark', List.head_eq_of_cons_eq h]

theorem mark_not_mem (json : Json) : json.mark ∉ [',', ']', '}'] := by
  cases json with
  | bool value => cases value <;> decide
  | _ => simp [mark]

theorem opens_chars {json : Json} (h : json.Finite) : Opens json.chars := by
  obtain ⟨c, cs, hc, hmark⟩ := exists_cons_chars h
  refine ⟨c, cs, hc, ?_⟩
  intro hmem
  have hends : Ends [c] := by
    rintro _ ⟨⟩
    exact hmem
  rw [hends.not_isNumeralChar c rfl, if_neg Bool.false_ne_true] at hmark
  exact json.mark_not_mem (hmark ▸ hmem)

theorem opens_memberChars (m : String × Json) : Opens (memberChars m) :=
  ⟨'"', _, by rw [memberChars, toList_quote, List.cons_append], by decide⟩

theorem delimits_memberChars {m : String × Json} (h : Delimits chars Finite m.2) :
    Delimits memberChars (fun m => m.2.Finite) m := by
  intro n r s hn hr hs heq
  rw [memberChars, memberChars, List.append_assoc, List.append_assoc] at heq
  obtain ⟨hname, hrest⟩ := quote_inj heq
  obtain ⟨hvalue, rfl⟩ := h n.2 r s hn hr hs (List.tail_eq_of_cons_eq hrest)
  exact ⟨Prod.ext hname hvalue, rfl⟩

theorem IsNumeral.delimits {j : Json} (hj : j.IsNumeral) (hfinite : j.Finite) :
    Delimits chars Finite j := by
  intro k r s hk hr hs h
  have hmark := mark_eq_of_chars hfinite hk h
  exact hj.inj (isNumeral_of_mark hk (hmark.symm.trans hj.mark_eq)) hr hs h

/-- A finite document ends where its text does. -/
theorem delimits_chars {j : Json} (hj : j.Finite) : Delimits chars Finite j := by
  -- in each case the mark leaves only documents of the same form
  induction hj with
  | @bool value =>
    intro k r s hk _ _ h
    have hmark := mark_eq_of_chars .bool hk h
    cases hk with
    | @bool other =>
      obtain rfl : value = other := by
        cases value <;> cases other <;> first | rfl | exact absurd hmark (by decide)
      exact ⟨rfl, List.append_cancel_left h⟩
    | _ => cases value <;> simp [mark] at hmark
  | integer => exact IsNumeral.integer.delimits .integer
  | float hx => exact (IsNumeral.float hx).delimits (.float hx)
  | @string value =>
    intro k r s hk _ _ h
    have hmark := mark_eq_of_chars .string hk h
    cases hk with
    | @string other =>
      obtain ⟨rfl, hrest⟩ := quote_inj h
      exact ⟨rfl, hrest⟩
    | @bool other => cases other <;> simp [mark] at hmark
    | _ => simp [mark] at hmark
  | @array items hitems ih =>
    intro k r s hk _ _ h
    have hmark := mark_eq_of_chars (.array hitems) hk h
    cases hk with
    | @array others hothers =>
      simp only [chars_array, List.cons_append, List.append_assoc, List.nil_append,
        List.cons.injEq, true_and] at h
      have hopens : ∀ item ∈ items ++ others, Opens item.chars := by
        rw [List.forall_mem_append]
        exact ⟨fun item hi => opens_chars (hitems item hi),
          fun item hi => opens_chars (hothers item hi)⟩
      obtain ⟨rfl, hrest⟩ := items_inj (by decide) ih hothers hopens h
      exact ⟨rfl, hrest⟩
    | @bool other => cases other <;> simp [mark] at hmark
    | _ => simp [mark] at hmark
  | @object members hmembers ih =>
    intro k r s hk _ _ h
    have hmark := mark_eq_of_chars (.object hmembers) hk h
    cases hk with
    | @object others hothers =>
      simp only [chars_object, List.cons_append, List.append_assoc, List.nil_append,
        List.cons.injEq, true_and] at h
      obtain ⟨rfl, hrest⟩ := items_inj (by decide) (fun m hm => delimits_memberChars (ih m hm))
        hothers (fun m _ => opens_memberChars m) h
      exact ⟨rfl, hrest⟩
    | @bool other => cases other <;> simp [mark] at hmark
    | _ => simp [mark] at hmark

/-- No two finite documents have the same text on one line. -/
theorem eq_of_text_compact {j k : Json} (hj : j.Finite) (hk : k.Finite)
    (h : j.text .compact = k.text .compact) : j = k := by
  have hchars : j.chars ++ [] = k.chars ++ [] := by rw [chars, chars, h]
  exact (delimits_chars hj k [] [] hk (by simp [Ends]) (by simp [Ends]) hchars).1

end Documents

end SchemaLang.Json
