import SchemaLang.Numeral.Layout
import SchemaLang.Text.Spread

/-!
# JSON

JSON documents and their text. Members keep their order and may repeat names.
Numbers are 64-bit integers, counts, or doubles; doubles are written with a fraction
or an exponent always, so that they differ from integers.
-/
namespace SchemaLang

inductive Json where
  | bool (value : Bool)
  | integer (value : Int)
  | float (value : Numeral.Binary64)
  | string (value : String)
  | array (items : List Json)
  | object (members : List (String × Json))

namespace Json

/-- Orders from -5 to 15 are written plainly; the sign of an exponent always is. -/
def numberLayout : Numeral.Layout where
  tie := .toEven
  leastPlain := -5
  greatestPlain := 15
  plus := ['+']

/-- A double; what is not finite has no number in JSON. -/
def number (x : Numeral.Binary64) : String :=
  if x.isFinite then numberLayout.write x else "null"

/-- A character within quotes. Only quotes, backslashes and controls are escaped. -/
def escape (c : Char) : List Char :=
  match c with
  | '"' => ['\\', '"']
  | '\\' => ['\\', '\\']
  | '\x08' => ['\\', 'b']
  | '\x0c' => ['\\', 'f']
  | '\n' => ['\\', 'n']
  | '\r' => ['\\', 'r']
  | '\t' => ['\\', 't']
  | c =>
    if c.toNat < 32 then
      ['\\', 'u', '0', '0', Nat.digitChar (c.toNat / 16), Nat.digitChar (c.toNat % 16)]
    else [c]

def quote (s : String) : String := String.ofList ('"' :: s.toList.flatMap escape ++ ['"'])

/-- Parts between brackets, two blanks to the right of these if spread over lines. -/
def bracket (style : Spread) (depth : Nat) (opening closing : String) (parts : List String) :
    String :=
  if parts = [] then opening ++ closing
  else
    let inner := style.lineBreak 2 (depth + 1)
    opening ++ inner ++ String.intercalate ("," ++ inner) parts ++ style.lineBreak 2 depth ++ closing

/-- A name before its value. -/
def label (style : Spread) (name : String) : String :=
  match style with
  | .compact => quote name ++ ":"
  | .pretty => quote name ++ ": "

mutual

/-- The document as text, within `depth` brackets. -/
def render (style : Spread) (depth : Nat) : Json → String
  | bool value => if value then "true" else "false"
  | integer value => toString value
  | float value => number value
  | string value => quote value
  | array items => bracket style depth "[" "]" (renderItems style (depth + 1) items)
  | object members =>
    bracket style depth "\x7b" "\x7d" (renderMembers style (depth + 1) members)

def renderItems (style : Spread) (depth : Nat) : List Json → List String
  | [] => []
  | item :: items => render style depth item :: renderItems style depth items

def renderMembers (style : Spread) (depth : Nat) : List (String × Json) → List String
  | [] => []
  | (name, value) :: members =>
    (label style name ++ render style depth value) :: renderMembers style depth members

end

/-- The whole document as text. -/
def text (style : Spread) (json : Json) : String := json.render style 0

end Json

end SchemaLang
