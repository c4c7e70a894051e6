import Quadra.Report.Json

set_option autoImplicit false

/-!
# Reading JSON

A reader of JSON texts, which the written ones are held against. It follows the grammar of JSON and
knows nothing of how a text is laid out: characters are joined to tokens, one at a time (`Mode.next`),
and tokens to a value, with a stack of the groups that are still open (`Reading.next`). There are no
truth values, since `Json` has none.
-/

namespace Quadra.Report

namespace JsonReader

/-! ## Literals -/

/-- The digits of an integer: a zero, or digits that do not start with one. -/
def isWhole (text : List Char) : Bool :=
  text == ['0'] || (text.all Char.isDigit && text.head?.any (· != '0'))

/-- The integer of one or more digits. -/
def natural? (text : List Char) : Option Nat :=
  if text.all Char.isDigit && !text.isEmpty then some (Nat.ofDigitChars 10 text 0) else none

/-- The digits behind a point, of which there is at least one, and the text behind them. Without a
point there are none. -/
def fraction? : List Char → Option (List Char × List Char)
  | '.' :: text =>
      let digits := text.takeWhile Char.isDigit
      if digits.isEmpty then none else some (digits, text.dropWhile Char.isDigit)
  | text => some ([], text)

/-- The integer of digits with a sign or without. -/
def signed? : List Char → Option Int
  | '-' :: digits => (natural? digits).map fun (n : Nat) => -(n : Int)
  | '+' :: digits => (natural? digits).map Int.ofNat
  | digits => (natural? digits).map Int.ofNat

/-- The exponent behind its letter. No text is the exponent zero. -/
def exponent? : List Char → Option Int
  | [] => some 0
  | letter :: text => if letter == 'e' || letter == 'E' then signed? text else none

/-- The rational of a number without a sign. -/
def magnitude? (text : List Char) : Option Rat :=
  let whole := text.takeWhile Char.isDigit
  if isWhole whole then do
    let (fraction, rest) ← fraction? (text.dropWhile Char.isDigit)
    let exponent ← exponent? rest
    return Nat.ofDigitChars 10 (whole ++ fraction) 0 * 10 ^ (exponent - fraction.length)
  else none

/-- The number nearest to a rational with a sign or without. -/
def number? : List Char → Option Json
  | '-' :: text => (magnitude? text).map fun q => .number (.ofMagnitude true q)
  | text => (magnitude? text).map fun q => .number (.ofMagnitude false q)

/-- The value of a word: `null`, an integer, or else a number. -/
def literal? (text : List Char) : Option Json :=
  if text = ['n', 'u', 'l', 'l'] then some .null
  else if isWhole text then some (.integer (Nat.ofDigitChars 10 text 0))
  else number? text

/-! ## Tokens -/

/-- A bracket, comma or colon, or a value that is no group. -/
inductive Token
  | mark (c : Char)
  | atom (value : Json)

/-- Where the reader of tokens stands, and what it has of the present token. -/
inductive Mode
  | between
  | word (text : List Char)
  | string (text : List Char)
  /-- In a string, behind a backslash. -/
  | escape (text : List Char)
  /-- In a string, behind some of the four digits of a code. -/
  | code (text : List Char) (count value : Nat)

def isBlank (c : Char) : Bool := c == ' ' || c == '\t' || c == '\n' || c == '\r'

def isMark (c : Char) : Bool := ['[', ']', '\x7b', '\x7d', ',', ':'].contains c

/-- Whether a word ends in front of this character. -/
def isDelimiter (c : Char) : Bool := isBlank c || isMark c || c == '"'

/-- The character of an escape with one letter. -/
def escaped? : Char → Option Char
  | '"' => some '"'
  | '\\' => some '\\'
  | '/' => some '/'
  | 'b' => some '\x08'
  | 'f' => some '\x0c'
  | 'n' => some '\n'
  | 'r' => some '\r'
  | 't' => some '\t'
  | _ => none

def hexDigit? (c : Char) : Option Nat :=
  if c.isDigit then some (c.toNat - 48)
  else if 97 ≤ c.toNat && c.toNat ≤ 102 then some (c.toNat - 87)
  else if 65 ≤ c.toNat && c.toNat ≤ 70 then some (c.toNat - 55)
  else none

namespace Mode

/-- A character between two tokens. -/
def start (c : Char) : List Token × Mode :=
  if isBlank c then ([], .between)
  else if isMark c then ([.mark c], .between)
  else if c == '"' then ([], .string [])
  else ([], .word [c])

/-- One more character: the tokens that end with it or in front of it, and the mode behind it. A string
has no control characters, and half a surrogate pair is no character. -/
def next : Mode → Char → Option (List Token × Mode)
  | .between, c => some (start c)
  | .word text, c =>
      if isDelimiter c then
        (literal? text).map fun value => (.atom value :: (start c).1, (start c).2)
      else some ([], .word (text ++ [c]))
  | .string text, c =>
      if c == '"' then some ([.atom (.text (.ofList text))], .between)
      else if c == '\\' then some ([], .escape text)
      else if c.toNat < 0x20 then none
      else some ([], .string (text ++ [c]))
  | .escape text, c =>
      if c == 'u' then some ([], .code text 0 0)
      else (escaped? c).map fun c => ([], .string (text ++ [c]))
  | .code text count value, c => do
      let digit ← hexDigit? c
      let value := 16 * value + digit
      if count < 3 then return ([], .code text (count + 1) value)
      else if value.isValidChar then return ([], .string (text ++ [.ofNat value]))
      else none

/-- The tokens of a text that starts in a mode. A string must end in it. -/
def tokens? : Mode → List Char → Option (List Token)
  | .between, [] => some []
  | .word text, [] => (literal? text).map fun value => [.atom value]
  | _, [] => none
  | mode, c :: text => do
      let (tokens, mode) ← mode.next c
      (mode.tokens? text).map (tokens ++ ·)

end Mode

/-! ## Values -/

/-- A group that is still open, with what has been read of it; of an object also the key of the value
that is being read. -/
inductive Frame
  | array (items : List Json)
  | object (members : List (String × Json)) (key : String)

/-- What comes next, with the open groups around it, the innermost one first. -/
inductive Reading
  | atValue (frames : List Frame)
  /-- The first item of an array, or its end. -/
  | atFirstItem (frames : List Frame)
  /-- The first key of an object, or its end. -/
  | atFirstKey (frames : List Frame)
  /-- A further key of an object. -/
  | atKey (members : List (String × Json)) (frames : List Frame)
  | atColon (members : List (String × Json)) (key : String) (frames : List Frame)
  /-- A comma, the end of the group, or nothing behind a value. -/
  | behind (value : Json) (frames : List Frame)

namespace Reading

/-- The first token of a value. -/
def startValue (frames : List Frame) : Token → Option Reading
  | .atom value => some (.behind value frames)
  | .mark '[' => some (.atFirstItem frames)
  | .mark '\x7b' => some (.atFirstKey frames)
  | _ => none

/-- The key of a member. -/
def startMember (members : List (String × Json)) (frames : List Frame) : Token → Option Reading
  | .atom (.text key) => some (.atColon members key frames)
  | _ => none

/-- One more token. -/
def next : Reading → Token → Option Reading
  | .atValue frames, token => startValue frames token
  | .atFirstItem frames, .mark ']' => some (.behind (.array []) frames)
  | .atFirstItem frames, token => startValue (.array [] :: frames) token
  | .atFirstKey frames, .mark '\x7d' => some (.behind (.object []) frames)
  | .atFirstKey frames, token => startMember [] frames token
  | .atKey members frames, token => startMember members frames token
  | .atColon members key frames, .mark ':' => some (.atValue (.object members key :: frames))
  | .behind value (.array items :: frames), .mark ',' =>
      some (.atValue (.array (items ++ [value]) :: frames))
  | .behind value (.array items :: frames), .mark ']' =>
      some (.behind (.array (items ++ [value])) frames)
  | .behind value (.object members key :: frames), .mark ',' =>
      some (.atKey (members ++ [(key, value)]) frames)
  | .behind value (.object members key :: frames), .mark '\x7d' =>
      some (.behind (.object (members ++ [(key, value)])) frames)
  | _, _ => none

/-- The value that has been read, where nothing is open. -/
def result? : Reading → Option Json
  | .behind value [] => some value
  | _ => none

end Reading

end JsonReader

open JsonReader

/-- The value of a JSON text; `none` for any other text. -/
def Json.read? (text : String) : Option Json := do
  let tokens ← Mode.between.tokens? text.toList
  let reading ← tokens.foldlM Reading.next (.atValue [])
  reading.result?

example : Json.read? "[null, \x7b\"a\": 12\x7d]" =
    some (.array [.null, .object [("a", .integer 12)]]) := rfl

/-- A comma too many or too few, digits that are missing or too many, a control character in a string, and
a second value. -/
example : ["[1,]", "[1 2]", "1.", "01", "\"\t\"", "1 2"].map Json.read? =
    [none, none, none, none, none, none] := rfl

end Quadra.Report
