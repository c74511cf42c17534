import TypedRecord.Json.Basic

namespace TypedRecord.Json

inductive Token
  | beginArray
  | endArray
  | beginObject
  | endObject
  | colon
  | comma
  | null
  | bool (value : Bool)
  | num (value : Number)
  | str (value : String)

namespace Token

/-- Where the scanner stands. The characters of an unfinished token are held in reverse. -/
inductive Scan
  | outside
  | word (letters : List Char)
  | number (literal : List Char)
  | string (chars : List Char)
  | escape (chars : List Char)
  /-- Within the hexadecimal digits of an escape; `high` is a surrogate that came before it. -/
  | unicode (chars : List Char) (high : Option Nat) (digits value : Nat)
  /-- After a high surrogate, whose other half has to follow. -/
  | lowEscape (chars : List Char) (high : Nat)
  | lowMark (chars : List Char) (high : Nat)

def hexValue? (c : Char) : Option Nat :=
  if '0' ≤ c ∧ c ≤ '9' then some (c.toNat - '0'.toNat)
  else if 'a' ≤ c ∧ c ≤ 'f' then some (c.toNat - 'a'.toNat + 10)
  else if 'A' ≤ c ∧ c ≤ 'F' then some (c.toNat - 'A'.toNat + 10)
  else none

def isBlank (c : Char) : Bool := c = ' ' || c = '\t' || c = '\n' || c = '\r'

def isLiteral (c : Char) : Bool :=
  c.isDigit || c = '-' || c = '+' || c = '.' || c = 'e' || c = 'E'

def punctuation? (c : Char) : Option Token :=
  if c = '[' then some .beginArray
  else if c = ']' then some .endArray
  else if c.toNat = 0x7b then some .beginObject
  else if c.toNat = 0x7d then some .endObject
  else if c = ':' then some .colon
  else if c = ',' then some .comma
  else none

def ofWord? (letters : List Char) : Option Token :=
  if letters = "null".toList then some .null
  else if letters = "true".toList then some (.bool true)
  else if letters = "false".toList then some (.bool false)
  else none

def simpleEscape? (c : Char) : Option Char :=
  if c = '"' ∨ c = '\\' ∨ c = '/' then some c
  else if c = 'b' then some (Char.ofNat 0x08)
  else if c = 'f' then some (Char.ofNat 0x0c)
  else if c = 'n' then some '\n'
  else if c = 'r' then some '\r'
  else if c = 't' then some '\t'
  else none

/-- Takes up a completed four-digit escape. Surrogates are only read in pairs. -/
def closeUnicode (chars : List Char) (high : Option Nat) (value : Nat) : Option Scan :=
  match high with
  | none =>
    if 0xD800 ≤ value ∧ value < 0xDC00 then some (.lowEscape chars value)
    else if 0xDC00 ≤ value ∧ value < 0xE000 then none
    else some (.string (Char.ofNat value :: chars))
  | some high =>
    if 0xDC00 ≤ value ∧ value < 0xE000 then
      some (.string (Char.ofNat (0x10000 + (high - 0xD800) * 0x400 + (value - 0xDC00)) :: chars))
    else none

def stepOutside (tokens : List Token) (c : Char) : Option (Scan × List Token) :=
  if isBlank c then some (.outside, tokens)
  else if c = '"' then some (.string [], tokens)
  else if c = '-' ∨ c.isDigit then some (.number [c], tokens)
  else if c.isAlpha then some (.word [c], tokens)
  else (punctuation? c).map fun token ↦ (.outside, token :: tokens)

def step : Scan × List Token → Char → Option (Scan × List Token)
  | (.outside, tokens), c => stepOutside tokens c
  | (.word letters, tokens), c =>
    if c.isAlpha then some (.word (c :: letters), tokens)
    else do stepOutside ((← ofWord? letters.reverse) :: tokens) c
  | (.number literal, tokens), c =>
    if isLiteral c then some (.number (c :: literal), tokens)
    else do stepOutside (.num (← Number.ofLiteral? literal.reverse) :: tokens) c
  | (.string chars, tokens), c =>
    if c = '"' then some (.outside, .str (String.ofList chars.reverse) :: tokens)
    else if c = '\\' then some (.escape chars, tokens)
    else if c.toNat < 0x20 then none
    else some (.string (c :: chars), tokens)
  | (.escape chars, tokens), c =>
    if c = 'u' then some (.unicode chars none 0 0, tokens)
    else do some (.string ((← simpleEscape? c) :: chars), tokens)
  | (.unicode chars high digits value, tokens), c => do
    let value := 16 * value + (← hexValue? c)
    if digits = 3 then some (← closeUnicode chars high value, tokens)
    else some (.unicode chars high (digits + 1) value, tokens)
  | (.lowEscape chars high, tokens), c =>
    if c = '\\' then some (.lowMark chars high, tokens) else none
  | (.lowMark chars high, tokens), c =>
    if c = 'u' then some (.unicode chars (some high) 0 0, tokens) else none

def finish : Scan × List Token → Option (List Token)
  | (.outside, tokens) => some tokens.reverse
  | (.word letters, tokens) => do some ((← ofWord? letters.reverse) :: tokens).reverse
  | (.number literal, tokens) => do
    some (.num (← Number.ofLiteral? literal.reverse) :: tokens).reverse
  | _ => none

def scan (text : String) : Option (List Token) :=
  (text.toList.foldlM step (.outside, [])).bind finish

end Token

namespace Reader

/-- An array or object that waits for the value being read; items are held in reverse. -/
inductive Frame
  | array (items : List Json)
  | object (entries : List (String × Json)) (key : String)

inductive State
  | value (stack : List Frame)
  /-- After an opening bracket: a value, or the end of an empty array. -/
  | firstItem (stack : List Frame)
  /-- After an opening brace: a key, or the end of an empty object. -/
  | firstKey (stack : List Frame)
  | key (entries : List (String × Json)) (stack : List Frame)
  | colon (entries : List (String × Json)) (key : String) (stack : List Frame)
  | afterItem (items : List Json) (stack : List Frame)
  | afterEntry (entries : List (String × Json)) (stack : List Frame)
  | done (value : Json)

def depthLimit : Nat := 127

def deliver (value : Json) : List Frame → State
  | [] => .done value
  | .array items :: stack => .afterItem (value :: items) stack
  | .object entries key :: stack => .afterEntry (Entries.put key value entries) stack

def start (stack : List Frame) : Token → Option State
  | .null => some (deliver .null stack)
  | .bool b => some (deliver (.bool b) stack)
  | .num n => some (deliver (.num n) stack)
  | .str s => some (deliver (.str s) stack)
  | .beginArray => if stack.length < depthLimit then some (.firstItem stack) else none
  | .beginObject => if stack.length < depthLimit then some (.firstKey stack) else none
  | _ => none

def step : State → Token → Option State
  | .value stack, token => start stack token
  | .firstItem stack, .endArray => some (deliver (.arr []) stack)
  | .firstItem stack, token => start (.array [] :: stack) token
  | .firstKey stack, .endObject => some (deliver (.obj []) stack)
  | .firstKey stack, .str key => some (.colon [] key stack)
  | .key entries stack, .str key => some (.colon entries key stack)
  | .colon entries key stack, .colon => some (.value (.object entries key :: stack))
  | .afterItem items stack, .comma => some (.value (.array items :: stack))
  | .afterItem items stack, .endArray => some (deliver (.arr items.reverse) stack)
  | .afterEntry entries stack, .comma => some (.key entries stack)
  | .afterEntry entries stack, .endObject => some (deliver (.obj entries) stack)
  | _, _ => none

def result? : State → Option Json
  | .done value => some value
  | _ => none

end Reader

/-- The value of a text, if it is one JSON document with at most 127 arrays and objects open at a
time. -/
def parse? (text : String) : Option Json := do
  let tokens ← Token.scan text
  Reader.result? (← tokens.foldlM Reader.step (.value []))

end TypedRecord.Json
