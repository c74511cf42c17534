import TypedRecord.Binary64
import TypedRecord.Decimal
import TypedRecord.Entries

namespace TypedRecord

namespace Json

inductive Number
  | int (value : Int)
  | float (value : Binary64.Finite)
deriving DecidableEq

namespace Number

def toBinary64 : Number → Binary64
  | .int n => .ofInt n
  | .float x => .finite x

/-- Numeric equality within each kind; an integer never equals a float. -/
def equal : Number → Number → Bool
  | .int m, .int n => m = n
  | .float x, .float y => x.units = y.units
  | _, _ => false

def ofBinary64? : Binary64 → Option Number
  | .finite x => some (.float x)
  | _ => none

/-- Floats keep a fraction, and leave positional notation below `10 ^ -5` and from `10 ^ 16`. -/
def layout : Decimal.Layout where
  tie := .toEven
  isPositional exponent := -5 ≤ exponent && exponent ≤ 15
  wholeMark := ".0"

def text : Number → String
  | .int n => (if n < 0 then "-" else "") ++ Decimal.digitText n.natAbs
  | .float x => layout.text x

def digitsValue (digits : List Char) : Nat :=
  digits.foldl (fun n c ↦ 10 * n + (c.toNat - '0'.toNat)) 0

def fraction? : List Char → Option (List Char × List Char)
  | '.' :: rest =>
    let (digits, rest) := rest.span Char.isDigit
    if digits.isEmpty then none else some (digits, rest)
  | rest => some ([], rest)

def exponent? : List Char → Option (Option Int)
  | [] => some none
  | mark :: rest =>
    let (negative, digits) := match rest with
      | '-' :: digits => (true, digits)
      | '+' :: digits => (false, digits)
      | digits => (false, digits)
    if (mark = 'e' ∨ mark = 'E') ∧ digits ≠ [] ∧ digits.all Char.isDigit then
      some (some (if negative then -digitsValue digits else digitsValue digits))
    else none

def ofDecimal? (negative : Bool) (digits : Nat) (exponent : Int) : Option Number :=
  ofBinary64? (Binary64.ofDecimal negative digits exponent)

/-- Minus zero has no integer form, and neither has a number outside the 64-bit ranges. -/
def ofInteger? (negative : Bool) (n : Nat) : Option Number :=
  if negative then
    if n = 0 ∨ -n < leastInt64 then ofDecimal? true n 0 else some (.int (-n))
  else
    if n < wordCount then some (.int n) else ofDecimal? false n 0

def ofUnsigned? (negative : Bool) (literal : List Char) : Option Number := do
  let (whole, rest) := literal.span Char.isDigit
  if whole = [] ∨ whole.head? = some '0' ∧ whole ≠ ['0'] then none
  else
    let (fraction, rest) ← fraction? rest
    match ← exponent? rest with
    | none =>
      if fraction = [] then ofInteger? negative (digitsValue whole)
      else ofDecimal? negative (digitsValue (whole ++ fraction)) (-fraction.length)
    | some exponent =>
      ofDecimal? negative (digitsValue (whole ++ fraction)) (exponent - fraction.length)

def ofLiteral? : List Char → Option Number
  | '-' :: literal => ofUnsigned? true literal
  | literal => ofUnsigned? false literal

end Number

end Json

inductive Json
  | null
  | bool (value : Bool)
  | num (value : Json.Number)
  | str (value : String)
  | arr (items : List Json)
  | obj (entries : List (String × Json))
deriving Inhabited

namespace Json

inductive Kind
  | null
  | boolean
  | number
  | string
  | array
  | object
deriving DecidableEq

def Kind.name : Kind → String
  | .null => "null"
  | .boolean => "boolean"
  | .number => "number"
  | .string => "string"
  | .array => "array"
  | .object => "object"

def kind : Json → Kind
  | .null => .null
  | .bool _ => .boolean
  | .num _ => .number
  | .str _ => .string
  | .arr _ => .array
  | .obj _ => .object

def int (n : Int) : Json := .num (.int n)

def float : Binary64 → Json
  | .finite x => .num (.float x)
  | _ => .null

mutual

/-- Equality with numbers compared by value and object keys in any order. -/
def equal : Json → Json → Bool
  | .null, .null => true
  | .bool a, .bool b => a = b
  | .num m, .num n => m.equal n
  | .str s, .str t => s = t
  | .arr xs, .arr ys => equalItems xs ys
  | .obj xs, .obj ys => xs.length = ys.length && equalEntries xs ys
  | _, _ => false

def equalItems : List Json → List Json → Bool
  | [], [] => true
  | x :: xs, y :: ys => equal x y && equalItems xs ys
  | _, _ => false

def equalEntries : List (String × Json) → List (String × Json) → Bool
  | [], _ => true
  | (key, x) :: xs, ys =>
    (match Entries.get? key ys with
      | some y => equal x y
      | none => false) && equalEntries xs ys

end

end Json

end TypedRecord
