import TypedRecord.Json.Basic

namespace TypedRecord

inductive Code
  | string
  | integer
  | number
  | boolean
  | array
  | object
  | map
  | enumeration
  | union
  | null
  | missingKey
  | unknownKey
  | stringLength
  | arrayLength
  | above
  | atLeast
  | below
  | atMost
deriving DecidableEq

namespace Code

def all : List Code :=
  [.string, .integer, .number, .boolean, .array, .object, .map, .enumeration, .union, .null,
    .missingKey, .unknownKey, .stringLength, .arrayLength, .above, .atLeast, .below, .atMost]

/-- The numbers are fixed, so a new code comes last. -/
def index (code : Code) : Nat := all.idxOf code

theorem all_getElem_index (code : Code) : all[code.index]? = some code := by
  cases code <;> rfl

def name : Code → String
  | .string => "STR"
  | .integer => "INT"
  | .number => "NUM"
  | .boolean => "BOOL"
  | .array => "ARR"
  | .object => "OBJ"
  | .map => "MAP"
  | .enumeration => "ENUM"
  | .union => "OR"
  | .null => "NULL"
  | .missingKey => "KEY"
  | .unknownKey => "UNKNOWN_KEY"
  | .stringLength => "STR_LEN"
  | .arrayLength => "ARR_LEN"
  | .above => "GT"
  | .atLeast => "GTE"
  | .below => "LT"
  | .atMost => "LTE"

def message : Code → String
  | .string => "Not a string."
  | .integer => "Not an integer."
  | .number => "Not a number."
  | .boolean => "Not a boolean."
  | .array => "Not an array."
  | .object => "Not an object."
  | .map => "Not a map."
  | .enumeration => "Not an enum value."
  | .union => "None of types matched."
  | .null => "Unexpected null."
  | .missingKey => "Missing key."
  | .unknownKey => "Unknown key."
  | .stringLength => "Invalid string length."
  | .arrayLength => "Invalid array length."
  | .above | .atLeast => "Value is too small."
  | .below | .atMost => "Value is too large."

def isConstraint : Code → Bool
  | .stringLength | .arrayLength | .above | .atLeast | .below | .atMost => true
  | _ => false

end Code

inductive Bound
  | gt
  | gte
  | lt
  | lte
deriving DecidableEq

def Bound.code : Bound → Code
  | .gt => .above
  | .gte => .atLeast
  | .lt => .below
  | .lte => .atMost

def Bound.sign : Bound → String
  | .gt => ">"
  | .gte => ">="
  | .lt => "<"
  | .lte => "<="

inductive Measured
  | string
  | array
deriving DecidableEq

def Measured.code : Measured → Code
  | .string => .stringLength
  | .array => .arrayLength

inductive Breach
  | value (bound : Bound) (limit : Binary64) (got : Json.Number)
  | tooShort (measured : Measured) (length min : Nat)
  | tooLong (measured : Measured) (length max : Nat)
deriving DecidableEq

namespace Breach

def code : Breach → Code
  | .value bound _ _ => bound.code
  | .tooShort measured _ _ | .tooLong measured _ _ => measured.code

/-- Bounds are written out in full, and whole ones have no point. -/
def limitLayout : Decimal.Layout where
  tie := .up
  isPositional _ := true
  wholeMark := ""

def limitText : Binary64 → String
  | .nan => "NaN"
  | .infinite negative => if negative then "-inf" else "inf"
  | .finite x => limitLayout.text x

def detail : Breach → String
  | .value bound limit got =>
    "must be " ++ bound.sign ++ " " ++ limitText limit ++ ", got " ++ got.text
  | .tooShort _ length min =>
    "length " ++ Decimal.digitText length ++ " is below " ++ Decimal.digitText min
  | .tooLong _ length max =>
    "length " ++ Decimal.digitText length ++ " is above " ++ Decimal.digitText max

end Breach

end TypedRecord
