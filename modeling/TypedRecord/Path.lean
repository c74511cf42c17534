namespace TypedRecord

inductive Path.Step
  | key (name : String)
  | index (i : Nat)
deriving DecidableEq

structure Path where
  steps : List Path.Step
deriving DecidableEq

namespace Path

def root : Path := ⟨[]⟩

def push (p : Path) (step : Step) : Path := ⟨p.steps ++ [step]⟩

def key (p : Path) (name : String) : Path := p.push (.key name)

def index (p : Path) (i : Nat) : Path := p.push (.index i)

def under (step : Step) (p : Path) : Path := ⟨step :: p.steps⟩

def isRoot (p : Path) : Bool := p.steps.isEmpty

def length (p : Path) : Nat := p.steps.length

def Step.key? : Step → Option String
  | .key name => some name
  | .index _ => none

def lastKey? (p : Path) : Option String := p.steps.reverse.findSome? Step.key?

def escape : Char → List Char
  | '~' => ['~', '0']
  | '/' => ['~', '1']
  | c => [c]

def Step.name : Step → String
  | .key name => name
  | .index i => String.ofList (Nat.toDigits 10 i)

def Step.token (step : Step) : List Char := step.name.toList.flatMap escape

def pointer (p : Path) : String :=
  String.ofList (p.steps.flatMap fun step ↦ '/' :: step.token)

def display (p : Path) : String := if p.isRoot then "<root>" else p.pointer

end Path

end TypedRecord
