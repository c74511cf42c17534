import TypedRecord.Json.Basic
import TypedRecord.Path
import TypedRecord.Proofs.Entries

namespace TypedRecord

namespace Pointer

def expand (char mark : Char) (text : List Char) : List Char :=
  text.flatMap fun c ↦ if c = char then ['~', mark] else [c]

/-- Tildes come first, so that the tilde of an escaped slash is not escaped in turn. Text that holds
neither stays as it is. -/
def escape (text : List Char) : List Char :=
  if '/' ∉ text ∧ '~' ∉ text then text else expand '/' '1' (expand '~' '0' text)

/-- A step inside a pointer: the digits of an index need no escapes. -/
def written : Path.Step → List Char
  | .key name => escape name.toList
  | .index i => Nat.toDigits 10 i

def replace (mark char : Char) : List Char → List Char
  | '~' :: c :: rest =>
    if c = mark then char :: replace mark char rest else '~' :: replace mark char (c :: rest)
  | c :: rest => c :: replace mark char rest
  | [] => []

/-- Slashes come first, so that an escaped tilde is never taken for the start of an escape. -/
def unescape (token : List Char) : List Char := replace '0' '~' (replace '1' '/' token)

def tokens? (pointer : String) : Option (List String) :=
  match pointer.toList with
  | [] => some []
  | '/' :: rest => some ((rest.splitOn '/').map fun token ↦ String.ofList (unescape token))
  | _ :: _ => none

def index? (token : String) : Option Nat :=
  let i := Nat.ofDigitChars 10 token.toList 0
  if Nat.toDigits 10 i = token.toList then some i else none

def hexDigit? (c : Char) : Option Nat :=
  if c.isDigit then some (c.toNat - '0'.toNat)
  else if 'a' ≤ c ∧ c ≤ 'f' then some (10 + (c.toNat - 'a'.toNat))
  else if 'A' ≤ c ∧ c ≤ 'F' then some (10 + (c.toNat - 'A'.toNat))
  else none

def utf8? (bytes : List UInt8) : Option (List Char) :=
  (String.fromUTF8? ⟨bytes.toArray⟩).map String.toList

/-- The text that percent escapes stand for. The bytes of escapes in a row are decoded together. -/
def decodePercent? (pending : List UInt8) : List Char → Option (List Char)
  | '%' :: a :: b :: rest => do
    let high ← hexDigit? a
    let low ← hexDigit? b
    decodePercent? (pending ++ [UInt8.ofNat (16 * high + low)]) rest
  | '%' :: _ => none
  | c :: rest => do
    let text ← utf8? pending
    return text ++ c :: (← decodePercent? [] rest)
  | [] => utf8? pending

end Pointer

namespace Json

def part? : Json → String → Option Json
  | .obj entries, token => Entries.get? token entries
  | .arr items, token => (Pointer.index? token).bind fun i ↦ items[i]?
  | _, _ => none

def pointer? (json : Json) (pointer : String) : Option Json :=
  (Pointer.tokens? pointer).bind fun tokens ↦ tokens.foldlM part? json

def reference? (document : Json) (reference : String) : Option Json :=
  match reference.toList with
  | '#' :: fragment =>
    (Pointer.decodePercent? [] fragment).bind fun text ↦ document.pointer? (String.ofList text)
  | _ => none

end Json

theorem Path.escape_of_ne {c : Char} (ht : c ≠ '~') (hs : c ≠ '/') : Path.escape c = [c] := by
  unfold Path.escape
  split
  · exact absurd rfl ht
  · exact absurd rfl hs
  · rfl

namespace Pointer

theorem replace_cons {mark char c : Char} (h : c ≠ '~') (rest : List Char) :
    replace mark char (c :: rest) = c :: replace mark char rest := by
  rw [replace]
  intro _ _ hc
  exact absurd hc h

theorem expand_of_notMem {char : Char} (mark : Char) {text : List Char} (h : char ∉ text) :
    expand char mark text = text := by
  have hc : ∀ c ∈ text, (if c = char then ['~', mark] else [c]) = [c] := by
    intro c hm
    rw [if_neg]
    rintro rfl
    exact h hm
  rw [expand, List.flatMap_congr hc, List.flatMap_singleton']

theorem escape_eq_expand (text : List Char) :
    escape text = expand '/' '1' (expand '~' '0' text) := by
  unfold escape
  split
  next h => rw [expand_of_notMem '0' h.2, expand_of_notMem '1' h.1]
  next => rfl

/-- Two replacements one after the other come to one pass: the first brings in no slash for the
second to meet. -/
theorem escape_eq_flatMap (text : List Char) : escape text = text.flatMap Path.escape := by
  have hc : ∀ c ∈ text,
      expand '/' '1' (if c = '~' then ['~', '0'] else [c]) = Path.escape c := by
    intro c _
    by_cases ht : c = '~'
    · subst ht
      rfl
    · rw [if_neg ht]
      by_cases hs : c = '/'
      · subst hs
        rfl
      · rw [Path.escape_of_ne ht hs, expand_of_notMem]
        exact fun hm ↦ hs (List.mem_singleton.mp hm).symm
  rw [escape_eq_expand, ← List.flatMap_congr hc, expand, expand, List.flatMap_assoc]
  rfl

/-- After the first replacement only the tildes are left escaped. -/
theorem replace_slash_escape (text : List Char) :
    replace '1' '/' (escape text) = expand '~' '0' text := by
  rw [escape_eq_flatMap, expand]
  induction text with
  | nil => rfl
  | cons c rest ih =>
    rw [List.flatMap_cons, List.flatMap_cons]
    by_cases ht : c = '~'
    · subst ht
      simp [Path.escape, replace, ih]
    · by_cases hs : c = '/'
      · subst hs
        simp [Path.escape, replace, ih]
      · rw [Path.escape_of_ne ht hs, List.singleton_append, replace_cons ht, ih, if_neg ht,
          List.singleton_append]

theorem replace_tilde_expand (text : List Char) : replace '0' '~' (expand '~' '0' text) = text := by
  rw [expand]
  induction text with
  | nil => rfl
  | cons c rest ih =>
    rw [List.flatMap_cons]
    by_cases ht : c = '~'
    · subst ht
      simp [replace, ih]
    · rw [if_neg ht, List.singleton_append, replace_cons ht, ih]

theorem unescape_escape (text : List Char) : unescape (escape text) = text := by
  rw [unescape, replace_slash_escape, replace_tilde_expand]

theorem token_eq_written (step : Path.Step) : step.token = written step := by
  cases step with
  | key name => exact (escape_eq_flatMap name.toList).symm
  | index i =>
    have hdigit : ∀ c ∈ Nat.toDigits 10 i, Path.escape c = [c] := by
      intro c hm
      have hd : c.isDigit = true := Nat.isDigit_of_mem_toDigits (by decide) (by decide) hm
      apply Path.escape_of_ne
      · rintro rfl
        exact absurd hd (by decide)
      · rintro rfl
        exact absurd hd (by decide)
    rw [Path.Step.token, Path.Step.name, String.toList_ofList, List.flatMap_congr hdigit,
      List.flatMap_singleton', written]

theorem slash_notMem_token (step : Path.Step) : '/' ∉ step.token := by
  intro h
  obtain ⟨c, -, hc⟩ := List.mem_flatMap.mp h
  unfold Path.escape at hc
  split at hc
  next => simp at hc
  next => simp at hc
  next hs => exact hs (List.mem_singleton.mp hc).symm

theorem splitOn_tokens (step : Path.Step) (steps : List Path.Step) :
    (step.token ++ steps.flatMap fun step ↦ '/' :: step.token).splitOn '/' =
      (step :: steps).map Path.Step.token := by
  induction steps generalizing step with
  | nil =>
    rw [List.flatMap_nil, List.append_nil, List.splitOn_eq_singleton (slash_notMem_token step)]
    rfl
  | cons next rest ih =>
    rw [List.flatMap_cons, List.cons_append,
      List.splitOn_append_cons_self_of_not_mem (slash_notMem_token step), ih]
    rfl

/-- Reading the text of a path gives the names of its steps. -/
theorem tokens?_pointer (p : Path) :
    tokens? p.pointer = some (p.steps.map Path.Step.name) := by
  obtain ⟨steps⟩ := p
  cases steps with
  | nil => rfl
  | cons step rest =>
    have htokens : ∀ step : Path.Step, String.ofList (unescape step.token) = step.name := by
      intro step
      rw [Path.Step.token, ← escape_eq_flatMap, unescape_escape, String.ofList_toList]
    simp only [tokens?, Path.pointer, String.toList_ofList, List.flatMap_cons, List.cons_append,
      splitOn_tokens, List.map_map, Function.comp_def, htokens]

theorem index?_name (i : Nat) : index? (Path.Step.index i).name = some i := by
  simp [index?, Path.Step.name, Nat.ofDigitChars_ten_toDigits]

theorem decodePercent?_of_notMem {text : List Char} (h : '%' ∉ text) :
    decodePercent? [] text = some text := by
  induction text with
  | nil => rfl
  | cons c rest ih =>
    rw [List.mem_cons, not_or] at h
    have hu : utf8? [] = some [] := rfl
    rw [decodePercent?, hu, ih h.2]
    · rfl
    · intro _ _ _ hc
      exact absurd hc.symm h.1
    · intro hc
      exact absurd hc.symm h.1

end Pointer

namespace Path

variable {p q : Path}

/-- Nothing but the names of the steps goes into the text. -/
theorem pointer_eq_iff : p.pointer = q.pointer ↔ p.steps.map Step.name = q.steps.map Step.name := by
  have hnames : ∀ r : Path, r.pointer = String.ofList ((r.steps.map Step.name).flatMap fun name ↦
      '/' :: name.toList.flatMap escape) := by
    intro r
    rw [List.flatMap_map]
    rfl
  constructor
  · intro h
    have ht := congrArg Pointer.tokens? h
    rwa [Pointer.tokens?_pointer, Pointer.tokens?_pointer, Option.some.injEq] at ht
  · intro h
    rw [hnames p, hnames q, h]

theorem pointer_eq_empty_iff : p.pointer = "" ↔ p = root := by
  change p.pointer = root.pointer ↔ p = root
  rw [pointer_eq_iff]
  obtain ⟨steps⟩ := p
  simp [root]

/-- The name that messages give the root does not start with a slash. -/
theorem pointer_ne_root_name (p : Path) : p.pointer ≠ "<root>" := by
  intro h
  obtain ⟨_ | ⟨step, rest⟩⟩ := p
  · exact absurd h (by decide)
  · have hc := congrArg String.toList h
    rw [pointer, String.toList_ofList, List.flatMap_cons, List.cons_append] at hc
    exact absurd (List.cons.inj hc).1 (by decide)

theorem isRoot_iff : p.isRoot = true ↔ p = root := by
  obtain ⟨steps⟩ := p
  simp [isRoot, root]

theorem display_of_ne_root (h : p ≠ root) : p.display = p.pointer := if_neg (mt isRoot_iff.mp h)

theorem display_eq_root_name_iff : p.display = "<root>" ↔ p = root := by
  constructor
  · intro h
    by_contra hp
    rw [display_of_ne_root hp] at h
    exact p.pointer_ne_root_name h
  · rintro rfl
    rfl

theorem display_eq_iff : p.display = q.display ↔ p.pointer = q.pointer := by
  have hroot : ∀ r : Path, r.display = root.display ↔ r.pointer = root.pointer := fun _ ↦
    display_eq_root_name_iff.trans pointer_eq_empty_iff.symm
  by_cases hp : p = root
  · subst hp
    rw [eq_comm, hroot, eq_comm]
  · by_cases hq : q = root
    · subst hq
      exact hroot p
    · rw [display_of_ne_root hp, display_of_ne_root hq]

/-- The text of a path is its steps as written, and reading it gives their names back. So two paths
share their text just when their steps have the same names one by one, and what messages show tells
as much apart. -/
theorem pointer_faithful (p q : Path) :
    p.pointer = String.ofList (p.steps.flatMap fun step ↦ '/' :: Pointer.written step) ∧
    Pointer.tokens? p.pointer = some (p.steps.map Step.name) ∧
    (p.pointer = q.pointer ↔ List.Forall₂ (fun a b ↦ a.name = b.name) p.steps q.steps) ∧
    (p.display = q.display ↔ p.pointer = q.pointer) ∧
    (p.display = "<root>" ↔ p = root) := by
  refine ⟨?_, Pointer.tokens?_pointer p, ?_, display_eq_iff, display_eq_root_name_iff⟩
  · simp only [pointer, Pointer.token_eq_written]
  · rw [pointer_eq_iff, ← List.forall₂_eq_eq_eq, List.forall₂_map_left_iff,
      List.forall₂_map_right_iff]

/-- An empty key has an empty token, and an escape that a key already holds is escaped like other
text. -/
example : (((root.key "~1").key "").index 2).pointer = "/~01//2" := by decide

end Path

namespace Json

theorem pointer?_pointer (json : Json) (p : Path) :
    json.pointer? p.pointer = (p.steps.map Path.Step.name).foldlM part? json := by
  rw [pointer?, Pointer.tokens?_pointer, Option.bind_some]

theorem pointer?_root (json : Json) : json.pointer? Path.root.pointer = some json := rfl

theorem pointer?_under (json : Json) (step : Path.Step) (p : Path) :
    json.pointer? (p.under step).pointer =
      (json.part? step.name).bind fun part ↦ part.pointer? p.pointer := by
  simp only [pointer?_pointer]
  rfl

theorem pointer?_key (json : Json) (p : Path) (key : String) :
    json.pointer? (p.key key).pointer =
      (json.pointer? p.pointer).bind fun parent ↦ parent.part? key := by
  rw [pointer?_pointer, pointer?_pointer, Path.key, Path.push, List.map_append, List.foldlM_append]
  cases (p.steps.map Path.Step.name).foldlM part? json with
  | none => rfl
  | some parent => exact bind_pure (parent.part? key)

theorem part?_index (items : List Json) (i : Nat) :
    (Json.arr items).part? (Path.Step.index i).name = items[i]? := by
  rw [part?, Pointer.index?_name, Option.bind_some]

end Json

end TypedRecord
