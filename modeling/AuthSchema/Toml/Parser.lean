import AuthSchema.Toml.Document
import AuthSchema.Toml.Scalar

/-!
Reading TOML documents. Arrays and inline tables may stand inside one another to a limited depth,
and dotted keys have a limited number of parts.
-/
namespace AuthSchema.Toml

/-- The number of levels that values may not reach, and the number of parts that keys may not. -/
def levelLimit : Nat := 80

private def isBare (c : Char) : Bool := c.isAlphanum || c = '_' || c = '-'

private def simpleKey : Scan String :=
  basicString <|> literalString <|> (do
    let first ← Scan.char isBare
    let rest ← Scan.chars isBare
    return String.ofList (first :: rest))

/-- A key with its parts: all but the last, and the last. -/
private def dottedKey : Scan (List String × String) := do
  let parts ← Scan.separated (Scan.exact ".") (do
    spaces
    let key ← simpleKey
    spaces
    return key)
  match parts.getLast? with
  | some last => if parts.length < levelLimit then return (parts.dropLast, last) else failure
  | none => failure

private def assignment (value : Scan Value) : Scan (List String × String × Value) := do
  let (path, key) ← dottedKey
  Scan.exact "="
  spaces
  return (path, key, ← value)

private def array (item : Scan Value) : Scan Value := do
  Scan.exact "["
  let items ← Scan.optional (Scan.separated (Scan.exact ",") (do
    filler
    let v ← item
    filler
    return v))
  if items.isSome then let _ ← Scan.optional (Scan.exact ",")
  filler
  Scan.exact "]"
  return .array (items.getD [])

private def inlineTable (value : Scan Value) : Scan Value := do
  Scan.exact "\x7b"
  let items ← Scan.optional (Scan.separated (Scan.exact ",") (do
    let item ← assignment value
    spaces
    return item))
  spaces
  Scan.exact "\x7d"
  match inlineEntries (items.getD []) with
  | some entries => return .table .inline entries
  | none => failure

private def scalar : Scan Value :=
  (do return .text (← anyString)) <|>
    (do Scan.exact "true"; return .boolean true) <|>
    (do Scan.exact "false"; return .boolean false) <|>
    (do moment; return .moment) <|>
    (do float; return .float) <|>
    (do return .integer (← integer))

/-- A value with at most so many levels of arrays and inline tables. -/
private def valueWithin : Nat → Scan Value
  | 0 => scalar
  | n + 1 => scalar <|> array (valueWithin n) <|> inlineTable (valueWithin n)

private def header (opening closing : String) : Scan (List String × String) := do
  Scan.exact opening
  let path ← dottedKey
  Scan.exact closing
  return path

private def statement : Scan Statement := do
  let found ← (do let (path, key) ← header "[[" "]]"; return .element path key) <|>
    (do let (path, key) ← header "[" "]"; return .table path key) <|>
    (do
      let (path, key, v) ← assignment (valueWithin (levelLimit - 1))
      return .entry path key v)
  lineRest
  return found

/-- A line: a statement, or nothing but a comment. -/
private def line : Scan (Option Statement) := do
  spaces
  (do return some (← statement)) <|> (do comment; lineEnd; return none) <|>
    (do newline; return none)

def parse? (text : String) : Option Entries := do
  let s := match text.toList with
    | c :: rest => if c = '\ufeff' then rest else c :: rest
    | [] => []
  let (lines, rest) ← Scan.many line s
  if (rest.dropWhile isSpace).isEmpty then documentOf (lines.filterMap id) else none

end AuthSchema.Toml
