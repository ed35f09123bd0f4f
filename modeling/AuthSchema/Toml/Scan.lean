/-!
Scanners of text: each takes something off the front of a text or fails.
-/
namespace AuthSchema.Toml

/-- A scanner: reads from the front of the text that is left. -/
abbrev Scan (α : Type) := StateT (List Char) Option α

namespace Scan

def char (p : Char → Bool) : Scan Char := fun s =>
  match s with
  | c :: rest => if p c then some (c, rest) else none
  | [] => none

def exact (text : String) : Scan Unit := fun s =>
  if text.toList.isPrefixOf s then some ((), s.drop text.toList.length) else none

def chars (p : Char → Bool) : Scan (List Char) := fun s => some (s.takeWhile p, s.dropWhile p)

def atEnd : Scan Unit := fun s => if s.isEmpty then some ((), s) else none

def optional {α : Type} (p : Scan α) : Scan (Option α) := fun s =>
  match p s with
  | some (a, rest) => some (some a, rest)
  | none => some (none, s)

/-- What a scanner takes, over and over, for as long as it takes something. -/
def repeatedly {α : Type} (p : Scan α) (s : List Char) : List α × List Char :=
  match p s with
  | some (a, rest) =>
    if _h : rest.length < s.length then
      let (as, rest) := repeatedly p rest
      (a :: as, rest)
    else ([], s)
  | none => ([], s)
termination_by s.length

def many {α : Type} (p : Scan α) : Scan (List α) := fun s => some (repeatedly p s)

/-- One or more items with separators between them. -/
def separated {α : Type} (separator : Scan Unit) (p : Scan α) : Scan (List α) := do
  let first ← p
  let rest ← many (do separator; p)
  return first :: rest

def count (n : Nat) (p : Char → Bool) : Scan (List Char) := fun s =>
  let found := (s.take n).takeWhile p
  if found.length = n then some (found, s.drop n) else none

end Scan

def isSpace (c : Char) : Bool := c = ' ' || c = '\t'

def isWide (c : Char) : Bool := 0x80 ≤ c.toNat

def spaces : Scan Unit := do let _ ← Scan.chars isSpace

/-- A line end: a newline, with or without a carriage return before it. -/
def newline : Scan Unit := Scan.exact "\n" <|> Scan.exact "\r\n"

def comment : Scan Unit := do
  Scan.exact "#"
  let _ ← Scan.chars fun c => c = '\t' || (0x20 ≤ c.toNat && c.toNat ≤ 0x7e) || isWide c

def lineEnd : Scan Unit := newline <|> Scan.atEnd

def lineRest : Scan Unit := do
  spaces
  let _ ← Scan.optional comment
  lineEnd

/-- Blanks, comments and line ends. -/
def filler : Scan Unit := do
  let _ ← Scan.many (do
    spaces
    newline <|> (do comment; newline))
  spaces

end AuthSchema.Toml
