import AuthSchema.Toml.Scan

/-!
The four forms of TOML strings: basic and literal, on one line or over several.
-/
namespace AuthSchema.Toml

private def hexValue (ds : List Char) : Nat :=
  ds.foldl (fun n c => n * 16 +
    (if c.isDigit then c.toNat - 48 else if c.isLower then c.toNat - 87 else c.toNat - 55)) 0

def isHex (c : Char) : Bool := c.isDigit || ('a' ≤ c && c ≤ 'f') || ('A' ≤ c && c ≤ 'F')

private def codePoint (digits : Nat) : Scan Char := do
  let n := hexValue (← Scan.count digits isHex)
  if n.isValidChar then return Char.ofNat n else failure

private def escape : Scan Char := do
  Scan.exact "\\"
  match ← Scan.char fun _ => true with
  | 'b' => return '\x08'
  | 'f' => return '\x0c'
  | 'n' => return '\n'
  | 'r' => return '\r'
  | 't' => return '\t'
  | '"' => return '"'
  | '\\' => return '\\'
  | 'u' => codePoint 4
  | 'U' => codePoint 8
  | _ => failure

/-- The characters that stand for themselves in every string: all but controls, quotes and
backslashes. -/
private def isPlain (c : Char) : Bool :=
  c = '\t' || (0x20 ≤ c.toNat && c.toNat ≤ 0x7e && c ≠ '"' && c ≠ '\'' && c ≠ '\\') || isWide c

private def isBasic (c : Char) : Bool := isPlain c || c = '\''

private def isLiteral (c : Char) : Bool := isPlain c || c = '"' || c = '\\'

def basicString : Scan String := do
  Scan.exact "\""
  let cs ← Scan.many (Scan.char isBasic <|> escape)
  Scan.exact "\""
  return String.ofList cs

def literalString : Scan String := do
  Scan.exact "'"
  let cs ← Scan.chars isLiteral
  Scan.exact "'"
  return String.ofList cs

/-- A backslash at the end of a line, which swallows blanks and line ends after it. -/
private def continuation : Scan (List Char) := do
  Scan.exact "\\"
  spaces
  newline
  let _ ← Scan.many (newline <|> (do let _ ← Scan.char isSpace))
  return []

/-- A line end inside a string; it always counts as a newline alone. -/
private def innerNewline : Scan (List Char) := do
  newline
  return ['\n']

/-- One or two quotes that do not end the string, since another character follows. -/
private def innerQuotes (q : Char) : Scan (List Char) := fun s =>
  let quotes := s.takeWhile (· = q)
  if !quotes.isEmpty && quotes.length ≤ 2 then some (quotes, s.drop quotes.length) else none

/-- Three quotes that end a string, after up to two that still belong to it. -/
private def closingQuotes (q : Char) : Scan (List Char) := fun s =>
  let quotes := (s.takeWhile (· = q)).take 5
  if 3 ≤ quotes.length then some (quotes.drop 3, s.drop quotes.length) else none

private def severalLines (q : Char) (content : Scan (List Char)) : Scan String := do
  Scan.exact (String.ofList [q, q, q])
  let _ ← Scan.optional newline
  let body ← Scan.many (content <|> innerNewline <|> innerQuotes q)
  let last ← closingQuotes q
  return String.ofList (body.flatten ++ last)

def basicLines : Scan String :=
  severalLines '"'
    ((do return [← Scan.char isBasic]) <|> (do return [← escape]) <|> continuation)

def literalLines : Scan String := severalLines '\'' (do return [← Scan.char isLiteral])

def anyString : Scan String := basicLines <|> basicString <|> literalLines <|> literalString

end AuthSchema.Toml
