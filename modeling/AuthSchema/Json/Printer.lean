import AuthSchema.Json.Basic

/-!
The two written forms of a JSON value: compact, without any blank, and pretty, with one member or
item a line and two blanks a level. Text beyond ASCII is written as it is.
-/
namespace AuthSchema.Json

def controlEscape (c : Char) : String :=
  "\\u00" ++ String.ofList [Nat.digitChar (c.toNat / 16), Nat.digitChar (c.toNat % 16)]

def escapeChar (c : Char) : String :=
  if c = '"' then "\\\""
  else if c = '\\' then "\\\\"
  else if c = '\x08' then "\\b"
  else if c = '\x0c' then "\\f"
  else if c = '\n' then "\\n"
  else if c = '\r' then "\\r"
  else if c = '\t' then "\\t"
  else if c.toNat < 0x20 then controlEscape c
  else String.singleton c

/-- A text between quotes, with quotes, backslashes and control characters escaped. -/
def quote (s : String) : String :=
  s.toList.foldl (fun out c => out ++ escapeChar c) "\"" ++ "\""

def spaces (n : Nat) : String := String.ofList (List.replicate n ' ')

mutual

def compact : Json → String
  | .null => "null"
  | .bool true => "true"
  | .bool false => "false"
  | .nat n => toString n
  | .decimal literal => literal
  | .str s => quote s
  | .arr items => "[" ++ compactItems items ++ "]"
  | .obj members => "\x7b" ++ compactMembers members ++ "\x7d"

def compactItems : List Json → String
  | [] => ""
  | [j] => j.compact
  | j :: rest => j.compact ++ "," ++ compactItems rest

def compactMembers : List (String × Json) → String
  | [] => ""
  | [(k, j)] => quote k ++ ":" ++ j.compact
  | (k, j) :: rest => quote k ++ ":" ++ j.compact ++ "," ++ compactMembers rest

end

mutual

/-- The value over several lines, its own lines beginning at the given column. -/
def prettyAt (column : Nat) : Json → String
  | .arr [] => "[]"
  | .obj [] => "\x7b\x7d"
  | .arr items => "[\n" ++ prettyItems (column + 2) items ++ "\n" ++ spaces column ++ "]"
  | .obj members =>
    "\x7b\n" ++ prettyMembers (column + 2) members ++ "\n" ++ spaces column ++ "\x7d"
  | .null => "null"
  | .bool true => "true"
  | .bool false => "false"
  | .nat n => toString n
  | .decimal literal => literal
  | .str s => quote s

def prettyItems (column : Nat) : List Json → String
  | [] => ""
  | [j] => spaces column ++ prettyAt column j
  | j :: rest => spaces column ++ prettyAt column j ++ ",\n" ++ prettyItems column rest

def prettyMembers (column : Nat) : List (String × Json) → String
  | [] => ""
  | [(k, j)] => spaces column ++ quote k ++ ": " ++ prettyAt column j
  | (k, j) :: rest =>
    spaces column ++ quote k ++ ": " ++ prettyAt column j ++ ",\n" ++ prettyMembers column rest

end

/-- The value over several lines, two blanks a level; empty lists and objects stay on one line. -/
def pretty (j : Json) : String := prettyAt 0 j

end AuthSchema.Json
