import AuthSchema.Text.Invisible

/-!
Quoted text in messages: between quotes, with quotes, backslashes and everything invisible escaped.
-/
namespace AuthSchema.Text

/-- The hexadecimal digits of a number, without leading zeros. -/
def hex (n : Nat) : List Char := Nat.toDigits 16 n

def quoteChar (c : Char) : List Char :=
  if c = '\x00' then ['\\', '0']
  else if c = '\t' then ['\\', 't']
  else if c = '\r' then ['\\', 'r']
  else if c = '\n' then ['\\', 'n']
  else if c = '"' then ['\\', '"']
  else if c = '\\' then ['\\', '\\']
  else if isInvisible c then "\\u\x7b".toList ++ hex c.toNat ++ "\x7d".toList
  else [c]

def quoted (s : List Char) : String := "\"" ++ String.ofList (s.flatMap quoteChar) ++ "\""

end AuthSchema.Text
