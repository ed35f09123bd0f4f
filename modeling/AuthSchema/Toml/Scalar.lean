import AuthSchema.Toml.Quotation

/-!
TOML numbers, dates and times. Integers have to fit in 64 bits; a positive float may not be too
large for a 64-bit float.
-/
namespace AuthSchema.Toml

/-- Digits with single underscores between them. -/
private def digits (p : Char → Bool) : Scan (List Char) := do
  let first ← Scan.char p
  let rest ← Scan.many (Scan.char p <|> (do Scan.exact "_"; Scan.char p))
  return first :: rest

private def decimals : Scan (List Char) := digits Char.isDigit

private def valueIn (base : Nat) (ds : List Char) : Nat :=
  ds.foldl (fun n c => n * base +
    (if c.isDigit then c.toNat - 48 else if c.isLower then c.toNat - 87 else c.toNat - 55)) 0

private def sign : Scan Bool :=
  (do Scan.exact "-"; return true) <|> (do Scan.exact "+"; return false) <|> pure false

private def whole : Scan (List Char) := fun s =>
  match s with
  | '0' :: rest => some (['0'], rest)
  | _ => decimals s

private def inBase (mark : String) (base : Nat) (p : Char → Bool) : Scan Int := do
  Scan.exact mark
  let n := valueIn base (← digits p)
  if n < Nat.pow 2 63 then return n else failure

private def decimalInteger : Scan Int := do
  let negative ← sign
  let n := valueIn 10 (← whole)
  if n < Nat.pow 2 63 then return if negative then -n else n
  else if negative && n = Nat.pow 2 63 then return -n
  else failure

/-- An integer, in base ten with an optional sign or marked with its base. -/
def integer : Scan Int :=
  inBase "0x" 16 isHex <|> inBase "0o" 8 (fun c => '0' ≤ c && c ≤ '7') <|>
    inBase "0b" 2 (fun c => c = '0' || c = '1') <|> decimalInteger

/-- Whether the decimal `n · 10 ^ e`, rounded to the nearest 64-bit float, is infinite. -/
def overflows (n : Nat) (e : Int) : Bool :=
  let size : Int := (Nat.toDigits 10 n).length + e
  if n = 0 || size < 300 then false
  else if 400 < size then true
  else
    let bound := Nat.pow 2 1024 - Nat.pow 2 970
    if 0 ≤ e then bound ≤ n * Nat.pow 10 e.toNat else bound * Nat.pow 10 (-e).toNat ≤ n

private def fractionDigits : Scan (List Char) := do Scan.exact "."; decimals

private def exponentDigits : Scan (Bool × List Char) := do
  let _ ← Scan.char fun c => c = 'e' || c = 'E'
  let negative ← sign
  return (negative, ← decimals)

private def namedFloat : Scan Unit := do
  let _ ← sign
  Scan.exact "inf" <|> Scan.exact "nan"

private def decimalFloat : Scan Unit := do
  let negative ← sign
  let whole ← whole
  let fraction ← Scan.optional fractionDigits
  let exponent ← Scan.optional exponentDigits
  if fraction.isNone && exponent.isNone then failure
  let (down, power) := exponent.getD (false, [])
  let fraction := fraction.getD []
  let size : Int := valueIn 10 power
  if !negative && overflows (valueIn 10 (whole ++ fraction))
      ((if down then -size else size) - fraction.length) then failure

def float : Scan Unit := decimalFloat <|> namedFloat

private def field (width low high : Nat) : Scan Nat := do
  let n := valueIn 10 (← Scan.count width Char.isDigit)
  if low ≤ n && n ≤ high then return n else failure

private def daysIn (year month : Nat) : Nat :=
  if month = 2 then
    if year % 4 = 0 && (year % 100 ≠ 0 || year % 400 = 0) then 29 else 28
  else if month = 4 || month = 6 || month = 9 || month = 11 then 30
  else 31

private def date : Scan Unit := do
  let year ← field 4 0 9999
  Scan.exact "-"
  let month ← field 2 1 12
  Scan.exact "-"
  let _ ← field 2 1 (daysIn year month)

private def time : Scan Unit := do
  let _ ← field 2 0 23
  Scan.exact ":"
  let _ ← field 2 0 59
  Scan.exact ":"
  let _ ← field 2 0 60
  let _ ← Scan.optional (do
    Scan.exact "."
    let _ ← Scan.char Char.isDigit
    Scan.chars Char.isDigit)

private def zone : Scan Unit :=
  (do let _ ← Scan.char fun c => c = 'Z' || c = 'z') <|> (do
    let _ ← Scan.char fun c => c = '+' || c = '-'
    let _ ← field 2 0 23
    Scan.exact ":"
    let _ ← field 2 0 59)

/-- A date, a time, or both, then perhaps with a time zone. -/
def moment : Scan Unit :=
  (do
    date
    let _ ← Scan.optional (do
      let _ ← Scan.char fun c => c = 'T' || c = 't' || c = ' '
      time
      let _ ← Scan.optional zone)) <|> time

end AuthSchema.Toml
