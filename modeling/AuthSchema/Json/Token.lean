import AuthSchema.Json.Numeral

/-!
The tokens of a JSON text. A string, number or name is read in two ways at once: in full, with its
value or the first problem met, and skimmed, which minds only where it ends. Reading stops after a
token that even skimming cannot get past.
-/
namespace AuthSchema.Json

open Text (Symbol)

inductive Problem where
  /-- The text ends too early. -/
  | truncated
  /-- The text is not JSON. -/
  | malformed
  /-- The text is JSON that does not fit. -/
  | mismatched
deriving DecidableEq, Repr

inductive Token where
  | openObject
  | closeObject
  | openArray
  | closeArray
  | comma
  | colon
  /-- A string: its value when read in full, and the problem met when only skimmed. -/
  | text (full : Except Problem String) (skimmed : Option Problem)
  /-- A number, truth value or null, read likewise. -/
  | atom (full : Except Problem Json) (skimmed : Option Problem)
  /-- Something that begins no token. -/
  | stray

structure Body where
  /-- The characters, last first. -/
  chars : List Char := []
  /-- No stray byte so far. -/
  clean : Bool := true
  /-- Every surrogate so far is one of a pair or awaits its second half. -/
  paired : Bool := true
  /-- The first half of a surrogate pair that has just been read. -/
  half : Option Nat := none

namespace Body

/-- A first half that is not followed by a second one stays unpaired. -/
def settle (b : Body) : Body :=
  if b.half.isSome then { b with half := none, paired := false } else b

def push (b : Body) (c : Char) : Body :=
  let b := b.settle
  { b with chars := c :: b.chars }

/-- Takes a sixteen-bit unit that was written as an escape. -/
def pushUnit (b : Body) (n : Nat) : Body :=
  if 0xDC00 ≤ n && n ≤ 0xDFFF then
    match b.half with
    | some h =>
      { b with half := none
               chars := Char.ofNat (0x10000 + (h - 0xD800) * 0x400 + (n - 0xDC00)) :: b.chars }
    | none => { b with paired := false }
  else if 0xD800 ≤ n && n ≤ 0xDBFF then
    { b.settle with half := some n }
  else b.push (Char.ofNat n)

/-- The token of a string that cannot be read to its end. -/
def broken (b : Body) (p : Problem) : Token :=
  .text (.error (if b.paired then p else .malformed)) (some p)

def close (b : Body) : Token :=
  let b := b.settle
  if b.paired && b.clean then .text (.ok (String.ofList b.chars.reverse)) none
  else .text (.error .malformed) none

end Body

def hexDigit? (s : Symbol) : Option Nat :=
  s.bind fun c =>
    if c.isDigit then some (c.toNat - 48)
    else if 'a' ≤ c && c ≤ 'f' then some (c.toNat - 87)
    else if 'A' ≤ c && c ≤ 'F' then some (c.toNat - 55)
    else none

def hexUnit? (a b c d : Symbol) : Option Nat := do
  return (((← hexDigit? a) * 16 + (← hexDigit? b)) * 16 + (← hexDigit? c)) * 16 + (← hexDigit? d)

def escaped? : Char → Option Char
  | '"' => some '"'
  | '\\' => some '\\'
  | '/' => some '/'
  | 'b' => some '\x08'
  | 'f' => some '\x0c'
  | 'n' => some '\n'
  | 'r' => some '\r'
  | 't' => some '\t'
  | _ => none

def scanText (b : Body) : List Symbol → Token × List Symbol
  | [] => (b.broken .truncated, [])
  | none :: rest => scanText { b.settle with clean := false } rest
  | some '\\' :: rest =>
    match rest with
    | [] => (b.broken .truncated, [])
    | some 'u' :: w :: x :: y :: z :: rest =>
      match hexUnit? w x y z with
      | some n => scanText (b.pushUnit n) rest
      | none => (b.broken .malformed, rest)
    | some 'u' :: few =>
      let size := few.foldl (fun n symbol => n + Text.Symbol.width symbol) 0
      (b.broken (if size < 4 then .truncated else .malformed), [])
    | some e :: rest =>
      match escaped? e with
      | some c => scanText (b.push c) rest
      | none => (b.settle.broken .malformed, rest)
    | none :: rest => (b.broken .malformed, rest)
  | some c :: rest =>
    if c = '"' then (b.close, rest)
    else if c.toNat < 0x20 then (b.broken .malformed, rest)
    else scanText (b.push c) rest

def scanName (value : Json) : List Char → List Symbol → Token × List Symbol
  | [], rest => (.atom (.ok value) none, rest)
  | _ :: _, [] => (.atom (.error .truncated) (some .truncated), [])
  | c :: cs, s :: rest =>
    if s = some c then scanName value cs rest
    else (.atom (.error .malformed) (some .malformed), rest)

private def scanNumber (s : List Symbol) : Token × List Symbol :=
  match Numeral.scan s with
  | .error .atEnd => (.atom (.error .truncated) (some .malformed), [])
  | .error .inside => (.atom (.error .malformed) (some .malformed), [])
  | .ok (n, rest) => (.atom (if n.fits then .ok n.value else .error .malformed) none, rest)

private theorem scanText_length (b : Body) (s : List Symbol) :
    (scanText b s).2.length ≤ s.length := by
  fun_induction scanText b s <;> simp_all +arith <;> omega

private theorem scanName_length (value : Json) (letters : List Char) (s : List Symbol) :
    (scanName value letters s).2.length ≤ s.length := by
  fun_induction scanName value letters s <;> simp_all +arith; omega

private theorem scanNumber_length (c : Char) (s : List Symbol) :
    (scanNumber (some c :: s)).2.length ≤ s.length := by
  unfold scanNumber
  split
  · simp
  · simp
  · next h => simpa using Nat.le_of_lt_succ (Numeral.scan_length h)

def isJsonBlank (c : Char) : Bool := c = ' ' || c = '\t' || c = '\n' || c = '\r'

def scanToken (c : Char) (rest : List Symbol) : Token × List Symbol :=
  match c with
  | '{' => (.openObject, rest)
  | '}' => (.closeObject, rest)
  | '[' => (.openArray, rest)
  | ']' => (.closeArray, rest)
  | ',' => (.comma, rest)
  | ':' => (.colon, rest)
  | '"' => scanText {} rest
  | 'n' => scanName .null ['u', 'l', 'l'] rest
  | 't' => scanName (.bool true) ['r', 'u', 'e'] rest
  | 'f' => scanName (.bool false) ['a', 'l', 's', 'e'] rest
  | _ => if c = '-' || c.isDigit then scanNumber (some c :: rest) else (.stray, rest)

/-- Whether nothing can be read after a token. -/
def Token.ends : Token → Bool
  | .text _ p => p.isSome
  | .atom _ p => p.isSome
  | .stray => true
  | _ => false

private theorem scanToken_length (c : Char) (s : List Symbol) :
    (scanToken c s).2.length ≤ s.length := by
  unfold scanToken
  split
  all_goals try exact Nat.le_refl _
  · exact scanText_length _ _
  · exact scanName_length _ _ _
  · exact scanName_length _ _ _
  · exact scanName_length _ _ _
  · split
    · exact scanNumber_length c s
    · exact Nat.le_refl _

def tokens : List Symbol → List Token
  | [] => []
  | none :: _ => [.stray]
  | some c :: rest =>
    if isJsonBlank c then tokens rest
    else
      let scanned := scanToken c rest
      if scanned.1.ends then [scanned.1] else scanned.1 :: tokens scanned.2
termination_by s => s.length
decreasing_by
  · simp
  · exact Nat.lt_succ_of_le (scanToken_length c rest)

end AuthSchema.Json
