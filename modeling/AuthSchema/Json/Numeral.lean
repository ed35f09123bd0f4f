import AuthSchema.Json.Basic
import AuthSchema.Text.Utf8

/-!
Written numbers: their grammar, and the range that a reader of numbers accepts. The range is that
of 64-bit binary floats, where a literal is measured by its leading digits, scaled by a power of
ten with one rounding for the digits, one for the power and one for the product.
-/
namespace AuthSchema.Json

open Text (Symbol)

structure Numeral where
  negative : Bool
  whole : List Char
  fraction : List Char
  /-- The sign and the digits after an exponent mark. -/
  exponent : Option (Bool × List Char)
  literal : String

def digitsValue (ds : List Char) : Nat := ds.foldl (fun n c => n * 10 + (c.toNat - 48)) 0

/-- The nearest natural with at most 53 significant bits; a tie goes to the even neighbour. -/
def roundBinary (n : Nat) : Nat :=
  let width := Nat.log2 n + 1
  if width ≤ 53 then n
  else
    let unit := Nat.pow 2 (width - 53)
    let low := n / unit * unit
    let rest := n % unit
    if 2 * rest < unit then low
    else if unit < 2 * rest then low + unit
    else if n / unit % 2 = 0 then low else low + unit

/-- The digits that count: as many leading ones as stay below two to the 64th, and how many of
the row were left over. -/
private def leading (start : Nat) : List Char → Nat × List Char
  | [] => (start, [])
  | c :: rest =>
    let next := start * 10 + (c.toNat - 48)
    if next < Nat.pow 2 64 then leading next rest else (start, c :: rest)

/-- Whether scaling a significand by a power of ten stays below the largest float. -/
private def scaleFits (significand : Nat) (exponent : Int) : Bool :=
  if significand = 0 || exponent ≤ 0 then true
  else if 308 < exponent then false
  else
    let bound := Nat.pow 2 1024 - Nat.pow 2 970
    roundBinary significand * roundBinary (Nat.pow 10 exponent.toNat) < bound

/-- Whether the number is a finite 64-bit float. -/
def Numeral.fits (n : Numeral) : Bool :=
  let (whole, wholeRest) := leading 0 n.whole
  let (significand, fractionRest) := leading whole n.fraction
  let shift : Int := wholeRest.length - (n.fraction.length - fractionRest.length : Nat)
  match n.exponent with
  | none => scaleFits significand shift
  | some (negative, digits) =>
    let size := digitsValue digits
    if Nat.pow 2 31 ≤ size then significand = 0 || negative
    else scaleFits significand (if negative then shift - size else shift + size)

def Numeral.value (n : Numeral) : Json :=
  if !n.negative && n.fraction.isEmpty && n.exponent.isNone then .nat (digitsValue n.whole)
  else .decimal n.literal

/-- Where a written number stops making sense. -/
inductive NumeralFault where
  | atEnd
  | inside
deriving DecidableEq, Repr

def spanDigits : List Symbol → List Char × List Symbol
  | some c :: rest =>
    if c.isDigit then
      let (ds, after) := spanDigits rest
      (c :: ds, after)
    else ([], some c :: rest)
  | rest => ([], rest)

theorem spanDigits_length (s : List Symbol) :
    (spanDigits s).1.length + (spanDigits s).2.length = s.length := by
  fun_induction spanDigits s <;> simp_all +arith

private def faultAt : List Symbol → NumeralFault
  | [] => .atEnd
  | _ => .inside

private def someDigits (s : List Symbol) : Except NumeralFault (List Char × List Symbol) :=
  match spanDigits s with
  | ([], rest) => .error (faultAt rest)
  | found => .ok found

private theorem someDigits_length {s rest : List Symbol} {ds : List Char}
    (h : someDigits s = .ok (ds, rest)) : rest.length < s.length := by
  have hs := spanDigits_length s
  unfold someDigits at h
  split at h
  · simp at h
  · next found hne =>
    simp only [Except.ok.injEq] at h
    rw [h] at hs
    cases ds with
    | nil => exact absurd h (hne rest)
    | cons d ds => simp only [List.length_cons] at hs; omega

private def scanWhole (s : List Symbol) : Except NumeralFault (List Char × List Symbol) :=
  match s with
  | some '0' :: rest =>
    match spanDigits rest with
    | ([], _) => .ok (['0'], rest)
    | _ => .error .inside
  | _ => someDigits s

private def scanFraction (s : List Symbol) : Except NumeralFault (List Char × List Symbol) :=
  match s with
  | some '.' :: rest => someDigits rest
  | _ => .ok ([], s)

/-- The sign at the front of a text, where there is one; a plus sign only where it is allowed. -/
private def spanSign (plus : Bool) : List Symbol → List Char × List Symbol
  | some '-' :: rest => (['-'], rest)
  | some '+' :: rest => if plus then (['+'], rest) else ([], some '+' :: rest)
  | rest => ([], rest)

private def scanExponent (s : List Symbol) :
    Except NumeralFault (Option (Char × List Char × List Char) × List Symbol) :=
  match s with
  | some e :: rest =>
    if e = 'e' || e = 'E' then
      match someDigits (spanSign true rest).2 with
      | .ok (digits, after) => .ok (some (e, (spanSign true rest).1, digits), after)
      | .error fault => .error fault
    else .ok (none, s)
  | _ => .ok (none, s)

private theorem spanSign_length (plus : Bool) (s : List Symbol) :
    (spanSign plus s).2.length ≤ s.length := by
  unfold spanSign
  split
  · simp
  · split <;> simp
  · simp

private theorem scanWhole_length {s rest : List Symbol} {ds : List Char}
    (h : scanWhole s = .ok (ds, rest)) : rest.length < s.length := by
  unfold scanWhole at h
  split at h
  · split at h
    · simp_all
    · simp at h
  · exact someDigits_length h

private theorem scanFraction_length {s rest : List Symbol} {ds : List Char}
    (h : scanFraction s = .ok (ds, rest)) : rest.length ≤ s.length := by
  unfold scanFraction at h
  split at h
  · have := someDigits_length h; simp only [List.length_cons]; omega
  · simp_all

private theorem scanExponent_length {s rest : List Symbol}
    {e : Option (Char × List Char × List Char)}
    (h : scanExponent s = .ok (e, rest)) : rest.length ≤ s.length := by
  unfold scanExponent at h
  split at h
  · next c tail =>
    split at h
    · split at h
      · next found =>
        have := someDigits_length found
        have := spanSign_length true tail
        simp only [Except.ok.injEq, Prod.mk.injEq] at h
        simp only [← h.2, List.length_cons]
        omega
      · simp at h
    · simp_all
  · simp_all

def Numeral.scan (s : List Symbol) : Except NumeralFault (Numeral × List Symbol) := do
  let (whole, afterWhole) ← scanWhole (spanSign false s).2
  let (fraction, afterFraction) ← scanFraction afterWhole
  let (exponent, rest) ← scanExponent afterFraction
  let sign := (spanSign false s).1
  let point := if fraction.isEmpty then [] else '.' :: fraction
  let power := match exponent with
    | none => []
    | some (mark, sign, digits) => mark :: sign ++ digits
  return (⟨!sign.isEmpty, whole, fraction, exponent.map fun e => (e.2.1 = ['-'], e.2.2),
    String.ofList (sign ++ whole ++ point ++ power)⟩, rest)

theorem Numeral.scan_length {s rest : List Symbol} {n : Numeral}
    (h : Numeral.scan s = .ok (n, rest)) : rest.length < s.length := by
  have hsign := spanSign_length false s
  simp only [Numeral.scan, bind, Except.bind, pure, Except.pure] at h
  split at h
  · simp at h
  · next _ whole =>
    split at h
    · simp at h
    · next _ fraction =>
      split at h
      · simp at h
      · next _ exponent =>
        have hwhole := scanWhole_length whole
        have hfraction := scanFraction_length fraction
        have hexponent := scanExponent_length exponent
        simp only [Except.ok.injEq, Prod.mk.injEq] at h
        simp only [← h.2]
        omega

end AuthSchema.Json
