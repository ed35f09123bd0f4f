/-!
Bytes as text. A byte that begins no character stands for itself as a stray mark, so the rest of a
damaged text can still be read.
-/
namespace AuthSchema.Text

/-- A place of a text: a character, or a stray byte. -/
abbrev Symbol := Option Char

/-- A text without stray bytes. -/
def symbols (s : String) : List Symbol := s.toList.map some

def Symbol.width : Symbol → Nat
  | some c => c.utf8Size
  | none => 1

def isTail (b : UInt8) : Bool := 0x80 ≤ b && b ≤ 0xBF

def tailBits (b : UInt8) : Nat := b.toNat % 64

/-- The character that begins with a byte above ASCII, and how many further bytes it takes. -/
def character? (a : UInt8) : List UInt8 → Option (Char × Nat)
  | b :: more =>
    if 0xC2 ≤ a && a ≤ 0xDF then
      if isTail b then some (Char.ofNat ((a.toNat - 0xC0) * 64 + tailBits b), 1) else none
    else match more with
    | c :: more =>
      if 0xE0 ≤ a && a ≤ 0xEF then
        if isTail b && isTail c && (a != 0xE0 || 0xA0 ≤ b) && (a != 0xED || b ≤ 0x9F) then
          some (Char.ofNat ((a.toNat - 0xE0) * 4096 + tailBits b * 64 + tailBits c), 2)
        else none
      else match more with
      | d :: _ =>
        if 0xF0 ≤ a && a ≤ 0xF4 && isTail b && isTail c && isTail d
            && (a != 0xF0 || 0x90 ≤ b) && (a != 0xF4 || b ≤ 0x8F) then
          some (Char.ofNat
            ((a.toNat - 0xF0) * 262144 + tailBits b * 4096 + tailBits c * 64 + tailBits d), 3)
        else none
      | [] => none
    | [] => none
  | [] => none

/-- Reads bytes as UTF-8; what is not UTF-8 becomes stray bytes. -/
def decode : List UInt8 → List Symbol
  | [] => []
  | a :: rest =>
    if a < 0x80 then some (Char.ofNat a.toNat) :: decode rest
    else match character? a rest with
      | some (c, n) => some c :: decode (rest.drop n)
      | none => none :: decode rest
termination_by bytes => bytes.length
decreasing_by all_goals (simp only [List.length_drop, List.length_cons]; omega)

end AuthSchema.Text
