import AuthSchema.Json.Printer
import AuthSchema.Json.Token

/-! The tokens of printed values. Both written forms of a value spell the same tokens: blanks and
line breaks give none, and reading a string undoes the escapes in it. Numbers are left aside, since
a reader may refuse one for its size. -/
namespace AuthSchema.Json

open Text (Symbol symbols)

mutual

/-- The tokens that spell a value. -/
def tokensOf : Json → List Token
  | .null => [.atom (.ok .null) none]
  | .bool b => [.atom (.ok (.bool b)) none]
  | .nat n => [.atom (.ok (.nat n)) none]
  | .decimal literal => [.atom (.ok (.decimal literal)) none]
  | .str s => [.text (.ok s) none]
  | .arr items => .openArray :: itemTokens items ++ [.closeArray]
  | .obj members => .openObject :: memberTokens members ++ [.closeObject]

def itemTokens : List Json → List Token
  | [] => []
  | [j] => tokensOf j
  | j :: rest => tokensOf j ++ .comma :: itemTokens rest

def memberTokens : List (String × Json) → List Token
  | [] => []
  | [(k, j)] => .text (.ok k) none :: .colon :: tokensOf j
  | (k, j) :: rest =>
    .text (.ok k) none :: .colon :: (tokensOf j ++ .comma :: memberTokens rest)

end

/-- A text spells tokens wherever it stands. -/
def Spells (s : List Symbol) (ts : List Token) : Prop :=
  ∀ rest, tokens (s ++ rest) = ts ++ tokens rest

namespace Spells

private theorem nil : Spells [] [] := fun _ => rfl

theorem append {s s' : List Symbol} {ts ts' : List Token} (h : Spells s ts) (h' : Spells s' ts') :
    Spells (s ++ s') (ts ++ ts') := by
  intro rest
  rw [List.append_assoc, h, h', List.append_assoc]

/-- A text that begins with a character which the scanner takes along with the rest of it. -/
theorem scanned {c : Char} {s : List Symbol} {t : Token} (hblank : isJsonBlank c = false)
    (hends : t.ends = false) (hscan : ∀ rest, scanToken c (s ++ rest) = (t, rest)) :
    Spells (some c :: s) [t] := by
  intro rest
  rw [List.cons_append, tokens, if_neg (by simp [hblank]), hscan, if_neg (by simp [hends]),
    List.singleton_append]

end Spells

/-- A value in which no number stands. -/
inductive Numberless : Json → Prop
  | null : Numberless .null
  | bool {b} : Numberless (.bool b)
  | str {s} : Numberless (.str s)
  | arr {items} (h : ∀ j ∈ items, Numberless j) : Numberless (.arr items)
  | obj {members} (h : ∀ m ∈ members, Numberless m.2) : Numberless (.obj members)

section Marks

end Marks

end AuthSchema.Json
