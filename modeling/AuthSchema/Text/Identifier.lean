import AuthSchema.Text.Split

/-!
Names in schemas: ASCII identifiers, and type names, which are identifiers joined by slashes.
-/
namespace AuthSchema.Text

def isIdentifierStart (c : Char) : Bool := c.isAlpha || c = '_'

def isIdentifierChar (c : Char) : Bool := c.isAlphanum || c = '_'

/-- Whether a text is an identifier: ASCII letters, digits and underscores, no digit first. -/
def isIdentifier : List Char → Bool
  | [] => false
  | c :: rest => isIdentifierStart c && rest.all isIdentifierChar

/-- Whether a text is one or more identifiers joined by slashes. -/
def isTypePath (s : List Char) : Bool := (split '/' s).all isIdentifier

end AuthSchema.Text
