import AuthSchema.Assembly
import AuthSchema.Text.Blank

/-!
Settings: how schemas are resolved and how the result is written.
-/
namespace AuthSchema

structure OutputSettings where
  /-- Members whose name begins with this text are left out; the empty text leaves out none. -/
  hidden : String := ""
  pretty : Bool := true
deriving DecidableEq, Repr, Inhabited

structure Settings where
  policy : Resolution.Policy := {}
  output : OutputSettings := {}
deriving DecidableEq, Repr, Inhabited

inductive SettingsFault where
  /-- No reference may be followed at all. -/
  | noDepth
  /-- The text of hidden names has a blank in it. -/
  | blankHidden
deriving DecidableEq, Repr

def SettingsFault.message : SettingsFault → String
  | .noDepth => "resolver.max_indirection_depth must be at least 1"
  | .blankHidden => "output.ignore_prefix must not contain whitespace"

namespace Settings

/-- The first fault of settings. -/
def fault? (s : Settings) : Option SettingsFault :=
  if s.policy.depthLimit = some 0 then some .noDepth
  else if s.output.hidden.toList.any Text.isBlank then some .blankHidden
  else none

def plan (s : Settings) : Plan := ⟨s.policy, s.output.hidden⟩

end Settings

end AuthSchema
