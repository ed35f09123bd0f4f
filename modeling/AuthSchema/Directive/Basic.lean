import AuthSchema.Subject.Basic
import AuthSchema.Text.Quoted

/-!
Directives: instructions to the schema reader in the comments of a member.
-/
namespace AuthSchema

inductive Directive where
  /-- Adds an allowed subject, in place of those the edges would give. -/
  | subject (type : String) (subject : SubjectRelation)
  /-- Changes the public name of the member. -/
  | rename (name : String)
  /-- A directive of no known name. -/
  | unrecognized (tag : String) (value : Option String)
deriving DecidableEq, Repr

inductive DirectiveError where
  /-- There is no name. -/
  | missingTag (body : String)
  /-- The name is no identifier. -/
  | invalidTag (tag : String)
  /-- The directive needs a value. -/
  | missingValue (tag : String)
  | invalidSubject (value : String)
  | invalidRename (value : String)
deriving DecidableEq, Repr

namespace DirectiveError

/-- The text that an error is about. -/
def detail : DirectiveError → String
  | .missingTag body => body
  | .invalidTag tag => tag
  | .missingValue tag => tag
  | .invalidSubject value => value
  | .invalidRename value => value

def message : DirectiveError → String
  | .missingTag body => "metatag has no tag name: " ++ Text.quoted body.toList
  | .invalidTag tag => "invalid metatag name: " ++ Text.quoted tag.toList
  | .missingValue tag => "metatag '" ++ tag ++ "' requires a value"
  | .invalidSubject value =>
    "invalid subject type " ++ Text.quoted value.toList ++ " (expected <type>[#<relation>])"
  | .invalidRename value => "invalid rename target " ++ Text.quoted value.toList

end DirectiveError

end AuthSchema
