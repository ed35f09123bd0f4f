import AuthSchema.Directive.Parser
import AuthSchema.Subject.Map

/-!
What the comments of a member instruct, all lines taken together. Lines that are no directive, or
a bad one, say nothing.
-/
namespace AuthSchema

structure Instructions where
  /-- The declared subjects, once there is a good subject directive. -/
  override : Option SubjectMap := none
  rename : Option String := none
deriving DecidableEq, Repr

namespace Instructions

/-- Follows one more directive: subjects add up, the last name counts. -/
def follow (i : Instructions) : Directive → Instructions
  | .subject type subject =>
    { i with override := some ((SubjectMap.grow (i.override.getD .empty) type subject).1) }
  | .rename name => { i with rename := some name }
  | .unrecognized _ _ => i

def followLine (i : Instructions) (line : List Char) : Instructions :=
  match Directive.ofLine line with
  | .ok (some d) => i.follow d
  | _ => i

/-- The instructions of a list of comments, each of one or more lines. -/
def ofComments (comments : List String) : Instructions :=
  (comments.flatMap fun c => Text.lines c.toList).foldl followLine {}

end Instructions

end AuthSchema
