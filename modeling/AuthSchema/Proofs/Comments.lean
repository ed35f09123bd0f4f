import AuthSchema.Directive.Instructions
import AuthSchema.Proofs.Collected

/-! What the comments of a member declare. Only the subjects that their lines name count for its
override, however the lines are spread over comments: without any there is none, and else it is the
map that collects them. -/
namespace AuthSchema

/-- The subject that a comment line declares. -/
def Directive.declared? (line : List Char) : Option (String × SubjectRelation) :=
  match ofLine line with
  | .ok (some (.subject type s)) => some (type, s)
  | _ => none

namespace Instructions

/-- The subjects that comments declare, line by line. -/
def subjects (comments : List String) : List (String × SubjectRelation) :=
  (comments.flatMap fun c => Text.lines c.toList).filterMap Directive.declared?

theorem subjects_append (comments comments' : List String) :
    subjects (comments ++ comments') = subjects comments ++ subjects comments' := by
  rw [subjects, List.flatMap_append, List.filterMap_append]
  rfl

private theorem override_followLine (i : Instructions) (line : List Char) :
    (i.followLine line).override = match Directive.declared? line with
      | none => i.override
      | some e => some ((i.override.getD .empty).grow e.1 e.2).1 := by
  rw [followLine, Directive.declared?]
  cases Directive.ofLine line with
  | error e => rfl
  | ok directive =>
    cases directive with
    | none => rfl
    | some d => cases d <;> rfl

/-- Lines that declare subjects grow the override by them in turn; others leave it as it is. -/
theorem override_foldl (lines : List (List Char)) (i : Instructions) :
    (lines.foldl followLine i).override = match lines.filterMap Directive.declared? with
      | [] => i.override
      | l => some ((i.override.getD .empty).growAll l).1 := by
  induction lines generalizing i with
  | nil => rfl
  | cons line rest ih =>
    rw [List.foldl_cons, ih, override_followLine]
    cases hd : Directive.declared? line with
    | none => rw [List.filterMap_cons_none hd]
    | some e =>
      rw [List.filterMap_cons_some hd]
      cases hrest : rest.filterMap Directive.declared? with
      | nil => exact congrArg some (SubjectMap.growAll_cons _ e []).symm
      | cons e' l => exact congrArg some (SubjectMap.growAll_cons _ e (e' :: l)).symm

theorem override_ofComments (comments : List String) : (ofComments comments).override =
    if subjects comments = [] then none else some (SubjectMap.collect (subjects comments)) := by
  rw [ofComments, override_foldl, subjects]
  cases (comments.flatMap fun c => Text.lines c.toList).filterMap Directive.declared? with
  | nil => rfl
  | cons e l => rfl

end Instructions

end AuthSchema
