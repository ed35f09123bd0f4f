import AuthSchema.Distinct
import AuthSchema.SortedMap.Basic

/-!
Compiled schemas: definitions with their members in declaration order, each with notes, direct type
constraints and a set expression, and caveats.
-/
namespace AuthSchema.Compiled

inductive KindMark where
  | relation
  | permission
  | unspecified
deriving DecidableEq, Repr, Inhabited

inductive Note where
  | kind (mark : KindMark)
  | comment (content : String)
  | other
deriving DecidableEq, Repr, Inhabited

/-- A subject type that may be assigned directly. -/
structure Constraint where
  type : String
  relation : Option String := none
  /-- All objects of the type at once. -/
  everyone : Bool := false
  caveat : Option String := none
deriving DecidableEq, Repr, Inhabited

/-- An operand of a set operation. A nested expression has at most one union, one exclusion and
one intersection, each a list of operands; an absent operation is not an empty one. -/
inductive Operand where
  /-- What is assigned to the member itself. -/
  | this
  /-- Another member of the same definition. -/
  | computed (relation : String)
  /-- A member of what the relation `tupleset` points at. -/
  | arrow (tupleset relation : String)
  | nested (union exclusion intersection : Option (List Operand))
deriving Repr, Inhabited

structure Expression where
  union : Option (List Operand) := none
  exclusion : Option (List Operand) := none
  intersection : Option (List Operand) := none
deriving Repr, Inhabited

/-- The operations that are there, in the order in which they are walked. -/
def Expression.operations (e : Expression) : List (List Operand) :=
  e.union.toList ++ e.exclusion.toList ++ e.intersection.toList

structure Declaration where
  name : String
  notes : List Note := []
  /-- The direct constraints; absent is not the same as none. -/
  constraints : Option (List Constraint) := none
  expression : Option Expression := none
deriving Repr, Inhabited

namespace Declaration

def comments (d : Declaration) : List String :=
  d.notes.filterMap fun
    | .comment content => some content
    | _ => none

/-- The types of the direct constraints, each once, in the order of their first occurrence. -/
def constrainedTypes (d : Declaration) : List String :=
  distinct ((d.constraints.getD []).map Constraint.type)

end Declaration

structure Definition where
  name : String
  members : List Declaration := []
deriving Repr, Inhabited

/-- The first member of a name. -/
def Definition.member? (d : Definition) (name : String) : Option Declaration :=
  d.members.find? fun m => m.name = name

/-- A caveat as declared: the types of its parameters by name. -/
structure CaveatDeclaration where
  name : String
  parameters : SortedMap String := .empty
deriving DecidableEq, Repr, Inhabited

structure Schema where
  definitions : List Definition := []
  caveats : List CaveatDeclaration := []
deriving Repr, Inhabited

/-- The first definition of a name. -/
def Schema.definition? (s : Schema) (name : String) : Option Definition :=
  s.definitions.find? fun d => d.name = name

end AuthSchema.Compiled
