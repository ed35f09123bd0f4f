import AuthSchema.Compiled.Basic

/-!
Writing down compiled schemas step by step: a definition grows by members, a member by constraints
and comments.
-/
namespace AuthSchema.Compiled

namespace Expression

/-- The expression of an operand list as union, exclusion or intersection. -/
def ofUnion (operands : List Operand) : Expression := { union := some operands }

def ofExclusion (operands : List Operand) : Expression := { exclusion := some operands }

def ofIntersection (operands : List Operand) : Expression := { intersection := some operands }

def toOperand (e : Expression) : Operand := .nested e.union e.exclusion e.intersection

end Expression

namespace Declaration

def relation (name : String) : Declaration := { name, notes := [.kind .relation] }

def permission (name : String) (expression : Expression) : Declaration :=
  { name, notes := [.kind .permission], expression := some expression }

def unclassified (name : String) : Declaration := { name }

def allow (d : Declaration) (c : Constraint) : Declaration :=
  { d with constraints := some (d.constraints.getD [] ++ [c]) }

def remark (d : Declaration) (content : String) : Declaration :=
  { d with notes := d.notes ++ [.comment content] }

def define (d : Declaration) (expression : Expression) : Declaration :=
  { d with expression := some expression }

end Declaration

def Definition.declare (d : Definition) (member : Declaration) : Definition :=
  { d with members := d.members ++ [member] }

def CaveatDeclaration.declare (c : CaveatDeclaration) (name type : String) : CaveatDeclaration :=
  { c with parameters := c.parameters.insert name type }

namespace Schema

def define (s : Schema) (d : Definition) : Schema :=
  { s with definitions := s.definitions ++ [d] }

def guard (s : Schema) (c : CaveatDeclaration) : Schema :=
  { s with caveats := s.caveats ++ [c] }

end Schema

end AuthSchema.Compiled
