import AuthSchema.Compiled.Basic
import AuthSchema.Distinct
import AuthSchema.Schema.Basic

/-!
The edges of a declared member. Those of its expression come first, level by level: all operands of
the outermost operations before the operands of the operations nested in them. The direct
constraints of a relation follow. Each edge is listed once, at its first occurrence.
-/
namespace AuthSchema.Compiled

/-- The kind that the first note of a relation or permission kind gives. -/
def kindOf (notes : List Note) : Kind :=
  (notes.findSome? fun
    | .kind .relation => some Kind.relation
    | .kind .permission => some Kind.permission
    | _ => none).getD .unknown

/-- The types that the tupleset of an arrow can point at: those of its direct constraints, or the
type of its own name where there are none. -/
def Definition.tuplesetTypes (d : Definition) (tupleset : String) : List String :=
  match (d.member? tupleset).elim [] Declaration.constrainedTypes with
  | [] => [tupleset]
  | types => types

/-- The edges that an operand gives by itself. -/
def Operand.edges (d : Definition) : Operand → List Edge
  | .this => []
  | .computed relation => [.through d.name relation]
  | .arrow tupleset relation => (d.tuplesetTypes tupleset).map (Edge.through · relation)
  | .nested _ _ _ => []

def Operand.operations : Operand → List (List Operand)
  | .nested union exclusion intersection =>
    union.toList ++ exclusion.toList ++ intersection.toList
  | _ => []

def nestedOperations (operands : List Operand) : List (List Operand) :=
  operands.flatMap Operand.operations

private noncomputable def weight : List (List Operand) → Nat
  | [] => 0
  | operands :: rest => sizeOf operands + weight rest

private theorem weight_append (a b : List (List Operand)) :
    weight (a ++ b) = weight a + weight b := by
  induction a with
  | nil => simp [weight]
  | cons operands rest ih =>
    rw [List.cons_append, weight, weight, ih]
    omega

private theorem weight_toList (o : Option (List Operand)) : weight o.toList < sizeOf o := by
  cases o <;> simp [weight]

private theorem weight_operations (o : Operand) : weight o.operations < sizeOf o := by
  cases o with
  | nested u e i =>
    have := weight_toList u
    have := weight_toList e
    have := weight_toList i
    simp only [Operand.operations, weight_append, Operand.nested.sizeOf_spec]
    omega
  | this => simp [Operand.operations, weight]
  | computed =>
    simp only [Operand.operations, weight, Operand.computed.sizeOf_spec]
    omega
  | arrow =>
    simp only [Operand.operations, weight, Operand.arrow.sizeOf_spec]
    omega

private theorem weight_nestedOperations (operands : List Operand) :
    weight (nestedOperations operands) < sizeOf operands := by
  induction operands with
  | nil => simp [weight, nestedOperations]
  | cons o rest ih =>
    have := weight_operations o
    simp only [nestedOperations] at ih
    simp only [nestedOperations, List.flatMap_cons, weight_append, List.cons.sizeOf_spec]
    omega

/-- The edges of a row of operations and of all that is nested in them, outer levels first. -/
def leafEdges (d : Definition) : List (List Operand) → List Edge
  | [] => []
  | operands :: waiting =>
    operands.flatMap (Operand.edges d) ++
      leafEdges d (waiting ++ nestedOperations operands)
termination_by operations => weight operations
decreasing_by
  have := weight_nestedOperations operands
  simp only [weight_append]
  simp only [weight] at *
  omega

def Expression.edges (d : Definition) (e : Expression) : List Edge :=
  distinct (leafEdges d e.operations)

/-- The edge of a direct constraint; all objects of a type at once count as the objects. -/
def Constraint.edge (c : Constraint) : Edge :=
  ⟨c.type, if c.everyone then .itself else .ofName c.relation, c.caveat⟩

def Declaration.edges (d : Definition) (kind : Kind) (m : Declaration) : List Edge :=
  let walked := m.expression.elim [] (Expression.edges d)
  if kind = .relation then ((m.constraints.getD []).map Constraint.edge).foldl addNew walked
  else walked

end AuthSchema.Compiled
