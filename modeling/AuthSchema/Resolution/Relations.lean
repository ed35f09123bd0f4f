import AuthSchema.Resolution.Diagnostic

/-!
The subjects of relations. A relation looks one step ahead: each edge gives its type and subject,
once the type and the member that it goes through exist.
-/
namespace AuthSchema.Resolution

def edgeFault? (t : Table) (e : Edge) : Option Fault :=
  match t.get? e.type with
  | none => some (.unknownType e.type)
  | some r =>
    match e.subject with
    | .itself => none
    | .userset relation =>
      if (r.member? relation).isSome then none else some (.unknownMember ⟨e.type, relation⟩)

/-- Whether the subjects of a member follow from its edges. -/
def followsEdges (m : Member) : Bool := m.activeOverride.isNone && !m.edges.isEmpty

/-- The subjects of a member whose edges do not matter: the override, or any subject. -/
def fixedSubjects (m : Member) : SubjectMap := m.activeOverride.getD SubjectMap.wildcard

/-- The subjects of a relation; edges with a fault give none. -/
def relationSubjects (t : Table) (m : Member) : SubjectMap :=
  if followsEdges m then
    SubjectMap.collect ((m.edges.filter fun e => (edgeFault? t e).isNone).map
      fun e => (e.type, e.subject))
  else fixedSubjects m

def relationDiagnostics (t : Table) (type : String) (m : Member) : List Diagnostic :=
  if followsEdges m then
    (m.edges.filterMap (edgeFault? t)).map
      fun fault => ⟨⟨type, m.name⟩, fault, [⟨type, m.name⟩]⟩
  else []

def resolveRelations (t : Table) : Table :=
  t.map fun _ r => { r with relations := r.relations.map fun _ m =>
    { m with subjects := relationSubjects t m } }

/-- The diagnostics of all relations, in the order of the table. -/
def allRelationDiagnostics (t : Table) : List Diagnostic :=
  t.entries.flatMap fun (type, r) => r.relations.values.flatMap (relationDiagnostics t type)

end AuthSchema.Resolution
