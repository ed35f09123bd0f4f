import AuthSchema.Distinct
import AuthSchema.Resolution.Expansion

/-!
Resolution of a table. Relations are resolved in one step. Permissions start empty and are expanded
one after the other against the current state, over and over, until a whole pass changes nothing;
the result is the least solution. Nothing of the table's earlier subjects is used.
-/
namespace AuthSchema.Resolution

structure Policy where
  /-- How many references a path may follow from a permission; without a limit any number. -/
  depthLimit : Option Nat := none
  /-- Stop at the first diagnostic. -/
  stopAtFirst : Bool := false
deriving DecidableEq, Repr, Inhabited

/-- The subjects of a permission before the first pass: those that do not depend on its edges. -/
def seedSubjects (m : Member) : SubjectMap := if followsEdges m then .empty else fixedSubjects m

def seed (t : Table) : Table :=
  t.map fun _ r => { r with permissions := r.permissions.map fun _ m =>
    { m with subjects := seedSubjects m } }

/-- The permissions of a table whose subjects follow from their edges, with their names in it. -/
def openPermissions (t : Table) : List (MemberId × List Edge) :=
  t.entries.flatMap fun e =>
    (e.2.permissions.entries.filter fun p => followsEdges p.2).map
      fun p => (⟨e.1, p.1⟩, p.2.edges)

def subjectsAt (t : Table) (m : MemberId) : SubjectMap :=
  (((t.get? m.type).bind fun r => r.permissions.get? m.member).map Member.subjects).getD .empty

def setSubjects (t : Table) (m : MemberId) (subjects : SubjectMap) : Table :=
  t.modify m.type fun r =>
    { r with permissions := r.permissions.modify m.member fun p => { p with subjects } }

/-- A state of the search: the table so far, whether the pass has changed it, and the diagnostics
of the pass. -/
structure Progress where
  table : Table
  changed : Bool := false
  diagnostics : List Diagnostic := []

/-- Adds to a permission the subjects that its expansion comes upon. -/
def advance (limit : Option Nat) (p : Progress) (permission : MemberId × List Edge) : Progress :=
  let findings := expand p.table limit permission.1 permission.2
  let grown := (subjectsAt p.table permission.1).growAll (findings.filterMap Finding.subject?)
  { table := if grown.2 then setSubjects p.table permission.1 grown.1 else p.table
    changed := p.changed || grown.2
    diagnostics := p.diagnostics ++ findings.filterMap (Finding.diagnostic? permission.1) }

def pass (limit : Option Nat) (permissions : List (MemberId × List Edge)) (t : Table) : Progress :=
  permissions.foldl (advance limit) { table := t }

/-- Makes further passes until one changes nothing, as many as allowed at most. -/
def settle (limit : Option Nat) (permissions : List (MemberId × List Edge)) : Nat → Table → Table
  | 0, t => t
  | n + 1, t =>
    let p := pass limit permissions t
    if p.changed then settle limit permissions n p.table else p.table

def allMembers (t : Table) : List Member :=
  t.values.flatMap fun r => r.relations.values ++ r.permissions.values

/-- The subject types that can occur in a solution: those of edges and overrides, and the type that
stands for any. -/
def subjectUniverse (t : Table) : List String :=
  distinct (anyType :: (allMembers t).flatMap fun m =>
    m.edges.map Edge.type ++ m.override.elim [] SortedMap.keys)

/-- How many passes can change a table: each adds a subject type to some permission. -/
def passBound (t : Table) : Nat := (openPermissions t).length * (subjectUniverse t).length

/-- The permissions that have come out without subjects. Their trail lists the members that their
edges name. -/
def deadEnds (t : Table) : List Diagnostic :=
  t.entries.flatMap fun e =>
    (e.2.permissions.values.filter fun m => m.subjects.isEmpty).map fun m =>
      ⟨⟨e.1, m.name⟩, .noSubjects, ⟨e.1, m.name⟩ :: m.edges.filterMap Edge.target?⟩

/-- Adds diagnostics to those found so far; the first one ends resolution if the policy says so. -/
def Policy.collect (p : Policy) (found ds : List Diagnostic) :
    Except (List Diagnostic) (List Diagnostic) :=
  match ds with
  | [] => .ok found
  | d :: _ => if p.stopAtFirst then .error (found ++ [d]) else .ok (found ++ ds)

def demandNone (ds : List Diagnostic) : Except (List Diagnostic) Unit :=
  if ds.isEmpty then .ok () else .error ds

/-- Fills in the subjects of every member, or tells which members cannot be resolved. Permissions
are judged once relations are known, and dead ends only when every reference is good. -/
def resolve (policy : Policy) (t : Table) : Except (List Diagnostic) Table := do
  let found ← policy.collect [] (allRelationDiagnostics t)
  let permissions := openPermissions t
  let first := pass policy.depthLimit permissions (seed (resolveRelations t))
  let found ← policy.collect found first.diagnostics
  demandNone found
  let solved :=
    if first.changed then settle policy.depthLimit permissions (passBound t) first.table
    else first.table
  let found ← policy.collect [] (deadEnds solved)
  demandNone found
  return solved

end AuthSchema.Resolution
