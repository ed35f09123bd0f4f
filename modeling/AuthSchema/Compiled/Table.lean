import AuthSchema.Compiled.Edges
import AuthSchema.Directive.Instructions

/-!
From a compiled schema to the table of its resource types, with the subjects of every member still
to be resolved. Names have to be distinct, and every member needs a noted kind.
-/
namespace AuthSchema

inductive DeclarationError where
  /-- The notes of a member name no kind. -/
  | unclassified (member : MemberId)
  | duplicateDefinition (name : String)
  | duplicateMember (member : MemberId)
deriving DecidableEq, Repr

def DeclarationError.message : DeclarationError → String
  | .unclassified m =>
    "cannot classify member '" ++ m.render ++ "' as relation or permission"
  | .duplicateDefinition name => "duplicate definition: " ++ name
  | .duplicateMember m => "duplicate member '" ++ m.member ++ "' on definition '" ++ m.type ++ "'"

/-- The unresolved member of a declaration. A declared override takes the place of the edges. -/
def Member.ofDeclaration (d : Compiled.Definition) (m : Compiled.Declaration) :
    Except DeclarationError Member :=
  match Compiled.kindOf m.notes with
  | .unknown => .error (.unclassified ⟨d.name, m.name⟩)
  | kind =>
    let instructions := Instructions.ofComments m.comments
    let member : Member :=
      { name := m.name, publicName := instructions.rename.getD m.name, kind
        override := instructions.override }
    .ok (if member.activeOverride.isSome then member else { member with edges := m.edges d kind })

namespace Resource

def file (r : Resource) (m : Member) : Resource :=
  if m.kind = .permission then { r with permissions := r.permissions.insert m.name m }
  else { r with relations := r.relations.insert m.name m }

def declare (d : Compiled.Definition) (r : Resource) (m : Compiled.Declaration) :
    Except DeclarationError Resource := do
  let member ← Member.ofDeclaration d m
  if (r.member? member.name).isSome then throw (.duplicateMember ⟨d.name, member.name⟩)
  return r.file member

def ofDefinition (d : Compiled.Definition) : Except DeclarationError Resource :=
  d.members.foldlM (declare d) { name := d.name }

end Resource

namespace Table

def define (t : Table) (d : Compiled.Definition) : Except DeclarationError Table := do
  let r ← Resource.ofDefinition d
  if t.contains d.name then throw (.duplicateDefinition d.name)
  return t.insert d.name r

def ofCompiled (s : Compiled.Schema) : Except DeclarationError Table :=
  s.definitions.foldlM define .empty

end Table

end AuthSchema
