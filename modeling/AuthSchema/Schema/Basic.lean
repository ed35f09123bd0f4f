import AuthSchema.Subject.Map

/-!
Resolved authorization schemas: resource types with their relations and permissions, the subjects
that each member allows, and caveats.
-/
namespace AuthSchema

/-- A member of a resource type, by the two names that a schema gives it. -/
structure MemberId where
  type : String
  member : String
deriving DecidableEq, Repr, Inhabited

/-- The written form `type#member`. -/
def MemberId.render (m : MemberId) : String := m.type ++ "#" ++ m.member

/-- A reference from a member to the subjects it is made of. -/
structure Edge where
  type : String
  subject : SubjectRelation
  caveat : Option String := none
deriving DecidableEq, Repr, Inhabited

namespace Edge

def through (type relation : String) : Edge := ⟨type, .userset relation, none⟩

/-- The written form `type#relation`, with the caveat that guards it. -/
def render (e : Edge) : String :=
  e.type ++ "#" ++ e.subject.name ++
    match e.caveat with
    | none => ""
    | some caveat => " with " ++ caveat

/-- The member that an edge refers to, if it goes through one. -/
def target? (e : Edge) : Option MemberId := e.subject.relation?.map (⟨e.type, ·⟩)

end Edge

inductive Kind where
  | relation
  | permission
  | unknown
deriving DecidableEq, Repr, Inhabited

def Kind.name : Kind → String
  | .relation => "relation"
  | .permission => "permission"
  | .unknown => "unknown"

structure Member where
  name : String
  /-- The name that generated code uses. -/
  publicName : String
  kind : Kind
  /-- The subjects it allows; filled in by resolution. -/
  subjects : SubjectMap := .empty
  /-- Subjects declared in its comments. -/
  override : Option SubjectMap := none
  edges : List Edge := []
deriving DecidableEq, Repr, Inhabited

/-- The declared subjects, where there are any; they take the place of the edges. -/
def Member.activeOverride (m : Member) : Option SubjectMap :=
  m.override.filter fun subjects => !subjects.isEmpty

/-- The subject type that the accessors of a resource are generated for. -/
inductive Narrowing where
  | generic
  | concrete (type : String)
deriving DecidableEq, Repr, Inhabited

namespace Narrowing

def typeName : Narrowing → String
  | .generic => "resource"
  | .concrete type => type ++ "_resource"

def concrete? : Narrowing → Option String
  | .generic => none
  | .concrete type => some type

end Narrowing

structure Resource where
  name : String
  permissions : SortedMap Member := .empty
  relations : SortedMap Member := .empty
  permissionSubject : Narrowing := .generic
  relationSubject : Narrowing := .generic
deriving DecidableEq, Repr, Inhabited

/-- The member of a name; a relation comes before a permission. -/
def Resource.member? (r : Resource) (name : String) : Option Member :=
  (r.relations.get? name).or (r.permissions.get? name)

abbrev Table := SortedMap Resource

def Table.member? (t : Table) (m : MemberId) : Option Member :=
  (t.get? m.type).bind fun r => r.member? m.member

structure Caveat where
  name : String
  arguments : SortedMap String := .empty
deriving DecidableEq, Repr, Inhabited

structure Schema where
  resources : Table := .empty
  caveats : SortedMap Caveat := .empty
deriving DecidableEq, Repr, Inhabited

/-- Leaves out the members whose name begins with a text; the empty text hides nothing. What
remains is not changed. -/
def Schema.hide (s : Schema) (hidden : String) : Schema :=
  if hidden = "" then s
  else
    let shown := fun name => !hidden.toList.isPrefixOf name.toList
    { s with resources := s.resources.map fun _ r =>
        { r with permissions := r.permissions.filterKeys shown
                 relations := r.relations.filterKeys shown } }

end AuthSchema
