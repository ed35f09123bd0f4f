import AuthSchema.Schema.Basic

/-!
Narrowing: a resource type whose permissions, or relations, only ever allow one concrete subject
type has its accessors generated for that type.
-/
namespace AuthSchema

def subjectTypes (members : SortedMap Member) : List String :=
  (SortedMap.ofList ((members.values.flatMap fun m => m.subjects.keys).map (·, ()))).keys

/-- The subject type to generate for: the only one there is, unless it stands for any type. -/
def Narrowing.ofTypes : List String → Narrowing
  | [type] => if type = anyType then .generic else .concrete type
  | _ => .generic

/-- Narrows permissions and relations, each on their own. -/
def Resource.narrow (r : Resource) : Resource :=
  { r with permissionSubject := .ofTypes (subjectTypes r.permissions)
           relationSubject := .ofTypes (subjectTypes r.relations) }

def Table.narrow (t : Table) : Table := t.map fun _ r => r.narrow

end AuthSchema
