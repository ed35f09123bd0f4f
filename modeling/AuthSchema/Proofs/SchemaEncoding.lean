import AuthSchema.Proofs.Encoding
import AuthSchema.Schema.Codec

/-! Resolved schemas as JSON and back. Reading undoes writing, but for usersets whose relation has
the empty name or the mark of the object itself: these are written like the object and read as
it. -/
namespace AuthSchema

open Json (written record?_written optionalMember_eq orNull_map orNull_lossless listOf?_map
  mapOf?_ofMap mapOf?_lossless)

namespace SubjectRelation

/-- A subject as it is read: a userset of no relation is the object itself. -/
def normal : SubjectRelation → SubjectRelation
  | .itself => .itself
  | .userset relation => if relation = "" ∨ relation = selfMark then .itself else .userset relation

private theorem ofJson?_toJson (s : SubjectRelation) : ofJson? s.toJson = some s.normal := by
  cases s with
  | itself => rfl
  | userset relation =>
    have hname : ofJson? (toJson (.userset relation)) = some (ofName (some relation)) := rfl
    rw [hname, ofName, normal]
    simp only [Bool.or_eq_true, decide_eq_true_eq]

end SubjectRelation

/-- A map of subjects as it is read. -/
def SubjectMap.normal (m : SubjectMap) : SubjectMap := m.map fun _ s => s.normal

private theorem SubjectMap.ofJson?_toJson (m : SubjectMap) :
    SubjectMap.ofJson? (SubjectMap.toJson m) = some m.normal :=
  mapOf?_ofMap fun _ s _ => SubjectRelation.ofJson?_toJson s

namespace Edge

/-- An edge as it is read. -/
def normal (e : Edge) : Edge := { e with subject := e.subject.normal }

private theorem record?_toJson (e : Edge) :
    e.toJson.record? [("resource_type", true), ("relation", true), ("caveat", false)] =
      some [some (.str e.type), some e.subject.toJson, e.caveat.map .str] := by
  have hwritten : e.toJson = .obj (written [("resource_type", true, some (.str e.type)),
      ("relation", true, some e.subject.toJson), ("caveat", false, e.caveat.map .str)]) := by
    rw [toJson, optionalMember_eq]
    rfl
  rw [hwritten]
  exact record?_written (by simp) (by simp)

private theorem ofJson?_toJson (e : Edge) : ofJson? e.toJson = some e.normal := by
  have hcaveat : Json.orNull Json.str? (e.caveat.map .str) = some e.caveat :=
    orNull_lossless Json.str?_str (by simp) _
  rw [ofJson?, record?_toJson]
  simp [Json.required, SubjectRelation.ofJson?_toJson, hcaveat, normal]

end Edge

private theorem Kind.ofJson?_toJson (k : Kind) : Kind.ofJson? k.toJson = some k := by
  cases k <;> rfl

namespace Member

/-- A member as it is read. -/
def normal (m : Member) : Member :=
  { m with subjects := m.subjects.normal
           override := m.override.map SubjectMap.normal
           edges := m.edges.map Edge.normal }

private theorem record?_toJson (m : Member) :
    m.toJson.record? [("name", true), ("output_name", true), ("kind", true),
      ("allowed_subject_types", true), ("override_allowed_subject_types", false),
      ("relation_refs", true)] =
    some [some (.str m.name), some (.str m.publicName), some m.kind.toJson,
      some (SubjectMap.toJson m.subjects), m.override.map SubjectMap.toJson,
      some (.arr (m.edges.map Edge.toJson))] := by
  have hwritten : m.toJson = .obj (written [("name", true, some (.str m.name)),
      ("output_name", true, some (.str m.publicName)), ("kind", true, some m.kind.toJson),
      ("allowed_subject_types", true, some (SubjectMap.toJson m.subjects)),
      ("override_allowed_subject_types", false, m.override.map SubjectMap.toJson),
      ("relation_refs", true, some (.arr (m.edges.map Edge.toJson)))]) := by
    rw [toJson, optionalMember_eq]
    cases m.override <;> rfl
  rw [hwritten]
  exact record?_written (by simp) (by simp)

private theorem ofJson?_toJson (m : Member) : ofJson? m.toJson = some m.normal := by
  have hoverride : Json.orNull SubjectMap.ofJson? (m.override.map SubjectMap.toJson) =
      some (m.override.map SubjectMap.normal) :=
    orNull_map SubjectMap.ofJson?_toJson (by simp [SubjectMap.toJson, Json.ofMap]) _
  have hedges : Json.listOf? Edge.ofJson? (.arr (m.edges.map Edge.toJson)) =
      some (m.edges.map Edge.normal) := listOf?_map fun e _ => Edge.ofJson?_toJson e
  rw [ofJson?, record?_toJson]
  simp [Json.required, Kind.ofJson?_toJson, SubjectMap.ofJson?_toJson, hoverride, hedges, normal]

end Member

private theorem Narrowing.ofJson?_toJson (n : Narrowing) : Narrowing.ofJson? n.toJson = some n := by
  cases n <;> rfl

namespace Resource

/-- A resource type as it is read. -/
def normal (r : Resource) : Resource :=
  { r with permissions := r.permissions.map fun _ m => m.normal
           relations := r.relations.map fun _ m => m.normal }

private theorem record?_toJson (r : Resource) :
    r.toJson.record? [("name", true), ("permissions", true), ("relations", true),
      ("permission_subject_type", true), ("relation_subject_type", true)] =
    some [some (.str r.name), some (Json.ofMap Member.toJson r.permissions),
      some (Json.ofMap Member.toJson r.relations), some r.permissionSubject.toJson,
      some r.relationSubject.toJson] := by
  have hwritten : r.toJson = .obj (written [("name", true, some (.str r.name)),
      ("permissions", true, some (Json.ofMap Member.toJson r.permissions)),
      ("relations", true, some (Json.ofMap Member.toJson r.relations)),
      ("permission_subject_type", true, some r.permissionSubject.toJson),
      ("relation_subject_type", true, some r.relationSubject.toJson)]) := rfl
  rw [hwritten]
  exact record?_written (by simp) (by simp)

private theorem ofJson?_toJson (r : Resource) : ofJson? r.toJson = some r.normal := by
  have hmembers : ∀ members : SortedMap Member,
      Json.mapOf? Member.ofJson? (Json.ofMap Member.toJson members) =
        some (members.map fun _ m => m.normal) :=
    fun members => mapOf?_ofMap fun _ m _ => Member.ofJson?_toJson m
  rw [ofJson?, record?_toJson]
  simp [Json.required, hmembers, Narrowing.ofJson?_toJson, normal]

end Resource

/-- A table as it is read. -/
def Table.normal (t : Table) : Table := t.map fun _ r => r.normal

private theorem Table.ofJson?_toJson (t : Table) : Table.ofJson? t.toJson = some t.normal :=
  mapOf?_ofMap fun _ r _ => Resource.ofJson?_toJson r

namespace Caveat

private theorem record?_toJson (c : Caveat) : c.toJson.record? [("name", true), ("args", true)] =
    some [some (.str c.name), some (Json.ofMap .str c.arguments)] := by
  have hwritten : c.toJson = .obj (written [("name", true, some (.str c.name)),
      ("args", true, some (Json.ofMap .str c.arguments))]) := rfl
  rw [hwritten]
  exact record?_written (by simp) (by simp)

private theorem ofJson?_toJson (c : Caveat) : ofJson? c.toJson = some c := by
  have harguments : Json.mapOf? Json.str? (Json.ofMap .str c.arguments) = some c.arguments :=
    mapOf?_lossless Json.str?_str _
  rw [ofJson?, record?_toJson]
  simp [Json.required, harguments]

end Caveat

namespace Schema

/-- A schema as it is read. -/
def normal (s : Schema) : Schema := { s with resources := s.resources.normal }

private theorem record?_toJson (s : Schema) :
    s.toJson.record? [("resources", true), ("caveats", true)] =
      some [some s.resources.toJson, some (Json.ofMap Caveat.toJson s.caveats)] := by
  have hwritten : s.toJson = .obj (written [("resources", true, some s.resources.toJson),
      ("caveats", true, some (Json.ofMap Caveat.toJson s.caveats))]) := rfl
  rw [hwritten]
  exact record?_written (by simp) (by simp)

/-- What is read back from the encoding of a schema is its normal form. -/
theorem ofJson?_toJson (s : Schema) : ofJson? s.toJson = some s.normal := by
  have hcaveats : Json.mapOf? Caveat.ofJson? (Json.ofMap Caveat.toJson s.caveats) =
      some s.caveats := mapOf?_lossless Caveat.ofJson?_toJson _
  rw [ofJson?, record?_toJson]
  simp [Json.required, Table.ofJson?_toJson, hcaveats, normal]

end Schema

end AuthSchema
