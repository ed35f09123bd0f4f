import AuthSchema.Json.Layout
import AuthSchema.Json.Record
import AuthSchema.Schema.Basic

/-!
Resolved schemas as JSON. A subject is written as the name of its relation, with a mark of its own
for the object itself; reading takes the empty name for that mark too.
-/
namespace AuthSchema

open Json (record? required orDefault orNull listOf? mapOf? ofMap optionalMember)

namespace SubjectRelation

def toJson (s : SubjectRelation) : Json := .str s.name

def ofJson? (j : Json) : Option SubjectRelation := j.str?.map fun name => ofName (some name)

end SubjectRelation

namespace SubjectMap

def toJson (m : SubjectMap) : Json := ofMap SubjectRelation.toJson m

def ofJson? : Json → Option SubjectMap := mapOf? SubjectRelation.ofJson?

def layout : Json.Layout := .dict .text

end SubjectMap

namespace Edge

def toJson (e : Edge) : Json :=
  .obj ([("resource_type", .str e.type), ("relation", e.subject.toJson)] ++
    optionalMember "caveat" .str e.caveat)

def ofJson? (j : Json) : Option Edge := do
  match ← j.record? [("resource_type", true), ("relation", true), ("caveat", false)] with
  | [type, subject, caveat] =>
    return ⟨← required Json.str? type, ← required SubjectRelation.ofJson? subject,
      ← orNull Json.str? caveat⟩
  | _ => none

def layout : Json.Layout :=
  .record [("resource_type", true, .text), ("relation", true, .text),
    ("caveat", false, .optional .text)]

end Edge

namespace Kind

def toJson (k : Kind) : Json := .str k.name

def ofName? : String → Option Kind
  | "relation" => some .relation
  | "permission" => some .permission
  | "unknown" => some .unknown
  | _ => none

/-- A kind is its name, or an object with its name over null. -/
def ofJson? : Json → Option Kind
  | .str name => ofName? name
  | .obj [(name, .null)] => ofName? name
  | _ => none

def layout : Json.Layout := .choice ["relation", "permission", "unknown"] []

end Kind

namespace Member

def toJson (m : Member) : Json :=
  .obj ([("name", .str m.name), ("output_name", .str m.publicName), ("kind", m.kind.toJson),
    ("allowed_subject_types", SubjectMap.toJson m.subjects)] ++
    optionalMember "override_allowed_subject_types" SubjectMap.toJson m.override ++
    [("relation_refs", .arr (m.edges.map Edge.toJson))])

def ofJson? (j : Json) : Option Member := do
  match ← j.record? [("name", true), ("output_name", true), ("kind", true),
      ("allowed_subject_types", true), ("override_allowed_subject_types", false),
      ("relation_refs", true)] with
  | [name, publicName, kind, subjects, override, edges] =>
    return { name := ← required Json.str? name
             publicName := ← required Json.str? publicName
             kind := ← required Kind.ofJson? kind
             subjects := ← required SubjectMap.ofJson? subjects
             override := ← orNull SubjectMap.ofJson? override
             edges := ← required (listOf? Edge.ofJson?) edges }
  | _ => none

def layout : Json.Layout :=
  .record [("name", true, .text), ("output_name", true, .text), ("kind", true, Kind.layout),
    ("allowed_subject_types", true, SubjectMap.layout),
    ("override_allowed_subject_types", false, .optional SubjectMap.layout),
    ("relation_refs", true, .list Edge.layout)]

end Member

namespace Narrowing

def toJson : Narrowing → Json
  | .generic => .str "generic"
  | .concrete type => .obj [("concrete", .str type)]

def ofJson? : Json → Option Narrowing
  | .str "generic" => some .generic
  | .obj [("generic", .null)] => some .generic
  | .obj [("concrete", .str type)] => some (.concrete type)
  | _ => none

def layout : Json.Layout := .choice ["generic"] ["concrete"]

end Narrowing

namespace Resource

def toJson (r : Resource) : Json :=
  .obj [("name", .str r.name), ("permissions", ofMap Member.toJson r.permissions),
    ("relations", ofMap Member.toJson r.relations),
    ("permission_subject_type", r.permissionSubject.toJson),
    ("relation_subject_type", r.relationSubject.toJson)]

def ofJson? (j : Json) : Option Resource := do
  match ← j.record? [("name", true), ("permissions", true), ("relations", true),
      ("permission_subject_type", true), ("relation_subject_type", true)] with
  | [name, permissions, relations, permissionSubject, relationSubject] =>
    return { name := ← required Json.str? name
             permissions := ← required (mapOf? Member.ofJson?) permissions
             relations := ← required (mapOf? Member.ofJson?) relations
             permissionSubject := ← required Narrowing.ofJson? permissionSubject
             relationSubject := ← required Narrowing.ofJson? relationSubject }
  | _ => none

def layout : Json.Layout :=
  .record [("name", true, .text), ("permissions", true, .dict Member.layout),
    ("relations", true, .dict Member.layout), ("permission_subject_type", true, Narrowing.layout),
    ("relation_subject_type", true, Narrowing.layout)]

end Resource

namespace Table

def toJson (t : Table) : Json := ofMap Resource.toJson t

def ofJson? : Json → Option Table := mapOf? Resource.ofJson?

end Table

namespace Caveat

def toJson (c : Caveat) : Json :=
  .obj [("name", .str c.name), ("args", ofMap .str c.arguments)]

def ofJson? (j : Json) : Option Caveat := do
  match ← j.record? [("name", true), ("args", true)] with
  | [name, arguments] =>
    return ⟨← required Json.str? name, ← required (mapOf? Json.str?) arguments⟩
  | _ => none

def layout : Json.Layout := .record [("name", true, .text), ("args", true, .dict .text)]

end Caveat

namespace Schema

def toJson (s : Schema) : Json :=
  .obj [("resources", Table.toJson s.resources), ("caveats", ofMap Caveat.toJson s.caveats)]

def ofJson? (j : Json) : Option Schema := do
  match ← j.record? [("resources", true), ("caveats", true)] with
  | [resources, caveats] =>
    return ⟨← required Table.ofJson? resources, ← required (mapOf? Caveat.ofJson?) caveats⟩
  | _ => none

def layout : Json.Layout :=
  .record [("resources", true, .dict Resource.layout), ("caveats", true, .dict Caveat.layout)]

def ofText (s : List Text.Symbol) : Except Json.Problem Schema := do
  match ofJson? (← Json.read layout s) with
  | some schema => return schema
  | none => throw .mismatched

end Schema

end AuthSchema
