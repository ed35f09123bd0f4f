import AuthSchema.Compiled.Basic
import AuthSchema.Json.Layout
import AuthSchema.Json.Record

/-!
Compiled schemas as JSON. Notes and operands are tagged values. An absent constraint list,
expression or operation is left out, so it stays apart from an empty one.
-/
namespace AuthSchema.Compiled

open Json (record? required orDefault orNull orNullWithin listOf? mapOf? ofMap optionalMember)

namespace KindMark

def name : KindMark → String
  | .relation => "RELATION"
  | .permission => "PERMISSION"
  | .unspecified => "UNSPECIFIED"

/-- The mark of a name; a name that is not known marks nothing. -/
def ofName : String → KindMark
  | "RELATION" => .relation
  | "PERMISSION" => .permission
  | _ => .unspecified

def toJson (k : KindMark) : Json := .str k.name

/-- A mark is its name, or an object with its name over null or an empty object. -/
def ofJson? : Json → Option KindMark
  | .str name => some (ofName name)
  | .obj [(name, .null)] => some (ofName name)
  | .obj [(name, .obj [])] => some (ofName name)
  | _ => none

end KindMark

namespace Note

def toJson : Note → Json
  | .kind mark => .obj [("type", .str "relation_metadata"), ("kind", mark.toJson)]
  | .comment content => .obj [("type", .str "doc_comment"), ("content", .str content)]
  | .other => .obj [("type", .str "other")]

/-- Reads a note; what a note of a kind that is not known says is ignored. -/
def ofJson? (j : Json) : Option Note := do
  let (tag, content) ← j.tagged?
  let tag ← tag.str?
  if tag = "relation_metadata" then
    match ← content.record? [("kind", true)] with
    | [mark] => return .kind (← required KindMark.ofJson? mark)
    | _ => none
  else if tag = "doc_comment" then
    match ← content.record? [("content", true)] with
    | [content] => return .comment (← required Json.str? content)
    | _ => none
  else
    let _ ← content.record? []
    return .other

def layout : Json.Layout := .tagged (fun _ => true) fun j => (ofJson? j).isSome

end Note

namespace Constraint

def toJson (c : Constraint) : Json :=
  .obj ([("namespace", .str c.type)] ++ optionalMember "relation" .str c.relation ++
    [("public_wildcard", .bool c.everyone)] ++ optionalMember "required_caveat" .str c.caveat)

def ofJson? (j : Json) : Option Constraint := do
  match ← j.record? [("namespace", true), ("relation", false), ("public_wildcard", false),
      ("required_caveat", false)] with
  | [type, relation, everyone, caveat] =>
    return ⟨← required Json.str? type, ← orNull Json.str? relation,
      ← orDefault false Json.bool? everyone, ← orNull Json.str? caveat⟩
  | _ => none

def layout : Json.Layout :=
  .record [("namespace", true, .text), ("relation", false, .optional .text),
    ("public_wildcard", false, .flag), ("required_caveat", false, .optional .text)]

end Constraint

def constraintsToJson (cs : List Constraint) : Json :=
  .obj [("allowed_direct_relations", .arr (cs.map Constraint.toJson))]

def constraintsOfJson? (j : Json) : Option (List Constraint) := do
  match ← j.record? [("allowed_direct_relations", false)] with
  | [items] => orDefault [] (listOf? Constraint.ofJson?) items
  | _ => none

mutual

def Operand.toJson : Operand → Json
  | .this => .obj [("type", .str "this")]
  | .computed relation =>
    .obj [("type", .str "computed_userset"), ("relation", .str relation)]
  | .arrow tupleset relation =>
    .obj [("type", .str "tuple_to_userset"), ("tupleset", .str tupleset),
      ("computed_userset", .str relation)]
  | .nested union exclusion intersection =>
    .obj [("type", .str "userset_rewrite"),
      ("rewrite", .obj (operationMember "union" union ++ operationMember "exclusion" exclusion ++
        operationMember "intersection" intersection))]

def operandsToJson : List Operand → List Json
  | [] => []
  | o :: rest => o.toJson :: operandsToJson rest

def operationMember (name : String) : Option (List Operand) → List (String × Json)
  | none => []
  | some operands => [(name, .obj [("children", .arr (operandsToJson operands))])]

end

def operationToJson (operands : List Operand) : Json :=
  .obj [("children", .arr (operandsToJson operands))]

def Expression.toJson (e : Expression) : Json :=
  .obj (operationMember "union" e.union ++ operationMember "exclusion" e.exclusion ++
    operationMember "intersection" e.intersection)

/-- The tags of the kinds of operands, in the order of their numbers. -/
def Operand.tags : List String :=
  ["this", "computed_userset", "tuple_to_userset", "userset_rewrite"]

/-- The name that a tag gives. Inside a nested expression a kind may also be given by its number. -/
def Operand.tagName? (nested : Bool) : Json → Option String
  | .str name => some name
  | .nat n => if nested then Operand.tags[n]? else none
  | _ => none

mutual

/-- Reads an operand, which stands inside a nested expression or not. -/
def Operand.read? (nested : Bool) (j : Json) : Option Operand :=
  match _tagged : j.tagged? with
  | none => none
  | some (tag, content) =>
    match Operand.tagName? nested tag with
    | some "this" => (content.record? []).map fun _ => .this
    | some "computed_userset" => do
      match ← content.record? [("relation", true)] with
      | [relation] => return .computed (← required Json.str? relation)
      | _ => none
    | some "tuple_to_userset" => do
      match ← content.record? [("tupleset", true), ("computed_userset", true)] with
      | [tupleset, relation] =>
        return .arrow (← required Json.str? tupleset) (← required Json.str? relation)
      | _ => none
    | some "userset_rewrite" =>
      match _fields : content.record? [("rewrite", true)] with
      | some [some inner] =>
        (Expression.read? true inner).map fun e => .nested e.union e.exclusion e.intersection
      | _ => none
    | _ => none
termination_by sizeOf j
decreasing_by
  have := Json.sizeOf_le_of_tagged? _tagged
  have := Json.sizeOf_lt_of_record? _fields (v := inner) (by simp)
  omega

def Expression.read? (nested : Bool) (j : Json) : Option Expression :=
  match _fields : j.record? [("union", false), ("exclusion", false), ("intersection", false)] with
  | some [union, exclusion, intersection] => do
    return ⟨
      ← orNullWithin j union
        (fun _ h => Json.sizeOf_lt_of_record? _fields (by simp [h])) fun v _ => operation? nested v,
      ← orNullWithin j exclusion
        (fun _ h => Json.sizeOf_lt_of_record? _fields (by simp [h])) fun v _ => operation? nested v,
      ← orNullWithin j intersection
        (fun _ h => Json.sizeOf_lt_of_record? _fields (by simp [h])) fun v _ => operation? nested v⟩
  | _ => none
termination_by sizeOf j
decreasing_by all_goals assumption

def operation? (nested : Bool) (j : Json) : Option (List Operand) :=
  match _fields : j.record? [("children", false)] with
  | some [none] => some []
  | some [some (.arr items)] => operands? nested items
  | _ => none
termination_by sizeOf j
decreasing_by
  have := Json.sizeOf_lt_of_record? _fields (v := .arr items) (by simp)
  simp only [Json.arr.sizeOf_spec] at this
  omega

def operands? (nested : Bool) (items : List Json) : Option (List Operand) :=
  match items with
  | [] => some []
  | j :: rest => do return (← Operand.read? nested j) :: (← operands? nested rest)
termination_by sizeOf items
decreasing_by all_goals (simp only [List.cons.sizeOf_spec]; omega)

end

def Operand.ofJson? (j : Json) : Option Operand := Operand.read? false j

def Expression.ofJson? (j : Json) : Option Expression := Expression.read? false j

def Operand.layout : Json.Layout :=
  .tagged Operand.tags.contains fun j => (Operand.ofJson? j).isSome

def Expression.layout : Json.Layout :=
  let operation : Json.Layout := .optional (.record [("children", false, .list Operand.layout)])
  .record [("union", false, operation), ("exclusion", false, operation),
    ("intersection", false, operation)]

namespace Declaration

def toJson (d : Declaration) : Json :=
  .obj ([("name", .str d.name), ("metadata", .arr (d.notes.map Note.toJson))] ++
    optionalMember "type_information" constraintsToJson d.constraints ++
    optionalMember "userset_rewrite" Expression.toJson d.expression)

def ofJson? (j : Json) : Option Declaration := do
  match ← j.record? [("name", true), ("metadata", false), ("type_information", false),
      ("userset_rewrite", false)] with
  | [name, notes, constraints, expression] =>
    return { name := ← required Json.str? name
             notes := ← orDefault [] (listOf? Note.ofJson?) notes
             constraints := ← orNull constraintsOfJson? constraints
             expression := ← orNull Expression.ofJson? expression }
  | _ => none

def layout : Json.Layout :=
  .record [("name", true, .text), ("metadata", false, .list Note.layout),
    ("type_information", false,
      .optional (.record [("allowed_direct_relations", false, .list Constraint.layout)])),
    ("userset_rewrite", false, .optional Expression.layout)]

end Declaration

namespace Definition

def toJson (d : Definition) : Json :=
  .obj [("name", .str d.name), ("relations", .arr (d.members.map Declaration.toJson))]

def ofJson? (j : Json) : Option Definition := do
  match ← j.record? [("name", true), ("relations", false)] with
  | [name, members] =>
    return ⟨← required Json.str? name, ← orDefault [] (listOf? Declaration.ofJson?) members⟩
  | _ => none

def layout : Json.Layout :=
  .record [("name", true, .text), ("relations", false, .list Declaration.layout)]

end Definition

namespace CaveatDeclaration

def toJson (c : CaveatDeclaration) : Json :=
  .obj [("name", .str c.name), ("parameter_types", ofMap .str c.parameters)]

def ofJson? (j : Json) : Option CaveatDeclaration := do
  match ← j.record? [("name", true), ("parameter_types", false)] with
  | [name, parameters] =>
    return ⟨← required Json.str? name, ← orDefault .empty (mapOf? Json.str?) parameters⟩
  | _ => none

def layout : Json.Layout :=
  .record [("name", true, .text), ("parameter_types", false, .dict .text)]

end CaveatDeclaration

namespace Schema

def toJson (s : Schema) : Json :=
  .obj [("object_definitions", .arr (s.definitions.map Definition.toJson)),
    ("caveat_definitions", .arr (s.caveats.map CaveatDeclaration.toJson))]

def ofJson? (j : Json) : Option Schema := do
  match ← j.record? [("object_definitions", false), ("caveat_definitions", false)] with
  | [definitions, caveats] =>
    return ⟨← orDefault [] (listOf? Definition.ofJson?) definitions,
      ← orDefault [] (listOf? CaveatDeclaration.ofJson?) caveats⟩
  | _ => none

def layout : Json.Layout :=
  .record [("object_definitions", false, .list Definition.layout),
    ("caveat_definitions", false, .list CaveatDeclaration.layout)]

def ofText (s : List Text.Symbol) : Except Json.Problem Schema := do
  match ofJson? (← Json.read layout s) with
  | some schema => return schema
  | none => throw .mismatched

end Schema

end AuthSchema.Compiled
