import AuthSchema.Json.Token

/-!
From tokens to a value. The containers that are still open stand in a list, so a deeply nested text
needs no deep recursion. Commas and colons carry no information once the layout of the text has
been checked, and are passed over.
-/
namespace AuthSchema.Json

/-- A container whose end has not been read; items and members stand last first. -/
inductive Partial where
  | array (items : List Json)
  | object (members : List (String × Json))
  /-- An object whose next value belongs to a key. -/
  | member (members : List (String × Json)) (key : String)

/-- Hands a finished value to the innermost open container; without one it is the result. -/
def Partial.put (value : Json) : List Partial → Option Json ⊕ List Partial
  | [] => .inl (some value)
  | .array items :: outer => .inr (.array (value :: items) :: outer)
  | .member members key :: outer => .inr (.object ((key, value) :: members) :: outer)
  | .object _ :: _ => .inl none

def Partial.step : List Partial → Token → Option Json ⊕ List Partial
  | open_, .openArray => .inr (.array [] :: open_)
  | open_, .openObject => .inr (.object [] :: open_)
  | .array items :: outer, .closeArray => put (.arr items.reverse) outer
  | .object members :: outer, .closeObject => put (.obj members.reverse) outer
  | .object members :: outer, .text full _ =>
    .inr (.member members (full.toOption.getD "") :: outer)
  | open_, .text full _ => put (.str (full.toOption.getD "")) open_
  | open_, .atom full _ => put (full.toOption.getD .null) open_
  | open_, .comma => .inr open_
  | open_, .colon => .inr open_
  | _, _ => .inl none

/-- Builds the value that tokens spell, given the containers that are open before them. What was
only skimmed and has no value is left blank. -/
def build : List Partial → List Token → Option Json
  | _, [] => none
  | open_, t :: rest =>
    match Partial.step open_ t with
    | .inl done => done
    | .inr open_ => build open_ rest

end AuthSchema.Json
