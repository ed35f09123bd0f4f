/-!
JSON values. An object keeps its members as they were written, repeated keys included; a number
written as plain digits is a natural, any other number keeps its spelling.
-/
namespace AuthSchema

inductive Json where
  | null
  | bool (value : Bool)
  | nat (value : Nat)
  | decimal (literal : String)
  | str (value : String)
  | arr (items : List Json)
  | obj (members : List (String × Json))
deriving Repr, Inhabited

namespace Json

def str? : Json → Option String
  | .str s => some s
  | _ => none

def bool? : Json → Option Bool
  | .bool b => some b
  | _ => none

def arr? : Json → Option (List Json)
  | .arr items => some items
  | _ => none

def obj? : Json → Option (List (String × Json))
  | .obj members => some members
  | _ => none

/-- Member lists as a dictionary reads them: of two members at one key the last counts. -/
def lastOf (key : String) (members : List (String × Json)) : Option Json :=
  members.foldl (fun found m => if m.1 = key then some m.2 else found) none

/-- The member of an object at a key; of repeated members the last. -/
def get? (j : Json) (key : String) : Option Json := j.obj?.bind (lastOf key)

mutual

/-- The same value with repeated keys resolved: of the members at one key the last stays. -/
def collapse : Json → Json
  | .arr items => .arr (collapseItems items)
  | .obj members => .obj (collapseMembers members)
  | j => j

def collapseItems : List Json → List Json
  | [] => []
  | j :: rest => j.collapse :: collapseItems rest

def collapseMembers : List (String × Json) → List (String × Json)
  | [] => []
  | (k, j) :: rest =>
    let later := collapseMembers rest
    if later.any (fun m => m.1 == k) then later else (k, j.collapse) :: later

end

end Json

end AuthSchema
