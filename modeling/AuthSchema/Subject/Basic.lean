/-!
How a subject of some type may hold a relation: the object itself, or the objects that stand in one
of its own relations.
-/
namespace AuthSchema

/-- The type name that stands for subjects of any type. -/
def anyType : String := "*"

/-- The written form of a subject that is the object itself. -/
def selfMark : String := "..."

/-- What part of a subject type is meant: the objects themselves, or those that hold the named
relation on such an object. -/
inductive SubjectRelation where
  | itself
  | userset (relation : String)
deriving DecidableEq, Repr, Inhabited

namespace SubjectRelation

/-- Reads a relation name as it is written: nothing, the empty text and the mark of the object
itself mean the object. -/
def ofName : Option String → SubjectRelation
  | none => .itself
  | some name => if name = "" || name = selfMark then .itself else .userset name

def relation? : SubjectRelation → Option String
  | .itself => none
  | .userset relation => some relation

def isItself : SubjectRelation → Bool
  | .itself => true
  | .userset _ => false

def name : SubjectRelation → String
  | .itself => selfMark
  | .userset relation => relation

/-- Whether a subject takes the place of another of the same type: the object itself takes the
place of every userset, and a userset that of one with a larger relation name. -/
def supersedes : SubjectRelation → SubjectRelation → Bool
  | _, .itself => false
  | .itself, .userset _ => true
  | .userset a, .userset b => a < b

end SubjectRelation

end AuthSchema
