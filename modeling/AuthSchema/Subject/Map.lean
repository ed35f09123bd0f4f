import AuthSchema.SortedMap.Basic
import AuthSchema.Subject.Basic

/-!
Allowed subjects: for each subject type one subject relation. Where two meet at one type the least
stays, so the order of insertion does not matter.
-/
namespace AuthSchema

/-- The subjects that a member allows, by subject type. -/
abbrev SubjectMap := SortedMap SubjectRelation

namespace SubjectMap

/-- Any subject, itself. -/
def wildcard : SubjectMap := SortedMap.empty.insert anyType .itself

/-- Adds a subject, and tells whether the map has changed. -/
def grow (m : SubjectMap) (type : String) (subject : SubjectRelation) : SubjectMap × Bool :=
  match m.get? type with
  | none => (m.insert type subject, true)
  | some present =>
    if subject.supersedes present then (m.insert type subject, true) else (m, false)

def growAll (m : SubjectMap) (subjects : List (String × SubjectRelation)) : SubjectMap × Bool :=
  subjects.foldl
    (fun state e =>
      let grown := state.1.grow e.1 e.2
      (grown.1, state.2 || grown.2))
    (m, false)

def merge (m other : SubjectMap) : SubjectMap × Bool := m.growAll other.entries

def collect (subjects : List (String × SubjectRelation)) : SubjectMap :=
  (SubjectMap.growAll .empty subjects).1

/-- Whether the only subject type is the one that stands for any type. -/
def isWildcard (m : SubjectMap) : Bool := m.size == 1 && m.contains anyType

end SubjectMap

end AuthSchema
