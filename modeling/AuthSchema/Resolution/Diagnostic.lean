import AuthSchema.Schema.Basic

/-!
Diagnostics of resolution: which member could not be resolved, for what reason, and through which
members the search had come.
-/
namespace AuthSchema.Resolution

/-- The members that a search has gone through, outermost first. -/
abbrev Trail := List MemberId

/-- The written form `a#x -> b#y`. -/
def Trail.render (t : Trail) : String := " -> ".intercalate (t.map MemberId.render)

inductive Fault where
  /-- A reference to a resource type that does not exist. -/
  | unknownType (type : String)
  /-- A reference to a member that its resource type does not have. -/
  | unknownMember (member : MemberId)
  /-- No subject type can be reached. -/
  | noSubjects
  /-- A chain of references is longer than allowed. -/
  | tooDeep (limit : Nat)
deriving DecidableEq, Repr

def Fault.message : Fault → String
  | .unknownType type => "unknown resource type '" ++ type ++ "'"
  | .unknownMember m => "'" ++ m.type ++ "' has no relation or permission '" ++ m.member ++ "'"
  | .noSubjects => "no concrete subject types reachable"
  | .tooDeep limit => "indirection deeper than " ++ toString limit ++ " hops"

structure Diagnostic where
  member : MemberId
  fault : Fault
  trail : Trail
deriving DecidableEq, Repr

def Diagnostic.message (d : Diagnostic) : String :=
  d.member.render ++ ": " ++ d.fault.message ++ " (via " ++ d.trail.render ++ ")"

/-- The report on a list of diagnostics: their number, then one line for each. -/
def report (ds : List Diagnostic) : String :=
  "failed to resolve subject types (" ++ toString ds.length ++ " errors)" ++
    String.join (ds.map fun d => "\n  - " ++ d.message)

end AuthSchema.Resolution
