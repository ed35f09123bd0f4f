import AuthSchema.Resolution.Relations
import AuthSchema.SortedMap.Lemmas

/-!
The expansion of a permission against the current state of a table: its edges are followed until
only subject types are left. No path enters a member twice, so every expansion ends; a fault comes
with the path that led to it.
-/
namespace AuthSchema.Resolution

/-- What an expansion comes upon. -/
inductive Finding where
  | subject (type : String)
  | fault (fault : Fault) (trail : Trail)
deriving DecidableEq, Repr

/-- The references that a path can take from a member. A relation whose subjects follow from its
edges gives its edges, since its subjects keep only one entry a type; any other member gives the
subjects it has at present. -/
def outgoing (m : Member) : List (String × SubjectRelation) :=
  if m.kind = .relation && followsEdges m then m.edges.map fun e => (e.type, e.subject)
  else m.subjects.entries

/-- The member that two names refer to, or what is missing. -/
def find (t : Table) (m : MemberId) : Except Fault Member :=
  match t.get? m.type with
  | none => .error (.unknownType m.type)
  | some r =>
    match r.member? m.member with
    | none => .error (.unknownMember m)
    | some member => .ok member

def memberIds (t : Table) : List MemberId :=
  t.entries.flatMap fun e =>
    (e.2.relations.keys ++ e.2.permissions.keys).map fun name => ⟨e.1, name⟩

theorem mem_memberIds_of_find {t : Table} {m : MemberId} {member : Member}
    (h : find t m = .ok member) : m ∈ memberIds t := by
  unfold find at h
  split at h
  · simp at h
  · next r hr =>
    split at h
    · simp at h
    · next found hfound =>
      refine List.mem_flatMap.mpr ⟨(m.type, r), SortedMap.mem_entries_of_get? hr, ?_⟩
      refine List.mem_map.mpr ⟨m.member, ?_, rfl⟩
      rcases Option.or_eq_some_iff.mp hfound with hfound | ⟨_, hfound⟩
      · exact List.mem_append_left _ (SortedMap.mem_keys_of_get? hfound)
      · exact List.mem_append_right _ (SortedMap.mem_keys_of_get? hfound)

/-- How many names of members a path has not entered. -/
def unvisited (t : Table) (trail : Trail) : Nat := (memberIds t).countP fun m => m ∉ trail

theorem unvisited_append_lt {t : Table} {trail : Trail} {m : MemberId}
    (hm : m ∈ memberIds t) (hnew : m ∉ trail) : unvisited t (trail ++ [m]) < unvisited t trail := by
  unfold unvisited
  generalize memberIds t = ids at hm
  induction ids with
  | nil => simp at hm
  | cons a rest ih =>
    have hle : rest.countP (fun x => x ∉ trail ++ [m]) ≤ rest.countP (fun x => x ∉ trail) :=
      List.countP_mono_left fun x _ hx => by grind
    by_cases ha : a = m
    · subst ha
      rw [List.countP_cons_of_neg (by simp), List.countP_cons_of_pos (by simpa using hnew)]
      omega
    · have hlt : rest.countP (fun x => x ∉ trail ++ [m]) < rest.countP (fun x => x ∉ trail) := by
        by_cases hr : m ∈ rest
        · exact ih hr
        · exact absurd ((List.mem_cons.mp hm).resolve_right hr).symm ha
      rw [List.countP_cons, List.countP_cons]
      by_cases hin : a ∈ trail <;> simp [hin, ha] at hlt ⊢ <;> omega

/-- What a path does with a reference: it comes upon something, or goes on to a member. -/
inductive Step where
  | found (finding : Finding)
  | enter (member : MemberId)
deriving DecidableEq, Repr

/-- What a path does with one reference of the member that it has entered last. A reference back
into the path is passed over; one that would make the path longer than the limit is a fault. -/
def stepAt (limit : Option Nat) (trail : Trail) : String × SubjectRelation → Option Step
  | (type, .itself) => some (.found (.subject type))
  | (type, .userset relation) =>
    let next : MemberId := ⟨type, relation⟩
    if type = anyType then some (.found (.subject type))
    else if next ∈ trail then none
    else match limit.filter fun n => n < trail.length with
      | some n => some (.found (.fault (.tooDeep n) (trail ++ [next])))
      | none => some (.enter next)

def steps (t : Table) (limit : Option Nat) (trail : Trail) (m : MemberId) : List Step :=
  match find t m with
  | .error reason => [.found (.fault reason trail)]
  | .ok member =>
    if m ∈ trail then [] else (outgoing member).filterMap (stepAt limit (trail ++ [m]))

theorem unvisited_lt_of_enter {t : Table} {limit : Option Nat} {trail : Trail} {m next : MemberId}
    (h : .enter next ∈ steps t limit trail m) : unvisited t (trail ++ [m]) < unvisited t trail := by
  unfold steps at h
  split at h
  · simp at h
  · next found =>
    split at h
    · simp at h
    · next hnew => exact unvisited_append_lt (mem_memberIds_of_find found) hnew

def expandMember (t : Table) (limit : Option Nat) (trail : Trail) (m : MemberId) : List Finding :=
  (steps t limit trail m).attach.flatMap fun step =>
    match step with
    | ⟨.found finding, _⟩ => [finding]
    | ⟨.enter next, _⟩ => expandMember t limit (trail ++ [m]) next
termination_by unvisited t trail
decreasing_by exact unvisited_lt_of_enter ‹_›

theorem expandMember_eq (t : Table) (limit : Option Nat) (trail : Trail) (m : MemberId) :
    expandMember t limit trail m = (steps t limit trail m).flatMap fun
      | .found finding => [finding]
      | .enter next => expandMember t limit (trail ++ [m]) next := by
  rw [expandMember]
  conv => rhs; rw [← List.attach_map_subtype_val (steps t limit trail m), List.flatMap_map]
  congr 1
  funext step
  obtain ⟨step, h⟩ := step
  cases step <;> rfl

/-- Follows one edge of a permission; the path begins at the permission. -/
def expandEdge (t : Table) (limit : Option Nat) (start : MemberId) (e : Edge) : List Finding :=
  match e.subject with
  | .itself =>
    if t.contains e.type then [.subject e.type] else [.fault (.unknownType e.type) [start]]
  | .userset relation => expandMember t limit [start] ⟨e.type, relation⟩

def expand (t : Table) (limit : Option Nat) (start : MemberId) (edges : List Edge) :
    List Finding :=
  edges.flatMap (expandEdge t limit start)

namespace Finding

def subject? : Finding → Option (String × SubjectRelation)
  | .subject type => some (type, .itself)
  | .fault _ _ => none

def diagnostic? (start : MemberId) : Finding → Option Diagnostic
  | .subject _ => none
  | .fault reason trail => some ⟨start, reason, trail⟩

end Finding

end AuthSchema.Resolution
