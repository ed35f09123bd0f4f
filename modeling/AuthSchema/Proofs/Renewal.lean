import AuthSchema.Proofs.Narrowing

/-! Resolution anew of what is resolved already. The subjects that a table comes with are replaced
before anything reads them, so resolution is a function of all else in the table, and its own
results count as unresolved. What a table has been narrowed to is not read either, and kept. -/
namespace AuthSchema

/-- All of a member but its subjects. -/
def Member.withoutSubjects (m : Member) : Member := { m with subjects := .empty }

def Resource.withoutSubjects (r : Resource) : Resource :=
  { r with permissions := r.permissions.map fun _ m => m.withoutSubjects
           relations := r.relations.map fun _ m => m.withoutSubjects }

/-- All of a table but the subjects of its members. -/
def Table.withoutSubjects (t : Table) : Table := t.map fun _ r => r.withoutSubjects

private theorem Resource.member?_withoutSubjects (r : Resource) (name : String) :
    r.withoutSubjects.member? name = (r.member? name).map Member.withoutSubjects := by
  rw [member?, withoutSubjects, SortedMap.get?_map, SortedMap.get?_map, member?]
  cases r.relations.get? name <;> rfl

private theorem Table.get?_withoutSubjects (t : Table) (type : String) :
    t.withoutSubjects.get? type = (t.get? type).map Resource.withoutSubjects :=
  SortedMap.get?_map _ _ _

private theorem Table.entries_withoutSubjects (t : Table) :
    t.withoutSubjects.entries = t.entries.map fun e => (e.1, e.2.withoutSubjects) := rfl

namespace Resolution

section Subjects
variable (t : Table)

private theorem edgeFault?_withoutSubjects : edgeFault? t.withoutSubjects = edgeFault? t := by
  funext e
  rw [edgeFault?, edgeFault?, Table.get?_withoutSubjects]
  cases t.get? e.type with
  | none => rfl
  | some r => simp only [Option.map_some, Resource.member?_withoutSubjects, Option.isSome_map]

private theorem relationSubjects_withoutSubjects (m : Member) :
    relationSubjects t.withoutSubjects m.withoutSubjects = relationSubjects t m := by
  rw [relationSubjects, edgeFault?_withoutSubjects]
  rfl

private theorem relationDiagnostics_withoutSubjects (type : String) (m : Member) :
    relationDiagnostics t.withoutSubjects type m.withoutSubjects =
      relationDiagnostics t type m := by
  rw [relationDiagnostics, edgeFault?_withoutSubjects]
  rfl

private theorem allRelationDiagnostics_withoutSubjects :
    allRelationDiagnostics t.withoutSubjects = allRelationDiagnostics t := by
  rw [allRelationDiagnostics, t.entries_withoutSubjects, List.flatMap_map]
  apply List.flatMap_congr
  rintro ⟨type, r⟩ -
  simp only [Resource.withoutSubjects, SortedMap.values_map, List.flatMap_map]
  apply List.flatMap_congr
  intro m _
  exact relationDiagnostics_withoutSubjects t type m

private theorem openPermissions_withoutSubjects :
    openPermissions t.withoutSubjects = openPermissions t := by
  rw [openPermissions, t.entries_withoutSubjects, List.flatMap_map]
  apply List.flatMap_congr
  rintro ⟨type, r⟩ -
  simp only [Resource.withoutSubjects, SortedMap.entries_map, List.filter_map, List.map_map]
  rfl

/-- Both kinds of members get new subjects. -/
theorem seeded_withoutSubjects : seeded t.withoutSubjects = seeded t := by
  apply SortedMap.ext_get?
  intro type
  rw [get?_seeded, get?_seeded, Table.get?_withoutSubjects, Option.map_map]
  apply Option.map_congr
  intro r _
  simp only [Function.comp_apply, Resource.withoutSubjects, SortedMap.map_map,
    relationSubjects_withoutSubjects]
  rfl

private theorem subjectUniverse_withoutSubjects :
    subjectUniverse t.withoutSubjects = subjectUniverse t := by
  have hmembers : allMembers t.withoutSubjects = (allMembers t).map Member.withoutSubjects := by
    rw [allMembers, Table.withoutSubjects, SortedMap.values_map, List.flatMap_map, allMembers,
      List.map_flatMap]
    apply List.flatMap_congr
    intro r _
    simp only [Resource.withoutSubjects, SortedMap.values_map, List.map_append]
  rw [subjectUniverse, hmembers, List.flatMap_map]
  rfl

private theorem passBound_withoutSubjects : passBound t.withoutSubjects = passBound t := by
  rw [passBound, openPermissions_withoutSubjects, subjectUniverse_withoutSubjects, passBound]

/-- Resolution does not see the subjects that are there. -/
theorem resolve_withoutSubjects (policy : Policy) :
    resolve policy t.withoutSubjects = resolve policy t := by
  have hsolution (limit : Option Nat) : solution limit t.withoutSubjects = solution limit t := by
    rw [solution, openPermissions_withoutSubjects, seeded_withoutSubjects,
      passBound_withoutSubjects, solution]
  have hcomplaints (limit : Option Nat) :
      complaints limit t.withoutSubjects = complaints limit t := by
    rw [complaints, allRelationDiagnostics_withoutSubjects, seeded_withoutSubjects, hsolution,
      complaints]
  rw [resolve_eq, resolve_eq, hcomplaints, hsolution]

/-- Nothing but subjects is written. -/
theorem solution_withoutSubjects (limit : Option Nat) :
    (solution limit t).withoutSubjects = t.withoutSubjects := by
  apply SortedMap.ext_get?
  intro type
  rw [Table.get?_withoutSubjects, Table.get?_withoutSubjects,
    get?_stage (variant_solution limit t), Option.map_map]
  apply Option.map_congr
  intro r _
  simp only [Function.comp_apply, Resource.withoutSubjects, SortedMap.map_map]
  rfl

end Subjects

section Retype
variable (f : String → Narrowing × Narrowing) (t : Table)

private theorem get?_retype (type : String) : (t.retype f).get? type =
    (t.get? type).map fun r =>
      { r with permissionSubject := (f type).1, relationSubject := (f type).2 } :=
  SortedMap.get?_map _ _ _

private theorem find_retype : find (t.retype f) = find t := by
  funext m
  rw [find, get?_retype, find]
  cases t.get? m.type <;> rfl

private theorem expandMember_retype (limit : Option Nat) (trail : Trail) (m : MemberId) :
    expandMember (t.retype f) limit trail m = expandMember t limit trail m := by
  have hsteps (trail : Trail) (m : MemberId) :
      steps (t.retype f) limit trail m = steps t limit trail m := by
    rw [steps, find_retype, steps]
  -- on the calls in the one table, which are those in the other
  induction trail, m using expand_induction t limit with
  | step trail m ih =>
    rw [expandMember_eq, expandMember_eq, hsteps]
    apply List.flatMap_congr
    intro step hstep
    cases step with
    | found finding => rfl
    | enter next => exact ih next hstep

private theorem contains_retype (type : String) : (t.retype f).contains type = t.contains type := by
  rw [SortedMap.contains, get?_retype, Option.isSome_map, SortedMap.contains]

private theorem expand_retype (limit : Option Nat) (start : MemberId) (edges : List Edge) :
    expand (t.retype f) limit start edges = expand t limit start edges := by
  apply List.flatMap_congr
  intro e _
  rw [expandEdge, expandEdge, contains_retype]
  cases e.subject with
  | itself => rfl
  | userset relation => exact expandMember_retype f t limit [start] ⟨e.type, relation⟩

private theorem subjectsAt_retype (m : MemberId) : subjectsAt (t.retype f) m = subjectsAt t m := by
  rw [subjectsAt, get?_retype, subjectsAt]
  cases t.get? m.type <;> rfl

private theorem setSubjects_retype (m : MemberId) (subjects : SubjectMap) :
    setSubjects (t.retype f) m subjects = (setSubjects t m subjects).retype f := by
  rw [setSubjects, SortedMap.modify, Table.retype, SortedMap.map_map, setSubjects,
    SortedMap.modify, Table.retype, SortedMap.map_map]
  apply SortedMap.map_congr
  intro type r _
  split <;> rfl

/-- The state of a search, with other subject types to generate for. -/
def Progress.retype (p : Progress) : Progress := { p with table := p.table.retype f }

private theorem advance_retype (limit : Option Nat) (p : Progress)
    (permission : MemberId × List Edge) :
    advance limit (p.retype f) permission = (advance limit p permission).retype f := by
  simp only [advance, Progress.retype, expand_retype, subjectsAt_retype, setSubjects_retype,
    Progress.mk.injEq, and_true]
  split <;> rfl

private theorem pass_retype (limit : Option Nat) (permissions : List (MemberId × List Edge)) :
    pass limit permissions (t.retype f) = (pass limit permissions t).retype f := by
  have hfold (p : Progress) : permissions.foldl (advance limit) (p.retype f) =
      (permissions.foldl (advance limit) p).retype f := by
    induction permissions generalizing p with
    | nil => rfl
    | cons permission rest ih => rw [List.foldl_cons, advance_retype, ih, List.foldl_cons]
  exact hfold { table := t }

private theorem settle_retype (limit : Option Nat) (permissions : List (MemberId × List Edge))
    (n : Nat) : settle limit permissions n (t.retype f) =
      (settle limit permissions n t).retype f := by
  induction n generalizing t with
  | zero => rfl
  | succ n ih =>
    simp only [settle, pass_retype, Progress.retype, ih]
    split <;> rfl

private theorem openPermissions_retype : openPermissions (t.retype f) = openPermissions t := by
  rw [openPermissions, Table.retype, SortedMap.entries_map, List.flatMap_map]
  rfl

private theorem passBound_retype : passBound (t.retype f) = passBound t := by
  have hmembers : allMembers (t.retype f) = allMembers t := by
    rw [allMembers, SortedMap.values, Table.retype, SortedMap.entries_map, List.map_map,
      List.flatMap_map, allMembers, SortedMap.values, List.flatMap_map]
    rfl
  rw [passBound, openPermissions_retype, subjectUniverse, hmembers, passBound, subjectUniverse]

private theorem edgeFault?_retype : edgeFault? (t.retype f) = edgeFault? t := by
  funext e
  rw [edgeFault?, get?_retype, edgeFault?]
  cases t.get? e.type <;> rfl

private theorem allRelationDiagnostics_retype :
    allRelationDiagnostics (t.retype f) = allRelationDiagnostics t := by
  have hrelation : relationDiagnostics (t.retype f) = relationDiagnostics t := by
    funext type m
    rw [relationDiagnostics, edgeFault?_retype, relationDiagnostics]
  rw [allRelationDiagnostics, hrelation, Table.retype, SortedMap.entries_map, List.flatMap_map]
  rfl

private theorem seeded_retype : seeded (t.retype f) = (seeded t).retype f := by
  have hrelation : relationSubjects (t.retype f) = relationSubjects t := by
    funext m
    rw [relationSubjects, edgeFault?_retype, relationSubjects]
  apply SortedMap.ext_get?
  intro type
  rw [get?_seeded, hrelation, get?_retype, get?_retype, get?_seeded, Option.map_map,
    Option.map_map]
  rfl

private theorem deadEnds_retype : deadEnds (t.retype f) = deadEnds t := by
  rw [deadEnds, Table.retype, SortedMap.entries_map, List.flatMap_map]
  rfl

private theorem solution_retype (limit : Option Nat) :
    solution limit (t.retype f) = (solution limit t).retype f := by
  simp only [solution, openPermissions_retype, seeded_retype, pass_retype, passBound_retype,
    Progress.retype, settle_retype]
  split <;> rfl

private theorem complaints_retype (limit : Option Nat) :
    complaints limit (t.retype f) = complaints limit t := by
  have hpermissions : permissionDiagnostics limit ((seeded t).retype f) =
      permissionDiagnostics limit (seeded t) := by
    rw [permissionDiagnostics, openPermissions_retype, permissionDiagnostics]
    apply List.flatMap_congr
    intro p _
    rw [expand_retype]
  rw [complaints, allRelationDiagnostics_retype, seeded_retype, hpermissions, solution_retype,
    deadEnds_retype, complaints]

/-- Resolution keeps the subject types that are generated for, and does not depend on them. -/
theorem resolve_retype (policy : Policy) :
    resolve policy (t.retype f) = (resolve policy t).map (Table.retype f) := by
  rw [resolve_eq, resolve_eq, complaints_retype, solution_retype]
  split <;> rfl

end Retype

/-- Narrowing is a choice of subject types to generate for. -/
theorem exists_retype_eq_narrow (t : Table) : ∃ f, t.narrow = t.retype f := by
  refine ⟨fun type => (t.get? type).elim (.generic, .generic) fun r =>
    (r.narrow.permissionSubject, r.narrow.relationSubject), ?_⟩
  apply SortedMap.map_congr
  intro type r hr
  simp only [hr]
  rfl

/-- Resolution replaces all subjects that a table comes with and reads none of them: tables that
differ in nothing else are resolved alike, or refused for the same reasons. So what it gives is not
changed by another resolution under the same policy, and neither is what it gives, narrowed. -/
theorem resolve_anew (policy : Policy) :
    (∀ t t' : Table, t.withoutSubjects = t'.withoutSubjects →
      resolve policy t = resolve policy t') ∧
    ∀ t r, resolve policy t = .ok r → r.withoutSubjects = t.withoutSubjects ∧
      resolve policy r = .ok r ∧ resolve policy r.narrow = .ok r.narrow := by
  have hsame : ∀ t t' : Table, t.withoutSubjects = t'.withoutSubjects →
      resolve policy t = resolve policy t' := by
    intro t t' h
    rw [← resolve_withoutSubjects, h, resolve_withoutSubjects]
  refine ⟨hsame, fun t r h => ?_⟩
  have hr : r.withoutSubjects = t.withoutSubjects := by
    obtain ⟨-, rfl⟩ := resolve_eq_ok.mp h
    exact solution_withoutSubjects t policy.depthLimit
  have hagain : resolve policy r = .ok r := (hsame r t hr).trans h
  obtain ⟨f, hf⟩ := exists_retype_eq_narrow r
  refine ⟨hr, hagain, ?_⟩
  rw [hf, resolve_retype, hagain]
  rfl

/-- The folders, with any subject left over at every member. -/
def staleFolders : Table := foldersTable.map fun _ r =>
  { r with permissions := r.permissions.map fun _ m => { m with subjects := .wildcard }
           relations := r.relations.map fun _ m => { m with subjects := .wildcard } }

theorem resolve_anew_folders :
    staleFolders ≠ foldersTable ∧ staleFolders.withoutSubjects = foldersTable.withoutSubjects ∧
    ∃ r, resolve {} staleFolders = .ok r ∧ resolve {} foldersTable = .ok r ∧
      resolve {} r = .ok r ∧ r.narrow ≠ r ∧ resolve {} r.narrow = .ok r.narrow := by
  have hsame : staleFolders.withoutSubjects = foldersTable.withoutSubjects := by decide +kernel
  obtain ⟨hresolve, hagain⟩ := resolve_anew {}
  have hstale : resolve {} staleFolders = .ok (solution none foldersTable) :=
    (hresolve _ _ hsame).trans resolve_folders
  obtain ⟨-, hr, hnarrow⟩ := hagain _ _ resolve_folders
  exact ⟨by decide +kernel, hsame, _, hstale, resolve_folders, hr, by decide +kernel, hnarrow⟩

end Resolution

end AuthSchema
