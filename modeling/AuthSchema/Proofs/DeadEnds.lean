import AuthSchema.Proofs.Trails

/-! The trails of dead ends. A permission without subjects is told with all members that its edges
go through, one after the other. They are its neighbours, and none of them leads on to a subject
type; but they need not refer to each other, so the trail is a path only if they happen to. -/
namespace AuthSchema.Resolution

/-- A member refers to another one, by its override or else by an edge. -/
def PointsTo (t : Table) (a b : MemberId) : Prop :=
  ∃ found, t.member? a = some found ∧ (b.type, .userset b.member) ∈ standing found

/-- A diagnostic of a permission without override, with the members that its edges go through as
trail. Every edge goes through one, and they are all in the table. -/
structure Fanned (t : Table) (d : Diagnostic) : Prop where
  starts : d.trail.head? = some d.member
  reported : ∃ p, permission? t d.member = some p ∧ p.activeOverride = none ∧ p.edges ≠ [] ∧
    p.edges.map Edge.target? = d.trail.tail.map some
  spread : ∀ m ∈ d.trail.tail, PointsTo t d.member m ∧ ∃ found, t.member? m = some found

/-- What begins with the reported member and goes on with its neighbours is a path just where these
are one by themselves. -/
theorem Fanned.isChain_iff {t : Table} {d : Diagnostic} (h : Fanned t d) :
    d.trail.IsChain (PointsTo t) ↔ d.trail.tail.IsChain (PointsTo t) := by
  obtain ⟨hstarts, -, hspread⟩ := h
  obtain ⟨hops, htrail⟩ : ∃ hops, d.trail = d.member :: hops := List.head?_eq_some_iff.mp hstarts
  rw [htrail, List.tail_cons] at hspread ⊢
  rw [List.isChain_cons]
  constructor
  · exact And.right
  · intro hchain
    refine ⟨fun m hm => (hspread m ?_).1, hchain⟩
    exact List.mem_of_mem_head? hm

/-- Traced faults are about references or the limit. -/
theorem Traced.fault_ne_noSubjects {t : Table} {limit : Option Nat} {d : Diagnostic}
    (h : Traced t limit d) : d.fault ≠ .noSubjects := by
  intro hfault
  have hends := h.ends
  rw [hfault] at hends
  cases hends with
  | missing _ _ _ hdangles => cases hdangles

section Table
variable {t : Table} (ht : Filed t)
include ht

/-- Dead ends are told in the solution, and only if all references are good. -/
theorem deadEnd_of_mem_complaints {limit : Option Nat} {d : Diagnostic}
    (hd : d ∈ complaints limit t) (hfault : d.fault = .noSubjects) :
    referenceDiagnostics t = [] ∧ d ∈ deadEnds (solution none t) := by
  rw [complaints] at hd
  split at hd
  · next hempty =>
    obtain ⟨hrelations, hpermissions⟩ := List.append_eq_nil_iff.mp (List.isEmpty_iff.mp hempty)
    have hsame := sameExpansions_of_permissionDiagnostics ht hpermissions
    rw [hsame.permissionDiagnostics_eq] at hpermissions
    rw [hsame.solution_eq] at hd
    exact ⟨List.append_eq_nil_iff.mpr ⟨hrelations, hpermissions⟩, hd⟩
  · rcases List.mem_append.mp hd with hd | hd
    · have htraced : Traced t limit d := traced_of_relation ht hd
      exact absurd hfault htraced.fault_ne_noSubjects
    · exact absurd hfault (traced_of_permission ht hd).fault_ne_noSubjects

/-- An edge of a permission that comes out without subjects goes through a member that exists. -/
theorem target_of_deadEnd (hfaultless : Faultless t (solution none t)) {m : MemberId}
    {edges : List Edge} (hm : (m, edges) ∈ openPermissions t)
    (hempty : (subjectsAt (solution none t) m).isEmpty = true) {e : Edge} (he : e ∈ edges) :
    ∃ next, e.target? = some next ∧ ∃ found, t.member? next = some found := by
  have hs := variant_solution none t
  cases hsubject : e.subject with
  | itself =>
    -- the edge would have given its type, or been a fault
    cases hin : (solution none t).contains e.type with
    | true =>
      have ha := allows_of_edgeGives hs (settled_solution none t) hm he (.object hsubject hin)
      rw [Allows, SortedMap.isEmpty_iff.mp hempty] at ha
      cases ha
    | false => exact absurd (.noType hsubject hin) (hfaultless m edges hm e he _)
  | userset relation =>
    have htarget : e.target? = some ⟨e.type, relation⟩ := target?_eq.mpr ⟨rfl, hsubject⟩
    refine ⟨_, htarget, ?_⟩
    cases hfind : find t ⟨e.type, relation⟩ with
    | ok found => exact ⟨found, find_eq_ok.mp hfind⟩
    | error reason =>
      have hmissing := (find_stage ht hs).mpr hfind
      have hne : (⟨e.type, relation⟩ : MemberId) ≠ m := by
        rintro rfl
        -- the permission itself is there
        obtain ⟨p, hp, -⟩ := mem_openPermissions.mp hm
        rw [find_eq_ok.mpr (ht.member?_eq hp)] at hfind
        cases hfind
      exact absurd (.walk htarget hne .refl (.missing hmissing)) (hfaultless m edges hm e he _)

private theorem fanned_of_deadEnd (hnone : referenceDiagnostics t = []) {d : Diagnostic}
    (hd : d ∈ deadEnds (solution none t)) : Fanned t d := by
  have hs := variant_solution none t
  have hfaultless : Faultless t (solution none t) :=
    (faultless_iff hs (plainOpen_solution none t)).mpr (List.append_eq_nil_iff.mp hnone).2
  obtain ⟨m, solved, hsolved, hempty, rfl⟩ := mem_deadEnds.mp hd
  obtain ⟨p, hp, hfollows⟩ := isOpen_of_isEmpty hs hsolved hempty
  obtain rfl := Option.some.inj (hsolved.symm.trans (permission?_stage hs hp hfollows))
  have hopen : (m, p.edges) ∈ openPermissions t := mem_openPermissions.mpr ⟨p, hp, hfollows, rfl⟩
  have hname : (⟨m.type, p.name⟩ : MemberId) = m := by rw [ht.permission_name hp]
  obtain ⟨ho, hedges⟩ := followsEdges_iff.mp hfollows
  have htarget : ∀ e ∈ p.edges, ∃ next, e.target? = some next ∧
      ∃ found, t.member? next = some found :=
    fun e he => target_of_deadEnd ht hfaultless hopen hempty he
  simp only [hname]
  refine ⟨rfl, ⟨p, hp, ho, hedges, ?_⟩, ?_⟩
  · -- no edge is without a target, so the trail leaves none out
    rw [List.tail_cons, List.map_filterMap, ← List.filterMap_eq_map]
    apply List.filterMap_congr
    intro e he
    obtain ⟨next, hnext, -⟩ := htarget e he
    simp [hnext]
  · intro next hnext
    obtain ⟨e, he, hsome⟩ := List.mem_filterMap.mp hnext
    obtain ⟨next', hnext', hfound⟩ := htarget e he
    obtain rfl := Option.some.inj (hsome.symm.trans hnext')
    obtain ⟨htype, hsubject⟩ := target?_eq.mp hsome
    refine ⟨⟨p, ht.member?_eq hp, ?_⟩, hfound⟩
    rw [← htype, ← hsubject]
    exact standing_of_no_override ho he

/-- No member on the trail of a dead end leads to a subject type. -/
theorem not_reaches_of_deadEnd (hstar : t.get? anyType = none) (hnone : referenceDiagnostics t = [])
    {d : Diagnostic} (hd : d ∈ deadEnds (solution none t)) {m : MemberId} (hm : m ∈ d.trail)
    (type : String) : ¬ Reaches t m type := by
  obtain ⟨-, hdead⟩ := (deadEnd_iff ht hstar ((linked_iff ht hstar).mpr hnone)).mpr
    ⟨d, hd, rfl, fault_of_mem_deadEnds hd⟩
  obtain ⟨hstarts, ⟨p, hp, ho, hedges, -⟩, hspread⟩ := fanned_of_deadEnd ht hnone hd
  obtain ⟨hops, htrail⟩ := List.head?_eq_some_iff.mp hstarts
  rw [htrail] at hm hspread
  rcases List.mem_cons.mp hm with rfl | hm
  · exact hdead type
  · intro hreaches
    obtain ⟨⟨found, hfound, href⟩, next, hnext⟩ := hspread m hm
    obtain rfl := Option.some.inj (hfound.symm.trans (ht.member?_eq hp))
    refine hdead type (.through hfound ?_ (type_ne_any hstar hnext) hreaches)
    rw [declared_of_follows (followsEdges_iff.mpr ⟨ho, hedges⟩)]
    rwa [standing, ho] at href

end Table

/-- The trail of a dead end is the permission and then the members that its edges go through, in
their order. It is a path of references just where each of these refers to the next one. Unless a
definition takes the name that stands for any type, all members on it are without subjects. -/
theorem resolve_fanned {schema : Compiled.Schema} {t : Table} {policy : Policy}
    {ds : List Diagnostic} (ht : Table.ofCompiled schema = .ok t)
    (h : resolve policy t = .error ds) {d : Diagnostic} (hd : d ∈ ds)
    (hfault : d.fault = .noSubjects) :
    Fanned t d ∧ (d.trail.IsChain (PointsTo t) ↔ d.trail.tail.IsChain (PointsTo t)) ∧
      ((∀ d ∈ schema.definitions, d.name ≠ anyType) →
        ∀ m ∈ d.trail, ∀ type, ¬ Reaches t m type) := by
  have hfiled := filed_of_compiled ht
  obtain ⟨hnone, hdead⟩ := deadEnd_of_mem_complaints hfiled (mem_complaints_of_error h hd) hfault
  have hfanned := fanned_of_deadEnd hfiled hnone hdead
  exact ⟨hfanned, hfanned.isChain_iff, fun hstar m hm =>
    not_reaches_of_deadEnd hfiled (get?_any_of_compiled hstar ht) hnone hdead hm⟩

section Example
open Compiled Compiled.Expression

/-- Documents that are viewed by those who edit or share them, while those who view them edit and
share them: nobody does. -/
def idleDocuments : Compiled.Schema where
  definitions := [
    { name := "document", members := [
      .permission "view" (.ofUnion [.computed "edit", .computed "share"]),
      .permission "edit" (.ofUnion [.computed "view"]),
      .permission "share" (.ofUnion [.computed "view"])] }]

def idleTable : Table := (Table.ofCompiled idleDocuments).toOption.getD .empty

/-- The diagnostics on the documents. -/
def idleDiagnostics : List Diagnostic := [
  ⟨⟨"document", "edit"⟩, .noSubjects, [⟨"document", "edit"⟩, ⟨"document", "view"⟩]⟩,
  ⟨⟨"document", "share"⟩, .noSubjects, [⟨"document", "share"⟩, ⟨"document", "view"⟩]⟩,
  ⟨⟨"document", "view"⟩, .noSubjects,
    [⟨"document", "view"⟩, ⟨"document", "edit"⟩, ⟨"document", "share"⟩]⟩]

private theorem ofCompiled_idleDocuments : Table.ofCompiled idleDocuments = .ok idleTable := by
  decide +kernel

private theorem resolve_idleTable : resolve {} idleTable = .error idleDiagnostics :=
  resolve_eq_error.mpr (by decide +kernel)

/-- Whoever edits a document views it, but does not share it. -/
theorem not_pointsTo_share :
    ¬ PointsTo idleTable ⟨"document", "edit"⟩ ⟨"document", "share"⟩ := by
  rintro ⟨found, hfound, href⟩
  have hedit : (idleTable.member? ⟨"document", "edit"⟩).elim [] standing =
      [("document", .userset "view")] := by decide +kernel
  rw [hfound, Option.elim_some] at hedit
  rw [hedit] at href
  simp at href

theorem resolve_fanned_documents :
    Table.ofCompiled idleDocuments = .ok idleTable ∧
    resolve {} idleTable = .error idleDiagnostics ∧ ∃ edit share view,
      idleDiagnostics = [edit, share, view] ∧ view.fault = .noSubjects ∧ Fanned idleTable view ∧
      view.trail = [⟨"document", "view"⟩, ⟨"document", "edit"⟩, ⟨"document", "share"⟩] ∧
      ¬ view.trail.IsChain (PointsTo idleTable) ∧ edit.fault = .noSubjects ∧
      edit.trail.IsChain (PointsTo idleTable) := by
  obtain ⟨hview, hviewChain, -⟩ := resolve_fanned ofCompiled_idleDocuments resolve_idleTable
    (d := ⟨⟨"document", "view"⟩, .noSubjects, _⟩) (by simp [idleDiagnostics]; rfl) rfl
  obtain ⟨-, heditChain, -⟩ := resolve_fanned ofCompiled_idleDocuments resolve_idleTable
    (d := ⟨⟨"document", "edit"⟩, .noSubjects, _⟩) (by simp [idleDiagnostics]; rfl) rfl
  refine ⟨ofCompiled_idleDocuments, resolve_idleTable, _, _, _, rfl, rfl, hview, rfl, ?_, rfl,
    heditChain.mpr (List.isChain_singleton _)⟩
  intro hchain
  exact not_pointsTo_share (List.isChain_pair.mp (hviewChain.mp hchain))

/-- So not every trail of a dead end is a path of references. -/
theorem not_forall_deadEnd_path : ¬ ∀ (schema : Compiled.Schema) (t : Table) (policy : Policy)
    (ds : List Diagnostic), Table.ofCompiled schema = .ok t → resolve policy t = .error ds →
      ∀ d ∈ ds, d.fault = .noSubjects →
        d.trail.head? = some d.member ∧ d.trail.IsChain (PointsTo t) := by
  intro h
  obtain ⟨-, hchain⟩ := h idleDocuments idleTable {} idleDiagnostics ofCompiled_idleDocuments
    resolve_idleTable ⟨⟨"document", "view"⟩, .noSubjects,
      [⟨"document", "view"⟩, ⟨"document", "edit"⟩, ⟨"document", "share"⟩]⟩
    (by simp [idleDiagnostics]) rfl
  rw [List.isChain_cons_cons, List.isChain_pair] at hchain
  exact not_pointsTo_share hchain.2

end Example

end AuthSchema.Resolution
