import AuthSchema.Proofs.Declared
import AuthSchema.Proofs.Pass

/-! The state in which passes begin, the one in which they end, and what resolution makes of it:
the diagnostics decide, and without any the end state is the result. -/
namespace AuthSchema.Resolution

/-- The table once relations are resolved and permissions have their first subjects. -/
def seeded (t : Table) : Table := seed (resolveRelations t)

theorem get?_seeded (t : Table) (type : String) :
    (seeded t).get? type = (t.get? type).map fun r =>
      { r with
        relations := r.relations.map fun _ m => { m with subjects := relationSubjects t m }
        permissions := r.permissions.map fun _ m => { m with subjects := seedSubjects m } } := by
  rw [seeded, seed, resolveRelations, SortedMap.map_map, SortedMap.get?_map]

private theorem permission?_seeded (t : Table) (m : MemberId) :
    permission? (seeded t) m =
      (permission? t m).map fun p => { p with subjects := seedSubjects p } := by
  rw [permission?, permission?, get?_seeded]
  cases t.get? m.type with
  | none => rfl
  | some r => exact SortedMap.get?_map _ _ _

private theorem give_seeded (subjects : SubjectMap) (p : Member) :
    give subjects { p with subjects := seedSubjects p } =
      { p with subjects := if followsEdges p then subjects else fixedSubjects p } := by
  have hsame : followsEdges { p with subjects := seedSubjects p } = followsEdges p := rfl
  rw [give, hsame, seedSubjects]
  split <;> rfl

/-- The resource types of a table while permissions are being solved. -/
theorem get?_stage {t s : Table} (hs : Variant (seeded t) s) (type : String) :
    s.get? type = (t.get? type).map fun r =>
      { r with
        relations := r.relations.map fun _ m => { m with subjects := relationSubjects t m }
        permissions := r.permissions.map fun name p =>
          { p with subjects :=
              if followsEdges p then subjectsAt s ⟨type, name⟩ else fixedSubjects p } } := by
  obtain ⟨σ, hσ⟩ := hs
  have hassign : s = assign (seeded t) (subjectsAt s) := by
    calc s = assign s (subjectsAt s) := (assign_subjectsAt s).symm
      _ = assign (seeded t) (subjectsAt s) := by conv_lhs => rw [hσ, assign_assign, ← hσ]
  conv_lhs => rw [hassign]
  rw [assign, SortedMap.get?_map, get?_seeded, Option.map_map]
  simp only [Function.comp_def, SortedMap.map_map, give_seeded]

theorem permission?_stage_eq {t s : Table} (hs : Variant (seeded t) s) (m : MemberId) :
    permission? s m = (permission? t m).map fun p =>
      { p with subjects := if followsEdges p then subjectsAt s m else fixedSubjects p } := by
  rw [permission?, permission?, get?_stage hs]
  cases t.get? m.type with
  | none => rfl
  | some r => exact SortedMap.get?_map _ _ _

theorem openPermissions_seeded (t : Table) : openPermissions (seeded t) = openPermissions t := by
  simp only [openPermissions, seeded, seed, resolveRelations, SortedMap.map, List.flatMap_map,
    List.filter_map, List.map_map, Function.comp_def]
  rfl

theorem memberIds_seeded (t : Table) : memberIds (seeded t) = memberIds t := by
  simp only [memberIds, seeded, seed, resolveRelations, SortedMap.map, SortedMap.keys,
    List.flatMap_map, List.map_map, Function.comp_def]

theorem isOpen_seeded {t : Table} {m : MemberId} : IsOpen (seeded t) m ↔ IsOpen t m := by
  rw [isOpen_iff, isOpen_iff, openPermissions_seeded]

theorem subjectsAt_seeded {t : Table} {m : MemberId} (h : IsOpen t m) :
    subjectsAt (seeded t) m = .empty := by
  obtain ⟨p, hp, hf⟩ := h
  have hseeded : permission? (seeded t) m = some { p with subjects := seedSubjects p } := by
    rw [permission?_seeded, hp, Option.map_some]
  rw [subjectsAt_of_permission? hseeded]
  exact if_pos hf

theorem subjectsAt_assign_seeded {t : Table} {m : MemberId} (h : IsOpen t m)
    (σ : MemberId → SubjectMap) : subjectsAt (assign (seeded t) σ) m = σ m :=
  subjectsAt_assign (isOpen_seeded.mpr h) σ

theorem plainOpen_assign_seeded {t : Table} {σ : MemberId → SubjectMap}
    (h : ∀ m, IsOpen t m → (σ m).Plain) : PlainOpen (assign (seeded t) σ) := by
  intro m hm
  have hopen : IsOpen t m := isOpen_seeded.mp (isOpen_assign.mp hm)
  rw [subjectsAt_assign_seeded hopen]
  exact h m hopen

theorem plainOpen_seeded (t : Table) : PlainOpen (seeded t) := by
  intro m hm
  rw [subjectsAt_seeded (isOpen_seeded.mp hm)]
  exact SubjectMap.plain_empty

theorem not_allows_seeded {t : Table} {m : MemberId} (h : IsOpen t m) (type : String) :
    ¬ Allows (seeded t) m type := by
  rw [Allows, subjectsAt_seeded h]
  intro ha
  cases ha

/-- A member of the seeded table is one of the table with the subjects that do not depend on
permissions. -/
theorem find_seeded {t : Table} {m : MemberId} {found : Member}
    (h : find (seeded t) m = .ok found) : ∃ source subjects, source ∈ allMembers t ∧
      found = { source with subjects } ∧
      (subjects = relationSubjects t source ∨ subjects = seedSubjects source) := by
  rw [find, get?_seeded] at h
  cases hr : t.get? m.type with
  | none =>
    rw [hr] at h
    cases h
  | some r =>
    have hvalue : r ∈ t.values := SortedMap.mem_values_iff.mpr ⟨_, hr⟩
    simp only [hr, Option.map_some, Resource.member?, SortedMap.get?_map] at h
    cases hrel : r.relations.get? m.member with
    | some rel =>
      rw [hrel] at h
      cases h
      refine ⟨rel, _, List.mem_flatMap.mpr ⟨r, hvalue, ?_⟩, rfl, Or.inl rfl⟩
      exact List.mem_append_left _ (SortedMap.mem_values_iff.mpr ⟨_, hrel⟩)
    | none =>
      rw [hrel] at h
      cases hp : r.permissions.get? m.member with
      | none =>
        rw [hp] at h
        cases h
      | some p =>
        rw [hp] at h
        cases h
        refine ⟨p, _, List.mem_flatMap.mpr ⟨r, hvalue, ?_⟩, rfl, Or.inr rfl⟩
        exact List.mem_append_right _ (SortedMap.mem_values_iff.mpr ⟨_, hp⟩)

private theorem mem_subjectUniverse_of_edge {t : Table} {m : Member} {e : Edge}
    (hm : m ∈ allMembers t) (he : e ∈ m.edges) : e.type ∈ subjectUniverse t := by
  refine mem_distinct.mpr (List.mem_cons_of_mem _ (List.mem_flatMap.mpr ⟨m, hm, ?_⟩))
  exact List.mem_append_left _ (List.mem_map.mpr ⟨e, he, rfl⟩)

private theorem mem_subjectUniverse_of_fixed {t : Table} {m : Member} {type : String}
    (hm : m ∈ allMembers t) (h : type ∈ (fixedSubjects m).keys) : type ∈ subjectUniverse t := by
  rw [fixedSubjects] at h
  cases ho : m.activeOverride with
  | none =>
    rw [ho] at h
    obtain ⟨v, hv⟩ := SortedMap.mem_keys_iff.mp h
    have hany : type = anyType := by
      by_contra hne
      rw [Option.getD_none, SubjectMap.get?_wildcard, if_neg hne] at hv
      cases hv
    exact mem_distinct.mpr (hany ▸ List.mem_cons_self)
  | some subjects =>
    rw [ho] at h
    obtain ⟨hoverride, -⟩ := Option.filter_eq_some_iff.mp ho
    refine mem_distinct.mpr (List.mem_cons_of_mem _ (List.mem_flatMap.mpr ⟨m, hm, ?_⟩))
    refine List.mem_append_right _ ?_
    rw [hoverride]
    exact h

private theorem mem_subjectUniverse_of_initial {t : Table} {m : Member} {subjects : SubjectMap}
    {type : String} (hm : m ∈ allMembers t)
    (hsubjects : subjects = relationSubjects t m ∨ subjects = seedSubjects m)
    (h : type ∈ subjects.keys) : type ∈ subjectUniverse t := by
  rcases hsubjects with rfl | rfl
  · rw [relationSubjects] at h
    split at h
    · obtain ⟨_, hmem, rfl⟩ := List.mem_map.mp (SubjectMap.mem_keys_collect h)
      obtain ⟨e, he, rfl⟩ := List.mem_map.mp hmem
      exact mem_subjectUniverse_of_edge hm (List.mem_filter.mp he).1
    · exact mem_subjectUniverse_of_fixed hm h
  · rw [seedSubjects] at h
    split at h
    · cases h
    · exact mem_subjectUniverse_of_fixed hm h

private theorem covers_seeded (t : Table) : Covers (subjectUniverse t) (seeded t) := by
  refine ⟨?_, ?_, fun m hm type ha => absurd ha (not_allows_seeded (isOpen_seeded.mp hm) type)⟩
  · rintro ⟨m, edges⟩ hp e he
    rw [openPermissions_seeded] at hp
    obtain ⟨p, hperm, -, rfl⟩ := mem_openPermissions.mp hp
    obtain ⟨r, hr, hget⟩ := permission?_iff.mp hperm
    refine mem_subjectUniverse_of_edge (List.mem_flatMap.mpr ⟨r, ?_, ?_⟩) he
    · exact SortedMap.mem_values_iff.mpr ⟨_, hr⟩
    · exact List.mem_append_right _ (SortedMap.mem_values_iff.mpr ⟨_, hget⟩)
  · intro m refs hrefs ref href
    obtain ⟨found, hfound, rfl⟩ := references_eq_ok.mp hrefs
    obtain ⟨source, subjects, hsource, rfl, hsubjects⟩ := find_seeded hfound
    by_cases hedges : source.kind = .relation ∧ followsEdges source = true
    · rw [outgoing_of_relation (p := { source with subjects }) hedges.1 hedges.2] at href
      obtain ⟨e, he, rfl⟩ := List.mem_map.mp href
      exact mem_subjectUniverse_of_edge hsource he
    · have hout : outgoing { source with subjects } = subjects.entries :=
        if_neg (by simpa [followsEdges, Member.activeOverride] using hedges)
      rw [hout] at href
      exact mem_subjectUniverse_of_initial hsource hsubjects (List.mem_map.mpr ⟨ref, href, rfl⟩)

/-- The state in which passes end. -/
def solution (limit : Option Nat) (t : Table) : Table :=
  let first := pass limit (openPermissions t) (seeded t)
  if first.changed then settle limit (openPermissions t) (passBound t) first.table
  else first.table

/-- The first pass adds a fact or is the last; the others have the bound to themselves. -/
theorem settles_solution (limit : Option Nat) (t : Table) :
    ∃ n ≤ 1 + passBound t, Settles limit (openPermissions t) n (seeded t) (solution limit t) := by
  have hops := openPermissions_seeded t
  rw [solution]
  cases h : (pass limit (openPermissions t) (seeded t)).changed with
  | false => exact ⟨1, by omega, .last h⟩
  | true =>
    rw [← hops] at h ⊢
    have hrun : Run limit (seeded t) (pass limit (openPermissions (seeded t)) (seeded t)).table :=
      pass_run _
    have hlt := card_facts_pass_lt (covers_seeded t) (plainOpen_seeded t) h
    have hops' : openPermissions (pass limit (openPermissions (seeded t)) (seeded t)).table =
        openPermissions (seeded t) := pass_openPermissions (seeded t)
    have hbound : passBound t = (openPermissions (pass limit (openPermissions (seeded t))
        (seeded t)).table).length * (subjectUniverse t).length := by rw [hops', hops, passBound]
    have hcovers := (covers_seeded t).run (plainOpen_seeded t) hrun
    have hplain := hrun.plainOpen (plainOpen_seeded t)
    obtain ⟨n, hn, hsettles⟩ := settles_settle hcovers hplain (passBound t) (by omega)
    rw [hops'] at hsettles
    exact ⟨n + 1, by omega, .again h hsettles⟩

theorem run_solution (limit : Option Nat) (t : Table) :
    Run limit (seeded t) (solution limit t) := by
  obtain ⟨n, -, h⟩ := settles_solution limit t
  exact (h.run_settled (openPermissions_seeded t).symm (plainOpen_seeded t)).1

theorem settled_solution (limit : Option Nat) (t : Table) : Settled limit (solution limit t) := by
  obtain ⟨n, -, h⟩ := settles_solution limit t
  exact (h.run_settled (openPermissions_seeded t).symm (plainOpen_seeded t)).2

theorem variant_solution (limit : Option Nat) (t : Table) :
    Variant (seeded t) (solution limit t) := (run_solution limit t).variant

theorem plainOpen_solution (limit : Option Nat) (t : Table) : PlainOpen (solution limit t) :=
  (run_solution limit t).plainOpen (plainOpen_seeded t)

theorem plain_solution (limit : Option Nat) {t : Table} {m : MemberId} (hm : IsOpen t m) :
    (subjectsAt (solution limit t) m).Plain :=
  plainOpen_solution limit t m
    ((variant_solution limit t).isOpen_iff.mpr (isOpen_seeded.mpr hm))

/-- All that is wrong with a table. Dead ends are told only where every reference is good. -/
def complaints (limit : Option Nat) (t : Table) : List Diagnostic :=
  let ds := allRelationDiagnostics t ++ permissionDiagnostics limit (seeded t)
  if ds.isEmpty then deadEnds (solution limit t) else ds

theorem complaints_eq_nil {limit : Option Nat} {t : Table} : complaints limit t = [] ↔
    allRelationDiagnostics t = [] ∧ permissionDiagnostics limit (seeded t) = [] ∧
      deadEnds (solution limit t) = [] := by
  rw [complaints, ← and_assoc, ← List.append_eq_nil_iff]
  cases h : allRelationDiagnostics t ++ permissionDiagnostics limit (seeded t) with
  | nil => simp
  | cons d ds => simp

private theorem collect_all (policy : Policy) (rs ps ds : List Diagnostic) (r : Table) :
    (do
      let found ← policy.collect [] rs
      let found ← policy.collect found ps
      demandNone found
      let found ← policy.collect [] ds
      demandNone found
      return r : Except (List Diagnostic) Table) =
    let all := if (rs ++ ps).isEmpty then ds else rs ++ ps
    if all.isEmpty then .ok r else .error (if policy.stopAtFirst then all.take 1 else all) := by
  obtain ⟨depthLimit, stopAtFirst⟩ := policy
  cases rs with
  | nil => cases ps <;> cases ds <;> cases stopAtFirst <;> rfl
  | cons d rest =>
    cases ps with
    | nil =>
      rw [List.append_nil]
      cases stopAtFirst <;> rfl
    | cons => cases stopAtFirst <;> rfl

/-- Resolution in one equation: the complaints, or the first of them, or the solution. -/
theorem resolve_eq (policy : Policy) (t : Table) : resolve policy t =
    if (complaints policy.depthLimit t).isEmpty then .ok (solution policy.depthLimit t)
    else .error (if policy.stopAtFirst then (complaints policy.depthLimit t).take 1
      else complaints policy.depthLimit t) := by
  have hfirst : (pass policy.depthLimit (openPermissions t) (seeded t)).diagnostics =
      permissionDiagnostics policy.depthLimit (seeded t) := by
    rw [← openPermissions_seeded t]
    exact pass_diagnostics (plainOpen_seeded t)
  rw [complaints, ← hfirst]
  exact collect_all policy (allRelationDiagnostics t) _ _ _

theorem resolve_eq_ok {policy : Policy} {t r : Table} : resolve policy t = .ok r ↔
    complaints policy.depthLimit t = [] ∧ r = solution policy.depthLimit t := by
  rw [resolve_eq]
  cases h : complaints policy.depthLimit t with
  | nil => simp [eq_comm]
  | cons d ds => simp

theorem resolve_folders : resolve {} foldersTable = .ok (solution none foldersTable) :=
  resolve_eq_ok.mpr ⟨by decide +kernel, rfl⟩

theorem resolve_eq_error {policy : Policy} {t : Table} {ds : List Diagnostic} :
    resolve policy t = .error ds ↔ complaints policy.depthLimit t ≠ [] ∧
      ds = if policy.stopAtFirst then (complaints policy.depthLimit t).take 1
        else complaints policy.depthLimit t := by
  rw [resolve_eq]
  cases h : complaints policy.depthLimit t with
  | nil => simp
  | cons d rest =>
    rw [if_neg (by simp), Except.error.injEq]
    constructor
    · rintro rfl
      exact ⟨by simp, rfl⟩
    · rintro ⟨-, rfl⟩
      rfl

/-- What resolution reports is among the complaints. -/
theorem mem_complaints_of_error {policy : Policy} {t : Table} {ds : List Diagnostic}
    (h : resolve policy t = .error ds) {d : Diagnostic} (hd : d ∈ ds) :
    d ∈ complaints policy.depthLimit t := by
  obtain ⟨-, rfl⟩ := resolve_eq_error.mp h
  split at hd
  · exact List.mem_of_mem_take hd
  · exact hd

end AuthSchema.Resolution
