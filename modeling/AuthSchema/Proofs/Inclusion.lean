import AuthSchema.Proofs.LeastSolution
import AuthSchema.Proofs.Members

/-! A table without complaints inside a larger one. Nothing in it refers to a type that only the
larger table has, for there would be a complaint; so each expansion of one of its permissions takes
the same path in both, and the larger solution agrees with the smaller where that is defined. -/
namespace AuthSchema.Resolution
variable {limit : Option Nat} {t u : Table} (h : t.Within u)
include h

private theorem permission?_within {m : MemberId} (hm : m.type ∈ t.keys) :
    permission? u m = permission? t m := by
  rw [permission?, permission?, h.get?_eq hm]

omit h in
private theorem type_mem_keys_of_isOpen {m : MemberId} (hm : IsOpen t m) : m.type ∈ t.keys := by
  obtain ⟨p, hp, -⟩ := hm
  obtain ⟨r, hr, -⟩ := permission?_iff.mp hp
  exact SortedMap.mem_keys_iff.mpr ⟨r, hr⟩

private theorem isOpen_within {m : MemberId} (hm : IsOpen t m) : IsOpen u m := by
  obtain ⟨p, hp, hf⟩ := hm
  exact ⟨p, (permission?_within h (type_mem_keys_of_isOpen ⟨p, hp, hf⟩)).trans hp, hf⟩

private theorem isOpen_of_within {m : MemberId} (hm : m.type ∈ t.keys) (hopen : IsOpen u m) :
    IsOpen t m := by
  obtain ⟨p, hp, hf⟩ := hopen
  exact ⟨p, (permission?_within h hm).symm.trans hp, hf⟩

private theorem mem_openPermissions_within {p : MemberId × List Edge} (hp : p.1.type ∈ t.keys) :
    p ∈ openPermissions u ↔ p ∈ openPermissions t := by
  rw [mem_openPermissions, mem_openPermissions, permission?_within h hp]

/-- An edge that is good in the smaller table is good in the larger one. -/
theorem edgeFault?_within {e : Edge} (he : edgeFault? t e = none) : edgeFault? u e = none := by
  rw [edgeFault?] at he ⊢
  cases hr : t.get? e.type with
  | none =>
    rw [hr] at he
    cases he
  | some r =>
    rw [hr] at he
    rw [h e.type r hr]
    exact he

omit h in
private theorem relationDiagnostics_eq_nil {type : String} {m : Member} :
    relationDiagnostics t type m = [] ↔
      (followsEdges m = true → ∀ e ∈ m.edges, edgeFault? t e = none) := by
  rw [relationDiagnostics]
  split
  · next hf => simp [hf, List.filterMap_eq_nil_iff]
  · next hf => simp [hf]

private theorem relationDiagnostics_within {type : String} {m : Member}
    (hm : relationDiagnostics t type m = []) : relationDiagnostics u type m = [] := by
  rw [relationDiagnostics_eq_nil] at hm ⊢
  exact fun hf e he => edgeFault?_within h (hm hf e he)

private theorem relationSubjects_within {type : String} {m : Member}
    (hm : relationDiagnostics t type m = []) : relationSubjects u m = relationSubjects t m := by
  rw [relationSubjects, relationSubjects]
  split
  · next hf =>
    have hgood := relationDiagnostics_eq_nil.mp hm hf
    have hsame : (m.edges.filter fun e => (edgeFault? u e).isNone) =
        m.edges.filter fun e => (edgeFault? t e).isNone :=
      List.filter_congr fun e he => by rw [hgood e he, edgeFault?_within h (hgood e he)]
    rw [hsame]
  · rfl

omit h in
private theorem relationDiagnostics_of_all (hnone : allRelationDiagnostics t = [])
    {type name : String} {r : Resource} {m : Member} (hr : t.get? type = some r)
    (hm : r.relations.get? name = some m) : relationDiagnostics t type m = [] := by
  have hall := List.flatMap_eq_nil_iff.mp hnone (type, r) (SortedMap.mem_entries_iff.mpr hr)
  exact List.flatMap_eq_nil_iff.mp hall m (SortedMap.mem_values_iff.mpr ⟨name, hm⟩)

/-- States of the two searches in which the smaller table's permissions have the same subjects. -/
theorem stage_within (hnone : allRelationDiagnostics t = []) {s s' : Table}
    (hs : Variant (seeded t) s) (hs' : Variant (seeded u) s')
    (hsubjects : ∀ m, IsOpen t m → subjectsAt s m = subjectsAt s' m) : s.Within s' := by
  intro type rs hrs
  rw [get?_stage hs] at hrs
  obtain ⟨r, hr, rfl⟩ := Option.map_eq_some_iff.mp hrs
  rw [get?_stage hs', h type r hr, Option.map_some]
  have hrelations : (r.relations.map fun _ m => { m with subjects := relationSubjects u m }) =
      r.relations.map fun _ m => { m with subjects := relationSubjects t m } :=
    SortedMap.map_congr fun name m hm => by
      rw [relationSubjects_within h (relationDiagnostics_of_all hnone hr hm)]
  have hpermissions : (r.permissions.map fun name p => { p with
        subjects := if followsEdges p then subjectsAt s' ⟨type, name⟩ else fixedSubjects p }) =
      r.permissions.map fun name p => { p with
        subjects := if followsEdges p then subjectsAt s ⟨type, name⟩ else fixedSubjects p } := by
    refine SortedMap.map_congr fun name p hp => ?_
    cases hf : followsEdges p with
    | true => rw [hsubjects ⟨type, name⟩ ⟨p, permission?_iff.mpr ⟨r, hr, hp⟩, hf⟩]
    | false => rfl
  rw [hrelations, hpermissions]

private theorem references_within {m : MemberId} {refs : List (String × SubjectRelation)}
    (hrefs : references t m = .ok refs) : references u m = .ok refs := by
  obtain ⟨found, hfound, rfl⟩ := references_eq_ok.mp hrefs
  obtain ⟨r, hr, hmember⟩ := Option.bind_eq_some_iff.mp (find_eq_ok.mp hfound)
  have hfound' : find u m = .ok found :=
    find_eq_ok.mpr (Option.bind_eq_some_iff.mpr ⟨r, h m.type r hr, hmember⟩)
  exact references_eq_ok.mpr ⟨found, hfound', rfl⟩

/-- Paths that come upon no fault in the smaller table are the same in the larger one. -/
theorem expandMember_within (trail : Trail) (m : MemberId)
    (hgood : ∀ reason on, .fault reason on ∉ expandMember t limit trail m) :
    expandMember u limit trail m = expandMember t limit trail m := by
  induction trail, m using expand_induction t limit with
  | step trail m ih =>
    have hsteps : steps u limit trail m = steps t limit trail m := by
      rw [steps_eq, steps_eq]
      cases hrefs : references t m with
      | error reason =>
        refine absurd (mem_expandMember.mpr (Or.inl ?_)) (hgood reason trail)
        rw [steps_eq, hrefs]
        exact List.mem_singleton_self _
      | ok refs => rw [references_within h hrefs]
    rw [expandMember_eq, expandMember_eq, hsteps]
    refine List.flatMap_congr fun step hstep => ?_
    cases step with
    | found finding => rfl
    | enter next =>
      refine ih next hstep fun reason on hf => hgood reason on ?_
      exact mem_expandMember.mpr (Or.inr ⟨next, hstep, hf⟩)

private theorem expand_within {start : MemberId} {edges : List Edge}
    (hgood : ∀ reason on, .fault reason on ∉ expand t limit start edges) :
    expand u limit start edges = expand t limit start edges := by
  refine List.flatMap_congr fun e he => ?_
  have hedge : ∀ reason on, .fault reason on ∉ expandEdge t limit start e :=
    fun reason on hf => hgood reason on (mem_expand.mpr ⟨e, he, hf⟩)
  rw [expandEdge] at hedge ⊢
  cases hs : e.subject with
  | itself =>
    simp only [expandEdge, hs] at hedge ⊢
    split at hedge
    · next hin =>
      obtain ⟨r, hr⟩ := SortedMap.mem_keys_iff.mp (SortedMap.contains_eq_true_iff.mp hin)
      have hin' : u.contains e.type = true :=
        SortedMap.contains_eq_true_iff.mpr (SortedMap.mem_keys_iff.mpr ⟨r, h e.type r hr⟩)
      rw [if_pos hin, if_pos hin']
    · exact absurd (List.mem_singleton_self _) (hedge _ _)
  | userset relation =>
    simp only [expandEdge, hs] at hedge ⊢
    exact expandMember_within h _ _ hedge

/-- The smaller solution on the smaller table's types, and the larger solution elsewhere. -/
def patched (limit : Option Nat) (t u : Table) (m : MemberId) : SubjectMap :=
  if m.type ∈ t.keys then subjectsAt (solution limit t) m else subjectsAt (solution limit u) m

omit h in
private theorem patched_inside {m : MemberId} (hm : m.type ∈ t.keys) :
    patched limit t u m = subjectsAt (solution limit t) m := if_pos hm

omit h in
private theorem patched_outside {m : MemberId} (hm : m.type ∉ t.keys) :
    patched limit t u m = subjectsAt (solution limit u) m := if_neg hm

private theorem plain_patched {m : MemberId} (hm : IsOpen u m) : (patched limit t u m).Plain := by
  by_cases hin : m.type ∈ t.keys
  · rw [patched_inside hin]
    exact plain_solution limit (isOpen_of_within h hin hm)
  · rw [patched_outside hin]
    exact plain_solution limit hm

section Clean
variable (hclean : complaints limit t = [])
include hclean

omit h in
/-- Without complaints no state of the search comes upon a fault. -/
theorem faultless_stage {s : Table} (hs : Variant (seeded t) s) (hp : PlainOpen s)
    {p : MemberId × List Edge} (hmem : p ∈ openPermissions t) (reason : Fault) (on : Trail) :
    .fault reason on ∉ expand s limit p.1 p.2 := by
  obtain ⟨-, hpermissions, -⟩ := complaints_eq_nil.mp hclean
  rw [← permissionDiagnostics_variant hs (plainOpen_seeded t) hp] at hpermissions
  rw [← openPermissions_stage hs] at hmem
  exact permissionDiagnostics_eq_nil.mp hpermissions p hmem reason on

private theorem expand_stage_within {s s' : Table} (hs : Variant (seeded t) s) (hp : PlainOpen s)
    (hs' : Variant (seeded u) s')
    (hsubjects : ∀ m, IsOpen t m → subjectsAt s m = subjectsAt s' m)
    {p : MemberId × List Edge} (hmem : p ∈ openPermissions t) :
    expand s' limit p.1 p.2 = expand s limit p.1 p.2 :=
  expand_within (stage_within h (complaints_eq_nil.mp hclean).1 hs hs' hsubjects)
    (faultless_stage hclean hs hp hmem)

/-- What the larger solution has on the smaller table's permissions leaves nothing to be found
there. -/
theorem allows_solution_within {m : MemberId} (hm : IsOpen t m) {type : String}
    (ha : Allows (solution limit t) m type) : Allows (solution limit u) m type := by
  have hplain : ∀ m, IsOpen t m → (subjectsAt (solution limit u) m).Plain :=
    fun m hm => plain_solution limit (isOpen_within h hm)
  refine solution_le_assignment hplain (fun p hp type hf => ?_) hm ha
  rw [← expand_stage_within h hclean ⟨_, rfl⟩ (plainOpen_assign_seeded hplain)
    (variant_solution limit u) (fun m hm => subjectsAt_assign_seeded hm _) hp] at hf
  have hp' : p ∈ openPermissions (solution limit u) := by
    rw [openPermissions_stage (variant_solution limit u)]
    exact (mem_openPermissions_within h (type_mem_keys_of_isOpen (isOpen_of_mem hp))).mpr hp
  exact settled_solution limit u p hp' type hf

/-- The patched solution lies below the larger one. -/
theorem allows_of_patched {m : MemberId} (hm : IsOpen u m) {type : String}
    (ha : (patched limit t u m).get? type = some .itself) : Allows (solution limit u) m type := by
  by_cases hin : m.type ∈ t.keys
  · rw [patched_inside hin] at ha
    exact allows_solution_within h hclean (isOpen_of_within h hin hm) ha
  · rw [patched_outside hin] at ha
    exact ha

/-- The patched solution leaves nothing to be found in the larger table, so it bounds the solution
there. -/
theorem allows_of_solution_within {m : MemberId} (hm : IsOpen t m) {type : String}
    (ha : Allows (solution limit u) m type) : Allows (solution limit t) m type := by
  have hplain : ∀ m, IsOpen u m → (patched limit t u m).Plain := fun m hm => plain_patched h hm
  have hbound := solution_le_assignment hplain (fun p hp type hf => ?_) (isOpen_within h hm) ha
  · rw [patched_inside (type_mem_keys_of_isOpen hm)] at hbound
    exact hbound
  · by_cases hin : p.1.type ∈ t.keys
    · have hp' : p ∈ openPermissions t := (mem_openPermissions_within h hin).mp hp
      have hsame : ∀ m, IsOpen t m → subjectsAt (solution limit t) m =
          subjectsAt (assign (seeded u) (patched limit t u)) m := fun m hm => by
        rw [subjectsAt_assign_seeded (isOpen_within h hm),
          patched_inside (type_mem_keys_of_isOpen hm)]
      rw [expand_stage_within h hclean (variant_solution limit t) (plainOpen_solution limit t)
        ⟨_, rfl⟩ hsame hp'] at hf
      rw [← openPermissions_stage (variant_solution limit t)] at hp'
      rw [patched_inside hin]
      exact settled_solution limit t p hp' type hf
    · rw [patched_outside hin]
      exact allows_of_expand_assignment hplain
        (fun m hm type ha => allows_of_patched h hclean hm ha) hp hf

private theorem subjectsAt_solution_within {m : MemberId} (hm : IsOpen t m) :
    subjectsAt (solution limit t) m = subjectsAt (solution limit u) m := by
  refine (plain_solution limit hm).ext (plain_solution limit (isOpen_within h hm)) fun type => ?_
  exact ⟨allows_solution_within h hclean hm, allows_of_solution_within h hclean hm⟩

/-- A table without complaints is solved inside a larger one as it is on its own. -/
theorem solution_within : (solution limit t).Within (solution limit u) :=
  stage_within h (complaints_eq_nil.mp hclean).1 (variant_solution limit t)
    (variant_solution limit u) fun _ => subjectsAt_solution_within h hclean

private theorem outside_of_relations {d : Diagnostic} (hd : d ∈ allRelationDiagnostics u) :
    d.member.type ∈ u.keys ∧ d.member.type ∉ t.keys := by
  obtain ⟨⟨type, r⟩, hr, hd⟩ := List.mem_flatMap.mp hd
  obtain ⟨m, hm, hd⟩ := List.mem_flatMap.mp hd
  have hget := SortedMap.mem_entries_iff.mp hr
  have htype : d.member.type = type := by
    rw [relationDiagnostics] at hd
    split at hd
    · obtain ⟨fault, -, rfl⟩ := List.mem_map.mp hd
      rfl
    · cases hd
  rw [htype]
  refine ⟨SortedMap.mem_keys_iff.mpr ⟨r, hget⟩, fun hin => ?_⟩
  rw [h.get?_eq hin] at hget
  obtain ⟨name, hname⟩ := SortedMap.mem_values_iff.mp hm
  have hnone : relationDiagnostics t type m = [] :=
    relationDiagnostics_of_all (complaints_eq_nil.mp hclean).1 hget hname
  rw [relationDiagnostics_within h hnone] at hd
  cases hd

private theorem outside_of_permissions {d : Diagnostic}
    (hd : d ∈ permissionDiagnostics limit (seeded u)) :
    d.member.type ∈ u.keys ∧ d.member.type ∉ t.keys := by
  obtain ⟨p, hp, hd⟩ := List.mem_flatMap.mp hd
  obtain ⟨f, hf, hd⟩ := List.mem_filterMap.mp hd
  rw [openPermissions_seeded] at hp
  cases f with
  | subject type => cases hd
  | fault reason on =>
    cases hd
    refine ⟨type_mem_keys_of_isOpen (isOpen_of_mem hp), fun hin => ?_⟩
    have hp' : p ∈ openPermissions t := (mem_openPermissions_within h hin).mp hp
    have hsame : ∀ m, IsOpen t m → subjectsAt (seeded t) m = subjectsAt (seeded u) m :=
      fun m hm => by rw [subjectsAt_seeded hm, subjectsAt_seeded (isOpen_within h hm)]
    rw [expand_stage_within h hclean (Variant.refl _) (plainOpen_seeded t) (Variant.refl _)
      hsame hp'] at hf
    exact faultless_stage hclean (Variant.refl _) (plainOpen_seeded t) hp' reason on hf

private theorem outside_of_deadEnds {d : Diagnostic} (hd : d ∈ deadEnds (solution limit u)) :
    d.member.type ∈ u.keys ∧ d.member.type ∉ t.keys := by
  obtain ⟨⟨type, r⟩, hr, hd⟩ := List.mem_flatMap.mp hd
  obtain ⟨m, hm, rfl⟩ := List.mem_map.mp hd
  have hget := SortedMap.mem_entries_iff.mp hr
  have hkey : type ∈ (solution limit u).keys := SortedMap.mem_keys_iff.mpr ⟨r, hget⟩
  rw [keys_stage (variant_solution limit u)] at hkey
  refine ⟨hkey, fun hin => ?_⟩
  rw [← keys_stage (variant_solution limit t)] at hin
  rw [(solution_within h hclean).get?_eq hin] at hget
  have hno := List.flatMap_eq_nil_iff.mp (complaints_eq_nil.mp hclean).2.2 _
    (SortedMap.mem_entries_iff.mpr hget)
  exact List.ne_nil_of_mem hd hno

/-- All that is wrong with the larger table is wrong with what it has beside the smaller one. -/
theorem outside_of_mem_complaints {d : Diagnostic} (hd : d ∈ complaints limit u) :
    d.member.type ∈ u.keys ∧ d.member.type ∉ t.keys := by
  rw [complaints] at hd
  split at hd
  · exact outside_of_deadEnds h hclean hd
  · rcases List.mem_append.mp hd with hd | hd
    · exact outside_of_relations h hclean hd
    · exact outside_of_permissions h hclean hd

end Clean

end AuthSchema.Resolution
