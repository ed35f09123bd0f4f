import AuthSchema.Proofs.References

/-! Which tables resolution accepts. All references that it follows have to name what exists, and
then each permission that follows its edges has to reach some subject type. Whatever fails to do so
is told, and nothing else. -/
namespace AuthSchema.Resolution

theorem mem_deadEnds {s : Table} {d : Diagnostic} : d ∈ deadEnds s ↔
    ∃ m p, permission? s m = some p ∧ p.subjects.isEmpty = true ∧
      d = ⟨⟨m.type, p.name⟩, .noSubjects, ⟨m.type, p.name⟩ :: p.edges.filterMap Edge.target?⟩ := by
  constructor
  · intro hd
    obtain ⟨⟨type, r⟩, hr, hd⟩ := List.mem_flatMap.mp hd
    obtain ⟨p, hp, rfl⟩ := List.mem_map.mp hd
    obtain ⟨hvalue, hempty⟩ := List.mem_filter.mp hp
    obtain ⟨name, hname⟩ := SortedMap.mem_values_iff.mp hvalue
    have hperm : permission? s ⟨type, name⟩ = some p :=
      permission?_iff.mpr ⟨r, SortedMap.mem_entries_iff.mp hr, hname⟩
    exact ⟨⟨type, name⟩, p, hperm, hempty, rfl⟩
  · rintro ⟨m, p, hperm, hempty, rfl⟩
    obtain ⟨r, hr, hget⟩ := permission?_iff.mp hperm
    refine List.mem_flatMap.mpr ⟨(m.type, r), SortedMap.mem_entries_iff.mpr hr, ?_⟩
    refine List.mem_map.mpr ⟨p, List.mem_filter.mpr ⟨?_, hempty⟩, rfl⟩
    exact SortedMap.mem_values_iff.mpr ⟨m.member, hget⟩

theorem fixedSubjects_not_empty (m : Member) : (fixedSubjects m).isEmpty = false := by
  rw [fixedSubjects]
  cases h : m.activeOverride with
  | none => rfl
  | some subjects =>
    obtain ⟨-, hsubjects⟩ := Option.filter_eq_some_iff.mp h
    simpa using hsubjects

/-- Only open permissions can come out without subjects. -/
theorem isOpen_of_isEmpty {t s : Table} (hs : Variant (seeded t) s) {m : MemberId} {p : Member}
    (hp : permission? s m = some p) (hempty : p.subjects.isEmpty = true) : IsOpen t m := by
  rw [permission?_stage_eq hs] at hp
  obtain ⟨source, hsource, rfl⟩ := Option.map_eq_some_iff.mp hp
  by_contra hm
  have hf : followsEdges source = false :=
    Bool.eq_false_iff.mpr fun hf => hm ⟨source, hsource, hf⟩
  simp only [hf, Bool.false_eq_true, if_false, fixedSubjects_not_empty source] at hempty

/-- Every permission whose subjects follow from its edges can reach some subject type. -/
def Supplied (t : Table) : Prop := ∀ m, IsOpen t m → ∃ type, Reaches t m type

/-- A permission whose edges lead to no subject type. -/
def DeadEnd (t : Table) (m : MemberId) : Prop := IsOpen t m ∧ ∀ type, ¬ Reaches t m type

theorem supplied_iff {t : Table} : Supplied t ↔ ∀ m, ¬ DeadEnd t m := by
  simp only [Supplied, DeadEnd, not_and, not_forall, not_not]

/-- Where all references are good, the permissions without subjects are the dead ends. -/
theorem deadEnd_iff {t : Table} (ht : Filed t) (hstar : t.get? anyType = none) (hlinked : Linked t)
    {m : MemberId} : DeadEnd t m ↔
      ∃ d ∈ deadEnds (solution none t), d.member = m ∧ d.fault = .noSubjects := by
  have hs := variant_solution none t
  have hplain := plainOpen_solution none t
  constructor
  · rintro ⟨⟨p, hp, hfollows⟩, hno⟩
    have hempty : (subjectsAt (solution none t) m).isEmpty = true := by
      refine SortedMap.isEmpty_iff.mpr fun type => ?_
      cases hget : (subjectsAt (solution none t) m).get? type with
      | none => rfl
      | some subject =>
        obtain rfl := hplain m ((isOpen_stage hs).mpr ⟨p, hp, hfollows⟩) type _ hget
        exact absurd ((run_solution none t).sound ht hstar m ⟨p, hp, hfollows⟩ type hget) (hno type)
    refine ⟨_, mem_deadEnds.mpr ⟨m, _, permission?_stage hs hp hfollows, hempty, rfl⟩, ?_, rfl⟩
    simp only [ht.permission_name hp]
  · rintro ⟨d, hd, rfl, -⟩
    obtain ⟨m, p, hp, hempty, rfl⟩ := mem_deadEnds.mp hd
    obtain ⟨source, hsource, hfollows⟩ := isOpen_of_isEmpty hs hp hempty
    have hm : IsOpen t m := ⟨source, hsource, hfollows⟩
    obtain rfl := Option.some.inj (hp.symm.trans (permission?_stage hs hsource hfollows))
    simp only [ht.permission_name hsource]
    refine ⟨hm, fun type hreaches => ?_⟩
    have ha := (allows_solution_iff ht hstar (hlinked.faultless ht hstar hs hplain) hm).mpr hreaches
    rw [Allows, SortedMap.isEmpty_iff.mp hempty type] at ha
    cases ha

theorem fault_of_mem_deadEnds {s : Table} {d : Diagnostic} (h : d ∈ deadEnds s) :
    d.fault = .noSubjects := by
  obtain ⟨m, p, -, -, rfl⟩ := mem_deadEnds.mp h
  rfl

section Complaints
variable {t : Table} (ht : Filed t) (hstar : t.get? anyType = none)
include ht hstar

private theorem complaints_of_linked (h : Linked t) :
    complaints none t = deadEnds (solution none t) :=
  if_pos (List.isEmpty_iff.mpr ((linked_iff ht hstar).mp h))

private theorem complaints_of_not_linked (h : ¬ Linked t) :
    complaints none t = referenceDiagnostics t :=
  if_neg (fun hempty => h ((linked_iff ht hstar).mpr (List.isEmpty_iff.mp hempty)))

theorem complaints_eq_nil_iff : complaints none t = [] ↔ Linked t ∧ Supplied t := by
  by_cases h : Linked t
  · rw [complaints_of_linked ht hstar h, supplied_iff, List.eq_nil_iff_forall_not_mem]
    constructor
    · intro hno
      refine ⟨h, fun m hdead => ?_⟩
      obtain ⟨d, hd, -⟩ := (deadEnd_iff ht hstar h).mp hdead
      exact hno d hd
    · rintro ⟨-, hno⟩ d hd
      exact hno d.member ((deadEnd_iff ht hstar h).mpr ⟨d, hd, rfl, fault_of_mem_deadEnds hd⟩)
  · rw [complaints_of_not_linked ht hstar h, ← linked_iff ht hstar]
    simp [h]

/-- Every complaint is about something that is wrong. -/
theorem wrong_of_mem_complaints {d : Diagnostic} (hd : d ∈ complaints none t) :
    Broken t d.fault ∨ (Linked t ∧ d.fault = .noSubjects ∧ DeadEnd t d.member) := by
  by_cases h : Linked t
  · rw [complaints_of_linked ht hstar h] at hd
    have hfault := fault_of_mem_deadEnds hd
    exact Or.inr ⟨h, hfault, (deadEnd_iff ht hstar h).mpr ⟨d, hd, rfl, hfault⟩⟩
  · rw [complaints_of_not_linked ht hstar h] at hd
    exact Or.inl ((broken_iff ht hstar).mpr ⟨d, hd, rfl⟩)

private theorem mem_complaints_of_broken {reason : Fault} (h : Broken t reason) :
    ∃ d ∈ complaints none t, d.fault = reason := by
  have hlinked : ¬ Linked t := fun hl => linked_iff_not_broken.mp hl reason h
  rw [complaints_of_not_linked ht hstar hlinked]
  exact (broken_iff ht hstar).mp h

private theorem mem_complaints_of_badReference {m : MemberId} {reason : Fault}
    (h : BadReference t m reason) : ∃ d ∈ complaints none t, d.member = m ∧ d.fault = reason := by
  have hlinked : ¬ Linked t := fun hl => linked_iff_not_broken.mp hl reason (.reference h)
  rw [complaints_of_not_linked ht hstar hlinked]
  exact mem_referenceDiagnostics_of_badReference ht h

end Complaints

/-- Resolution accepts a table just where all references name what exists and every permission that
follows its edges reaches a subject type. Otherwise it tells what is wrong and nothing else: all of
it, or a single thing if it is to stop there. -/
theorem resolve_ok_iff {schema : Compiled.Schema} {t : Table} {policy : Policy}
    (hstar : ∀ d ∈ schema.definitions, d.name ≠ anyType) (ht : Table.ofCompiled schema = .ok t)
    (hlimit : policy.depthLimit = none) :
    ((∃ r, resolve policy t = .ok r) ↔ Linked t ∧ Supplied t) ∧
    ∀ ds, resolve policy t = .error ds → ds ≠ [] ∧
      (∀ d ∈ ds, Broken t d.fault ∨ (Linked t ∧ d.fault = .noSubjects ∧ DeadEnd t d.member)) ∧
      (policy.stopAtFirst = true → ds.length = 1) ∧
      (policy.stopAtFirst = false →
        (∀ m reason, BadReference t m reason → ∃ d ∈ ds, d.member = m ∧ d.fault = reason) ∧
        (∀ reason, Broken t reason → ∃ d ∈ ds, d.fault = reason) ∧
        (Linked t → ∀ m, DeadEnd t m → ∃ d ∈ ds, d.member = m ∧ d.fault = .noSubjects)) := by
  have hfiled := filed_of_compiled ht
  have hany := get?_any_of_compiled hstar ht
  refine ⟨?_, ?_⟩
  · simp only [resolve_eq_ok, hlimit, exists_eq_right]
    exact complaints_eq_nil_iff hfiled hany
  · intro ds h
    obtain ⟨hne, rfl⟩ := resolve_eq_error.mp h
    rw [hlimit] at hne ⊢
    cases policy.stopAtFirst with
    | true =>
      simp only [if_true]
      refine ⟨by simpa using hne, ?_, fun _ => ?_, fun hstop => by cases hstop⟩
      · exact fun d hd => wrong_of_mem_complaints hfiled hany (List.mem_of_mem_take hd)
      · rw [List.length_take]
        have hpos := List.length_pos_iff.mpr hne
        omega
    | false =>
      rw [if_neg Bool.false_ne_true]
      refine ⟨hne, fun d => wrong_of_mem_complaints hfiled hany,
        fun hstop => absurd hstop Bool.false_ne_true, fun _ => ⟨?_, ?_, ?_⟩⟩
      · exact fun m reason => mem_complaints_of_badReference hfiled hany
      · exact fun reason => mem_complaints_of_broken hfiled hany
      · intro hlinked m hdead
        rw [complaints_of_linked hfiled hany hlinked]
        exact (deadEnd_iff hfiled hany hlinked).mp hdead

theorem resolve_ok_iff_folders :
    (∀ d ∈ folders.definitions, d.name ≠ anyType) ∧
    Table.ofCompiled folders = .ok foldersTable ∧ (∃ r, resolve {} foldersTable = .ok r) ∧
    Linked foldersTable ∧ Supplied foldersTable := by
  have hstar : ∀ d ∈ folders.definitions, d.name ≠ anyType := by decide
  have hlimit : ({} : Policy).depthLimit = none := rfl
  have hiff := (resolve_ok_iff hstar ofCompiled_folders hlimit).1
  exact ⟨hstar, ofCompiled_folders, ⟨_, resolve_folders⟩, hiff.mp ⟨_, resolve_folders⟩⟩

end AuthSchema.Resolution
