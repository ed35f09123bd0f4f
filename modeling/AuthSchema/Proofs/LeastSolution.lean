import AuthSchema.Proofs.Solution

/-! The solution is the least table that is closed under expansion. A closed variant bounds every
run from below the solution's start, since larger states only make expansions come upon more; so
runs that can go no further end in the same table, whatever their order. -/
namespace AuthSchema.Resolution
variable {limit : Option Nat}

/-- Expanding a permission that is not overridden comes upon no subject that it lacks. -/
def Closed (limit : Option Nat) (t : Table) : Prop :=
  ∀ m p, permission? t m = some p → p.activeOverride = none →
    ∀ e ∈ (expand t limit m p.edges).filterMap Finding.subject?, e ∈ p.subjects.entries

private theorem allows_iff_mem_entries {t : Table} {m : MemberId} {type : String} :
    Allows t m type ↔ (type, .itself) ∈ (subjectsAt t m).entries := SortedMap.mem_entries_iff.symm

private theorem closed_iff_settled {t : Table} : Closed limit t ↔ Settled limit t := by
  constructor
  · rintro h ⟨m, edges⟩ hmem type hf
    obtain ⟨p, hp, hfollows, rfl⟩ := mem_openPermissions.mp hmem
    rw [allows_iff_mem_entries, subjectsAt_of_permission? hp]
    exact h m p hp (followsEdges_iff.mp hfollows).1 _ (mem_subjects.mpr ⟨rfl, hf⟩)
  · rintro h m p hp hoverride ⟨type, subject⟩ he
    obtain ⟨rfl, hf⟩ := mem_subjects.mp he
    have hedges : p.edges ≠ [] := by
      rintro hnil
      rw [hnil] at hf
      cases hf
    have hmem : (m, p.edges) ∈ openPermissions t :=
      mem_openPermissions.mpr ⟨p, hp, followsEdges_iff.mpr ⟨hoverride, hedges⟩, rfl⟩
    have ha := h _ hmem type hf
    rw [allows_iff_mem_entries, subjectsAt_of_permission? hp] at ha
    exact ha

/-- No run leaves the bounds that a settled variant sets at its start. -/
theorem Run.le_settled {t s b : Table} (h : Run limit t s) (hp : PlainOpen t) (hv : Variant t b)
    (hpb : PlainOpen b) (hb : Settled limit b)
    (hstart : ∀ m, IsOpen t m → ∀ type, Allows t m type → Allows b m type) :
    ∀ m, IsOpen t m → ∀ type, Allows s m type → Allows b m type := by
  induction h with
  | refl => exact hstart
  | @tail s s' hrun hstep ih =>
    obtain ⟨p, hmem, rfl⟩ := hstep
    have hvs : Variant t s := Run.variant hrun
    have hle : ∀ m, IsOpen s m → ∀ type, Allows s m type → Allows b m type :=
      fun m hm => ih m (hvs.isOpen_iff.mp hm)
    intro m hm type ha
    rcases (allows_extend hmem).mp ha with ha | ⟨rfl, hf⟩
    · exact ih m hm type ha
    · have hfb : .subject type ∈ expand b limit p.1 p.2 :=
        expand_mono (hvs.symm.trans hv) (Run.plainOpen hrun hp) hpb hle hf
      have hmemb : p ∈ openPermissions b := by
        rw [hv.openPermissions_eq, ← hvs.openPermissions_eq]
        exact hmem
      exact hb p hmemb type hfb

/-- A run that no step takes further has settled. -/
theorem settled_of_final {s : Table} (h : ∀ s', Extends limit s s' → s' = s) : Settled limit s := by
  intro p hmem type hf
  have hsame : extend limit s p = s := h _ ⟨p, hmem, rfl⟩
  have ha : Allows (extend limit s p) p.1 type := (allows_extend hmem).mpr (Or.inr ⟨rfl, hf⟩)
  rw [hsame] at ha
  exact ha

/-- Settled ends of two runs from one table are the same table. -/
theorem Run.settled_unique {t s s' : Table} (h : Run limit t s) (h' : Run limit t s')
    (hp : PlainOpen t) (hs : Settled limit s) (hs' : Settled limit s') : s = s' := by
  have hv := h.variant
  have hv' := h'.variant
  refine eq_of_allows_iff (hv'.symm.trans hv) (h'.plainOpen hp) (h.plainOpen hp) fun m hm type => ?_
  have hopen : IsOpen t m := hv'.isOpen_iff.mp hm
  constructor
  · exact h'.le_settled hp hv (h.plainOpen hp) hs (fun _ _ _ ha => h.allows ha) m hopen type
  · exact h.le_settled hp hv' (h'.plainOpen hp) hs' (fun _ _ _ ha => h'.allows ha) m hopen type

/-- Settled variants of the solution allow all that it allows. -/
theorem solution_le {t b : Table} (hv : Variant (solution limit t) b) (hpb : PlainOpen b)
    (hb : Settled limit b) {m : MemberId} {e : String × SubjectRelation}
    (he : e ∈ (subjectsAt (solution limit t) m).entries) : e ∈ (subjectsAt b m).entries := by
  by_cases hm : IsOpen (solution limit t) m
  · have hvs := variant_solution limit t
    have hopen := hvs.isOpen_iff.mp hm
    have hself : e.2 = .itself := (plainOpen_solution limit t m hm).mem_entries he
    obtain ⟨type, subject⟩ := e
    cases hself
    have hstart : ∀ m, IsOpen (seeded t) m → ∀ type, Allows (seeded t) m type → Allows b m type :=
      fun m hm type ha => absurd ha (not_allows_seeded (isOpen_seeded.mp hm) type)
    exact allows_iff_mem_entries.mp ((run_solution limit t).le_settled (plainOpen_seeded t)
      (hvs.trans hv) hpb hb hstart m hopen type (allows_iff_mem_entries.mpr he))
  · rw [hv.subjectsAt_eq hm]
    exact he

/-- Subjects that leave nothing to be found bound those of the solution. -/
theorem solution_le_assignment {t : Table} {σ : MemberId → SubjectMap}
    (hplain : ∀ m, IsOpen t m → (σ m).Plain)
    (hsettled : ∀ p ∈ openPermissions t, ∀ type,
      .subject type ∈ expand (assign (seeded t) σ) limit p.1 p.2 →
        (σ p.1).get? type = some .itself)
    {m : MemberId} (hm : IsOpen t m) {type : String} (ha : Allows (solution limit t) m type) :
    (σ m).get? type = some .itself := by
  have hv : Variant (solution limit t) (assign (seeded t) σ) :=
    (variant_solution limit t).symm.trans ⟨σ, rfl⟩
  have hb : Settled limit (assign (seeded t) σ) := by
    intro p hp type hf
    rw [openPermissions_assign, openPermissions_seeded] at hp
    rw [Allows, subjectsAt_assign_seeded (isOpen_of_mem hp)]
    exact hsettled p hp type hf
  have hle := solution_le hv (plainOpen_assign_seeded hplain) hb (allows_iff_mem_entries.mp ha)
  rw [subjectsAt_assign_seeded hm] at hle
  exact SortedMap.mem_entries_iff.mp hle

/-- The solution allows what expansions come upon from subjects that it allows. -/
theorem allows_of_expand_assignment {t : Table} {σ : MemberId → SubjectMap}
    (hplain : ∀ m, IsOpen t m → (σ m).Plain)
    (hle : ∀ m, IsOpen t m → ∀ type, (σ m).get? type = some .itself →
      Allows (solution limit t) m type)
    {p : MemberId × List Edge} (hp : p ∈ openPermissions t) {type : String}
    (hf : .subject type ∈ expand (assign (seeded t) σ) limit p.1 p.2) :
    Allows (solution limit t) p.1 type := by
  have hs := variant_solution limit t
  have hv : Variant (assign (seeded t) σ) (solution limit t) := Variant.trans (.symm ⟨σ, rfl⟩) hs
  have hbelow : ∀ m, IsOpen (assign (seeded t) σ) m → ∀ type,
      Allows (assign (seeded t) σ) m type → Allows (solution limit t) m type := by
    intro m hm type ha
    have hopen : IsOpen t m := isOpen_seeded.mp (isOpen_assign.mp hm)
    rw [Allows, subjectsAt_assign_seeded hopen] at ha
    exact hle m hopen type ha
  have hp' : p ∈ openPermissions (solution limit t) := by
    rw [hs.openPermissions_eq, openPermissions_seeded]
    exact hp
  exact settled_solution limit t p hp' type
    (expand_mono hv (plainOpen_assign_seeded hplain) (plainOpen_solution limit t) hbelow hf)

/-- The result of a resolution is closed under expansion and the least such table. Expanding
permissions one after the other ends in it in any order in which it ends at all. -/
theorem resolve_least {policy : Policy} {t r : Table} (h : resolve policy t = .ok r) :
    Closed policy.depthLimit r ∧
    (∀ s, Variant r s → PlainOpen s → Closed policy.depthLimit s →
      ∀ m, ∀ e ∈ (subjectsAt r m).entries, e ∈ (subjectsAt s m).entries) ∧
    Run policy.depthLimit (seeded t) r ∧
    ∀ s, Run policy.depthLimit (seeded t) s → (∀ s', Extends policy.depthLimit s s' → s' = s) →
      s = r := by
  obtain ⟨-, rfl⟩ := resolve_eq_ok.mp h
  refine ⟨closed_iff_settled.mpr (settled_solution _ t), ?_, run_solution _ t, ?_⟩
  · intro s hv hps hclosed m e he
    exact solution_le hv hps (closed_iff_settled.mp hclosed) he
  · intro s hrun hfinal
    exact hrun.settled_unique (run_solution _ t) (plainOpen_seeded t) (settled_of_final hfinal)
      (settled_solution _ t)

theorem resolve_least_folders :
    resolve {} foldersTable = .ok (solution none foldersTable) ∧
    Closed none (solution none foldersTable) ∧
    (∀ s, Variant (solution none foldersTable) s → PlainOpen s → Closed none s →
      ∀ m, ∀ e ∈ (subjectsAt (solution none foldersTable) m).entries,
        e ∈ (subjectsAt s m).entries) ∧
    Run none (seeded foldersTable) (solution none foldersTable) ∧
    ∀ s, Run none (seeded foldersTable) s → (∀ s', Extends none s s' → s' = s) →
      s = solution none foldersTable :=
  ⟨resolve_folders, resolve_least resolve_folders⟩

end AuthSchema.Resolution
