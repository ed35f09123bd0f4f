import AuthSchema.Proofs.LeastSolution
import AuthSchema.Proofs.Members

/-! An override put in place of what a member's edges give. Nothing asks whether the subject types
in it exist, until a permission comes to the member: it goes on from there through the usersets of
the override, and finds nothing where such a type is unknown. -/
namespace AuthSchema

/-- The second table has the given override at one member and is otherwise the first. -/
structure Table.Overridden (t t' : Table) (k : MemberId) (subjects : SubjectMap) : Prop where
  contains : ∀ type, t'.contains type = t.contains type
  others : ∀ m, m ≠ k → t'.member? m = t.member? m
  present : ∃ found, t.member? k = some found
  member : ∃ found, t'.member? k = some found ∧ found.activeOverride = some subjects

/-- No subject is a userset of a type that could be missing. -/
def SubjectMap.Terminal (m : SubjectMap) : Prop :=
  ∀ type relation, (type, .userset relation) ∈ m.entries → type = anyType

private theorem SubjectMap.Plain.exists_of_not_empty {m : SubjectMap} (h : m.Plain)
    (hne : m.isEmpty = false) : ∃ type, m.get? type = some .itself := by
  obtain ⟨type, s, hs⟩ := SortedMap.exists_of_not_empty hne
  exact ⟨type, h type s hs ▸ hs⟩

private theorem Table.Overridden.exists_mem {t t' : Table} {k : MemberId} {subjects : SubjectMap}
    (h : t.Overridden t' k subjects) : ∃ type subject, (type, subject) ∈ subjects.entries := by
  obtain ⟨found, -, hactive⟩ := h.member
  obtain ⟨-, hne⟩ := Option.filter_eq_some_iff.mp hactive
  obtain ⟨type, subject, hget⟩ := SortedMap.exists_of_not_empty (m := subjects) (by simpa using hne)
  exact ⟨type, subject, SortedMap.mem_entries_iff.mpr hget⟩

namespace Resolution

/-- A permission without override comes to a member, by one of its edges and declared references
from there. -/
def Visited (t : Table) (m : MemberId) : Prop :=
  ∃ start edges, (start, edges) ∈ openPermissions t ∧ ∃ e ∈ edges, ∃ x, e.target? = some x ∧
    Leads t x m

section Same
variable {t u : Table} (ht : Filed t) (hu : Filed u) {m : MemberId}
  (hsame : u.member? m = t.member? m)
include ht hu hsame

private theorem permission?_of_member? : permission? u m = permission? t m := by
  apply Option.ext
  intro p
  rw [permission?_iff_member? hu, permission?_iff_member? ht, hsame]

private theorem isOpen_of_member? : IsOpen u m ↔ IsOpen t m := by
  rw [IsOpen, IsOpen, permission?_of_member? ht hu hsame]

/-- A member that two tables share goes on to the same members in both. -/
theorem hop_of_member? {s v : Table} (hs : Variant (seeded t) s) (hv : Variant (seeded u) v)
    (hp : PlainOpen s) {b : MemberId} (h : Hop s m b) : Hop v m b := by
  obtain ⟨hm, hany, found, hfound, hmem⟩ := declared_of_hop ht hs hp h
  have hm' : ¬ IsOpen u m := fun ho => hm ((isOpen_of_member? ht hu hsame).mp ho)
  exact ⟨_, references_of_not_open hu hv hm' (hsame.trans hfound), hmem, hany⟩

end Same

/-- A walk is one of another table that differs at one member only, or goes through that member. -/
theorem walk_or_passes {t u s v : Table} {k : MemberId} (ht : Filed t) (hu : Filed u)
    (hothers : ∀ m, m ≠ k → u.member? m = t.member? m) (hs : Variant (seeded t) s)
    (hp : PlainOpen s) (hv : Variant (seeded u) v) {avoid : Trail} {a b : MemberId}
    (h : Walk s avoid a b) :
    Walk v avoid a b ∨ Walk s avoid a k ∧ Walk v avoid a k ∧ ∃ c, Hop s k c := by
  induction h with
  | refl => exact Or.inl .refl
  | @tail b c hab hstep ih =>
    rcases ih with hw | hpasses
    · by_cases hb : b = k
      · subst hb
        exact Or.inr ⟨hab, hw, c, hstep.1⟩
      · exact Or.inl (hw.tail ⟨hop_of_member? ht hu (hothers b hb) hs hv hp hstep.1, hstep.2⟩)
    · exact Or.inr hpasses

private theorem visited_of_walk {t s : Table} (ht : Filed t) (hs : Variant (seeded t) s)
    (hp : PlainOpen s) {avoid : Trail} {m x b : MemberId} {edges : List Edge} {e : Edge}
    (hm : (m, edges) ∈ openPermissions t) (he : e ∈ edges) (htarget : e.target? = some x)
    (hw : Walk s avoid x b) : Visited t b :=
  ⟨m, edges, hm, e, he, x, htarget, leads_of_walk ht hs hp hw⟩

/-- The solution without the override, less the permissions that come out empty with it. -/
def pruned (t t' : Table) (k m : MemberId) : SubjectMap :=
  if m ≠ k ∧ (subjectsAt (solution none t') m).isEmpty then .empty
  else subjectsAt (solution none t) m

private theorem allows_of_pruned {t t' : Table} {k m : MemberId} {type : String}
    (ha : (pruned t t' k m).get? type = some .itself) : Allows (solution none t) m type := by
  rw [pruned] at ha
  split at ha
  · cases ha
  · exact ha

private theorem plain_pruned {t t' : Table} {k m : MemberId} (hm : IsOpen t m) :
    (pruned t t' k m).Plain := by
  rw [pruned]
  split
  · exact SubjectMap.plain_empty
  · exact plain_solution none hm

private theorem plainOpen_pruned (t t' : Table) (k : MemberId) :
    PlainOpen (assign (seeded t) (pruned t t' k)) :=
  plainOpen_assign_seeded fun _ hm => plain_pruned hm

section Overridden
variable {t t' : Table} {k : MemberId} {subjects : SubjectMap} (ht : Filed t) (ht' : Filed t')
  (h : t.Overridden t' k subjects)
include h

private theorem mem_keys_overridden {type : String} : type ∈ t'.keys ↔ type ∈ t.keys := by
  rw [← SortedMap.contains_eq_true_iff, ← SortedMap.contains_eq_true_iff, h.contains]

private theorem exists_member?_overridden {m : MemberId} :
    (∃ found, t'.member? m = some found) ↔ ∃ found, t.member? m = some found := by
  by_cases hm : m = k
  · subst hm
    obtain ⟨found, hfound, -⟩ := h.member
    exact ⟨fun _ => h.present, fun _ => ⟨found, hfound⟩⟩
  · rw [h.others m hm]

/-- What a reference names does not depend on overrides. -/
theorem names_overridden {ref : String × SubjectRelation} : Names t' ref ↔ Names t ref := by
  simp only [names_iff_exists, mem_keys_overridden h, exists_member?_overridden h]

include ht'

private theorem not_isOpen_overridden : ¬ IsOpen t' k := by
  obtain ⟨found, hfound, hactive⟩ := h.member
  intro hopen
  rw [not_override_of_open ht' hopen hfound] at hactive
  cases hactive

private theorem ne_of_isOpen {m : MemberId} (hm : IsOpen t' m) : m ≠ k := by
  rintro rfl
  exact not_isOpen_overridden ht' h hm

/-- The overridden member goes on by its override. -/
theorem references_overridden {s : Table} (hs : Variant (seeded t') s) :
    references s k = .ok subjects.entries := by
  obtain ⟨found, hfound, hactive⟩ := h.member
  rw [references_of_not_open ht' hs (not_isOpen_overridden ht' h) hfound,
    declared_of_override hactive]

/-- A walk ends at a member whose override is terminal. -/
theorem not_hop_of_terminal {s : Table} (hs : Variant (seeded t') s) (hterminal : subjects.Terminal)
    (c : MemberId) : ¬ Hop s k c := by
  rintro ⟨refs, hrefs, hmem, hany⟩
  rw [references_overridden ht' h hs] at hrefs
  cases hrefs
  exact hany (hterminal _ _ hmem)

/-- Where a walk ends at a member with a terminal override, it finds a subject. -/
theorem gives_of_terminal {s : Table} (hs : Variant (seeded t') s)
    (hterminal : subjects.Terminal) : ∃ type, Gives s k (.ok type) := by
  obtain ⟨type, subject, hmem⟩ := h.exists_mem
  have hend : subject = .itself ∨ type = anyType := by
    cases subject with
    | itself => exact Or.inl rfl
    | userset relation => exact Or.inr (hterminal _ _ hmem)
  exact ⟨type, .subject (references_overridden ht' h hs) hmem hend⟩

/-- A permission that comes to the override is at fault if a type there is missing. -/
theorem complaints_of_visited (hvisited : Visited t' k) {type relation : String}
    (hmem : (type, .userset relation) ∈ subjects.entries) (hany : type ≠ anyType)
    (hmissing : t.get? type = none) : complaints none t' ≠ [] := by
  obtain ⟨start, edges₀, hstart, e₀, he₀, x₀, htarget₀, hleads⟩ := hvisited
  have hs : Variant (seeded t') (seeded t') := Variant.refl _
  have hentered : Entered t' (seeded t') k :=
    (entered_of_leads ht' hs (entered_of_target hstart he₀ htarget₀) hleads).resolve_left
      (not_isOpen_overridden ht' h)
  have hhop : Hop (seeded t') k ⟨type, relation⟩ :=
    ⟨_, references_overridden ht' h hs, hmem, hany⟩
  have hdangles : Dangles t' (type, .userset relation) (.unknownType type) := by
    refine .type (Option.not_isSome_iff_eq_none.mp fun hin => ?_)
    have hcontains : t.contains type = true := (h.contains type).symm.trans hin
    rw [SortedMap.contains, hmissing] at hcontains
    cases hcontains
  obtain ⟨m, edges, hm, e, he, hgives⟩ := edgeGives_of_entered ht' hs hentered hhop hdangles
  intro hnone
  exact (faultless_iff hs (plainOpen_seeded t')).mpr (complaints_eq_nil.mp hnone).2.1 m edges hm e
    he _ hgives

include ht

private theorem isOpen_others {m : MemberId} (hm : m ≠ k) : IsOpen t' m ↔ IsOpen t m :=
  isOpen_of_member? ht ht' (h.others m hm)

private theorem mem_openPermissions_others {m : MemberId} (hm : m ≠ k) {edges : List Edge} :
    (m, edges) ∈ openPermissions t' ↔ (m, edges) ∈ openPermissions t := by
  rw [mem_openPermissions, mem_openPermissions, permission?_of_member? ht ht' (h.others m hm)]

private theorem relations_overridden (hnone : allRelationDiagnostics t = []) :
    allRelationDiagnostics t' = [] := by
  rw [allRelationDiagnostics_eq_nil ht] at hnone
  rw [allRelationDiagnostics_eq_nil ht']
  intro m rel hrel ho e he
  obtain ⟨hfound, hkind⟩ := (relation?_iff_member? ht').mp hrel
  have hm : m ≠ k := by
    rintro rfl
    obtain ⟨found, hfound', hactive⟩ := h.member
    obtain rfl := Option.some.inj (hfound.symm.trans hfound')
    rw [ho] at hactive
    cases hactive
  rw [h.others m hm] at hfound
  exact (names_overridden h).mpr
    (hnone m rel ((relation?_iff_member? ht).mpr ⟨hfound, hkind⟩) ho e he)

/-- A member beside the overridden one still gives something, as permissions that come out empty
have been pruned. -/
theorem gives_of_pruned {b : MemberId} (hb : b ≠ k) {type : String}
    (hg : Gives (assign (seeded t) (pruned t t' k)) b (.ok type)) :
    ∃ type', Gives (solution none t') b (.ok type') := by
  have hv : Variant (seeded t) (assign (seeded t) (pruned t t' k)) := ⟨_, rfl⟩
  have hs' := variant_solution none t'
  by_cases ho : IsOpen t b
  · have ho' := (isOpen_others ht ht' h hb).mpr ho
    have ha := (gives_iff_of_open ht hv (plainOpen_pruned t t' k) ho).mp hg
    rw [Allows, subjectsAt_assign_seeded ho] at ha
    have hne : (subjectsAt (solution none t') b).isEmpty = false := by
      by_contra hempty
      rw [pruned, if_pos ⟨hb, by simpa using hempty⟩] at ha
      cases ha
    obtain ⟨type', ha'⟩ := (plain_solution none ho').exists_of_not_empty hne
    exact ⟨type', (gives_iff_of_open ht' hs' (plainOpen_solution none t') ho').mpr ha'⟩
  · have ho' : ¬ IsOpen t' b := fun hopen => ho ((isOpen_others ht ht' h hb).mp hopen)
    cases hg with
    | subject hrefs hmem hend =>
      obtain ⟨found, hfound, rfl⟩ := declared_of_references ht hv ho hrefs
      have hrefs' := references_of_not_open ht' hs' ho' ((h.others b hb).trans hfound)
      exact ⟨type, .subject hrefs' hmem hend⟩

section Harmless
variable (hharmless : Visited t' k → subjects.Terminal)
include hharmless

private theorem faultless_overridden (hfaultless : Faultless t (seeded t)) :
    Faultless t' (seeded t') := by
  have hs := Variant.refl (seeded t)
  have hs' := Variant.refl (seeded t')
  have hp' := plainOpen_seeded t'
  intro m edges hm e he reason hgives
  have hm' : (m, edges) ∈ openPermissions t :=
    (mem_openPermissions_others ht ht' h (ne_of_isOpen ht' h (isOpen_of_mem hm))).mp hm
  cases hgives with
  | noType hself hno =>
    refine hfaultless m edges hm' e he _ (.noType hself ?_)
    rw [contains_stage hs]
    rw [contains_stage hs'] at hno
    exact (h.contains e.type).symm.trans hno
  | @walk x b _ htarget hne hw hg =>
    have hw' : Walk (seeded t) [m] x b := by
      rcases walk_or_passes ht' ht (fun m hm => (h.others m hm).symm) hs' hp' hs hw with
        hw' | ⟨hin, -, c, hhop⟩
      · exact hw'
      · have hterminal := hharmless (visited_of_walk ht' hs' hp' hm he htarget hin)
        exact absurd hhop (not_hop_of_terminal ht' h hs' hterminal c)
    cases hg with
    | missing hmissing =>
      rw [find_stage ht' hs', find_eq_error] at hmissing
      have hnot : ¬ Names t (b.type, .userset b.member) := fun hnames =>
        names_iff.mp ((names_overridden h).mpr hnames) reason hmissing
      rw [names_iff, not_forall_not] at hnot
      obtain ⟨reason', hdangles⟩ := hnot
      exact hfaultless m edges hm' e he _
        (.walk htarget hne hw' (gives_missing ht hs hdangles))

/-- An edge that gives something in the pruned state gives something with the override. -/
theorem edgeGives_of_pruned {m : MemberId} {edges : List Edge} {e : Edge} {type : String}
    (hm : (m, edges) ∈ openPermissions t') (he : e ∈ edges)
    (hgives : EdgeGives (assign (seeded t) (pruned t t' k)) m e (.ok type)) :
    ∃ type', EdgeGives (solution none t') m e (.ok type') := by
  have hv : Variant (seeded t) (assign (seeded t) (pruned t t' k)) := ⟨_, rfl⟩
  have hs' := variant_solution none t'
  have hp' := plainOpen_solution none t'
  cases hgives with
  | object hself hin =>
    rw [contains_stage hv] at hin
    refine ⟨e.type, .object hself ?_⟩
    rw [contains_stage hs']
    exact (h.contains e.type).trans hin
  | @walk x b _ htarget hne hw hg =>
    have hatk : Walk (solution none t') [m] x k →
        ∃ type', EdgeGives (solution none t') m e (.ok type') := by
      intro hwk
      have hterminal := hharmless (visited_of_walk ht' hs' hp' hm he htarget hwk)
      obtain ⟨type', hg'⟩ := gives_of_terminal ht' h hs' hterminal
      exact ⟨type', .walk htarget hne hwk hg'⟩
    rcases walk_or_passes ht ht' h.others hv (plainOpen_pruned t t' k) hs' hw with
      hw' | ⟨-, hwk, -⟩
    · by_cases hb : b = k
      · exact hatk (hb ▸ hw')
      · obtain ⟨type', hg'⟩ := gives_of_pruned ht ht' h hb hg
        exact ⟨type', .walk htarget hne hw' hg'⟩
    · exact hatk hwk

/-- The pruned state is settled: what a permission comes to, it allows. -/
theorem settled_pruned {m : MemberId} {edges : List Edge} (hm : (m, edges) ∈ openPermissions t)
    {type : String}
    (hf : .subject type ∈ expand (assign (seeded t) (pruned t t' k)) none m edges) :
    (pruned t t' k m).get? type = some .itself := by
  have hv : Variant (seeded t) (assign (seeded t) (pruned t t' k)) := ⟨_, rfl⟩
  by_cases hempty : m ≠ k ∧ (subjectsAt (solution none t') m).isEmpty
  · have hm' := (mem_openPermissions_others ht ht' h hempty.1).mpr hm
    obtain ⟨e, he, hgives⟩ | ⟨n, hlimit, -⟩ :=
      edgeGives_of_mem_expand (references_of_open ht hv (isOpen_of_mem hm)) hf
    · obtain ⟨type', hgives'⟩ := edgeGives_of_pruned ht ht' h hharmless hm' he hgives
      have ha := allows_of_edgeGives (variant_solution none t') (settled_solution none t') hm' he
        hgives'
      rw [Allows, SortedMap.isEmpty_iff.mp hempty.2 type'] at ha
      cases ha
    · cases hlimit
  · rw [pruned, if_neg hempty]
    exact allows_of_expand_assignment (fun _ hm => plain_pruned hm)
      (fun _ _ _ ha => allows_of_pruned ha) hm hf

/-- The override empties no permission. -/
theorem supplied_overridden (hsupplied : deadEnds (solution none t) = []) :
    deadEnds (solution none t') = [] := by
  rw [deadEnds_solution_eq_nil] at hsupplied ⊢
  intro m hm'
  have hmk := ne_of_isOpen ht' h hm'
  have hm := (isOpen_others ht ht' h hmk).mp hm'
  obtain ⟨type, ha⟩ := (plain_solution none hm).exists_of_not_empty (hsupplied m hm)
  have hbound := solution_le_assignment (fun m hm => plain_pruned hm)
    (fun p hp type hf => settled_pruned ht ht' h hharmless hp hf) hm ha
  by_contra hempty
  rw [pruned, if_pos ⟨hmk, by simpa using hempty⟩] at hbound
  cases hbound

end Harmless

/-- An override of missing types is in order, unless a permission comes to a userset of it. -/
theorem complaints_overridden_eq_nil (hclean : complaints none t = [])
    (hmissing : ∀ type relation, (type, .userset relation) ∈ subjects.entries → type ≠ anyType →
      t.get? type = none) :
    complaints none t' = [] ↔ (Visited t' k → subjects.Terminal) := by
  obtain ⟨hrelations, hpermissions, hsupplied⟩ := complaints_eq_nil.mp hclean
  constructor
  · intro hnone hvisited type relation hmem
    by_contra hany
    exact complaints_of_visited ht' h hvisited hmem hany (hmissing type relation hmem hany) hnone
  · intro hharmless
    have hfaultless := (faultless_iff (Variant.refl _) (plainOpen_seeded t)).mpr hpermissions
    refine complaints_eq_nil.mpr ⟨relations_overridden ht ht' h hrelations, ?_,
      supplied_overridden ht ht' h hharmless hsupplied⟩
    exact (faultless_iff (Variant.refl _) (plainOpen_seeded t')).mp
      (faultless_overridden ht ht' h hharmless hfaultless)

end Overridden

/-- A member with an override has it for its subjects, whatever the state. -/
theorem subjects_of_override {t s : Table} (hs : Variant (seeded t) s) (ht : Filed t)
    {m : MemberId} {source : Member} (hsource : t.member? m = some source) {subjects : SubjectMap}
    (ho : source.activeOverride = some subjects) :
    s.member? m = some { source with subjects } := by
  have hf : followsEdges source = false := by simp [followsEdges, ho]
  have hfixed : stageSubjects t s m source = subjects := by
    rw [stageSubjects, if_neg (by simp [hf]), relationSubjects_of_not_follows hf, fixedSubjects, ho,
      Option.getD_some]
  rw [member?_stage hs ht, hsource, Option.map_some, hfixed]

end Resolution

end AuthSchema
