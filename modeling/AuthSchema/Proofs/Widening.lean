import AuthSchema.Proofs.DepthLimit
import AuthSchema.Proofs.Members

/-! Tables in which members have more references than in others. Whatever is reached along the
references of a table is reached in a wider one as well, so no member loses a subject type. A member
without any reference is left as it is: it allows any subject, and would not with one. -/
namespace AuthSchema

/-- The second member has all references of the first, and further ones only if the first has any.
-/
structure Member.WidensTo (m m' : Member) : Prop where
  kind : m.kind = m'.kind
  activeOverride : m.activeOverride = m'.activeOverride
  references : ∀ e ∈ m.edges, ∃ e' ∈ m'.edges, e'.type = e.type ∧ e'.subject = e.subject
  bare : m.edges = [] → m'.edges = []

/-- The second table has all members of the first, with at least their references. -/
def Table.WidensTo (t t' : Table) : Prop :=
  ∀ m found, t.member? m = some found → ∃ found', t'.member? m = some found' ∧ found.WidensTo found'

instance (m m' : Member) : Decidable (m.WidensTo m') :=
  decidable_of_iff (m.kind = m'.kind ∧ m.activeOverride = m'.activeOverride ∧
      (∀ e ∈ m.edges, ∃ e' ∈ m'.edges, e'.type = e.type ∧ e'.subject = e.subject) ∧
      (m.edges = [] → m'.edges = []))
    ⟨fun ⟨hkind, ho, hrefs, hbare⟩ => ⟨hkind, ho, hrefs, hbare⟩,
      fun ⟨hkind, ho, hrefs, hbare⟩ => ⟨hkind, ho, hrefs, hbare⟩⟩

namespace Resolution

instance (t t' : Table) : Decidable (t.WidensTo t') :=
  decidable_of_iff (∀ m ∈ members t, ∀ found ∈ t.member? m, ∃ found' ∈ t'.member? m,
      found.WidensTo found') <| by
    constructor
    · intro h m found hfound
      exact h m (mem_members.mpr ⟨found, hfound⟩) found hfound
    · exact fun h m _ found hfound => h m found hfound

section Member
variable {m m' : Member} (h : m.WidensTo m')
include h

private theorem followsEdges_widened : followsEdges m' = followsEdges m := by
  have hedges : m'.edges = [] ↔ m.edges = [] := by
    refine ⟨fun hnone => List.eq_nil_iff_forall_not_mem.mpr fun e he => ?_, h.bare⟩
    obtain ⟨e', he', -⟩ := h.references e he
    rw [hnone] at he'
    cases he'
  rw [Bool.eq_iff_iff, followsEdges_iff, followsEdges_iff, h.activeOverride, Ne, hedges]

private theorem declared_widened {ref : String × SubjectRelation} (href : ref ∈ declared m) :
    ref ∈ declared m' := by
  cases hf : followsEdges m with
  | true =>
    rw [declared_of_follows hf] at href
    obtain ⟨e, he, rfl⟩ := List.mem_map.mp href
    obtain ⟨e', he', htype, hsubject⟩ := h.references e he
    rw [declared_of_follows ((followsEdges_widened h).trans hf)]
    exact List.mem_map.mpr ⟨e', he', by rw [htype, hsubject]⟩
  | false =>
    rw [declared_of_not_follows hf, fixedSubjects, h.activeOverride] at href
    rw [declared_of_not_follows ((followsEdges_widened h).trans hf)]
    exact href

end Member

section Table
variable {t t' : Table} (h : t.WidensTo t')
include h

/-- The same members are solved in both tables. -/
theorem isOpen_widened (ht : Filed t) (ht' : Filed t') {m : MemberId} {found : Member}
    (hfound : t.member? m = some found) : IsOpen t' m ↔ IsOpen t m := by
  obtain ⟨found', hfound', hwide⟩ := h m found hfound
  rw [isOpen_iff_of_member? ht hfound, isOpen_iff_of_member? ht' hfound', hwide.kind,
    followsEdges_widened hwide]

private theorem reaches_widened {m : MemberId} {type : String} (hreaches : Reaches t m type) :
    Reaches t' m type := by
  induction hreaches with
  | object hm hmem =>
    obtain ⟨found', hm', hwide⟩ := h _ _ hm
    exact .object hm' (declared_widened hwide hmem)
  | any hm hmem =>
    obtain ⟨found', hm', hwide⟩ := h _ _ hm
    exact .any hm' (declared_widened hwide hmem)
  | through hm hmem hany _ ih =>
    obtain ⟨found', hm', hwide⟩ := h _ _ hm
    exact .through hm' (declared_widened hwide hmem) hany ih

end Table

/-- An open permission of the solution has the types that it reaches; any other member has those
that its declared references begin with. -/
theorem mem_keys_solution {t : Table} (ht : Filed t) (hstar : t.get? anyType = none)
    (hnone : complaints none t = []) {m : MemberId} {found : Member}
    (hfound : (solution none t).member? m = some found) : ∃ source, t.member? m = some source ∧
      ∀ type, type ∈ found.subjects.keys ↔ (IsOpen t m ∧ Reaches t m type) ∨
        (¬ IsOpen t m ∧ type ∈ (declared source).map Prod.fst) := by
  obtain ⟨source, subjects, hsource, rfl, hcases⟩ := member?_solution ht hnone hfound
  refine ⟨source, hsource, fun type => ?_⟩
  have hopen := isOpen_iff_of_member? ht hsource
  rcases hcases with ⟨hf, rfl⟩ | ⟨hf, hrel, rfl⟩ | ⟨hf, hp, rfl⟩
  · have hno : ¬ IsOpen t m := by simp [hopen, hf]
    simp only [hno, false_and, false_or, not_false_eq_true, true_and, declared_of_not_follows hf]
    rfl
  · have hno : ¬ IsOpen t m := by simp [hopen, ht.relation_kind hrel]
    simp only [hno, false_and, false_or, not_false_eq_true, true_and, declared_of_follows hf]
    exact SubjectMap.mem_keys_collect_iff
  · have ho : IsOpen t m := ⟨source, hp, hf⟩
    have hs := variant_solution none t
    have hfaultless : Faultless t (solution none t) :=
      (faultless_iff hs (plainOpen_solution none t)).mpr (complaints_eq_nil.mp hnone).2.1
    simp only [ho, true_and, not_true_eq_false, false_and, or_false]
    rw [(plain_solution none ho).mem_keys_iff]
    exact allows_solution_iff ht hstar hfaultless ho

/-- A member of a table that widens allows no fewer subject types, whatever the policies. -/
theorem resolve_widened {schema schema' : Compiled.Schema} {t t' r r' : Table}
    {policy policy' : Policy} (hstar : ∀ d ∈ schema.definitions, d.name ≠ anyType)
    (hstar' : ∀ d ∈ schema'.definitions, d.name ≠ anyType)
    (ht : Table.ofCompiled schema = .ok t) (ht' : Table.ofCompiled schema' = .ok t')
    (hwide : t.WidensTo t') (h : resolve policy t = .ok r) (h' : resolve policy' t' = .ok r')
    {m : MemberId} {found : Member} (hfound : r.member? m = some found) :
    ∃ found', r'.member? m = some found' ∧
      ∀ type ∈ found.subjects.keys, type ∈ found'.subjects.keys := by
  have hfiled := filed_of_compiled ht
  have hfiled' := filed_of_compiled ht'
  obtain ⟨hnone, rfl⟩ := resolve_eq_ok_unlimited hfiled h
  obtain ⟨hnone', rfl⟩ := resolve_eq_ok_unlimited hfiled' h'
  obtain ⟨source, hsource, hkeys⟩ :=
    mem_keys_solution hfiled (get?_any_of_compiled hstar ht) hnone hfound
  obtain ⟨source', hsource', hmember⟩ := hwide m source hsource
  have hfound' := member?_stage (variant_solution none t') hfiled' m
  rw [hsource', Option.map_some] at hfound'
  refine ⟨_, hfound', fun type htype => ?_⟩
  obtain ⟨source'', hsource'', hkeys'⟩ :=
    mem_keys_solution hfiled' (get?_any_of_compiled hstar' ht') hnone' hfound'
  obtain rfl := Option.some.inj (hsource'.symm.trans hsource'')
  rw [hkeys', isOpen_widened hwide hfiled hfiled' hsource]
  rcases (hkeys type).mp htype with ⟨ho, hreaches⟩ | ⟨hno, hmem⟩
  · exact Or.inl ⟨ho, reaches_widened hwide hreaches⟩
  · obtain ⟨ref, href, rfl⟩ := List.mem_map.mp hmem
    exact Or.inr ⟨hno, List.mem_map.mpr ⟨ref, declared_widened hmember href, rfl⟩⟩

section Example
open Compiled Compiled.Expression

/-- The folders, with groups among the viewers and edited by those who edit the parent too. -/
def sharedFolders : Compiled.Schema where
  definitions := folders.definitions.take 2 ++ [
    { name := "folder", members := [
      (Declaration.relation "parent").allow { type := "folder" },
      ((Declaration.relation "viewer").allow { type := "user" }).allow { type := "group" },
      (Declaration.relation "auditor").remark "//spicegen:subject_type=group#member",
      .permission "view" (.ofUnion [.computed "viewer", .arrow "parent" "view", .computed "edit"]),
      .permission "edit"
        (.ofUnion [.computed "auditor", .arrow "parent" "edit", .computed "view"])] }]

def sharedTable : Table := (Table.ofCompiled sharedFolders).toOption.getD .empty

theorem resolve_widened_folders :
    (∀ d ∈ folders.definitions, d.name ≠ anyType) ∧
    (∀ d ∈ sharedFolders.definitions, d.name ≠ anyType) ∧
    Table.ofCompiled folders = .ok foldersTable ∧ Table.ofCompiled sharedFolders = .ok sharedTable ∧
    foldersTable.WidensTo sharedTable ∧
    resolve {} foldersTable = .ok (solution none foldersTable) ∧
    resolve ⟨some 5, true⟩ sharedTable = .ok (solution (some 5) sharedTable) ∧
    ∃ view view', (solution none foldersTable).member? ⟨"folder", "view"⟩ = some view ∧
      (solution (some 5) sharedTable).member? ⟨"folder", "view"⟩ = some view' ∧
      view.subjects.keys = ["user"] ∧ view'.subjects.keys = ["group", "user"] ∧
      ∀ type ∈ view.subjects.keys, type ∈ view'.subjects.keys := by
  have hstar : ∀ d ∈ folders.definitions, d.name ≠ anyType := by decide
  have hstar' : ∀ d ∈ sharedFolders.definitions, d.name ≠ anyType := by decide
  have ht' : Table.ofCompiled sharedFolders = .ok sharedTable := by decide +kernel
  have hwide : foldersTable.WidensTo sharedTable := by decide +kernel
  have h' : resolve ⟨some 5, true⟩ sharedTable = .ok (solution (some 5) sharedTable) :=
    resolve_eq_ok.mpr ⟨by decide +kernel, rfl⟩
  have hview : ((solution none foldersTable).member? ⟨"folder", "view"⟩).map
      (fun m => m.subjects.keys) = some ["user"] := by decide +kernel
  have hview' : ((solution (some 5) sharedTable).member? ⟨"folder", "view"⟩).map
      (fun m => m.subjects.keys) = some ["group", "user"] := by decide +kernel
  obtain ⟨view, hfound, hkeys⟩ := Option.map_eq_some_iff.mp hview
  obtain ⟨view', hfound', hkept⟩ :=
    resolve_widened hstar hstar' ofCompiled_folders ht' hwide resolve_folders h' hfound
  rw [hfound', Option.map_some, Option.some.injEq] at hview'
  exact ⟨hstar, hstar', ofCompiled_folders, ht', hwide, resolve_folders, h', view, view', hfound,
    hfound', hkeys, hview', hkept⟩

end Example

end Resolution

end AuthSchema
