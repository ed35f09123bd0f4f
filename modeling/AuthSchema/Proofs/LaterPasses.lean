import AuthSchema.Proofs.Solution

/-! Passes after the first one. Their diagnostics are thrown away, and nothing is lost with them:
what an expansion finds amiss, where and on which path, is the same in every state that the search
can be in, whatever its permissions have been found to hold by then. -/
namespace AuthSchema.Resolution

/-- A state that the search can be in: the seeded table with any objects held by its open
permissions. -/
structure Stage (t s : Table) : Prop where
  variant : Variant (seeded t) s
  plain : PlainOpen s

/-- What the expansion of an open permission finds amiss in a state. -/
def expansionDiagnostics (limit : Option Nat) (s : Table) (p : MemberId × List Edge) :
    List Diagnostic :=
  (expand s limit p.1 p.2).filterMap (Finding.diagnostic? p.1)

/-- The state after a number of passes. -/
def passes (limit : Option Nat) (permissions : List (MemberId × List Edge)) : Nat → Table → Table
  | 0, s => s
  | n + 1, s => passes limit permissions n (pass limit permissions s).table

namespace Stage
variable {limit : Option Nat} {t s s' : Table}

private theorem seeded (t : Table) : Stage t (seeded t) := ⟨.refl _, plainOpen_seeded t⟩

private theorem openPermissions_eq (h : Stage t s) : openPermissions s = openPermissions t :=
  h.variant.openPermissions_eq.trans (openPermissions_seeded t)

/-- Each pass leads from such a state to another one. -/
theorem pass (h : Stage t s) : Stage t (pass limit (openPermissions t) s).table := by
  rw [← h.openPermissions_eq]
  have hrun : Run limit s (Resolution.pass limit (openPermissions s) s).table := pass_run s
  exact ⟨h.variant.trans hrun.variant, hrun.plainOpen h.plain⟩

private theorem passes (h : Stage t s) (n : Nat) :
    Stage t (passes limit (openPermissions t) n s) := by
  induction n generalizing s with
  | zero => exact h
  | succ n ih => exact ih h.pass

/-- What an expansion finds amiss does not depend on the state, its order and its trails included.
-/
theorem expansionDiagnostics_eq (h : Stage t s) (h' : Stage t s') (p : MemberId × List Edge) :
    expansionDiagnostics limit s p = expansionDiagnostics limit s' p := by
  have hvariant : Variant s' s := h'.variant.symm.trans h.variant
  exact expand_diagnostics_variant hvariant h'.plain h.plain limit p.1 p.2

private theorem pass_diagnostics (h : Stage t s) :
    (Resolution.pass limit (openPermissions t) s).diagnostics =
      (openPermissions t).flatMap (expansionDiagnostics limit s) := by
  rw [← h.openPermissions_eq]
  exact Resolution.pass_diagnostics h.plain

private theorem pass_diagnostics_eq (h : Stage t s) (h' : Stage t s') :
    (Resolution.pass limit (openPermissions t) s).diagnostics =
      (Resolution.pass limit (openPermissions t) s').diagnostics := by
  rw [h.pass_diagnostics, h'.pass_diagnostics]
  exact List.flatMap_congr fun p _ => h.expansionDiagnostics_eq h' p

end Stage

/-- A search that settles goes through the states after its first passes. -/
theorem Settles.eq_passes {limit : Option Nat} {permissions : List (MemberId × List Edge)}
    {n : Nat} {s s' : Table} (h : Settles limit permissions n s s') :
    s' = passes limit permissions n s := by
  induction h with
  | last => rfl
  | again _ _ ih => exact ih

/-- In any two states that the search of a table can be in, a permission that follows its edges is
expanded with the same diagnostics. So every pass has the diagnostics of the first one, those that
lead to the solution and any beyond. -/
theorem diagnostics_of_later_passes (policy : Policy) (t : Table) :
    (∀ s s', Stage t s → Stage t s' → ∀ p ∈ openPermissions t,
      expansionDiagnostics policy.depthLimit s p = expansionDiagnostics policy.depthLimit s' p) ∧
    (∀ n, (pass policy.depthLimit (openPermissions t)
        (passes policy.depthLimit (openPermissions t) n (seeded t))).diagnostics =
      (pass policy.depthLimit (openPermissions t) (seeded t)).diagnostics) ∧
    ∃ n, solution policy.depthLimit t =
      passes policy.depthLimit (openPermissions t) n (seeded t) := by
  refine ⟨fun s s' h h' p _ => h.expansionDiagnostics_eq h' p, fun n => ?_, ?_⟩
  · exact ((Stage.seeded t).passes n).pass_diagnostics_eq (Stage.seeded t)
  · obtain ⟨n, -, h⟩ := settles_solution policy.depthLimit t
    exact ⟨n, h.eq_passes⟩

section Example
open Compiled Compiled.Expression

/-- Folders that are viewed by those who look after them or keep them, and shared by those who view
or keep them; they are declared to be kept by members of groups, which there are none of. -/
def keptFolders : Compiled.Schema where
  definitions := [
    { name := "user" },
    { name := "folder", members := [
      (Declaration.relation "warden").allow { type := "user" },
      (Declaration.relation "keeper").remark "//spicegen:subject_type=group#member",
      .permission "view" (.ofUnion [.computed "warden", .computed "keeper"]),
      .permission "share" (.ofUnion [.computed "view", .computed "keeper"])] }]

def keptTable : Table := (Table.ofCompiled keptFolders).toOption.getD .empty

/-- The folders when anyone has been found to view and share them. -/
def openFolders : Table := assign (seeded keptTable) fun _ => SubjectMap.wildcard

private theorem stage_openFolders : Stage keptTable openFolders := by
  refine ⟨⟨_, rfl⟩, fun m hm type subject h => ?_⟩
  rw [openFolders, subjectsAt_assign (isOpen_assign.mp hm), SubjectMap.get?_wildcard] at h
  split at h
  · exact (Option.some.inj h).symm
  · cases h

/-- Those who share a folder, by the edges that say so. -/
def sharing : MemberId × List Edge :=
  (⟨"folder", "share"⟩, [.through "folder" "view", .through "folder" "keeper"])

theorem diagnostics_of_later_passes_folders :
    Stage keptTable (seeded keptTable) ∧ Stage keptTable openFolders ∧
    sharing ∈ openPermissions keptTable ∧
    expand (seeded keptTable) none sharing.1 sharing.2 ≠
      expand openFolders none sharing.1 sharing.2 ∧
    expansionDiagnostics none openFolders sharing =
      [⟨⟨"folder", "share"⟩, .unknownType "group",
        [⟨"folder", "share"⟩, ⟨"folder", "keeper"⟩]⟩] := by
  have hsharing : sharing ∈ openPermissions keptTable := by decide +kernel
  obtain ⟨hsame, -, -⟩ := diagnostics_of_later_passes {} keptTable
  refine ⟨.seeded _, stage_openFolders, hsharing, by decide +kernel, ?_⟩
  rw [hsame openFolders (seeded keptTable) stage_openFolders (.seeded _) sharing hsharing]
  decide +kernel

end Example

end AuthSchema.Resolution
