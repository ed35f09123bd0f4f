import AuthSchema.Assembly
import AuthSchema.Proofs.Solution

/-! The way from a compiled schema to a resolved one, one equation for each way it can end. -/
namespace AuthSchema

namespace Schema

/-- The caveats of a compiled schema. -/
def caveatsOf (c : Compiled.Schema) : SortedMap Caveat :=
  SortedMap.ofList (c.caveats.map fun caveat => (caveat.name, Caveat.ofDeclaration caveat))

variable {plan : Plan} {c : Compiled.Schema}

theorem ofCompiled_eq (plan : Plan) (c : Compiled.Schema) : ofCompiled plan c =
    match Table.ofCompiled c with
    | .error e => .error (.declaration e)
    | .ok t =>
      match Resolution.resolve plan.policy t with
      | .error ds => .error (.unresolved ds)
      | .ok r => .ok (hide ⟨r.narrow, caveatsOf c⟩ plan.hidden) := by
  rw [ofCompiled]
  cases Table.ofCompiled c with
  | error e => rfl
  | ok t =>
    cases h : Resolution.resolve plan.policy t with
    | error ds => simp [bind, Except.bind, Except.mapError, h]
    | ok r => simp [bind, Except.bind, Except.mapError, pure, Except.pure, h, caveatsOf]

theorem ofCompiled_eq_ok {s : Schema} : ofCompiled plan c = .ok s ↔
    ∃ t r, Table.ofCompiled c = .ok t ∧ Resolution.resolve plan.policy t = .ok r ∧
      s = hide ⟨r.narrow, caveatsOf c⟩ plan.hidden := by
  rw [ofCompiled_eq]
  cases Table.ofCompiled c with
  | error e => simp
  | ok t => cases h : Resolution.resolve plan.policy t <;> simp [h, eq_comm]

/-- A compiled schema is resolved just when it has a table that nothing is wrong with. -/
theorem ofCompiled_eq_ok_solution {s : Schema} : ofCompiled plan c = .ok s ↔
    ∃ t, Table.ofCompiled c = .ok t ∧ Resolution.complaints plan.policy.depthLimit t = [] ∧
      s = hide ⟨(Resolution.solution plan.policy.depthLimit t).narrow, caveatsOf c⟩
        plan.hidden := by
  rw [ofCompiled_eq_ok]
  constructor
  · rintro ⟨t, r, ht, hr, rfl⟩
    obtain ⟨hnone, rfl⟩ := Resolution.resolve_eq_ok.mp hr
    exact ⟨t, ht, hnone, rfl⟩
  · rintro ⟨t, ht, hnone, rfl⟩
    exact ⟨t, _, ht, Resolution.resolve_eq_ok.mpr ⟨hnone, rfl⟩, rfl⟩

theorem ofCompiled_eq_ok_of_table {t : Table} (ht : Table.ofCompiled c = .ok t) {s : Schema} :
    ofCompiled plan c = .ok s ↔ Resolution.complaints plan.policy.depthLimit t = [] ∧
      s = hide ⟨(Resolution.solution plan.policy.depthLimit t).narrow, caveatsOf c⟩
        plan.hidden := by
  rw [ofCompiled_eq_ok_solution]
  simp [ht]

theorem ofCompiled_folders_ok : ofCompiled {} folders =
    .ok ⟨(Resolution.solution none foldersTable).narrow, caveatsOf folders⟩ :=
  ofCompiled_eq_ok.mpr ⟨_, _, ofCompiled_folders, Resolution.resolve_folders, rfl⟩

theorem ofCompiled_eq_unresolved {ds : List Resolution.Diagnostic} :
    ofCompiled plan c = .error (.unresolved ds) ↔
      ∃ t, Table.ofCompiled c = .ok t ∧ Resolution.resolve plan.policy t = .error ds := by
  rw [ofCompiled_eq]
  cases Table.ofCompiled c with
  | error e => simp
  | ok t => cases h : Resolution.resolve plan.policy t <;> simp [h]

theorem ofCompiled_eq_declaration {e : DeclarationError} :
    ofCompiled plan c = .error (.declaration e) ↔ Table.ofCompiled c = .error e := by
  rw [ofCompiled_eq]
  cases Table.ofCompiled c with
  | error e => simp
  | ok t => cases h : Resolution.resolve plan.policy t <;> simp [h]

end Schema

end AuthSchema
