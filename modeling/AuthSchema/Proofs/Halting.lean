import AuthSchema.Proofs.Solution

/-! Resolution that reports one diagnostic at a time and can halt at any of them, with relations
half resolved or in the midst of the first pass. The passes before a report differ in no way that
later ones could tell, so halting leaves the head of what would have been collected. -/
namespace AuthSchema.Resolution

/-- Takes down one more diagnostic, and halts there if the policy says so. -/
def Policy.report (p : Policy) (found : List Diagnostic) (d : Diagnostic) :
    Except (List Diagnostic) (List Diagnostic) :=
  if p.stopAtFirst then .error (found ++ [d]) else .ok (found ++ [d])

/-- Expands a permission in the first pass. Its diagnostics are reported before the table takes in
what the expansion has come upon. -/
def visit (policy : Policy) (progress : Progress) (p : MemberId × List Edge) :
    Except (List Diagnostic) Progress := do
  let findings := expand progress.table policy.depthLimit p.1 p.2
  let found ← (findings.filterMap (Finding.diagnostic? p.1)).foldlM policy.report
    progress.diagnostics
  return { advance policy.depthLimit progress p with diagnostics := found }

/-- Resolution that reports every diagnostic where it comes up. -/
def resolveReporting (policy : Policy) (t : Table) : Except (List Diagnostic) Table := do
  let found ← t.entries.foldlM
    (fun found e => e.2.relations.values.foldlM
      (fun found m => (relationDiagnostics t e.1 m).foldlM policy.report found) found) []
  let first ← (openPermissions t).foldlM (visit policy) { table := seeded t, diagnostics := found }
  demandNone first.diagnostics
  let solved :=
    if first.changed then settle policy.depthLimit (openPermissions t) (passBound t) first.table
    else first.table
  let found ← (deadEnds solved).foldlM policy.report []
  demandNone found
  return solved

private theorem foldlM_report (policy : Policy) (found ds : List Diagnostic) :
    ds.foldlM policy.report found = policy.collect found ds := by
  obtain ⟨depthLimit, stopAtFirst⟩ := policy
  cases stopAtFirst with
  | true => cases ds <;> rfl
  | false =>
    have hall : ds.foldlM (Policy.report ⟨depthLimit, false⟩) found = .ok (found ++ ds) := by
      induction ds generalizing found with
      | nil => rw [List.append_nil]; rfl
      | cons d ds ih =>
        rw [List.append_cons]
        exact ih (found ++ [d])
    rw [hall]
    cases ds with
    | nil => rw [List.append_nil]; rfl
    | cons d ds => rfl

private theorem collect_append (policy : Policy) (found ds ds' : List Diagnostic) :
    policy.collect found (ds ++ ds') =
      policy.collect found ds >>= fun found => policy.collect found ds' := by
  simp only [← foldlM_report, List.foldlM_append]

private theorem report_relations (policy : Policy) (t : Table) :
    t.entries.foldlM (fun found e => e.2.relations.values.foldlM
      (fun found m => (relationDiagnostics t e.1 m).foldlM policy.report found) found) [] =
      policy.collect [] (allRelationDiagnostics t) := by
  rw [← foldlM_report, allRelationDiagnostics, foldlM_flatMap]
  simp only [foldlM_flatMap]

/-- Visits make the pass that reports nothing, and halt where taking its diagnostics all at once
does. -/
theorem foldlM_visit (policy : Policy) (ps : List (MemberId × List Edge)) (progress : Progress) :
    ∃ ds, (ps.foldl (advance policy.depthLimit) progress).diagnostics =
        progress.diagnostics ++ ds ∧
      ∀ found, ps.foldlM (visit policy) { progress with diagnostics := found } =
        (policy.collect found ds).map fun found =>
          { ps.foldl (advance policy.depthLimit) progress with diagnostics := found } := by
  induction ps generalizing progress with
  | nil => exact ⟨[], (List.append_nil _).symm, fun found => rfl⟩
  | cons p ps ih =>
    obtain ⟨later, hlater, hvisits⟩ := ih (advance policy.depthLimit progress p)
    let now := (expand progress.table policy.depthLimit p.1 p.2).filterMap
      (Finding.diagnostic? p.1)
    refine ⟨now ++ later, ?_, fun found => ?_⟩
    · rw [List.foldl_cons, hlater, ← List.append_assoc]
      rfl
    · have hvisit : visit policy { progress with diagnostics := found } p =
          (policy.collect found now).map fun found =>
            { advance policy.depthLimit progress p with diagnostics := found } := by
        rw [← foldlM_report]
        rfl
      rw [List.foldlM_cons, hvisit, collect_append]
      cases policy.collect found now with
      | error ds => rfl
      | ok found' => exact hvisits found'

private theorem resolveReporting_eq (policy : Policy) (t : Table) :
    resolveReporting policy t = resolve policy t := by
  obtain ⟨ds, hds, hvisits⟩ := foldlM_visit policy (openPermissions t) { table := seeded t }
  have hpass : (pass policy.depthLimit (openPermissions t) (seeded t)).diagnostics = ds := hds
  rw [resolveReporting, resolve, report_relations]
  cases policy.collect [] (allRelationDiagnostics t) with
  | error found => rfl
  | ok found =>
    simp only [bind, Except.bind, hvisits found, foldlM_report]
    change _ = Except.bind (policy.collect found (pass policy.depthLimit (openPermissions t)
      (seeded t)).diagnostics) _
    rw [hpass]
    cases policy.collect found ds with
    | error all => rfl
    | ok all => rfl

/-- Halting at the first diagnostic changes no result. It accepts the same tables, with the same
solution, and refuses the others with the head of the list that would have been collected. -/
theorem resolve_stopAtFirst (limit : Option Nat) (t : Table) :
    (∀ stop, resolve ⟨limit, stop⟩ t = resolveReporting ⟨limit, stop⟩ t) ∧
    (∀ r, resolve ⟨limit, true⟩ t = .ok r ↔ resolve ⟨limit, false⟩ t = .ok r) ∧
    ∀ ds, resolve ⟨limit, true⟩ t = .error ds ↔
      ∃ d rest, resolve ⟨limit, false⟩ t = .error (d :: rest) ∧ ds = [d] := by
  refine ⟨fun stop => (resolveReporting_eq _ t).symm, fun r => ?_, fun ds => ?_⟩
  · rw [resolve_eq_ok, resolve_eq_ok]
  · rw [resolve_eq_error]
    simp only [resolve_eq_error, if_true, Bool.false_eq_true, if_false]
    constructor
    · rintro ⟨hne, rfl⟩
      obtain ⟨d, rest, hcons⟩ := List.exists_cons_of_ne_nil hne
      exact ⟨d, rest, ⟨hne, hcons.symm⟩, by rw [hcons, List.take_succ_cons, List.take_zero]⟩
    · rintro ⟨d, rest, ⟨hne, hcons⟩, rfl⟩
      exact ⟨hne, by rw [← hcons, List.take_succ_cons, List.take_zero]⟩

end AuthSchema.Resolution
