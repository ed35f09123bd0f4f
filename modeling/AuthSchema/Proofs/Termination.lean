import AuthSchema.Proofs.Solution

/-! Resolution ends on every table. The calls that are open at one time expand different members,
and the number of passes is bounded by what permissions can come to allow. A resolution that gives
up beyond these bounds never does. -/
namespace AuthSchema.Resolution

/-- The members of a table, each once. -/
def members (t : Table) : List MemberId := distinct (memberIds t)

/-- A path that comes to a member goes on to expand it. -/
def Enters (t : Table) (trail : Trail) (m : MemberId) : Prop :=
  m ∉ trail ∧ ∃ found, find t m = .ok found

instance (t : Table) (trail : Trail) (m : MemberId) : Decidable (Enters t trail m) :=
  decidable_of_iff (m ∉ trail ∧ (t.member? m).isSome = true)
    (by simp only [Enters, find_eq_ok, Option.isSome_iff_exists])

/-- The members that nested calls of one expansion are expanding at one time, outermost first. -/
inductive Nested (t : Table) (limit : Option Nat) (start : MemberId) (edges : List Edge) :
    List MemberId → Prop
  | outermost {e m} (he : e ∈ edges) (hm : e.target? = some m) (h : Enters t [start] m) :
      Nested t limit start edges [m]
  | inner {active m next} (hactive : Nested t limit start edges (active ++ [m]))
      (hnext : .enter next ∈ steps t limit (start :: active) m)
      (h : Enters t (start :: active ++ [m]) next) :
      Nested t limit start edges (active ++ [m] ++ [next])

private theorem Nested.distinct_existing {t : Table} {limit : Option Nat} {start : MemberId}
    {edges : List Edge} {active : List MemberId} (h : Nested t limit start edges active) :
    (start :: active).Nodup ∧ ∀ m ∈ active, ∃ found, find t m = .ok found := by
  induction h with
  | outermost _ _ h =>
    refine ⟨?_, ?_⟩
    · simpa [eq_comm] using h.1
    · intro m hm
      obtain rfl := List.mem_singleton.mp hm
      exact h.2
  | @inner active m next _ _ h ih =>
    obtain ⟨hnodup, hexist⟩ := ih
    refine ⟨?_, ?_⟩
    · rw [← List.cons_append]
      exact List.nodup_append.mpr ⟨hnodup, List.nodup_singleton next, by
        intro a ha b hb
        obtain rfl := List.mem_singleton.mp hb
        exact fun he => h.1 (he ▸ ha)⟩
    · intro x hx
      rcases List.mem_append.mp hx with hx | hx
      · exact hexist x hx
      · obtain rfl := List.mem_singleton.mp hx
        exact h.2

theorem mem_members {t : Table} {m : MemberId} :
    m ∈ members t ↔ ∃ found, t.member? m = some found := by
  rw [members, mem_distinct]
  constructor
  · intro h
    obtain ⟨⟨type, r⟩, hr, hm⟩ := List.mem_flatMap.mp h
    obtain ⟨name, hname, rfl⟩ := List.mem_map.mp hm
    have hget : t.get? type = some r := SortedMap.mem_entries_iff.mp hr
    rw [Table.member?, hget]
    rcases List.mem_append.mp hname with hrel | hperm
    · obtain ⟨found, hfound⟩ := SortedMap.mem_keys_iff.mp hrel
      exact ⟨found, Option.or_eq_some_iff.mpr (Or.inl hfound)⟩
    · obtain ⟨found, hfound⟩ := SortedMap.mem_keys_iff.mp hperm
      rw [Option.bind_some, Resource.member?, hfound]
      cases r.relations.get? name with
      | none => exact ⟨found, rfl⟩
      | some rel => exact ⟨rel, rfl⟩
  · rintro ⟨found, h⟩
    exact mem_memberIds_of_find (find_eq_ok.mpr h)

private theorem mem_members_of_find {t : Table} {m : MemberId} {found : Member}
    (h : find t m = .ok found) : m ∈ members t := mem_members.mpr ⟨found, find_eq_ok.mp h⟩

private theorem length_le_members {t : Table} {ids : List MemberId} (h : ids.Nodup)
    (hin : ∀ m ∈ ids, m ∈ members t) : ids.length ≤ (members t).length :=
  (List.subperm_of_subset h hin).length_le

/-- Expansion with room for a number of members at one time; without enough room it gives up. -/
def expandMemberWithin (t : Table) (limit : Option Nat) (room : Nat) (trail : Trail)
    (m : MemberId) : Option (List Finding) :=
  match find t m with
  | .error reason => some [.fault reason trail]
  | .ok member =>
    if m ∈ trail then some []
    else match room with
      | 0 => none
      | room + 1 =>
        (((outgoing member).filterMap (stepAt limit (trail ++ [m]))).mapM fun step : Step =>
          match step with
          | .found finding => some [finding]
          | .enter next => expandMemberWithin t limit room (trail ++ [m]) next).map List.flatten

def expandEdgeWithin (t : Table) (limit : Option Nat) (room : Nat) (start : MemberId) (e : Edge) :
    Option (List Finding) :=
  match e.subject with
  | .itself => some (expandEdge t limit start e)
  | .userset relation => expandMemberWithin t limit room [start] ⟨e.type, relation⟩

def expandWithin (t : Table) (limit : Option Nat) (room : Nat) (start : MemberId)
    (edges : List Edge) : Option (List Finding) :=
  (edges.mapM (expandEdgeWithin t limit room start)).map List.flatten

/-- The progress of a pass once a permission's findings are taken in. -/
def Progress.absorb (progress : Progress) (m : MemberId) (findings : List Finding) : Progress :=
  let grown := (subjectsAt progress.table m).growAll (findings.filterMap Finding.subject?)
  { table := if grown.2 then setSubjects progress.table m grown.1 else progress.table
    changed := progress.changed || grown.2
    diagnostics := progress.diagnostics ++ findings.filterMap (Finding.diagnostic? m) }

def advanceWithin (limit : Option Nat) (room : Nat) (progress : Progress)
    (p : MemberId × List Edge) : Option Progress :=
  (expandWithin progress.table limit room p.1 p.2).map (progress.absorb p.1)

def passWithin (limit : Option Nat) (room : Nat) (permissions : List (MemberId × List Edge))
    (t : Table) : Option Progress := permissions.foldlM (advanceWithin limit room) { table := t }

/-- Passes until one changes nothing; without enough of them it gives up. -/
def settleWithin (limit : Option Nat) (room : Nat) (permissions : List (MemberId × List Edge)) :
    Nat → Table → Option Table
  | 0, _ => none
  | n + 1, t => do
    let p ← passWithin limit room permissions t
    if p.changed then settleWithin limit room permissions n p.table else some p.table

/-- Resolution with room for a number of members at one time and with a number of passes. -/
def resolveWithin (room passes : Nat) (policy : Policy) (t : Table) :
    Option (Except (List Diagnostic) Table) :=
  match policy.collect [] (allRelationDiagnostics t) with
  | .error ds => some (.error ds)
  | .ok found =>
    match passes with
    | 0 => none
    | n + 1 =>
      (passWithin policy.depthLimit room (openPermissions t) (seeded t)).bind fun first =>
        match policy.collect found first.diagnostics >>= demandNone with
        | .error ds => some (.error ds)
        | .ok () =>
          (if first.changed
            then settleWithin policy.depthLimit room (openPermissions t) n first.table
            else some first.table).map fun solved =>
              policy.collect [] (deadEnds solved) >>= demandNone >>= fun _ => .ok solved

private theorem expandMemberWithin_of_missing {t : Table} {limit : Option Nat} (room : Nat)
    (trail : Trail) {m : MemberId} {reason : Fault} (h : find t m = .error reason) :
    expandMemberWithin t limit room trail m = some (expandMember t limit trail m) := by
  rw [expandMember_eq, steps_eq, references_eq_error.mpr h]
  unfold expandMemberWithin
  rw [h]
  rfl

private theorem expandMemberWithin_on_path {t : Table} {limit : Option Nat} (room : Nat)
    {trail : Trail} {m : MemberId} {found : Member} (h : find t m = .ok found) (hm : m ∈ trail) :
    expandMemberWithin t limit room trail m = some (expandMember t limit trail m) := by
  rw [expandMember_on_path (references_eq_ok.mpr ⟨found, h, rfl⟩) hm]
  unfold expandMemberWithin
  rw [h]
  exact if_pos hm

private theorem nodup_enter {t : Table} {trail : Trail} {m : MemberId} (hnodup : trail.Nodup)
    (hin : ∀ x ∈ trail, x ∈ members t) (hm : m ∉ trail) (hm' : m ∈ members t) :
    (trail ++ [m]).Nodup ∧ ∀ x ∈ trail ++ [m], x ∈ members t := by
  constructor
  · exact List.nodup_append.mpr ⟨hnodup, List.nodup_singleton m, by grind⟩
  · intro x hx
    rcases List.mem_append.mp hx with hx | hx
    · exact hin x hx
    · exact List.mem_singleton.mp hx ▸ hm'

/-- Room for the members that are not on the path is enough. -/
theorem expandMemberWithin_eq {t : Table} {limit : Option Nat} (room : Nat) {trail : Trail}
    (m : MemberId) (hnodup : trail.Nodup) (hin : ∀ x ∈ trail, x ∈ members t)
    (hroom : (members t).length ≤ trail.length + room) :
    expandMemberWithin t limit room trail m = some (expandMember t limit trail m) := by
  induction room generalizing trail m with
  | zero =>
    cases hfind : find t m with
    | error reason => exact expandMemberWithin_of_missing 0 trail hfind
    | ok found =>
      by_cases hm : m ∈ trail
      · exact expandMemberWithin_on_path 0 hfind hm
      · obtain ⟨hnodup', hin'⟩ := nodup_enter hnodup hin hm (mem_members_of_find hfind)
        have hle := length_le_members hnodup' hin'
        rw [List.length_append, List.length_singleton] at hle
        omega
  | succ room ih =>
    cases hfind : find t m with
    | error reason => exact expandMemberWithin_of_missing _ trail hfind
    | ok found =>
      by_cases hm : m ∈ trail
      · exact expandMemberWithin_on_path _ hfind hm
      · obtain ⟨hnodup', hin'⟩ := nodup_enter hnodup hin hm (mem_members_of_find hfind)
        have hsteps : steps t limit trail m =
            (outgoing found).filterMap (stepAt limit (trail ++ [m])) :=
          steps_of_references (references_eq_ok.mpr ⟨found, hfind, rfl⟩) hm
        rw [expandMember_eq, hsteps, List.flatMap_def, expandMemberWithin, hfind]
        simp only [if_neg hm]
        refine congrArg (Option.map List.flatten) (mapM_of_some fun step _ => ?_)
        cases step with
        | found f => rfl
        | enter next =>
          have hroom' : (members t).length ≤ (trail ++ [m]).length + room := by
            rw [List.length_append, List.length_singleton]
            omega
          exact ih next hnodup' hin' hroom'

private theorem expandWithin_eq {t : Table} {limit : Option Nat} {room : Nat} {start : MemberId}
    {found : Member} (hstart : find t start = .ok found) (hroom : (members t).length ≤ room)
    (edges : List Edge) :
    expandWithin t limit room start edges = some (expand t limit start edges) := by
  have hedge : ∀ e ∈ edges, expandEdgeWithin t limit room start e =
      some (expandEdge t limit start e) := by
    intro e _
    rw [expandEdgeWithin, expandEdge]
    cases e.subject with
    | itself => rfl
    | userset relation =>
      refine expandMemberWithin_eq room _ (List.nodup_singleton start) ?_ (by omega)
      intro x hx
      obtain rfl := List.mem_singleton.mp hx
      exact mem_members_of_find hstart
  rw [expandWithin, mapM_of_some hedge, expand, List.flatMap_def]
  rfl

private theorem members_variant {t t' : Table} (h : Variant t t') : members t' = members t :=
  congrArg distinct h.memberIds_eq

private theorem members_seeded (t : Table) : members (seeded t) = members t :=
  congrArg distinct (memberIds_seeded t)

variable {limit : Option Nat} {room : Nat}

private theorem advanceWithin_eq {progress : Progress} {p : MemberId × List Edge}
    (hp : p ∈ openPermissions progress.table) (hroom : (members progress.table).length ≤ room) :
    advanceWithin limit room progress p = some (advance limit progress p) := by
  obtain ⟨refs, hrefs⟩ := references_of_isOpen (isOpen_of_mem hp)
  obtain ⟨found, hfound, -⟩ := references_eq_ok.mp hrefs
  rw [advanceWithin, expandWithin_eq hfound hroom]
  rfl

private theorem foldlM_advanceWithin_eq {ps : List (MemberId × List Edge)} (progress : Progress)
    (h : ∀ p ∈ ps, p ∈ openPermissions progress.table)
    (hroom : (members progress.table).length ≤ room) :
    ps.foldlM (advanceWithin limit room) progress = some (ps.foldl (advance limit) progress) := by
  induction ps generalizing progress with
  | nil => rfl
  | cons p ps ih =>
    have hmem := h p List.mem_cons_self
    have hv : Variant progress.table (advance limit progress p).table := variant_extend hmem
    rw [List.foldlM_cons, advanceWithin_eq hmem hroom, List.foldl_cons]
    exact ih _ (mem_openPermissions_advance h) (by rw [members_variant hv]; exact hroom)

private theorem passWithin_eq {t : Table} (hroom : (members t).length ≤ room) :
    passWithin limit room (openPermissions t) t = some (pass limit (openPermissions t) t) :=
  foldlM_advanceWithin_eq { table := t } (fun _ hp => hp) hroom

/-- Passes that settle within a number do so with that many allowed. -/
theorem settleWithin_eq {permissions : List (MemberId × List Edge)} {k n : Nat} {t t' : Table}
    (h : Settles limit permissions k t t') (hps : permissions = openPermissions t)
    (hroom : (members t).length ≤ room) (hn : k ≤ n) :
    settleWithin limit room permissions n t = some t' := by
  induction h generalizing n with
  | @last t h =>
    obtain ⟨n, rfl⟩ : ∃ m, n = m + 1 := ⟨n - 1, by omega⟩
    subst hps
    rw [settleWithin, passWithin_eq hroom]
    simp [h]
  | @again k t t' h _ ih =>
    obtain ⟨n, rfl⟩ : ∃ m, n = m + 1 := ⟨n - 1, by omega⟩
    subst hps
    have hv : Variant t (pass limit (openPermissions t) t).table := (pass_run t).variant
    have hrest := ih (pass_openPermissions t).symm (by rw [members_variant hv]; exact hroom)
      (n := n) (by omega)
    rw [settleWithin, passWithin_eq hroom]
    simpa [h] using hrest

private theorem solutionWithin_eq (limit : Option Nat) {t : Table} {n : Nat}
    (hroom : (members t).length ≤ room) (hn : passBound t ≤ n) :
    (if (pass limit (openPermissions t) (seeded t)).changed
      then settleWithin limit room (openPermissions t) n
        (pass limit (openPermissions t) (seeded t)).table
      else some (pass limit (openPermissions t) (seeded t)).table) = some (solution limit t) := by
  obtain ⟨k, hk, hsettles⟩ := settles_solution limit t
  have hops := openPermissions_seeded t
  generalize solution limit t = solved at hsettles ⊢
  cases hsettles with
  | last h => simp [h]
  | again h hrest =>
    have hrun : Run limit (seeded t) (pass limit (openPermissions (seeded t)) (seeded t)).table :=
      pass_run _
    rw [hops] at hrun
    rw [if_pos h]
    refine settleWithin_eq hrest ?_ ?_ (by omega)
    · rw [hrun.variant.openPermissions_eq, hops]
    · rw [members_variant hrun.variant, members_seeded]
      exact hroom

/-- Within its bounds a resolution that may give up is the resolution. -/
theorem resolveWithin_eq (policy : Policy) {t : Table} {passes : Nat}
    (hroom : (members t).length ≤ room) (hpasses : passBound t < passes) :
    resolveWithin room passes policy t = some (resolve policy t) := by
  obtain ⟨n, rfl⟩ : ∃ n, passes = n + 1 := ⟨passes - 1, by omega⟩
  have hroom' : (members (seeded t)).length ≤ room := by rw [members_seeded]; exact hroom
  have hpass : passWithin policy.depthLimit room (openPermissions (seeded t)) (seeded t) =
      some (pass policy.depthLimit (openPermissions (seeded t)) (seeded t)) := passWithin_eq hroom'
  rw [openPermissions_seeded] at hpass
  have hsolved := solutionWithin_eq policy.depthLimit hroom (Nat.lt_succ_iff.mp hpasses)
  rw [resolveWithin, resolve]
  cases hrel : policy.collect [] (allRelationDiagnostics t) with
  | error ds => rfl
  | ok found =>
    simp only [hpass, Option.bind_some, hsolved, Option.map_some]
    have hrest : (do
        let found ← policy.collect found
          (pass policy.depthLimit (openPermissions t) (seeded t)).diagnostics
        demandNone found
        let found ← policy.collect [] (deadEnds (solution policy.depthLimit t))
        demandNone found
        return solution policy.depthLimit t) =
        policy.collect found (pass policy.depthLimit (openPermissions t) (seeded t)).diagnostics >>=
          demandNone >>= fun _ =>
          policy.collect [] (deadEnds (solution policy.depthLimit t)) >>= demandNone >>=
            fun _ => .ok (solution policy.depthLimit t) := by simp only [bind_assoc]; rfl
    refine Eq.trans ?_ (congrArg some hrest.symm)
    cases policy.collect found
      (pass policy.depthLimit (openPermissions t) (seeded t)).diagnostics >>= demandNone <;> rfl

/-- In every state of a resolution the members that are being expanded at one time are distinct
members of the table. Passes end within their bound, and a resolution that would give up beyond
these bounds does not. -/
theorem resolve_bounded (policy : Policy) (t : Table) :
    (∀ s, Run policy.depthLimit (seeded t) s → ∀ p ∈ openPermissions t, ∀ active,
      Nested s policy.depthLimit p.1 p.2 active → active.Nodup ∧
        (∀ m ∈ active, ∃ found, t.member? m = some found) ∧ active.length ≤ (members t).length) ∧
    (∃ n ≤ 1 + (openPermissions t).length * (subjectUniverse t).length, ∃ s,
      Settles policy.depthLimit (openPermissions t) n (seeded t) s) ∧
    ∀ room passes, (members t).length ≤ room →
      1 + (openPermissions t).length * (subjectUniverse t).length ≤ passes →
      resolveWithin room passes policy t = some (resolve policy t) := by
  refine ⟨?_, ?_, ?_⟩
  · intro s hrun p _ active hactive
    obtain ⟨hnodup, hexist⟩ := hactive.distinct_existing
    have hsame : members s = members t := by rw [members_variant hrun.variant, members_seeded]
    have hin : ∀ m ∈ active, m ∈ members t := fun m hm => by
      obtain ⟨found, hfound⟩ := hexist m hm
      exact hsame ▸ mem_members_of_find hfound
    have hdistinct : active.Nodup := (List.nodup_cons.mp hnodup).2
    exact ⟨hdistinct, fun m hm => mem_members.mp (hin m hm), length_le_members hdistinct hin⟩
  · obtain ⟨n, hn, hsettles⟩ := settles_solution policy.depthLimit t
    exact ⟨n, hn, solution policy.depthLimit t, hsettles⟩
  · intro room passes hroom hpasses
    exact resolveWithin_eq policy hroom (by rw [passBound]; omega)

theorem resolve_bounded_folders :
    Nested (seeded foldersTable) none ⟨"folder", "edit"⟩
      [.through "folder" "auditor", .through "folder" "view"]
      [⟨"folder", "auditor"⟩, ⟨"group", "member"⟩] ∧ 2 ≤ (members foldersTable).length := by
  have hactive : Nested (seeded foldersTable) none ⟨"folder", "edit"⟩
      [.through "folder" "auditor", .through "folder" "view"]
      ([] ++ [⟨"folder", "auditor"⟩] ++ [⟨"group", "member"⟩]) :=
    .inner (.outermost List.mem_cons_self rfl (by decide +kernel)) (by decide +kernel)
      (by decide +kernel)
  have hopen : ((⟨"folder", "edit"⟩, [.through "folder" "auditor", .through "folder" "view"]) :
      MemberId × List Edge) ∈ openPermissions foldersTable := by decide +kernel
  exact ⟨hactive, ((resolve_bounded {} foldersTable).1 _ .refl _ hopen _ hactive).2.2⟩

end AuthSchema.Resolution
