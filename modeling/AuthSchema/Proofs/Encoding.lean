import AuthSchema.Json.Record
import AuthSchema.Proofs.Keyed

/-! Reading back what has been written. A record is read field by field, a list item by item and a
map entry by entry, so what reading makes of a whole is what it makes of the parts. -/
namespace AuthSchema.Json
variable {α : Type u} {read : Json → Option α} {write : α → Json} {norm : α → α}

@[simp] theorem str?_str (s : String) : (Json.str s).str? = some s := rfl

/-- The members of a record whose fields come with their names, whether they are required, and
their values; a field without a value is left out. -/
def written (fields : List (String × Bool × Option Json)) : List (String × Json) :=
  fields.filterMap fun f => f.2.2.map fun v => (f.1, v)

private theorem name_of_mem_written {fields : List (String × Bool × Option Json)}
    {m : String × Json} (h : m ∈ written fields) : m.1 ∈ fields.map Prod.fst := by
  obtain ⟨f, hf, hm⟩ := List.mem_filterMap.mp h
  obtain ⟨v, -, rfl⟩ := Option.map_eq_some_iff.mp hm
  exact List.mem_map.mpr ⟨f, hf, rfl⟩

private theorem filter_written {fields : List (String × Bool × Option Json)}
    (hnames : (fields.map Prod.fst).Nodup) {name : String} {required : Bool} {v : Option Json}
    (h : (name, required, v) ∈ fields) :
    (written fields).filter (fun m => m.1 = name) = (v.map fun v => (name, v)).toList := by
  induction fields with
  | nil => cases h
  | cons f rest ih =>
    obtain ⟨hnew, hrest⟩ := List.nodup_cons.mp hnames
    have hsplit : written (f :: rest) = (f.2.2.map fun v => (f.1, v)).toList ++ written rest := by
      rw [written, written, List.filterMap_cons]
      cases f.2.2 <;> rfl
    rw [hsplit, List.filter_append]
    rcases List.mem_cons.mp h with rfl | hmem
    · have hnone : (written rest).filter (fun m => m.1 = name) = [] := by
        refine List.filter_eq_nil_iff.mpr fun m hm heq => hnew ?_
        rw [← of_decide_eq_true heq]
        exact name_of_mem_written hm
      rw [hnone, List.append_nil]
      cases v <;> simp
    · have hne : f.1 ≠ name := fun heq => hnew (heq ▸ List.mem_map.mpr ⟨_, hmem, rfl⟩)
      rw [ih hrest hmem]
      cases f.2.2 <;> simp [hne]

private theorem fieldOf_written {fields : List (String × Bool × Option Json)}
    (hnames : (fields.map Prod.fst).Nodup)
    (hpresent : ∀ f ∈ fields, f.2.1 = true → f.2.2.isSome = true)
    {f : String × Bool × Option Json} (hf : f ∈ fields) :
    fieldOf f.1 f.2.1 (written fields) = some f.2.2 := by
  have hvalue := hpresent f hf
  obtain ⟨name, required, v⟩ := f
  rw [fieldOf, filter_written hnames hf]
  cases v with
  | none =>
    have hoptional : required = false := Bool.eq_false_iff.mpr fun hr => by simpa using hvalue hr
    simp [hoptional]
  | some v => rfl

/-- A record that has its required fields is read field by field. -/
theorem record?_written {fields : List (String × Bool × Option Json)}
    (hnames : (fields.map Prod.fst).Nodup)
    (hpresent : ∀ f ∈ fields, f.2.1 = true → f.2.2.isSome = true) :
    record? (fields.map fun f => (f.1, f.2.1)) (.obj (written fields)) =
      some (fields.map fun f => f.2.2) := by
  have hpart : ∀ part : List (String × Bool × Option Json), (∀ f ∈ part, f ∈ fields) →
      fieldsOf (written fields) (part.map fun f => (f.1, f.2.1)) =
        some (part.map fun f => f.2.2) := by
    intro part hsub
    induction part with
    | nil => rfl
    | cons f part ih =>
      rw [List.map_cons, fieldsOf, fieldOf_written hnames hpresent (hsub f List.mem_cons_self),
        ih fun g hg => hsub g (List.mem_cons_of_mem _ hg)]
      rfl
  exact hpart fields fun f hf => hf

/-- A tagged value comes apart into its tag and its other fields. -/
theorem tagged?_written (fields : List (String × Bool × Option Json))
    (hnames : "type" ∉ fields.map Prod.fst) (tag : Json) :
    tagged? (.obj (("type", tag) :: written fields)) = some (tag, .obj (written fields)) := by
  have hne : ∀ m ∈ written fields, m.1 ≠ "type" :=
    fun m hm heq => hnames (heq ▸ name_of_mem_written hm)
  have htag : (written fields).filter (fun m => m.1 = "type") = [] :=
    List.filter_eq_nil_iff.mpr fun m hm => by simpa using hne m hm
  have hothers : (written fields).filter (fun m => m.1 ≠ "type") = written fields :=
    List.filter_eq_self.mpr fun m hm => by simpa using hne m hm
  rw [tagged?, List.filter_cons_of_pos (by simp), htag, List.filter_cons_of_neg (by simp), hothers]

theorem optionalMember_eq (name : String) (o : Option α) :
    optionalMember name write o = written [(name, false, o.map write)] := by
  cases o <;> rfl

theorem orNull_of_ne_null {j : Json} (h : j ≠ .null) :
    orNull read (some j) = (read j).map some := by
  cases j with
  | null => exact absurd rfl h
  | bool _ | nat _ | decimal _ | str _ | arr _ | obj _ => rfl

theorem orNull_map (h : ∀ a, read (write a) = some (norm a)) (hnull : ∀ a, write a ≠ .null)
    (o : Option α) : orNull read (o.map write) = some (o.map norm) := by
  cases o with
  | none => rfl
  | some a => rw [Option.map_some, Option.map_some, orNull_of_ne_null (hnull a), h, Option.map_some]

theorem orNull_lossless (h : ∀ a, read (write a) = some a) (hnull : ∀ a, write a ≠ .null)
    (o : Option α) : orNull read (o.map write) = some o := by
  have hread : orNull read (o.map write) = some (o.map id) := orNull_map h hnull o
  rw [hread, Option.map_id, id]

theorem listOf?_map {l : List α} (h : ∀ a ∈ l, read (write a) = some (norm a)) :
    listOf? read (.arr (l.map write)) = some (l.map norm) := by
  rw [listOf?, List.mapM_map]
  exact mapM_of_some h

/-- A map is read entry by entry; its keys have been written once each. -/
theorem mapOf?_ofMap {m : SortedMap α}
    (h : ∀ key a, m.get? key = some a → read (write a) = some (norm a)) :
    mapOf? read (ofMap write m) = some (m.map fun _ a => norm a) := by
  have hentries : (m.entries.map fun e => (e.1, write e.2)).mapM
      (fun e : String × Json => do return (e.1, ← read e.2)) =
        some (m.entries.map fun e => (e.1, norm e.2)) := by
    rw [List.mapM_map]
    refine mapM_of_some fun e he => ?_
    have hread := h e.1 e.2 (SortedMap.mem_entries_iff.mp he)
    change (read (write e.2)).bind (fun a => some (e.1, a)) = some (e.1, norm e.2)
    rw [hread, Option.bind_some]
  have hfiled : SortedMap.ofList (m.entries.map fun e => (e.1, norm e.2)) =
      m.map fun _ a => norm a := by
    have hindex : SortedMap.Indexes Prod.fst (fun e v => v = norm e.2) m.entries
        (SortedMap.ofList (m.entries.map fun e => (e.1, norm e.2))) :=
      SortedMap.indexes_ofList m.nodup_keys
    apply SortedMap.ext_get?
    intro key
    apply Option.ext
    intro v
    rw [hindex key v, SortedMap.get?_map, Option.map_eq_some_iff]
    constructor
    · rintro ⟨⟨k, a⟩, hmem, rfl, rfl⟩
      exact ⟨a, SortedMap.mem_entries_iff.mp hmem, rfl⟩
    · rintro ⟨a, ha, rfl⟩
      exact ⟨(key, a), SortedMap.mem_entries_iff.mpr ha, rfl, rfl⟩
  rw [ofMap, mapOf?, hentries, ← hfiled]
  rfl

theorem listOf?_lossless (h : ∀ a, read (write a) = some a) (l : List α) :
    listOf? read (.arr (l.map write)) = some l := by
  have hread : listOf? read (.arr (l.map write)) = some (l.map id) := listOf?_map fun a _ => h a
  rw [hread, List.map_id]

theorem mapOf?_lossless (h : ∀ a, read (write a) = some a) (m : SortedMap α) :
    mapOf? read (ofMap write m) = some m := by
  have hread : mapOf? read (ofMap write m) = some (m.map fun _ a => id a) :=
    mapOf?_ofMap fun _ a _ => h a
  have hsame : (m.map fun _ a => id a) = m := SortedMap.map_eq_self fun _ _ _ => rfl
  rw [hread, hsame]

end AuthSchema.Json
