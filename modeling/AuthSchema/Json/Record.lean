import AuthSchema.Json.Basic
import AuthSchema.SortedMap.Basic

/-!
Records in JSON: an object with the fields as keys, or an array of the field values in order. Keys
of an object that name no field are ignored; a field written twice is refused. In an array only
fields that are not required may be left off at the end.
-/
namespace AuthSchema.Json

/-- The value of a field among the members of an object: `none` when it is written twice or is
missing though required. -/
def fieldOf (name : String) (required : Bool) (members : List (String × Json)) :
    Option (Option Json) :=
  match members.filter fun m => m.1 = name with
  | [] => if required then none else some none
  | [m] => some (some m.2)
  | _ => none

def fieldsOf (members : List (String × Json)) : List (String × Bool) → Option (List (Option Json))
  | [] => some []
  | (name, required) :: rest => do
    return (← fieldOf name required members) :: (← fieldsOf members rest)

def fieldsAt : List Json → List (String × Bool) → Option (List (Option Json))
  | [], [] => some []
  | _ :: _, [] => none
  | [], (_, required) :: rest =>
    if required then none else do return none :: (← fieldsAt [] rest)
  | j :: items, _ :: rest => do return some j :: (← fieldsAt items rest)

/-- The values of the fields of a record; a field comes with whether it is required. -/
def record? (fields : List (String × Bool)) : Json → Option (List (Option Json))
  | .obj members => fieldsOf members fields
  | .arr items => fieldsAt items fields
  | _ => none

private theorem sizeOf_fieldOf {name : String} {required : Bool} {members : List (String × Json)}
    {v : Json} (h : fieldOf name required members = some (some v)) : sizeOf v < sizeOf members := by
  unfold fieldOf at h
  split at h
  · split at h <;> simp at h
  · next m hm =>
    have hmem : m ∈ members := (List.mem_filter.mp (by rw [hm]; exact List.mem_singleton.mpr rfl)).1
    have hlt := List.sizeOf_lt_of_mem hmem
    obtain ⟨k, w⟩ := m
    simp only [Option.some.injEq] at h
    subst h
    simp only [Prod.mk.sizeOf_spec] at hlt
    omega
  · simp at h

private theorem sizeOf_fieldsOf {fields : List (String × Bool)} {members : List (String × Json)}
    {l : List (Option Json)} {v : Json} (h : fieldsOf members fields = some l) (hv : some v ∈ l) :
    sizeOf v < sizeOf members := by
  induction fields generalizing l with
  | nil => simp only [fieldsOf, Option.some.injEq] at h; simp [← h] at hv
  | cons f rest ih =>
    simp only [fieldsOf, Option.bind_eq_bind, Option.bind_eq_some_iff, Option.pure_def,
      Option.some.injEq] at h
    obtain ⟨a, ha, as, has, rfl⟩ := h
    rcases List.mem_cons.mp hv with rfl | hv
    · exact sizeOf_fieldOf ha
    · exact ih has hv

private theorem sizeOf_fieldsAt {fields : List (String × Bool)} {items : List Json}
    {l : List (Option Json)} {v : Json} (h : fieldsAt items fields = some l) (hv : some v ∈ l) :
    sizeOf v < sizeOf items := by
  induction fields generalizing l items with
  | nil =>
    cases items <;> simp only [fieldsAt, Option.some.injEq, reduceCtorEq] at h
    simp [← h] at hv
  | cons f rest ih =>
    cases items with
    | nil =>
      simp only [fieldsAt] at h
      split at h
      · simp at h
      · simp only [Option.bind_eq_bind, Option.bind_eq_some_iff, Option.pure_def,
          Option.some.injEq] at h
        obtain ⟨as, has, rfl⟩ := h
        rcases List.mem_cons.mp hv with hv | hv
        · simp at hv
        · exact ih has hv
    | cons j items =>
      simp only [fieldsAt, Option.bind_eq_bind, Option.bind_eq_some_iff, Option.pure_def,
        Option.some.injEq] at h
      obtain ⟨as, has, rfl⟩ := h
      rcases List.mem_cons.mp hv with hv | hv
      · cases hv; simp only [List.cons.sizeOf_spec]; omega
      · have := ih has hv; simp only [List.cons.sizeOf_spec]; omega

theorem sizeOf_lt_of_record? {fields : List (String × Bool)} {j v : Json} {l : List (Option Json)}
    (h : j.record? fields = some l) (hv : some v ∈ l) : sizeOf v < sizeOf j := by
  unfold record? at h
  split at h
  · have := sizeOf_fieldsOf h hv; simp only [obj.sizeOf_spec]; omega
  · have := sizeOf_fieldsAt h hv; simp only [arr.sizeOf_spec]; omega
  · simp at h

/-- The tag of a tagged value, and its other content: the tag stands at the key `type` of an
object, or first in an array. -/
def tagged? : Json → Option (Json × Json)
  | .obj members =>
    match members.filter fun m => m.1 = "type" with
    | [(_, tag)] => some (tag, .obj (members.filter fun m => m.1 ≠ "type"))
    | _ => none
  | .arr (tag :: items) => some (tag, .arr items)
  | _ => none

private theorem sizeOf_filter_le {α : Type u} [SizeOf α] (p : α → Bool) (l : List α) :
    sizeOf (l.filter p) ≤ sizeOf l := by
  induction l with
  | nil => simp
  | cons a l ih =>
    simp only [List.filter_cons]
    split <;> simp only [List.cons.sizeOf_spec] <;> omega

theorem sizeOf_le_of_tagged? {j tag content : Json}
    (h : j.tagged? = some (tag, content)) : sizeOf content ≤ sizeOf j := by
  unfold tagged? at h
  split at h
  · next members =>
    split at h
    · simp only [Option.some.injEq, Prod.mk.injEq] at h
      have := sizeOf_filter_le (fun m : String × Json => decide (m.1 ≠ "type")) members
      simp only [← h.2, obj.sizeOf_spec]
      omega
    · simp at h
  · simp only [Option.some.injEq, Prod.mk.injEq] at h
    simp only [← h.2, arr.sizeOf_spec, List.cons.sizeOf_spec]
    omega
  · simp at h

/-- Reads a field that stands for a default value when it is missing. -/
def orDefault {α : Type u} (default : α) (read : Json → Option α) : Option Json → Option α
  | none => some default
  | some j => read j

/-- Reads a field that may be missing or null. -/
def orNull {α : Type u} (read : Json → Option α) : Option Json → Option (Option α)
  | none => some none
  | some .null => some none
  | some j => (read j).map some

/-- Reads a field that may be missing or null, where the reader is only given values that are
smaller than the record. -/
def orNullWithin {α : Type u} (j : Json) (field : Option Json)
    (smaller : ∀ v, field = some v → sizeOf v < sizeOf j)
    (read : (v : Json) → sizeOf v < sizeOf j → Option α) : Option (Option α) :=
  match field, smaller with
  | none, _ => some none
  | some .null, _ => some none
  | some v, h => (read v (h v rfl)).map some

theorem orNullWithin_eq {α : Type u} (j : Json) (field : Option Json)
    (smaller : ∀ v, field = some v → sizeOf v < sizeOf j) (read : Json → Option α) :
    orNullWithin j field smaller (fun v _ => read v) = orNull read field := by
  cases field with
  | none => rfl
  | some v => cases v <;> rfl

def required {α : Type u} (read : Json → Option α) (field : Option Json) : Option α :=
  field.bind read

def listOf? {α : Type u} (read : Json → Option α) : Json → Option (List α)
  | .arr items => items.mapM read
  | _ => none

/-- Reads an object as a map; of repeated keys the last counts, but all values have to be good. -/
def mapOf? {α : Type u} (read : Json → Option α) : Json → Option (SortedMap α)
  | .obj members => do
    return SortedMap.ofList (← members.mapM fun m => do return (m.1, ← read m.2))
  | _ => none

def ofMap {α : Type u} (write : α → Json) (m : SortedMap α) : Json :=
  .obj (m.entries.map fun e => (e.1, write e.2))

/-- A member that is written only when it has a value. -/
def optionalMember {α : Type u} (name : String) (write : α → Json) :
    Option α → List (String × Json)
  | none => []
  | some a => [(name, write a)]

end AuthSchema.Json
