/-!
Finite maps from text, kept in ascending order of the keys. Strings are ordered by code point.
The order is part of the type, so two maps with the same entries are equal and every traversal
visits the keys in the same order.
-/
namespace AuthSchema

/-- A finite map whose entries stand in strictly ascending order of their keys. -/
structure SortedMap (α : Type u) where
  entries : List (String × α)
  ascending : entries.Pairwise (fun a b => a.1 < b.1)
deriving DecidableEq, Repr

namespace SortedMap
variable {α : Type u} {β : Type v}

def lookup (key : String) : List (String × α) → Option α
  | [] => none
  | (k, v) :: rest => if k = key then some v else lookup key rest

/-- Puts a value into an ascending entry list; a value that stands at the key gives way. -/
def place (key : String) (value : α) : List (String × α) → List (String × α)
  | [] => [(key, value)]
  | (k, v) :: rest =>
    if key < k then (key, value) :: (k, v) :: rest
    else if k < key then (k, v) :: place key value rest
    else (key, value) :: rest

theorem fst_mem_place {key k : String} {value v : α} {l : List (String × α)}
    (h : (k, v) ∈ place key value l) : k = key ∨ (k, v) ∈ l := by
  induction l with
  | nil => simp_all [place]
  | cons e rest ih =>
    obtain ⟨k', v'⟩ := e
    simp only [place] at h
    split at h
    · simp only [List.mem_cons, Prod.mk.injEq] at h ⊢
      rcases h with h | h | h <;> simp_all
    · split at h
      · simp only [List.mem_cons, Prod.mk.injEq] at h ⊢
        rcases h with h | h
        · simp_all
        · rcases ih h with h | h <;> simp_all
      · simp only [List.mem_cons, Prod.mk.injEq] at h ⊢
        rcases h with h | h <;> simp_all

theorem place_ascending (key : String) (value : α) {l : List (String × α)}
    (h : l.Pairwise (fun a b => a.1 < b.1)) :
    (place key value l).Pairwise (fun a b => a.1 < b.1) := by
  induction l with
  | nil => simp [place]
  | cons e rest ih =>
    obtain ⟨k, v⟩ := e
    obtain ⟨hk, hrest⟩ := List.pairwise_cons.mp h
    simp only [place]
    split
    · next hlt =>
      refine List.pairwise_cons.mpr ⟨?_, h⟩
      intro b hb
      rcases List.mem_cons.mp hb with rfl | hb
      · exact hlt
      · exact String.lt_trans hlt (hk b hb)
    · next hnlt =>
      split
      · next hgt =>
        refine List.pairwise_cons.mpr ⟨?_, ih hrest⟩
        rintro ⟨kb, vb⟩ hb
        rcases fst_mem_place hb with rfl | hb
        · exact hgt
        · exact hk _ hb
      · next hngt =>
        have heq : key = k :=
          String.le_antisymm (String.not_lt.mp hngt) (String.not_lt.mp hnlt)
        subst heq
        exact List.pairwise_cons.mpr ⟨hk, hrest⟩

def empty : SortedMap α := ⟨[], .nil⟩

instance : EmptyCollection (SortedMap α) := ⟨empty⟩

instance : Inhabited (SortedMap α) := ⟨empty⟩

def get? (m : SortedMap α) (key : String) : Option α := lookup key m.entries

def contains (m : SortedMap α) (key : String) : Bool := (m.get? key).isSome

def isEmpty (m : SortedMap α) : Bool := m.entries.isEmpty

def size (m : SortedMap α) : Nat := m.entries.length

def keys (m : SortedMap α) : List String := m.entries.map Prod.fst

def values (m : SortedMap α) : List α := m.entries.map Prod.snd

def insert (m : SortedMap α) (key : String) (value : α) : SortedMap α :=
  ⟨place key value m.entries, place_ascending key value m.ascending⟩

/-- The map of a list of entries; of two entries at one key the last stays. -/
def ofList (l : List (String × α)) : SortedMap α :=
  l.foldl (fun m e => m.insert e.1 e.2) empty

def map (f : String → α → β) (m : SortedMap α) : SortedMap β :=
  ⟨m.entries.map fun e => (e.1, f e.1 e.2), m.ascending.map _ fun _ _ h => h⟩

def filterKeys (p : String → Bool) (m : SortedMap α) : SortedMap α :=
  ⟨m.entries.filter fun e => p e.1, m.ascending.filter _⟩

/-- Changes the value at a key, where there is one. -/
def modify (m : SortedMap α) (key : String) (f : α → α) : SortedMap α :=
  m.map fun k v => if k = key then f v else v

end SortedMap

end AuthSchema
