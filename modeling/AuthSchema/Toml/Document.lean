/-!
TOML documents: values, statements, and the table that a list of statements describes. A table
remembers how it was written, which decides what may still be added to it.
-/
namespace AuthSchema.Toml

inductive Origin where
  /-- Under a header of its own. -/
  | header
  /-- Only as a part of longer headers; it may still get its own. -/
  | implied
  /-- By dotted keys, more of which may follow. -/
  | dotted
  /-- Between braces, which closes it. -/
  | inline
deriving DecidableEq, Repr

inductive Value where
  | text (value : String)
  | integer (value : Int)
  | boolean (value : Bool)
  | float
  | moment
  | array (items : List Value)
  | table (origin : Origin) (entries : List (String × Value))
  /-- The tables of repeated headers in double brackets. -/
  | tables (elements : List (List (String × Value)))
deriving Repr, Inhabited

abbrev Entries := List (String × Value)

namespace Entries

def get? (entries : Entries) (key : String) : Option Value := entries.lookup key

def set (entries : Entries) (key : String) (v : Value) : Entries :=
  entries.map fun e => if e.1 = key then (key, v) else e

def add (entries : Entries) (key : String) (v : Value) : Entries := entries ++ [(key, v)]

def addNew (key : String) (v : Value) (entries : Entries) : Option Entries :=
  match entries.get? key with
  | none => some (entries.add key v)
  | some _ => none

/-- Adds a value under a dotted key. Tables in between come from dotted keys too. -/
def addDotted (v : Value) : List String → String → Entries → Option Entries
  | [], key, entries => entries.addNew key v
  | part :: path, key, entries =>
    match entries.get? part with
    | none => do return entries.add part (.table .dotted (← addDotted v path key []))
    | some (.table .dotted inner) => do
      return entries.set part (.table .dotted (← addDotted v path key inner))
    | some (.table .implied inner) =>
      if path.isEmpty then none
      else do return entries.set part (.table .implied (← addDotted v path key inner))
    | some (.tables elements) =>
      match path, elements.getLast? with
      | _ :: _, some last => do
        return entries.set part (.tables (elements.dropLast ++ [← addDotted v path key last]))
      | _, _ => none
    | some _ => none

/-- Changes the table at the path of a header; of repeated tables the last is meant. -/
def descend (change : Entries → Option Entries) : List String → Entries → Option Entries
  | [], entries => change entries
  | part :: path, entries =>
    match entries.get? part with
    | none => do return entries.add part (.table .implied (← descend change path []))
    | some (.table .inline _) => none
    | some (.table origin inner) => do
      return entries.set part (.table origin (← descend change path inner))
    | some (.tables elements) => do
      let last ← elements.getLast?
      return entries.set part (.tables (elements.dropLast ++ [← descend change path last]))
    | some _ => none

def openTable (key : String) (entries : Entries) : Option Entries :=
  match entries.get? key with
  | none => some (entries.add key (.table .header []))
  | some (.table .implied inner) => some (entries.set key (.table .header inner))
  | some _ => none

def openElement (key : String) (entries : Entries) : Option Entries :=
  match entries.get? key with
  | none => some (entries.add key (.tables [[]]))
  | some (.tables elements) => some (entries.set key (.tables (elements ++ [[]])))
  | some _ => none

end Entries

/-- A statement of a document; a path comes with its last key apart. -/
inductive Statement where
  | entry (path : List String) (key : String) (value : Value)
  | table (path : List String) (key : String)
  | element (path : List String) (key : String)

def inlineEntries (items : List (List String × String × Value)) : Option Entries :=
  items.foldlM (fun entries item => Entries.addDotted item.2.2 item.1 item.2.1 entries) []

/-- Follows one statement; the state is the document so far and the path of the last header. -/
private def follow (state : Entries × List String) : Statement → Option (Entries × List String)
  | .entry path key v => do
    return (← state.1.descend (Entries.addDotted v path key) state.2, state.2)
  | .table path key => do
    return (← state.1.descend (Entries.openTable key) path, path ++ [key])
  | .element path key => do
    return (← state.1.descend (Entries.openElement key) path, path ++ [key])

def documentOf (statements : List Statement) : Option Entries := do
  let (entries, _) ← statements.foldlM follow ([], [])
  return entries

end AuthSchema.Toml
