import AuthSchema.Compiled.Codec
import AuthSchema.Compiled.Table
import AuthSchema.Narrow
import AuthSchema.Resolution.Solve

/-!
From a compiled schema to a resolved one: the table is laid out, resolved and narrowed, caveats are
taken over, and hidden members are left out last, when they no longer matter to others.
-/
namespace AuthSchema

inductive SchemaError where
  | declaration (e : DeclarationError)
  | unresolved (diagnostics : List Resolution.Diagnostic)
  /-- The text of the compiled schema cannot be read. -/
  | unreadable (problem : Json.Problem)
deriving DecidableEq, Repr

/-- How a schema is resolved: the policy, and the text that the names of hidden members begin
with; the empty text hides none. -/
structure Plan where
  policy : Resolution.Policy := {}
  hidden : String := ""
deriving DecidableEq, Repr, Inhabited

namespace Caveat

def ofDeclaration (c : Compiled.CaveatDeclaration) : Caveat := ⟨c.name, c.parameters⟩

end Caveat

namespace Schema

def ofCompiled (plan : Plan) (s : Compiled.Schema) : Except SchemaError Schema := do
  let table ← (Table.ofCompiled s).mapError .declaration
  let resolved ← (Resolution.resolve plan.policy table).mapError .unresolved
  let caveats := SortedMap.ofList (s.caveats.map fun c => (c.name, Caveat.ofDeclaration c))
  return Schema.hide ⟨resolved.narrow, caveats⟩ plan.hidden

def ofCompiledText (plan : Plan) (text : List Text.Symbol) : Except SchemaError Schema := do
  ofCompiled plan (← (Compiled.Schema.ofText text).mapError .unreadable)

end Schema

end AuthSchema
