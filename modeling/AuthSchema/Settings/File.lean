import AuthSchema.Settings.Codec
import AuthSchema.Toml.Parser

/-!
Settings from a TOML document. Its two tables may also be written as arrays of their values in
order; keys that are not known are ignored.
-/
namespace AuthSchema

/-- The value of a field of a TOML record: a table by key, or an array by position. A date or time
is a record of its own, without any field that settings know. -/
private def field? (index : Nat) (name : String) : Toml.Value → Option (Option Toml.Value)
  | .table _ entries => some (entries.lookup name)
  | .array items => some items[index]?
  | .tables elements => some ((elements.map fun e => Toml.Value.table .header e)[index]?)
  | .moment => some none
  | _ => none

private def boolean? : Toml.Value → Option Bool
  | .boolean b => some b
  | _ => none

private def text? : Toml.Value → Option String
  | .text s => some s
  | _ => none

private def natural? : Toml.Value → Option Nat
  | .integer n => if 0 ≤ n then some n.toNat else none
  | _ => none

private def orElse {α : Type} (default : α) (read : Toml.Value → Option α) :
    Option Toml.Value → Option α
  | none => some default
  | some v => read v

private def policyOf (v : Toml.Value) : Option Resolution.Policy := do
  return ⟨← orElse none (fun v => (natural? v).map some) (← field? 0 "max_indirection_depth" v),
    ← orElse false boolean? (← field? 1 "fail_fast" v)⟩

private def outputOf (v : Toml.Value) : Option OutputSettings := do
  return ⟨← orElse "" text? (← field? 0 "ignore_prefix" v),
    ← orElse true boolean? (← field? 1 "pretty" v)⟩

namespace Settings

def ofDocument (entries : Toml.Entries) : Option Settings := do
  return ⟨← orElse {} policyOf (entries.lookup "resolver"),
    ← orElse {} outputOf (entries.lookup "output")⟩

def ofToml (text : String) : Option Settings := (Toml.parse? text).bind ofDocument

end Settings

end AuthSchema
