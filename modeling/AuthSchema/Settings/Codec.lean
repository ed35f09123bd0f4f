import AuthSchema.Settings.Basic

/-!
Settings as JSON. Everything may be left out; only the depth limit may be null.
-/
namespace AuthSchema

open Json (record? orDefault orNull)

/-- A number that fits in 64 bits. -/
def word? : Json → Option Nat
  | .nat n => if n < Nat.pow 2 64 then some n else none
  | _ => none

namespace Resolution.Policy

def toJson (p : Policy) : Json :=
  .obj [("max_indirection_depth", p.depthLimit.elim .null .nat), ("fail_fast", .bool p.stopAtFirst)]

def ofJson? (j : Json) : Option Policy := do
  match ← j.record? [("max_indirection_depth", false), ("fail_fast", false)] with
  | [depthLimit, stopAtFirst] =>
    return ⟨← orNull word? depthLimit, ← orDefault false Json.bool? stopAtFirst⟩
  | _ => none

end Resolution.Policy

namespace OutputSettings

def toJson (o : OutputSettings) : Json :=
  .obj [("ignore_prefix", .str o.hidden), ("pretty", .bool o.pretty)]

def ofJson? (j : Json) : Option OutputSettings := do
  match ← j.record? [("ignore_prefix", false), ("pretty", false)] with
  | [hidden, pretty] =>
    return ⟨← orDefault "" Json.str? hidden, ← orDefault true Json.bool? pretty⟩
  | _ => none

end OutputSettings

namespace Settings

def toJson (s : Settings) : Json :=
  .obj [("resolver", s.policy.toJson), ("output", s.output.toJson)]

def ofJson? (j : Json) : Option Settings := do
  match ← j.record? [("resolver", false), ("output", false)] with
  | [policy, output] =>
    return ⟨← orDefault {} Resolution.Policy.ofJson? policy,
      ← orDefault {} OutputSettings.ofJson? output⟩
  | _ => none

end Settings

end AuthSchema
