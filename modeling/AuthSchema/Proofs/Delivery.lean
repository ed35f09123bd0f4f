import AuthSchema.CommandLine.Disk
import AuthSchema.Compiled.Construct
import AuthSchema.Proofs.Bytes
import AuthSchema.Proofs.Keyed
import AuthSchema.Proofs.Pipeline
import AuthSchema.Proofs.Printed

/-! A run of the program changes the world in its last step or not at all. What it has found out
until then is a function of the world before it; that function succeeds exactly if the settings
that hold are usable and the schema can be read and resolved. -/
namespace AuthSchema

open Text (Symbol symbols)

namespace Settings

/-- Settings that the program accepts. -/
structure Usable (s : Settings) : Prop where
  depth : s.policy.depthLimit ≠ some 0
  hidden : ∀ c ∈ s.output.hidden.toList, Text.isBlank c = false

theorem usable_iff (s : Settings) : s.Usable ↔ s.fault? = none := by
  constructor
  · intro h
    have hblank : s.output.hidden.toList.any Text.isBlank = false := by
      simpa using h.hidden
    simp [fault?, h.depth, hblank]
  · intro h
    by_cases hdepth : s.policy.depthLimit = some 0
    · simp [fault?, hdepth] at h
    · refine ⟨hdepth, ?_⟩
      simpa [fault?, hdepth] using h

end Settings

namespace CommandLine

section Stages

theorem mapM_id_eq_some {s : List Symbol} {cs : List Char} :
    s.mapM id = some cs ↔ s = cs.map some := by
  induction s generalizing cs with
  | nil => cases cs <;> simp
  | cons c s ih =>
    cases c with
    | none => cases cs <;> simp
    | some c =>
      have hrest : (some c :: s).mapM id = (s.mapM id).map (c :: ·) := by
        cases h : s.mapM id <;> simp [h]
      rw [hrest, Option.map_eq_some_iff]
      constructor
      · rintro ⟨rest, hs, rfl⟩
        rw [ih.mp hs, List.map_cons]
      · intro h
        obtain ⟨d, rest, rfl, hd, hs⟩ := List.map_eq_cons_iff.mp h.symm
        cases hd
        exact ⟨rest, ih.mpr hs.symm, rfl⟩

/-- A text is read if no byte of the file is stray. -/
theorem textOf?_eq_some {bytes : List UInt8} {text : String} :
    textOf? bytes = some text ↔ Text.decode bytes = symbols text := by
  rw [textOf?, Option.map_eq_some_iff]
  constructor
  · rintro ⟨cs, hcs, rfl⟩
    rw [symbols, String.toList_ofList]
    exact mapM_id_eq_some.mp hcs
  · intro h
    exact ⟨text.toList, mapM_id_eq_some.mpr h, String.ofList_toList⟩

theorem loadSettings_eq_ok {path : String} {content : Option (List UInt8)} {settings : Settings} :
    loadSettings path content = .ok settings ↔ ∃ bytes text, content = some bytes ∧
      Text.decode bytes = symbols text ∧ Settings.ofToml text = some settings := by
  have htext : ∀ text, content.bind textOf? = some text ↔
      ∃ bytes, content = some bytes ∧ Text.decode bytes = symbols text := by
    simp [Option.bind_eq_some_iff, textOf?_eq_some]
  constructor
  · intro h
    rw [loadSettings] at h
    split at h
    · cases h
    · next text hread =>
      obtain ⟨bytes, hcontent, hbytes⟩ := (htext text).mp hread
      split at h
      · cases h
      · next parsed =>
        cases h
        exact ⟨bytes, text, hcontent, hbytes, parsed⟩
  · rintro ⟨bytes, text, hcontent, hbytes, hparsed⟩
    simp only [loadSettings, (htext text).mpr ⟨bytes, hcontent, hbytes⟩, hparsed]

theorem checkSettings_eq_ok {s settings : Settings} :
    checkSettings s = .ok settings ↔ settings = s ∧ s.Usable := by
  rw [Settings.usable_iff, checkSettings]
  cases s.fault? <;> simp [eq_comm]

theorem loadSchema_eq_ok {path : String} {content : Option (List UInt8)}
    {compiled : Compiled.Schema} :
    loadSchema path content = .ok compiled ↔ ∃ bytes, content = some bytes ∧
      Compiled.Schema.ofText (Text.decode bytes) = .ok compiled := by
  cases content with
  | none => simp [loadSchema]
  | some bytes =>
    simp only [loadSchema, Option.some.injEq, exists_eq_left']
    cases Compiled.Schema.ofText (Text.decode bytes) <;> simp [Except.mapError]

end Stages

variable {σ : Type} {w : World σ} {o : Options}

section Preparation

private theorem run_bind {α β : Type} (x : ExceptT RunError (StateM σ) α)
    (f : α → ExceptT RunError (StateM σ) β) (s : σ) : (x >>= f).run s =
    match x.run s with
    | (.ok a, s) => (f a).run s
    | (.error e, s) => (.error e, s) := by
  rw [ExceptT.run_bind]
  simp only [bind, StateT.bind]
  rcases x.run s with ⟨r, s'⟩
  cases r <;> rfl

/-- What a run makes of the compiled schema, given the settings of its file: the text to be handed
over. -/
def resolved (w : World σ) (o : Options) (s : σ) (file : Settings) : Except RunError String := do
  let settings ← checkSettings (o.applyTo file)
  let compiled ← loadSchema o.schemaPath (w.read s o.schemaPath)
  let schema ← (Schema.ofCompiled settings.plan compiled).mapError .unresolved
  return render settings schema

/-- What a run finds out about a world before it changes anything. -/
def prepared (w : World σ) (o : Options) (s : σ) : Except RunError String :=
  match o.config with
  | none => resolved w o s {}
  | some path => loadSettings path (w.read s path) >>= resolved w o s

/-- A run that first finds something out, without a change to the world, and fails or goes on. -/
def Prepares (x : ExceptT RunError (StateM σ) Unit) (s : σ) (found : Except RunError String)
    (next : String → Except RunError Unit × σ) : Prop :=
  x.run s = match found with
    | .error e => (.error e, s)
    | .ok text => next text

private theorem Prepares.bind {α : Type} {s : σ} {x : ExceptT RunError (StateM σ) α}
    {e : Except RunError α} {f : α → ExceptT RunError (StateM σ) Unit}
    {g : α → Except RunError String} {next : String → Except RunError Unit × σ}
    (h : x.run s = (e, s)) (hf : ∀ a, Prepares (f a) s (g a) next) :
    Prepares (x >>= f) s (e >>= g) next := by
  unfold Prepares
  rw [run_bind, h]
  cases e with
  | error => rfl
  | ok a => exact hf a

end Preparation

section Precedence

/-- A file of settings that can be read, and what it sets. -/
def World.Configures (w : World σ) (s : σ) (path : String) (settings : Settings) : Prop :=
  ∃ bytes text, w.read s path = some bytes ∧ Text.decode bytes = symbols text ∧
    Settings.ofToml text = some settings

/-- The settings that a run starts from: those of its file, or the defaults without one. -/
def Options.StartsFrom (o : Options) (w : World σ) (s : σ) (settings : Settings) : Prop :=
  match o.config with
  | none => settings = ⟨⟨none, false⟩, ⟨"", true⟩⟩
  | some path => w.Configures s path settings

/-- The settings that hold for a run: what is given on the command line, and the file's otherwise.
-/
structure Options.Governs (o : Options) (file settings : Settings) : Prop where
  hiddenGiven : ∀ hidden, o.hidden = some hidden → settings.output.hidden = hidden
  hiddenLeft : o.hidden = none → settings.output.hidden = file.output.hidden
  limitGiven : ∀ n, o.depthLimit = some n → settings.policy.depthLimit = some n
  limitLeft : o.depthLimit = none → settings.policy.depthLimit = file.policy.depthLimit
  stop : settings.policy.stopAtFirst = file.policy.stopAtFirst
  pretty : settings.output.pretty = file.output.pretty

/-- Where the compiled schema of a run is: at the path that is given, or else at a fixed one. -/
structure Options.SchemaAt (o : Options) (path : String) : Prop where
  given : ∀ file, o.schemaFile = some file → path = file
  left : o.schemaFile = none → path = "schema.json"

theorem Options.schemaAt_iff {path : String} : o.SchemaAt path ↔ path = o.schemaPath := by
  rw [Options.schemaPath]
  constructor
  · intro h
    cases hgiven : o.schemaFile with
    | none => exact h.left hgiven
    | some file => exact h.given file hgiven
  · rintro rfl
    constructor <;> simp +contextual

theorem Options.governs_iff {file settings : Settings} :
    o.Governs file settings ↔ settings = o.applyTo file := by
  constructor
  · intro h
    obtain ⟨⟨limit, stop⟩, ⟨hidden, pretty⟩⟩ := settings
    have hhidden : hidden = o.hidden.getD file.output.hidden := by
      cases hgiven : o.hidden with
      | none => exact h.hiddenLeft hgiven
      | some given => exact h.hiddenGiven given hgiven
    have hlimit : limit = o.depthLimit.or file.policy.depthLimit := by
      cases hgiven : o.depthLimit with
      | none => exact h.limitLeft hgiven
      | some given => exact h.limitGiven given hgiven
    have hstop : stop = file.policy.stopAtFirst := h.stop
    have hpretty : pretty = file.output.pretty := h.pretty
    rw [Options.applyTo, hhidden, hlimit, hstop, hpretty]
  · rintro rfl
    constructor <;> simp +contextual [Options.applyTo]

end Precedence

section Delivery

/-- A text has gone to the one place of a run: its file, or the standard output without one. -/
def Options.Delivers (o : Options) (w : World σ) (before : σ) (text : String) (after : σ) : Prop :=
  match o.outputPath with
  | none => w.print before text = .ok after
  | some path => w.write before path text = some after

theorem Options.Delivers.unique {before after after' : σ} {text : String}
    (h : o.Delivers w before text after) (h' : o.Delivers w before text after') :
    after = after' := by
  unfold Options.Delivers at h h'
  cases hpath : o.outputPath with
  | none =>
    simp only [hpath] at h h'
    exact Except.ok.inj (h.symm.trans h')
  | some path =>
    simp only [hpath] at h h'
    exact Option.some.inj (h.symm.trans h')

end Delivery

section Outcomes

/-- A run comes to the point of resolving a compiled schema, with what that gives: the settings
that hold are usable, and it is by their policy and their text for hidden names that the schema is
resolved. -/
inductive Resolves (w : World σ) (o : Options) (s : σ) :
    Settings → Except SchemaError Schema → Prop
  | intro {file settings : Settings} {path : String} {bytes : List UInt8}
      {compiled : Compiled.Schema} (starts : o.StartsFrom w s file)
      (governs : o.Governs file settings) (usable : settings.Usable) (located : o.SchemaAt path)
      (read : w.read s path = some bytes)
      (decoded : Compiled.Schema.ofText (Text.decode bytes) = .ok compiled) :
      Resolves w o s settings
        (Schema.ofCompiled ⟨settings.policy, settings.output.hidden⟩ compiled)

/-- What a run writes if each stage before the last goes well: the schema that it has resolved, and
one line end. -/
inductive Composes (w : World σ) (o : Options) (s : σ) : String → Prop
  | intro {settings : Settings} {schema : Schema} (h : Resolves w o s settings (.ok schema)) :
      Composes w o s
        ((if settings.output.pretty then schema.toJson.pretty else schema.toJson.compact) ++ "\n")

/-- A run that goes well to its end: what it writes has gone to its one place. -/
def Completes (w : World σ) (o : Options) (before after : σ) : Prop :=
  ∃ text, Composes w o before text ∧ o.Delivers w before text after

theorem mapError_eq_ok {ε ε' α : Type} {f : ε → ε'} {x : Except ε α} {a : α} :
    x.mapError f = .ok a ↔ x = .ok a := by
  cases x <;> simp [Except.mapError]

theorem resolved_eq_ok {s : σ} {file : Settings} {text : String} :
    resolved w o s file = .ok text ↔ (o.applyTo file).Usable ∧ ∃ bytes compiled schema,
      w.read s o.schemaPath = some bytes ∧
      Compiled.Schema.ofText (Text.decode bytes) = .ok compiled ∧
      Schema.ofCompiled (o.applyTo file).plan compiled = .ok schema ∧
      render (o.applyTo file) schema = text := by
  simp only [resolved, bind_eq_ok, checkSettings_eq_ok, loadSchema_eq_ok, mapError_eq_ok, pure,
    Except.pure, Except.ok.injEq]
  constructor
  · rintro ⟨_, ⟨rfl, husable⟩, compiled, ⟨bytes, hread, hdecode⟩, schema, hbuilt, htext⟩
    exact ⟨husable, bytes, compiled, schema, hread, hdecode, hbuilt, htext⟩
  · rintro ⟨husable, bytes, compiled, schema, hread, hdecode, hbuilt, htext⟩
    exact ⟨_, ⟨rfl, husable⟩, compiled, ⟨bytes, hread, hdecode⟩, schema, hbuilt, htext⟩

theorem prepared_eq_ok {s : σ} {text : String} :
    prepared w o s = .ok text ↔ ∃ file, o.StartsFrom w s file ∧ resolved w o s file = .ok text := by
  unfold prepared Options.StartsFrom
  cases o.config with
  | none => simp
  | some path => simp only [bind_eq_ok, loadSettings_eq_ok, World.Configures]

private theorem prepared_of_startsFrom {s : σ} {file : Settings} (h : o.StartsFrom w s file) :
    prepared w o s = resolved w o s file := by
  unfold Options.StartsFrom at h
  unfold prepared
  cases hconfig : o.config with
  | none =>
    simp only [hconfig] at h
    rw [h]
  | some path =>
    simp only [hconfig, World.Configures] at h
    simp only [loadSettings_eq_ok.mpr h]
    rfl

private theorem prepared_of_resolves {s : σ} {settings : Settings}
    {result : Except SchemaError Schema} (h : Resolves w o s settings result) :
    prepared w o s = (result.mapError .unresolved).map (render settings) := by
  obtain ⟨hstarts, hgoverns, husable, hlocated, hread, hdecode⟩ := h
  obtain rfl := Options.governs_iff.mp hgoverns
  obtain rfl := Options.schemaAt_iff.mp hlocated
  rw [prepared_of_startsFrom hstarts]
  simp only [resolved, checkSettings_eq_ok.mpr ⟨rfl, husable⟩, hread,
    loadSchema_eq_ok.mpr ⟨_, rfl, hdecode⟩, bind, Except.bind]
  rw [Settings.plan]
  cases Schema.ofCompiled _ _ <;> rfl

/-- The stages before the last one find out what is to be written. -/
theorem composes_iff {s : σ} {text : String} :
    Composes w o s text ↔ prepared w o s = .ok text := by
  constructor
  · rintro ⟨h⟩
    exact prepared_of_resolves h
  · intro h
    obtain ⟨file, hstarts, hresolved⟩ := prepared_eq_ok.mp h
    obtain ⟨husable, bytes, compiled, schema, hread, hdecode, hbuilt, rfl⟩ :=
      resolved_eq_ok.mp hresolved
    have hresolves : Resolves w o s (o.applyTo file)
        (Schema.ofCompiled (o.applyTo file).plan compiled) :=
      .intro hstarts (Options.governs_iff.mpr rfl) husable (Options.schemaAt_iff.mpr rfl) hread
        hdecode
    rw [hbuilt] at hresolves
    exact .intro hresolves

theorem Completes.unique {before after after' : σ} (h : Completes w o before after)
    (h' : Completes w o before after') : after = after' := by
  obtain ⟨text, hcomposes, hdelivers⟩ := h
  obtain ⟨text', hcomposes', hdelivers'⟩ := h'
  rw [composes_iff] at hcomposes hcomposes'
  obtain rfl : text = text' := Except.ok.inj (hcomposes.symm.trans hcomposes')
  exact hdelivers.unique hdelivers'

section Published

open Compiled (Declaration)

variable {schemaFile hidden : Option String} {depthLimit : Option Nat}

end Published

end Outcomes

end CommandLine

end AuthSchema
