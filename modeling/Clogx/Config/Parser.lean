/-
# `parse_config_file`

The event loop of `core/config.c` over the events libyaml delivers.  The parser
keeps no tree: `Locals` are its local variables (a depth counter, the
key/value phase, the section flags, the plugin entry being read), `Locals.step`
is the switch over one event, and a step may make one `Setting`.  The control
state never depends on the configuration, so a file is a list of settings
(`Locals.settings`) applied one after another.
-/

import Clogx.Config.Settings
import Clogx.Yaml.Tree

namespace Clogx
namespace Config

open CLib Yaml

/-- The local variables of `parse_config_file`, without `has_errors`. -/
@[ext]
structure Locals where
  depth : ℤ := 0
  expectKey : Bool := true
  inLogSection : Bool := false
  foundLogSection : Bool := false
  currentKey : Text := []
  inPlugins : Bool := false
  inPluginEntry : Bool := false
  inPluginConfig : Bool := false
  pluginIndex : ℕ := 0
  pluginPath : Text := []
  pluginJson : Text := []
  pluginJsonLen : ℕ := 0
  pluginCfgKey : Text := []
deriving DecidableEq

/-- The escaping loop: it stops while two bytes are left for the quote and the terminator, and
returns what it wrote and what is left of `rem`. -/
def jsonEscape : Text → ℕ → Text × ℕ
  | [], rem => ([], rem)
  | c :: v, rem =>
    if 2 < rem then
      if c = 34 ∨ c = 92 then
        let (w, r) := jsonEscape v (rem - 2)
        (92 :: c :: w, r)
      else
        let (w, r) := jsonEscape v (rem - 1)
        (c :: w, r)
    else ([], rem)

/-- Append `"key":"value"` to the JSON text of the plugin.  A header that does not fit is cut by
`snprintf` and `plugin_json_len` stays before it. -/
def Locals.appendJson (l : Locals) (v : Text) : Locals :=
  let rem := maxPluginConfigSize - l.pluginJsonLen
  if 0 < rem ∧ 0 < l.pluginJsonLen then
    let header :=
      (if 1 < l.pluginJsonLen then str "," else []) ++ str "\"" ++ l.pluginCfgKey ++ str "\":\""
    let base := l.pluginJson.take l.pluginJsonLen
    if header.length < rem then
      let (w, r) := jsonEscape v (rem - header.length)
      if 0 < r then
        let text := base ++ header ++ w ++ str "\""
        { l with pluginJson := text, pluginJsonLen := text.length }
      else
        let text := base ++ header ++ w
        { l with pluginJson := text, pluginJsonLen := text.length }
    else { l with pluginJson := base ++ cut rem header }
  else l

/-- A scalar inside a plugin entry. -/
def Locals.pluginScalar (l : Locals) (v : Text) : Locals :=
  if l.inPluginConfig then
    if l.expectKey then { l with pluginCfgKey := cut 128 v, expectKey := false }
    else { l.appendJson v with expectKey := true }
  else if l.expectKey then { l with currentKey := cut 128 v, expectKey := false }
  else if l.currentKey = str "path" then
    { l with pluginPath := cut maxPathSize v, expectKey := true }
  else { l with expectKey := true }

/-- `YAML_SCALAR_EVENT`. -/
def Locals.scalar (l : Locals) (v : Text) : Locals × Option Setting :=
  if l.inPluginEntry then (l.pluginScalar v, none)
  else if l.inLogSection = false ∧ ¬(l.foundLogSection = false ∧ l.depth = 1) then (l, none)
  else if l.expectKey then ({ l with currentKey := cut 128 v, expectKey := false }, none)
  else ({ l with expectKey := true }, (findKey l.currentKey).map fun h => .value h v)

/-- `YAML_SEQUENCE_START_EVENT`. -/
def Locals.sequenceStart (l : Locals) : Locals :=
  if l.currentKey = str "plugins" ∧ (l.inLogSection ∨ l.foundLogSection = false) then
    { l with depth := l.depth + 1, inPlugins := true, pluginIndex := 0, expectKey := true }
  else { l with depth := l.depth + 1, expectKey := true }

/-- `YAML_SEQUENCE_END_EVENT`. -/
def Locals.sequenceEnd (l : Locals) : Locals :=
  { l with
    depth := l.depth - 1
    inPlugins := false
    inPluginEntry := false
    inPluginConfig := false
    expectKey := true }

/-- `YAML_MAPPING_START_EVENT`, with `depth` already counted up. -/
def Locals.mappingStart (l : Locals) : Locals :=
  let l := { l with depth := l.depth + 1 }
  if l.inPlugins ∧ l.inPluginEntry ∧ l.inPluginConfig = false then
    { l with inPluginConfig := true, pluginJson := [123], pluginJsonLen := 1, expectKey := true }
  else if l.inPlugins ∧ l.inPluginEntry = false then
    { l with inPluginEntry := true, pluginPath := [], expectKey := true }
  else if l.depth = 1 then
    if l.currentKey = str "log" then
      { l with inLogSection := true, foundLogSection := true, expectKey := true }
    else { l with inLogSection := false, expectKey := true }
  else if l.depth = 2 ∧ l.currentKey = str "log" then
    { l with inLogSection := true, expectKey := true }
  else { l with inLogSection := false, expectKey := true }

/-- The end of a plugin's `config` mapping: the brace is written at `plugin_json_len`, which
counts it only if the object has a member. -/
def Locals.finishJson (l : Locals) : Locals :=
  let text := l.pluginJson.take l.pluginJsonLen
  { l with
    pluginJson := text ++ [125]
    pluginJsonLen := if text.getLast? = some 123 then l.pluginJsonLen else l.pluginJsonLen + 1
    inPluginConfig := false
    expectKey := true }

/-- `YAML_MAPPING_END_EVENT`: the two plugin cases leave `depth` as it is. -/
def Locals.mappingEnd (l : Locals) : Locals × Option Setting :=
  if l.inPluginConfig then (l.finishJson, none)
  else if l.inPluginEntry then
    if h : l.pluginIndex < maxPlugins ∧ 0 < l.pluginPath.length then
      ({ l with pluginIndex := l.pluginIndex + 1, inPluginEntry := false, expectKey := true },
        some (.plugin ⟨l.pluginIndex, h.1⟩ l.pluginPath l.pluginJson))
    else ({ l with inPluginEntry := false, expectKey := true }, none)
  else
    ({ l with
        inLogSection := l.inLogSection && decide (2 < l.depth)
        depth := l.depth - 1
        expectKey := true }, none)

/-- One round of the loop. -/
def Locals.step (l : Locals) : Event → Locals × Option Setting
  | .sequenceStart => (l.sequenceStart, none)
  | .sequenceEnd => (l.sequenceEnd, none)
  | .scalar v => l.scalar v
  | .mappingStart => (l.mappingStart, none)
  | .mappingEnd => l.mappingEnd
  | .streamStart | .streamEnd | .documentStart | .documentEnd | .ref => (l, none)

def Parsed.applyOption (p : Parsed) : Option Setting → Parsed
  | some s => s.apply p
  | none => p

/-- The loop.  It ends after `YAML_STREAM_END_EVENT`; events that stop before it are a text
libyaml rejects at that point. -/
def parseLoop (l : Locals) (p : Parsed) : List Event → Parsed
  | [] => { p with hasErrors := true }
  | .streamEnd :: _ => p
  | e :: es => parseLoop (l.step e).1 (p.applyOption (l.step e).2) es

/-- What `fopen` and libyaml make of a path: it cannot be opened, or its text gives events. -/
inductive File
  | unopenable
  | events (es : List Event)

/-- `parse_config_file`. -/
def parseConfigFile (f : File) (t : Target) : Parsed :=
  match f with
  | .unopenable => ⟨t, true⟩
  | .events es => parseLoop {} ⟨t, false⟩ es

/-! ### A file as a list of settings -/

/-- The local variables after some events. -/
def Locals.run (l : Locals) : List Event → Locals
  | [] => l
  | e :: es => (l.step e).1.run es

/-- The settings some events make. -/
def Locals.settings (l : Locals) : List Event → List Setting
  | [] => []
  | e :: es => (l.step e).2.toList ++ (l.step e).1.settings es

theorem Locals.run_append (es es' : List Event) :
    ∀ l : Locals, l.run (es ++ es') = (l.run es).run es' := by
  induction es with
  | nil => exact fun _ => rfl
  | cons e es ih => exact fun l => ih _

theorem Locals.settings_append (es es' : List Event) :
    ∀ l : Locals, l.settings (es ++ es') = l.settings es ++ (l.run es).settings es' := by
  induction es with
  | nil => exact fun _ => rfl
  | cons e es ih =>
    intro l
    rw [List.cons_append, settings, settings, run, ih, List.append_assoc]

theorem Parsed.applyOption_eq (p : Parsed) (s : Option Setting) :
    p.applyOption s = s.toList.foldl Setting.apply p := by
  cases s <;> rfl

/-- The events the loop gets to see. -/
def beforeEnd (es : List Event) : List Event := es.takeWhile (· ≠ .streamEnd)

/-- **The loop applies the settings of the events before the end of the stream,** in order; a
stream that breaks off has its settings applied all the same, and is an error. -/
theorem parseLoop_eq (es : List Event) : ∀ (l : Locals) (p : Parsed),
    (parseLoop l p es).target = ((l.settings (beforeEnd es)).foldl Setting.apply p).target ∧
      (parseLoop l p es).hasErrors =
        (decide (.streamEnd ∉ es) ||
          ((l.settings (beforeEnd es)).foldl Setting.apply p).hasErrors) := by
  induction es with
  | nil => exact fun _ _ => ⟨rfl, rfl⟩
  | cons e es ih =>
    intro l p
    by_cases he : e = .streamEnd
    · subst he
      exact ⟨rfl, by simp [parseLoop, beforeEnd, Locals.settings]⟩
    · have hloop : parseLoop l p (e :: es) =
          parseLoop (l.step e).1 (p.applyOption (l.step e).2) es := by
        cases e <;> first | rfl | exact absurd rfl he
      have hbefore : beforeEnd (e :: es) = e :: beforeEnd es := by
        rw [beforeEnd, List.takeWhile_cons_of_pos (by simpa using he), beforeEnd]
      have hmem : (.streamEnd ∉ e :: es) = (.streamEnd ∉ es) := by simp [Ne.symm he]
      obtain ⟨ht, hh⟩ := ih (l.step e).1 (p.applyOption (l.step e).2)
      rw [hloop, hbefore, Locals.settings, List.foldl_append, ← Parsed.applyOption_eq, ht, hh]
      exact ⟨rfl, by simp only [hmem]⟩

/-- The file is rejected: libyaml stops in it, or a setting is. -/
def rejects (es : List Event) : Bool :=
  decide (.streamEnd ∉ es) || (({} : Locals).settings (beforeEnd es)).any Setting.rejected

theorem parseConfigFile_events (es : List Event) (t : Target) :
    (parseConfigFile (.events es) t).target =
        ((({} : Locals).settings (beforeEnd es)).foldl Setting.apply ⟨t, false⟩).target ∧
      (parseConfigFile (.events es) t).hasErrors = rejects es := by
  obtain ⟨ht, hh⟩ := parseLoop_eq es {} ⟨t, false⟩
  refine ⟨ht, hh.trans ?_⟩
  rw [foldl_hasErrors, Bool.false_or, rejects]

end Config
end Clogx
