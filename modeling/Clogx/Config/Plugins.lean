/-
# The plugins of a configuration file

A `plugins` sequence of `parse_config_file` (`core/config.c`): entries with a
path and, before or behind it, a `config` mapping of scalar pairs.  The parser
keeps the path, the JSON text and the index of the entry in variables of the whole
parse.  The path is reset where an entry starts, the JSON text only where a
`config` mapping starts: an entry without one is stored with the text of an
earlier entry.

An entry is stored if it has a path and there is a slot for it (`Stored`); the
sequence then makes the settings `records`, in which the text is handed from entry
to entry.
-/

import Clogx.Config.PluginJson

namespace Clogx
namespace Config

open CLib Yaml

/-- An entry of a `plugins` sequence. -/
structure PluginEntry where
  path : CString
  config : Option (List (CString × CString))
  configFirst : Bool

/-- The pairs of a mapping in the file. -/
def pairNodes (pairs : List (CString × CString)) : List (Node × Node) :=
  pairs.map fun p => (.scalar p.1, .scalar p.2)

def pathMember (path : CString) : Node × Node := (.scalar (str "path"), .scalar path)

def configMember (pairs : List (CString × CString)) : Node × Node :=
  (.scalar (str "config"), .map (pairNodes pairs))

/-- The members of an entry, in their order. -/
def PluginEntry.members (e : PluginEntry) : List (Node × Node) :=
  if e.configFirst then e.config.toList.map configMember ++ [pathMember e.path]
  else pathMember e.path :: e.config.toList.map configMember

def PluginEntry.node (e : PluginEntry) : Node := .map e.members

/-- The sequence. -/
def pluginsNode (es : List PluginEntry) : Node := .seq (es.map PluginEntry.node)

/-! ### The JSON text -/

/-- The text after a pair, which is left out if its key does not fit. -/
def keepPair (t : Text) (p : Text × Text) : Text := if KeyFits t p then addPair t p else t

theorem foldl_kept (ps : List (Text × Text)) : ∀ t : Text,
    (kept t ps).foldl addPair t = ps.foldl keepPair t := by
  induction ps with
  | nil => exact fun _ => rfl
  | cons p ps ih =>
    intro t
    rw [kept, List.foldl_cons, keepPair]
    split_ifs <;> exact ih _

/-- Room for a pair and what follows it. -/
theorem Room.keepPair {t : Text} {p : Text × Text} {ps : List (Text × Text)}
    (h : Room t (p :: ps)) (hpos : 1 ≤ t.length) (hle : t.length + 2 ≤ maxPluginConfigSize) :
    1 ≤ (keepPair t p).length ∧ (keepPair t p).length + 2 ≤ maxPluginConfigSize ∧
      Room (keepPair t p) ps := by
  rw [Room] at h
  rw [Config.keepPair]
  split_ifs at h ⊢
  · exact ⟨addPair_pos .., h⟩
  · exact ⟨hpos, hle, h⟩

theorem Room.length_foldl (ps : List (Text × Text)) : ∀ {t : Text}, Room t ps → 1 ≤ t.length →
    t.length + 2 ≤ maxPluginConfigSize →
      (ps.foldl Config.keepPair t).length + 2 ≤ maxPluginConfigSize := by
  induction ps with
  | nil => exact fun _ _ hle => hle
  | cons p ps ih =>
    intro t h hpos hle
    obtain ⟨hpos', hle', hrest⟩ := h.keepPair hpos hle
    exact ih hrest hpos' hle'

theorem length_objectText_lt {ps : List (CString × CString)} (h : Room [123] (cutPairs ps)) :
    (objectText ps).length < maxPluginConfigSize := by
  have hlen := Room.length_foldl _ h le_rfl (by norm_num [maxPluginConfigSize])
  rw [objectText, openText, foldl_kept, List.length_append, List.length_singleton]
  omega

/-- The JSON text behind an entry. -/
def nextJson (json : Text) (e : PluginEntry) : Text := e.config.elim json objectText

/-- There is room for the configuration of an entry, if it has one. -/
def HasRoom (e : PluginEntry) : Prop := ∀ ps ∈ e.config, Room [123] (cutPairs ps)

namespace Locals

theorem str_quote : str "\"" = [34] := by decide +kernel

/-- The JSON text up to `plugin_json_len`. -/
structure HasJson (l : Locals) (t : Text) : Prop where
  len : l.pluginJsonLen = t.length
  text : l.pluginJson.take l.pluginJsonLen = t

section Json

variable {l : Locals} {t : Text} (h : l.HasJson t) (hpos : 1 ≤ t.length) (v : Text)

include h hpos

/-- **A pair is appended as in the array.** -/
theorem HasJson.appendJson_of_room
    (hroom : (addPair t (l.pluginCfgKey, v)).length + 2 ≤ maxPluginConfigSize) :
    ∃ json len, l.appendJson v = { l with pluginJson := json, pluginJsonLen := len } ∧
      (l.appendJson v).HasJson (addPair t (l.pluginCfgKey, v)) := by
  obtain ⟨hlen, htext⟩ := h
  rw [JsonBuf.length_addPair] at hroom
  dsimp only at hroom
  have happ : l.appendJson v = { l with
      pluginJson := addPair t (l.pluginCfgKey, v)
      pluginJsonLen := (addPair t (l.pluginCfgKey, v)).length } := by
    rw [appendJson, hlen, if_pos (by omega), ← hlen, htext, hlen, ← JsonBuf.header,
      if_pos (by omega), jsonEscape_of_room v (by omega)]
    dsimp only
    rw [if_pos (by omega), JsonBuf.addPair_eq_header, str_quote]
  exact ⟨_, _, happ, by rw [happ]; exact ⟨rfl, List.take_length⟩⟩

/-- A pair whose key does not fit leaves the text. -/
theorem HasJson.appendJson_dropped (hlt : t.length < maxPluginConfigSize)
    (hkey : ¬ KeyFits t (l.pluginCfgKey, v)) :
    ∃ json len, l.appendJson v = { l with pluginJson := json, pluginJsonLen := len } ∧
      (l.appendJson v).HasJson t := by
  obtain ⟨hlen, htext⟩ := h
  rw [KeyFits] at hkey
  dsimp only at hkey
  have happ : l.appendJson v = { l with
      pluginJson := t ++ cut (maxPluginConfigSize - t.length)
        (JsonBuf.header t.length l.pluginCfgKey)
      pluginJsonLen := t.length } := by
    rw [appendJson, hlen, if_pos (by omega), ← hlen, htext, hlen, ← JsonBuf.header,
      if_neg (by omega), ← hlen]
  exact ⟨_, _, happ, by rw [happ]; exact ⟨rfl, List.take_left⟩⟩

end Json

/-! ### One entry -/

/-- Between two entries, with the JSON text and the index so far. -/
structure BeforeEntry (l : Locals) (json : Text) (i : ℕ) : Prop where
  plugins : l.inPlugins = true
  entry : l.inPluginEntry = false
  config : l.inPluginConfig = false
  json : l.pluginJson = json
  index : l.pluginIndex = i

/-- In an entry, before a key. -/
structure InEntry (l : Locals) (path json : Text) (i : ℕ) : Prop where
  plugins : l.inPlugins = true
  entry : l.inPluginEntry = true
  config : l.inPluginConfig = false
  key : l.expectKey = true
  path : l.pluginPath = path
  json : l.pluginJson = json
  index : l.pluginIndex = i

/-- In the `config` mapping of an entry, before a key, with the text `t` so far. -/
structure InConfig (l : Locals) (path t : Text) (i : ℕ) : Prop where
  plugins : l.inPlugins = true
  entry : l.inPluginEntry = true
  config : l.inPluginConfig = true
  key : l.expectKey = true
  path : l.pluginPath = path
  json : l.HasJson t
  index : l.pluginIndex = i

/-- One pair of the mapping. -/
theorem InConfig.pair {l : Locals} {path t : Text} {i : ℕ} (h : l.InConfig path t i)
    (hpos : 1 ≤ t.length) (hle : t.length + 2 ≤ maxPluginConfigSize) (k v : Text)
    (hroom : (keepPair t (cut 128 k, v)).length + 2 ≤ maxPluginConfigSize) :
    (l.run [.scalar k, .scalar v]).InConfig path (keepPair t (cut 128 k, v)) i ∧
      l.settings [.scalar k, .scalar v] = [] := by
  obtain ⟨hplugins, hentry, hconfig, hkey, hpath, hjson, hindex⟩ := h
  set m : Locals := { l with pluginCfgKey := cut 128 k, expectKey := false } with hm
  have hstep : l.step (.scalar k) = (m, none) := by
    simp [step, scalar, pluginScalar, hentry, hconfig, hkey, hm]
  have hstep' : m.step (.scalar v) = ({ m.appendJson v with expectKey := true }, none) := by
    simp [step, scalar, pluginScalar, hm, hentry, hconfig]
  have hmjson : m.HasJson t := ⟨hjson.len, hjson.text⟩
  have happ : ∃ json len, m.appendJson v = { m with pluginJson := json, pluginJsonLen := len } ∧
      (m.appendJson v).HasJson (keepPair t (cut 128 k, v)) := by
    rw [keepPair] at hroom ⊢
    split_ifs at hroom ⊢ with hfits
    · exact hmjson.appendJson_of_room hpos v hroom
    · exact hmjson.appendJson_dropped hpos v (by omega) hfits
  obtain ⟨json, len, heq, hlen, htext⟩ := happ
  simp only [run, settings, hstep, hstep']
  rw [heq] at hlen htext ⊢
  exact ⟨⟨hplugins, hentry, hconfig, rfl, hpath, ⟨hlen, htext⟩, hindex⟩, rfl⟩

/-- The pairs of the mapping. -/
theorem InConfig.pairs {path : Text} {i : ℕ} (ps : List (CString × CString)) :
    ∀ {l : Locals} {t : Text}, l.InConfig path t i → 1 ≤ t.length →
      t.length + 2 ≤ maxPluginConfigSize → Room t (cutPairs ps) →
      (l.run (entriesEvents (pairNodes ps))).InConfig path ((cutPairs ps).foldl keepPair t) i ∧
        l.settings (entriesEvents (pairNodes ps)) = [] := by
  induction ps with
  | nil => exact fun h _ _ _ => ⟨h, rfl⟩
  | cons p ps ih =>
    intro l t h hpos hle hroom
    obtain ⟨hpos', hle', hroom'⟩ := hroom.keepPair hpos hle
    obtain ⟨hpair, hnone⟩ := h.pair hpos hle p.1 p.2 hle'
    obtain ⟨hrest, hnone'⟩ := ih hpair hpos' hle' hroom'
    have hevents : entriesEvents (pairNodes (p :: ps)) =
        [.scalar p.1, .scalar p.2] ++ entriesEvents (pairNodes ps) := rfl
    rw [hevents, run_append, settings_append, hnone, hnone']
    exact ⟨hrest, rfl⟩

/-- A key of the entry. -/
theorem InEntry.step_key {l : Locals} {path json : Text} {i : ℕ} (h : l.InEntry path json i)
    (k : Text) :
    l.step (.scalar k) = ({ l with currentKey := cut 128 k, expectKey := false }, none) := by
  simp [step, scalar, pluginScalar, h.entry, h.config, h.key]

/-- **A `config` mapping leaves its own object as the JSON text,** if there is room for it. -/
theorem InEntry.config_member {l : Locals} {path json : Text} {i : ℕ} (h : l.InEntry path json i)
    {ps : List (CString × CString)} (hroom : Room [123] (cutPairs ps)) :
    (l.run (entryEvents (configMember ps))).InEntry path (objectText ps) i ∧
      l.settings (entryEvents (configMember ps)) = [] := by
  have hevents : entryEvents (configMember ps) = [.scalar (str "config"), .mappingStart] ++
      (entriesEvents (pairNodes ps) ++ [.mappingEnd]) := rfl
  have hopen : (l.run [.scalar (str "config"), .mappingStart]).InConfig path [123] i ∧
      l.settings [.scalar (str "config"), .mappingStart] = [] := by
    simp only [run, settings, h.step_key]
    rw [step, mappingStart, if_pos ⟨h.plugins, h.entry, h.config⟩]
    exact ⟨⟨h.plugins, h.entry, rfl, rfl, h.path, ⟨rfl, rfl⟩, h.index⟩, rfl⟩
  obtain ⟨hpairs, hnone⟩ :=
    InConfig.pairs ps hopen.1 le_rfl (by norm_num [maxPluginConfigSize]) hroom
  set m := (l.run [.scalar (str "config"), .mappingStart]).run (entriesEvents (pairNodes ps))
  have hclose : m.run [.mappingEnd] = m.finishJson ∧ m.settings [.mappingEnd] = [] := by
    simp only [run, settings, step, mappingEnd, hpairs.config, if_true, Option.toList_none,
      List.append_nil, and_self]
  have hfinish : m.finishJson.pluginJson = objectText ps := by
    rw [finishJson, hpairs.json.text, objectText, openText, foldl_kept]
  rw [hevents, run_append, run_append, settings_append, settings_append, hopen.2, hnone,
    hclose.1, hclose.2]
  exact ⟨⟨hpairs.plugins, hpairs.entry, rfl, rfl, hpairs.path, hfinish, hpairs.index⟩, rfl⟩

/-- The path of an entry. -/
theorem InEntry.path_member {l : Locals} {path json : Text} {i : ℕ} (h : l.InEntry path json i)
    (v : CString) :
    (l.run (entryEvents (pathMember v))).InEntry (cut maxPathSize v) json i ∧
      l.settings (entryEvents (pathMember v)) = [] := by
  have hpath : cut 128 (str "path") = str "path" := by decide +kernel
  have hevents : entryEvents (pathMember v) = [.scalar (str "path"), .scalar v] := rfl
  simp only [hevents, run, settings, h.step_key]
  simp only [step, scalar, pluginScalar, h.entry, h.config, hpath, if_true, Bool.false_eq_true,
    if_false]
  exact ⟨⟨h.plugins, rfl, rfl, rfl, rfl, h.json, h.index⟩, rfl⟩

/-- The members of an entry. -/
theorem InEntry.members {l : Locals} {json : Text} {i : ℕ} (h : l.InEntry [] json i)
    {e : PluginEntry} (hroom : HasRoom e) :
    (l.run (entriesEvents e.members)).InEntry (cut maxPathSize e.path) (nextJson json e) i ∧
      l.settings (entriesEvents e.members) = [] := by
  obtain ⟨path, config, first⟩ := e
  cases config with
  | none =>
    have hmembers : entriesEvents (PluginEntry.members ⟨path, none, first⟩) =
        entryEvents (pathMember path) := by
      cases first <;> rfl
    rw [hmembers]
    exact h.path_member path
  | some ps =>
    have hps := hroom ps rfl
    cases first with
    | false =>
      obtain ⟨hpath, hnone⟩ := h.path_member path
      obtain ⟨hconfig, hnone'⟩ := hpath.config_member hps
      have hmembers : entriesEvents (PluginEntry.members ⟨path, some ps, false⟩) =
          entryEvents (pathMember path) ++ (entryEvents (configMember ps) ++ []) := rfl
      rw [hmembers, List.append_nil, run_append, settings_append, hnone, hnone']
      exact ⟨hconfig, rfl⟩
    | true =>
      obtain ⟨hconfig, hnone⟩ := h.config_member hps
      obtain ⟨hpath, hnone'⟩ := hconfig.path_member path
      have hmembers : entriesEvents (PluginEntry.members ⟨path, some ps, true⟩) =
          entryEvents (configMember ps) ++ (entryEvents (pathMember path) ++ []) := rfl
      rw [hmembers, List.append_nil, run_append, settings_append, hnone, hnone']
      exact ⟨hpath, rfl⟩

/-- **An entry is stored under the next index** if it has a path and there is a slot, with the JSON
text of its own mapping or else the one that was there. -/
theorem BeforeEntry.entry_node {l : Locals} {json : Text} {i : ℕ} (h : l.BeforeEntry json i)
    {e : PluginEntry} (hroom : HasRoom e) :
    (l.run e.node.events).BeforeEntry (nextJson json e)
        (if i < maxPlugins ∧ 0 < (cut maxPathSize e.path).length then i + 1 else i) ∧
      l.settings e.node.events =
        if h : i < maxPlugins ∧ 0 < (cut maxPathSize e.path).length then
          [.plugin ⟨i, h.1⟩ (cut maxPathSize e.path) (nextJson json e)] else [] := by
  have hevents : e.node.events = [.mappingStart] ++ (entriesEvents e.members ++ [.mappingEnd]) :=
    rfl
  have hopen : (l.run [.mappingStart]).InEntry [] json i ∧ l.settings [.mappingStart] = [] := by
    simp only [run, settings, step, mappingStart, h.plugins, h.entry, if_true, Bool.false_eq_true,
      false_and, and_false, if_false, and_self]
    exact ⟨⟨rfl, rfl, h.config, rfl, rfl, h.json, h.index⟩, rfl⟩
  obtain ⟨hin, hnone⟩ := hopen.1.members hroom
  rw [hevents, run_append, run_append, settings_append, settings_append, hopen.2, hnone]
  set m := (l.run [.mappingStart]).run (entriesEvents e.members)
  obtain ⟨hplugins, hentry, hconfig, -, hpath, hjson, hindex⟩ := hin
  simp only [run, settings, step, mappingEnd, hconfig, hentry, hpath, hjson, hindex, if_true,
    Bool.false_eq_true, if_false]
  split_ifs <;> exact ⟨⟨hplugins, rfl, rfl, rfl, rfl⟩, rfl⟩

end Locals

/-! ### The whole sequence -/

/-- The settings of a sequence, with the JSON text and the index before it. -/
def records (json : Text) (i : ℕ) : List PluginEntry → List Setting
  | [] => []
  | e :: es =>
    if h : i < maxPlugins ∧ 0 < (cut maxPathSize e.path).length then
      .plugin ⟨i, h.1⟩ (cut maxPathSize e.path) (nextJson json e) ::
        records (nextJson json e) (i + 1) es
    else records (nextJson json e) i es

theorem Locals.BeforeEntry.settings_items (es : List PluginEntry) :
    ∀ {l : Locals} {json : Text} {i : ℕ}, l.BeforeEntry json i → (∀ e ∈ es, HasRoom e) →
      ∀ tail, (∀ m : Locals, m.settings tail = []) →
        l.settings (itemsEvents (es.map PluginEntry.node) ++ tail) = records json i es := by
  induction es with
  | nil => exact fun _ _ tail htail => htail _
  | cons e es ih =>
    intro l json i h hroom tail htail
    obtain ⟨hnext, hset⟩ := h.entry_node (hroom e (List.mem_cons_self ..))
    have hrest := ih hnext (fun e he => hroom e (List.mem_cons_of_mem _ he)) tail htail
    rw [List.map_cons, itemsEvents, List.append_assoc, settings_append, hset, hrest, records]
    split_ifs <;> rfl

/-- The parser has read the key `plugins` in the `log` section, or in a file without one, outside
any entry. -/
structure Locals.ReadsPlugins (l : Locals) : Prop where
  key : l.currentKey = str "plugins"
  reads : l.inLogSection ∨ l.foundLogSection = false
  entry : l.inPluginEntry = false
  config : l.inPluginConfig = false

/-- **The settings of a `plugins` sequence.** -/
theorem Locals.ReadsPlugins.settings_eq {l : Locals} (h : l.ReadsPlugins) {es : List PluginEntry}
    (hroom : ∀ e ∈ es, HasRoom e) :
    l.settings (pluginsNode es).events = records l.pluginJson 0 es := by
  have hevents : (pluginsNode es).events =
      [.sequenceStart] ++ (itemsEvents (es.map PluginEntry.node) ++ [.sequenceEnd]) := rfl
  have hopen : (l.run [.sequenceStart]).BeforeEntry l.pluginJson 0 := by
    rw [run, run, step, sequenceStart, if_pos ⟨h.key, h.reads⟩]
    exact ⟨rfl, h.entry, h.config, rfl, rfl⟩
  rw [hevents, settings_append, hopen.settings_items es hroom [.sequenceEnd] fun _ => rfl]
  rfl

/-- The path and the JSON text under an index. -/
def slot (p : Parsed) (i : Fin maxPlugins) : Text × Text :=
  (p.target.cfg.pluginSoPaths i, p.target.cfg.pluginParamsJson i)

theorem slot_apply_plugin (p : Parsed) (i j : Fin maxPlugins) (path json : Text) :
    slot ((Setting.plugin i path json).apply p) j =
      if j = i then (cut maxPathSize path, cut maxPluginConfigSize json) else slot p j := by
  simp only [slot, Setting.apply, Function.update_apply]
  split_ifs <;> rfl

/-- A sequence leaves the slots before its index. -/
theorem slot_records_of_lt (es : List PluginEntry) : ∀ {json : Text} {i : ℕ} {p : Parsed}
    {j : Fin maxPlugins}, j.val < i → slot ((records json i es).foldl Setting.apply p) j = slot p j := by
  induction es with
  | nil => exact fun _ => rfl
  | cons e es ih =>
    intro json i p j hj
    rw [records]
    split_ifs with hstored
    · rw [List.foldl_cons, ih (Nat.lt_succ_of_lt hj), slot_apply_plugin, if_neg]
      exact fun heq => (congrArg Fin.val heq).not_lt hj
    · exact ih hj

/-- The entries that have a path. -/
def storedCount (es : List PluginEntry) : ℕ := es.countP fun e => decide (e.path.val ≠ [])

theorem cut_path_pos {path : Text} : 0 < (cut maxPathSize path).length ↔ path ≠ [] := by
  rw [cut, List.length_take, ← List.length_pos_iff, maxPathSize]
  omega

/-- **What an entry leaves:** its path and the last JSON text up to it. -/
theorem slot_records (us : List PluginEntry) {e : PluginEntry} (vs : List PluginEntry)
    (hpath : e.path.val ≠ []) : ∀ {json : Text} {i : ℕ} {p : Parsed} {j : Fin maxPlugins},
    j.val = i + storedCount us →
      slot ((records json i (us ++ e :: vs)).foldl Setting.apply p) j =
        (cut maxPathSize (cut maxPathSize e.path),
          cut maxPluginConfigSize ((us ++ [e]).foldl nextJson json)) := by
  induction us with
  | nil =>
    intro json i p j hj
    have hi : i = j.val := hj.symm
    subst hi
    rw [List.nil_append, records, dif_pos ⟨j.isLt, cut_path_pos.2 hpath⟩, List.foldl_cons,
      slot_records_of_lt vs (Nat.lt_succ_self _), slot_apply_plugin, if_pos rfl]
    rfl
  | cons u us ih =>
    intro json i p j hj
    rw [List.cons_append, List.cons_append, List.foldl_cons, records]
    have hcount : storedCount (u :: us) = storedCount us + if u.path.val ≠ [] then 1 else 0 := by
      rw [storedCount, List.countP_cons]
      simp [storedCount]
    by_cases hu : u.path.val = []
    · rw [dif_neg (by rw [cut_path_pos]; exact fun hand => hand.2 hu)]
      exact ih (by rw [hj, hcount, if_neg (not_not.2 hu), Nat.add_zero])
    · rw [hcount, if_pos hu] at hj
      rw [dif_pos ⟨by omega, cut_path_pos.2 hu⟩]
      exact ih (by omega)

/-- The stored JSON text of a configuration. -/
def ownJson (config : Option (List (CString × CString))) : Text := config.elim [] objectText

/-- Behind the entries `us`, the entry is stored. -/
def Stored (us : List PluginEntry) (e : PluginEntry) : Prop :=
  e.path.val ≠ [] ∧ storedCount us < maxPlugins

/-- Every stored entry has its own path and the text of its own configuration, whatever is around
it; and no byte was written outside the array, behind which nothing could be said. -/
def OwnParams (l : Locals) (es : List PluginEntry) : Prop :=
  (∀ e ∈ es, ∀ ps ∈ e.config, ∀ block : Block, block.length = maxPluginConfigSize →
    (buildJson block ps).isSome) ∧
  ∀ us e vs, es = us ++ e :: vs → ∀ (h : Stored us e) (p : Parsed),
    slot ((l.settings (pluginsNode es).events).foldl Setting.apply p) ⟨storedCount us, h.2⟩ =
      (e.path.val, ownJson e.config)

/-- There is room for every configuration and every path, and an entry is stored without a
configuration only while there has been none. -/
def Separate (l : Locals) (es : List PluginEntry) : Prop :=
  (∀ e ∈ es, HasRoom e) ∧
  ∀ us e vs, es = us ++ e :: vs → Stored us e → e.path.val.length < maxPathSize ∧
    (e.config = none → l.pluginJson = [] ∧ ∀ u ∈ us, u.config = none)

/-- Every write stays in bounds exactly when there is room. -/
theorem inBounds_iff_room (ps : List (CString × CString)) :
    (∀ block : Block, block.length = maxPluginConfigSize → (buildJson block ps).isSome) ↔
      Room [123] (cutPairs ps) := by
  refine ⟨fun h => ?_, fun h block hsize => ?_⟩
  · by_contra hno
    have hsome := h (List.replicate maxPluginConfigSize 0) List.length_replicate
    rw [(buildJson_spec List.length_replicate ps).2 hno] at hsome
    cases hsome
  · obtain ⟨block', -, hbuild, -⟩ := (buildJson_spec hsize ps).1 h
    rw [hbuild]
    rfl

theorem foldl_nextJson_eq_nil (us : List PluginEntry) : ∀ {json : Text},
    us.foldl nextJson json = [] ↔ json = [] ∧ ∀ u ∈ us, u.config = none := by
  induction us with
  | nil => simp
  | cons u us ih =>
    intro json
    have hnext : nextJson json u = [] ↔ json = [] ∧ u.config = none := by
      cases hu : u.config with
      | none => simp [nextJson, hu]
      | some ps => simp [nextJson, hu, objectText]
    rw [List.foldl_cons, ih, hnext, List.forall_mem_cons, and_assoc]

/-- What an entry leaves is its own exactly if its path fits and nothing was left for it. -/
theorem slot_eq_own_iff (us : List PluginEntry) {e : PluginEntry} (json : Text)
    (hroom : HasRoom e) :
    (cut maxPathSize (cut maxPathSize e.path),
        cut maxPluginConfigSize ((us ++ [e]).foldl nextJson json)) =
        (e.path.val, ownJson e.config) ↔
      e.path.val.length < maxPathSize ∧
        (e.config = none → json = [] ∧ ∀ u ∈ us, u.config = none) := by
  have hcut : cut maxPathSize (cut maxPathSize e.path) = cut maxPathSize e.path := by
    rw [cut, cut, List.take_take, Nat.min_self]
  rw [Prod.mk.injEq, hcut, cut_eq_self_iff (by norm_num [maxPathSize]), List.foldl_append]
  refine and_congr_right fun _ => ?_
  rw [List.foldl_cons, List.foldl_nil]
  cases hconfig : e.config with
  | none =>
    have hnil : cut maxPluginConfigSize (us.foldl nextJson json) = [] ↔
        us.foldl nextJson json = [] := by
      simp [cut, maxPluginConfigSize]
    rw [nextJson, hconfig, ← foldl_nextJson_eq_nil]
    simpa [ownJson] using hnil
  | some ps =>
    have hlen := length_objectText_lt (hroom ps hconfig)
    simp [nextJson, hconfig, ownJson, cut_of_length_lt hlen]

/-- **The parameters of a plugin come from its own configuration** exactly if there is room for
everything and no entry without a configuration is stored behind one that has it. -/
theorem ownParams_iff {l : Locals} (h : l.ReadsPlugins) (es : List PluginEntry) :
    OwnParams l es ↔ Separate l es := by
  have hbounds : (∀ e ∈ es, ∀ ps ∈ e.config, ∀ block : Block,
      block.length = maxPluginConfigSize → (buildJson block ps).isSome) ↔ ∀ e ∈ es, HasRoom e := by
    simp only [inBounds_iff_room, HasRoom]
  rw [OwnParams, Separate, hbounds]
  refine and_congr_right fun hroom => ?_
  rw [h.settings_eq hroom]
  refine forall_congr' fun us => forall_congr' fun e => forall_congr' fun vs =>
    forall_congr' fun hsplit => ?_
  have hown := slot_eq_own_iff us l.pluginJson
    (hroom e (by rw [hsplit]; exact List.mem_append_right _ (List.mem_cons_self ..)))
  have hslot (hst : Stored us e) (p : Parsed) :
      slot ((records l.pluginJson 0 es).foldl Setting.apply p) ⟨storedCount us, hst.2⟩ =
        (cut maxPathSize (cut maxPathSize e.path),
          cut maxPluginConfigSize ((us ++ [e]).foldl nextJson l.pluginJson)) := by
    rw [hsplit]
    exact slot_records us vs hst.1 (Nat.zero_add _).symm
  refine ⟨fun hp hst => hown.1 ?_, fun hp hst p => (hslot hst p).trans (hown.2 (hp hst))⟩
  rw [← hslot hst ⟨pole true, false⟩]
  exact hp hst _

/-- The parser at the sequence of a `log` section that begins with it. -/
def atPlugins : Locals :=
  ({} : Locals).run [.streamStart, .documentStart, .mappingStart, .scalar (str "log"),
    .mappingStart, .scalar (str "plugins")]

/-- `path: a.so`, `config: {k: v}`. -/
def withConfig : PluginEntry :=
  ⟨⟨str "a.so", by decide⟩, some [(⟨str "k", by decide⟩, ⟨str "v", by decide⟩)], false⟩

/-- `path: b.so`. -/
def withoutConfig : PluginEntry := ⟨⟨str "b.so", by decide⟩, none, false⟩

/-- Both entries have their own parameters when the one without any comes first. -/
theorem ownParams_of_order : OwnParams atPlugins [withoutConfig, withConfig] := by
  refine (ownParams_iff ⟨by decide +kernel, by decide +kernel, by decide +kernel,
    by decide +kernel⟩ _).2 ⟨?_, ?_⟩
  · intro e he ps hps
    rcases List.mem_pair.1 he with rfl | rfl
    · cases hps
    · obtain rfl : _ = ps := Option.some.inj hps
      decide +kernel
  · intro us e vs hsplit _
    rcases us with _ | ⟨u, us⟩
    · obtain rfl : withoutConfig = e := (List.cons.inj hsplit).1
      exact ⟨by decide +kernel, fun _ => ⟨by decide +kernel, by simp⟩⟩
    · have he : e ∈ [withConfig] := by
        rw [(List.cons.inj hsplit).2]
        exact List.mem_append_right _ (List.mem_cons_self ..)
      obtain rfl := List.mem_singleton.1 he
      exact ⟨by decide +kernel, fun hnone => by cases hnone⟩

/-- The other way round the plugin without a configuration is stored with that of its neighbour:
`[{path: a.so, config: {k: v}}, {path: b.so}]` gives both the parameters of the first. -/
theorem params_of_neighbour :
    (¬ OwnParams atPlugins [withConfig, withoutConfig]) ∧
      slot (parseConfigFile (.events (documentEvents (.map [(.scalar (str "log"),
        .map [(.scalar (str "plugins"), pluginsNode [withConfig, withoutConfig])])])))
          (pole true)) ⟨1, by decide⟩ = (str "b.so", str "\x7b\"k\":\"v\"\x7d") := by
  refine ⟨fun h => ?_, by decide +kernel⟩
  have hslot := h.2 [withConfig] withoutConfig [] rfl ⟨by decide, by decide⟩ ⟨pole true, false⟩
  revert hslot
  decide +kernel

end Config
end Clogx
