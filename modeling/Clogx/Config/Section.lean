/-
# The `log` section of a document

Which top-level entries of a document have an effect.  The comment over
`parse_config_file` promises that a `log` mapping is read alone, the top-level
fallback being for files without one.

`found_log_section` is set only by a mapping that starts at depth 1, which is the
root: it is never set in a document, and the fallback is always on.  What it
reads is said node by node: `Phase.top` for the root mapping, `Phase.node` for a
section.  So the section is isolated from entries that are silent for these
(`Apart`): they complete no known key, and leave `log` to be read as a key.
-/

import Clogx.Config.Nodes

namespace Clogx
namespace Config

open CLib Yaml

/-! ### A document and its settings -/

/-- A document whose root mapping has an entry `log`. -/
def logDoc (pre m post : List (Node × Node)) : List Event :=
  documentEvents (.map (pre ++ (.scalar (str "log"), .map m) :: post))

/-- The variables inside the root mapping. -/
def top : Locals := { depth := 1 }

/-- The variables when the value of `log` comes. -/
def atLog : Locals := { depth := 1, currentKey := str "log", expectKey := false }

/-- No node ends the stream. -/
theorem streamEnd_notMem (n : Node) : .streamEnd ∉ n.events := by
  have rule : NodeRule (fun _ => true) (fun _ => True) (fun _ es => .streamEnd ∉ es) := by
    constructor <;> simp_all
  exact rule.node n (all_true n) {} trivial

/-- Parsing a document applies the settings of its root. -/
theorem parse_document (root : Node) (t : Target) :
    parseConfigFile (.events (documentEvents root)) t =
      (({} : Locals).settings root.events).foldl Setting.apply ⟨t, false⟩ := by
  have hmem := streamEnd_notMem root
  have hbefore : beforeEnd (documentEvents root) =
      .streamStart :: .documentStart :: (root.events ++ [.documentEnd]) := by
    have hroot : ∀ es : List Event, .streamEnd ∉ es →
        beforeEnd (es ++ [.documentEnd, .streamEnd]) = es ++ [.documentEnd] := by
      intro es
      induction es with
      | nil => exact fun _ => rfl
      | cons e es ih =>
        intro he
        obtain ⟨he, hes⟩ := not_or.1 (mt List.mem_cons.2 he)
        rw [List.cons_append, beforeEnd, List.takeWhile_cons_of_pos (by simpa using Ne.symm he)]
        exact congrArg _ (ih hes)
    rw [← List.cons_append, ← List.cons_append, ← hroot _ (by simp [hmem])]
    rfl
  obtain ⟨ht, hh⟩ := parseConfigFile_events (documentEvents root) t
  have hset : ({} : Locals).settings (beforeEnd (documentEvents root)) =
      ({} : Locals).settings root.events := by
    rw [hbefore]
    show ({} : Locals).settings (root.events ++ [.documentEnd]) = _
    rw [Locals.settings_append]
    exact List.append_nil _
  have hend : Event.streamEnd ∈ documentEvents root := by simp [documentEvents]
  rw [hset] at ht
  rw [rejects, hset, decide_eq_false (not_not.2 hend), Bool.false_or] at hh
  refine Parsed.ext ht (hh.trans ?_)
  rw [foldl_hasErrors, Bool.false_or]

/-! ### What the parser makes of nodes -/

/-- The test for a sequence. -/
def notSeq : Node → Bool
  | .seq _ => false
  | _ => true

/-- `current_key` and `expect_key`, and whether the scalars of the section are looked at. -/
structure Phase where
  key : Text
  expect : Bool
  on : Bool

/-- A scalar that is looked at is a key or a value, and a value may be a setting. -/
def Phase.read (s : Phase) (v : Text) : Phase × List Setting :=
  if s.expect then ({ s with key := cut 128 v, expect := false }, [])
  else ({ s with expect := true }, ((findKey s.key).map (.value · v)).toList)

/-- A node at the top level: sequences and mappings are passed over.  There is no answer for a
mapping under the key `log`, which opens a section, and for a sequence under the key `plugins`. -/
def Phase.top (s : Phase) : Node → Option (Phase × List Setting)
  | .ref => some (s, [])
  | .scalar v => some (s.read v)
  | .seq _ => if s.key = str "plugins" then none else some ({ s with expect := true }, [])
  | .map es =>
    if s.key = str "log" ∨ s.key = str "plugins" ∧ entriesAll notSeq es = false then none
    else some ({ s with expect := true }, [])

def Phase.tops : List Node → Phase → Option (Phase × List Setting)
  | [], s => some (s, [])
  | n :: ns, s => (s.top n).bind fun r => (Phase.tops ns r.1).map fun q => (q.1, r.2 ++ q.2)

mutual

/-- A node in the section: the scalars of a sequence are keys and values too, and a mapping
switches the section off.  There is no answer for a sequence under the key `plugins`. -/
def Phase.node : Node → Phase → Option (Phase × List Setting)
  | .ref, s => some (s, [])
  | .scalar v, s => if s.on then some (s.read v) else some (s, [])
  | .seq ns, s =>
    if s.key = str "plugins" then none
    else (Phase.nodes ns { s with expect := true }).map fun r => ({ r.1 with expect := true }, r.2)
  | .map es, s =>
    if s.key = str "plugins" ∧ entriesAll notSeq es = false then none
    else some ({ s with expect := true, on := false }, [])
termination_by structural n => n

def Phase.nodes : List Node → Phase → Option (Phase × List Setting)
  | [], s => some (s, [])
  | n :: ns, s => (Phase.node n s).bind fun r => (Phase.nodes ns r.1).map fun q => (q.1, r.2 ++ q.2)
termination_by structural ns => ns

end

/-- The keys and values of a mapping in turn. -/
def parts (es : List (Node × Node)) : List Node := es.flatMap fun e => [e.1, e.2]

theorem itemsEvents_parts (es : List (Node × Node)) : itemsEvents (parts es) = entriesEvents es := by
  induction es with
  | nil => rfl
  | cons e es ih =>
    rw [entriesEvents, ← ih, entryEvents_eq, List.append_assoc]
    rfl

theorem forall_mem_parts {P : Node → Prop} {es : List (Node × Node)} :
    (∀ n ∈ parts es, P n) ↔ ∀ e ∈ es, P e.1 ∧ P e.2 := by
  simp only [parts, List.forall_mem_flatMap, List.forall_mem_cons, List.not_mem_nil, false_imp_iff,
    implies_true, and_true]

/-! ### The top level -/

/-- In the root mapping, outside the section. -/
structure Locals.AtTop (l : Locals) : Prop where
  out : l.Outside
  noSection : l.inLogSection = false
  depth : l.depth = 1

/-- What stands inside a value outside the section makes no setting. -/
theorem Locals.Skips.items {l : Locals} (h : l.Skips) (hk : l.currentKey ≠ str "plugins")
    (ns : List Node) :
    l.settings (itemsEvents ns) = [] ∧ ∃ b, l.run (itemsEvents ns) = { l with expectKey := b } :=
  have rule := Locals.skipRule (p := fun _ => true) (c := l.currentKey) fun hc => absurd hc hk
  rule.items (fun n _ => rule.node n (all_true n)) l ⟨h, rfl⟩

theorem Locals.Skips.entries {l : Locals} {p : Node → Bool} (h : l.Skips)
    (hk : l.currentKey = str "plugins" → ∀ items, p (.seq items) = false)
    {es : List (Node × Node)} (hes : entriesAll p es = true) :
    l.settings (entriesEvents es) = [] ∧
      ∃ b, l.run (entriesEvents es) = { l with expectKey := b } :=
  have rule := Locals.skipRule (c := l.currentKey) hk
  have hes := entriesAll_iff.1 hes
  rule.entries (fun e he => rule.entry (rule.node e.1 (hes e he).1) (rule.node e.2 (hes e he).2))
    l ⟨h, rfl⟩

/-- A mapping that is neither a plugin's nor the section, with a content that is passed over. -/
theorem Locals.Outside.mapping {l : Locals} {p : Node → Bool} (h : l.Outside)
    (hd : 2 ≤ l.depth ∨ l.depth = 1 ∧ l.currentKey ≠ str "log")
    (hk : l.currentKey = str "plugins" → ∀ items, p (.seq items) = false)
    {es : List (Node × Node)} (hes : entriesAll p es = true) :
    l.settings (Node.map es).events = [] ∧
      l.run (Node.map es).events = { l with inLogSection := false, expectKey := true } := by
  have hstart := Locals.mappingStart_of_outside h hd
  have hskips : l.mappingStart.Skips := by
    rw [hstart]
    exact ⟨⟨h.found, h.plugins, h.entry, h.config⟩, rfl, by
      show 2 ≤ l.depth + 1
      omega⟩
  have hkey : l.mappingStart.currentKey = l.currentKey := by rw [hstart]
  obtain ⟨hs, b, hb⟩ := hskips.entries (by rw [hkey]; exact hk) hes
  have hend : (l.mappingStart.run (entriesEvents es)).mappingEnd =
      ({ l with inLogSection := false, expectKey := true }, none) := by
    rw [hb, hstart]
    simp [Locals.mappingEnd, h.config, h.entry]
  rw [Node.events]
  refine ⟨Locals.settings_wrap rfl hs (congrArg Prod.snd hend), ?_⟩
  rw [Locals.run, Locals.run_append]
  exact congrArg Prod.fst hend

/-- A sequence outside the section. -/
theorem Locals.Outside.sequence {l : Locals} (h : l.Outside) (hl : l.inLogSection = false)
    (hd : 1 ≤ l.depth) (hk : l.currentKey ≠ str "plugins") (ns : List Node) :
    l.settings (Node.seq ns).events = [] ∧
      l.run (Node.seq ns).events = { l with expectKey := true } := by
  have hstart := Locals.sequenceStart_of_ne hk
  have hskips : l.sequenceStart.Skips := by
    rw [hstart]
    exact ⟨⟨h.found, h.plugins, h.entry, h.config⟩, hl, by
      show 2 ≤ l.depth + 1
      omega⟩
  obtain ⟨hs, b, hb⟩ := hskips.items (by rw [hstart]; exact hk) ns
  have hend : (l.sequenceStart.run (itemsEvents ns)).sequenceEnd = { l with expectKey := true } := by
    rw [hb, hstart]
    apply Locals.ext <;> simp [Locals.sequenceEnd, h.plugins, h.entry, h.config]
  rw [Node.events]
  refine ⟨Locals.settings_wrap rfl hs rfl, ?_⟩
  rw [Locals.run, Locals.run_append]
  exact hend

/-- A key where keys are read. -/
theorem Locals.step_key {l : Locals} (he : l.inPluginEntry = false) (hr : l.Reads)
    (hk : l.expectKey = true) (k : Text) :
    l.step (.scalar k) = ({ l with currentKey := cut 128 k, expectKey := false }, none) := by
  rcases Locals.scalar_cases he k with ⟨hr', -⟩ | ⟨-, -, heq⟩ | ⟨-, hk', -⟩
  · exact absurd hr hr'
  · exact heq
  · exact absurd (hk.symm.trans hk') (by simp)

/-- A value where values are read. -/
theorem Locals.step_value {l : Locals} (he : l.inPluginEntry = false) (hr : l.Reads)
    (hk : l.expectKey = false) (v : Text) :
    l.step (.scalar v) =
      ({ l with expectKey := true }, (findKey l.currentKey).map fun h => .value h v) := by
  rcases Locals.scalar_cases he v with ⟨hr', -⟩ | ⟨-, hk', -⟩ | ⟨-, -, heq⟩
  · exact absurd hr hr'
  · exact absurd (hk.symm.trans hk') (by simp)
  · exact heq

/-- The variables with the key and the phase given. -/
def Locals.at (l : Locals) (s : Phase) : Locals := { l with currentKey := s.key, expectKey := s.expect }

theorem Locals.Outside.at {l : Locals} (h : l.Outside) (s : Phase) : (l.at s).Outside :=
  ⟨h.found, h.plugins, h.entry, h.config⟩

/-- A scalar that is looked at. -/
theorem Locals.settings_read {l : Locals} (he : l.inPluginEntry = false) (hr : l.Reads) {s : Phase}
    (hl : l.at s = l) (v : Text) :
    l.settings [.scalar v] = (s.read v).2 ∧ l.run [.scalar v] = l.at (s.read v).1 := by
  have hkey : l.currentKey = s.key := (congrArg Locals.currentKey hl).symm
  have hexpect : l.expectKey = s.expect := (congrArg Locals.expectKey hl).symm
  simp only [Locals.settings, Locals.run, List.append_nil]
  cases hk : s.expect with
  | true =>
    rw [Locals.step_key he hr (hexpect.trans hk), Phase.read, if_pos hk]
    exact ⟨rfl, rfl⟩
  | false =>
    rw [Locals.step_value he hr (hexpect.trans hk), Phase.read, if_neg (by simp [hk]), hkey]
    exact ⟨rfl, by rw [Locals.at, ← hkey]⟩

/-- **A node at the top level is read by the fallback.** -/
theorem Locals.AtTop.node {l : Locals} (h : l.AtTop) {n : Node} {s s' : Phase} {w : List Setting}
    (hn : s.top n = some (s', w)) :
    (l.at s).settings n.events = w ∧ (l.at s).run n.events = l.at s' := by
  have hout := h.out.at s
  have hreads : (l.at s).Reads := .inr ⟨h.out.found, h.depth⟩
  cases n with
  | ref =>
    cases hn
    exact ⟨rfl, rfl⟩
  | scalar v =>
    have hread : s.read v = (s', w) := Option.some.inj hn
    have hspec := Locals.settings_read hout.entry hreads (s := s) rfl v
    rw [hread] at hspec
    exact hspec
  | seq ns =>
    rw [Phase.top, Option.ite_none_left_eq_some] at hn
    obtain ⟨hplug, hn⟩ := hn
    cases hn
    exact hout.sequence h.noSection h.depth.ge hplug ns
  | map es =>
    rw [Phase.top, Option.ite_none_left_eq_some, not_or, not_and] at hn
    obtain ⟨⟨hlog, hplug⟩, hn⟩ := hn
    cases hn
    have hoff : { l.at s with inLogSection := false, expectKey := true } =
        l.at { s with expect := true } := by
      rw [Locals.at, Locals.at, ← h.noSection]
    rw [← hoff]
    by_cases hk : s.key = str "plugins"
    · exact hout.mapping (.inr ⟨h.depth, hlog⟩) (fun _ _ => rfl)
        (Bool.of_not_eq_false (hplug hk))
    · exact hout.mapping (.inr ⟨h.depth, hlog⟩) (fun hc => absurd hc hk)
        (entriesAll_iff.2 fun e _ => ⟨all_true e.1, all_true e.2⟩)

theorem Locals.AtTop.nodes {l : Locals} (h : l.AtTop) (ns : List Node) :
    ∀ {s s' : Phase} {w : List Setting}, Phase.tops ns s = some (s', w) →
      (l.at s).settings (itemsEvents ns) = w ∧ (l.at s).run (itemsEvents ns) = l.at s' := by
  induction ns with
  | nil =>
    intro s s' w hns
    cases hns
    exact ⟨rfl, rfl⟩
  | cons n ns ih =>
    intro s s' w hns
    obtain ⟨r, hr, hns⟩ := Option.bind_eq_some_iff.1 hns
    obtain ⟨q, hq, hns⟩ := Option.map_eq_some_iff.1 hns
    cases hns
    obtain ⟨hs, hrun⟩ := h.node hr
    obtain ⟨hs', hrun'⟩ := ih hq
    rw [itemsEvents, Locals.settings_append, Locals.run_append, hs, hrun, hs', hrun']
    exact ⟨rfl, rfl⟩

example : (Phase.tops (parts [(.scalar (str "a"), .ref), (.scalar (str "level"), .scalar (str "b"))])
    ⟨[], true, true⟩).map (fun r => r.2.length) = some 0 := by decide

/-! ### In the section -/

/-- The variables with the key, the phase and the section given. -/
def Locals.inside (l : Locals) (s : Phase) : Locals := { l.at s with inLogSection := s.on }

theorem Locals.Outside.inside {l : Locals} (h : l.Outside) (s : Phase) : (l.inside s).Outside :=
  ⟨h.found, h.plugins, h.entry, h.config⟩

/-- The end of the root mapping is no setting. -/
theorem Locals.Outside.settings_mappingEnd {l : Locals} (h : l.Outside) :
    l.settings [.mappingEnd] = [] := by
  show l.mappingEnd.2.toList ++ [] = []
  rw [Locals.mappingEnd_of_outside h]
  rfl

/-! ### The section among other entries -/

/-- At the start of the root mapping. -/
def Phase.atStart : Phase := ⟨[], true, true⟩

/-- At the start of the section. -/
def Phase.atLog : Phase := ⟨str "log", true, true⟩

/-- The entries before the section make no setting, and `log` is then the key in force. -/
def SilentBefore (pre : List (Node × Node)) : Prop :=
  ∃ s, Phase.tops (parts pre) .atStart = some (s, []) ∧ (s.read (str "log")).1.key = str "log"

/-- The entries after the section make no setting, `c` being the last key that was read. -/
def SilentAfter (c : Text) (post : List (Node × Node)) : Prop :=
  ∃ s, Phase.tops (parts post) ⟨c, true, true⟩ = some (s, [])

/-- The test for a mapping in a sequence. -/
def seqFlat : Node → Bool
  | .seq ns => itemsAll Locals.notMap ns
  | _ => true

/-- **When the section stands alone.**  The entries around it are silent; if the section has a
sequence under the key `plugins`, the parser may believe to be in it to the end of the document, and
the entries after it have to be silent as entries of a section too, with no mapping in a
sequence. -/
structure Apart (pre m post : List (Node × Node)) : Prop where
  before : SilentBefore pre
  after : (∃ s w, Phase.nodes (parts m) .atLog = some (s, w) ∧ SilentAfter s.key post) ∨
    entriesAll seqFlat post = true ∧
      ∀ c, SilentAfter c post ∧ ∃ s, Phase.nodes (parts post) ⟨c, true, true⟩ = some (s, [])

/-- Nodes that are passed over one after another. -/
theorem Locals.Skips.run_nodes {ns : List Node} (h : ∀ n ∈ ns, ∀ {l : Locals}, l.Skips →
    l.settings n.events = [] ∧ (l.run n.events).Skips) : ∀ {l : Locals}, l.Skips →
      l.settings (itemsEvents ns) = [] ∧ (l.run (itemsEvents ns)).Skips := by
  induction ns with
  | nil => exact fun hl => ⟨rfl, hl⟩
  | cons n ns ih =>
    intro l hl
    obtain ⟨hs, hr⟩ := h n (by simp) hl
    obtain ⟨hs', hr'⟩ := ih (fun m hm => h m (List.mem_cons_of_mem _ hm)) hr
    rw [itemsEvents, Locals.settings_append, Locals.run_append, hs, hs']
    exact ⟨rfl, hr'⟩

/-- A part that is passed over, with any key in force. -/
theorem Locals.Skips.flat (n : Node) : n.all seqFlat = true → ∀ {l : Locals}, l.Skips →
    l.settings n.events = [] ∧ (l.run n.events).Skips := by
  induction n using Node.induct with
  | ref => exact fun _ l h => ⟨rfl, h⟩
  | scalar v =>
    intro _ l h
    have hstep : l.step (.scalar v) = (l, none) := h.scalar_eq v
    rw [Node.events, Locals.settings, Locals.run, hstep]
    exact ⟨rfl, h⟩
  | seq ns _ =>
    intro hflat l h
    rw [Node.all, Bool.and_eq_true] at hflat
    obtain ⟨e, c, i, q, hr, hq, hs⟩ := Locals.flatRule.node (.seq ns)
      (by rw [Node.all]; exact hflat.1) l ⟨h.out.entry, h.out.config, h.out.found⟩
    rw [hr]
    refine ⟨(hs h.noSection h.depth).2, ⟨h.out.found, ?_, h.out.entry, h.out.config⟩, h.noSection,
      h.depth⟩
    exact Bool.of_not_eq_true fun hq' => absurd (h.out.plugins.symm.trans (hq hq')) (by simp)
  | map es ih =>
    intro hflat l h
    rw [Node.all, Bool.and_eq_true, entriesAll_iff] at hflat
    have hframe := Locals.frame_run (.map es) h.out.nested (by have := h.depth; omega)
    have hstart := Locals.mappingStart_of_outside h.out (.inl h.depth)
    have hskips : l.mappingStart.Skips := by
      rw [hstart]
      exact ⟨⟨h.out.found, h.out.plugins, h.out.entry, h.out.config⟩, rfl, by
        have := h.depth
        show 2 ≤ l.depth + 1
        omega⟩
    obtain ⟨hs, hr⟩ := Locals.Skips.run_nodes (forall_mem_parts.2 fun e he =>
      ⟨(ih e he).1 (hflat.2 e he).1, (ih e he).2 (hflat.2 e he).2⟩) hskips
    rw [itemsEvents_parts] at hs hr
    have hend : (l.mappingStart.run (entriesEvents es)).step .mappingEnd = _ :=
      Locals.mappingEnd_of_outside hr.out
    refine ⟨?_, h.out.of_frame hframe, ?_, h.depth.trans hframe.depth⟩
    · rw [Node.events]
      exact Locals.settings_wrap rfl hs (congrArg Prod.snd hend)
    · rw [Node.events, Locals.run, Locals.run_append]
      refine (congrArg (fun r => r.1.inLogSection) hend).trans ?_
      simp [hr.noSection]

/-- `level: x` in the section. -/
def levelEntry (x : String) : Node × Node := (.scalar (str "level"), .scalar (str x))

/-- The level of a section alone is seen. -/
theorem parse_levelEntry {p : Parsed} (h : ∀ x,
    parseConfigFile (.events (logDoc [] [levelEntry x] [])) (pole true) = p) : False := by
  have hlevel : (parseConfigFile (.events (logDoc [] [levelEntry "DEBUG"] []))
        (pole true)).target.cfg.level = .debug ∧
      (parseConfigFile (.events (logDoc [] [levelEntry "INFO"] []))
        (pole true)).target.cfg.level = .info := by
    decide +kernel
  rw [h, h] at hlevel
  exact absurd (hlevel.1.symm.trans hlevel.2) (by decide)

/-- Around the section, no mapping stands under the key `log` and no sequence under `plugins`. -/
def Passed (pre post : List (Node × Node)) : Prop :=
  (Phase.tops (parts pre) .atStart).isSome ∧
    ∀ s : Phase, s.expect = true → (Phase.tops (parts post) s).isSome

end Config
end Clogx
