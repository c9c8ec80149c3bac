/-
# How the parser walks over a node

`parse_config_file` has no stack, so what it does with a nested node is visible
only in how the local variables before the node relate to those after it:

* `frame_run`: whatever the node is, the plugin flags that were off are off again
  and `depth` is not smaller (a plugin entry leaves it larger);
* `skip_run`: outside the section a node makes no setting and moves nothing but
  the key/value phase;
* `walk_run`: without mappings inside, a node keeps `depth` and the section, and
  the settings it makes are those of the runs of scalars in it (`runs`);
* `Locals.Sim`: variables that differ only in what the parser will overwrite before it
  reads it go on to make the same settings.
-/

import Clogx.Config.Parser

namespace Clogx
namespace Config

open CLib Yaml

/-! ### Induction over the events of a node -/

/-- A property `S` of the parser on the events of nodes that pass the test `p`, starting from
variables that meet `P`: it is proved for scalars and aliases, for the frame a sequence or a
mapping puts around its content, and for one part after another. -/
structure NodeRule (p : Node → Bool) (P : Locals → Prop) (S : Locals → List Event → Prop) :
    Prop where
  nil : ∀ {l}, P l → S l []
  append : ∀ {l es es'}, P l → S l es → S (l.run es) es' → S l (es ++ es')
  keep : ∀ {l es}, P l → S l es → P (l.run es)
  ref : ∀ {l}, P l → p .ref = true → S l [.ref]
  scalar : ∀ {l v}, P l → p (.scalar v) = true → S l [.scalar v]
  seq : ∀ {l items}, P l → p (.seq items) = true → P l.sequenceStart ∧
    ∀ es, S l.sequenceStart es → S l (.sequenceStart :: (es ++ [.sequenceEnd]))
  map : ∀ {l entries}, P l → p (.map entries) = true → P l.mappingStart ∧
    ∀ es, S l.mappingStart es → S l (.mappingStart :: (es ++ [.mappingEnd]))

section Rule

variable {p : Node → Bool} {P : Locals → Prop} {S : Locals → List Event → Prop}

/-- The rule carries over the items of a sequence. -/
theorem NodeRule.items (r : NodeRule p P S) {ns : List Node}
    (h : ∀ n ∈ ns, ∀ l, P l → S l n.events) : ∀ l, P l → S l (itemsEvents ns) := by
  induction ns with
  | nil => exact fun l hl => r.nil hl
  | cons n ns ih =>
    intro l hl
    have hn := h n (by simp) l hl
    exact r.append hl hn (ih (fun k hk => h k (List.mem_cons_of_mem _ hk)) _ (r.keep hl hn))

/-- The rule carries over the entries of a mapping. -/
theorem NodeRule.entries (r : NodeRule p P S) {es : List (Node × Node)}
    (h : ∀ e ∈ es, ∀ l, P l → S l (entryEvents e)) : ∀ l, P l → S l (entriesEvents es) := by
  induction es with
  | nil => exact fun l hl => r.nil hl
  | cons e es ih =>
    intro l hl
    have he := h e (by simp) l hl
    exact r.append hl he (ih (fun k hk => h k (List.mem_cons_of_mem _ hk)) _ (r.keep hl he))

/-- An entry is its key and then its value. -/
theorem NodeRule.entry (r : NodeRule p P S) {e : Node × Node}
    (hk : ∀ l, P l → S l e.1.events) (hv : ∀ l, P l → S l e.2.events) :
    ∀ l, P l → S l (entryEvents e) := by
  intro l hl
  rw [entryEvents_eq]
  exact r.append hl (hk l hl) (hv _ (r.keep hl (hk l hl)))

/-- **The rule gives the property for every node that passes the test throughout.** -/
theorem NodeRule.node (r : NodeRule p P S) (n : Node) :
    n.all p = true → ∀ l, P l → S l n.events := by
  induction n using Node.induct with
  | ref => exact fun hp l hl => r.ref hl hp
  | scalar v => exact fun hp l hl => r.scalar hl hp
  | seq items ih =>
    intro hp l hl
    rw [Node.all, Bool.and_eq_true, itemsAll_iff] at hp
    obtain ⟨hs, hwrap⟩ := r.seq hl hp.1
    exact hwrap _ (r.items (fun n hn => ih n hn (hp.2 n hn)) _ hs)
  | map entries ih =>
    intro hp l hl
    rw [Node.all, Bool.and_eq_true, entriesAll_iff] at hp
    obtain ⟨hs, hwrap⟩ := r.map hl hp.1
    exact hwrap _ (r.entries (fun e he => r.entry (fun m hm => (ih e he).1 (hp.2 e he).1 m hm)
      (fun m hm => (ih e he).2 (hp.2 e he).2 m hm)) _ hs)

end Rule

namespace Locals

/-! ### The flags -/

/-- The plugin flags are set from the outside in. -/
def Nested (l : Locals) : Prop :=
  (l.inPluginConfig = true → l.inPluginEntry = true) ∧ (l.inPluginEntry = true → l.inPlugins = true)

/-- What a complete node keeps of the variables before it. -/
structure Frame (l m : Locals) : Prop where
  nested : m.Nested
  depth : l.depth ≤ m.depth
  found : m.foundLogSection = l.foundLogSection
  plugins : m.inPlugins = true → l.inPlugins = true
  entry : m.inPluginEntry = true → l.inPluginEntry = true
  config : m.inPluginConfig = true → l.inPluginConfig = true

theorem Frame.refl {l : Locals} (h : l.Nested) : l.Frame l :=
  ⟨h, le_rfl, rfl, id, id, id⟩

theorem Frame.trans {l m n : Locals} (h : l.Frame m) (h' : m.Frame n) : l.Frame n :=
  ⟨h'.nested, h.depth.trans h'.depth, h'.found.trans h.found, h.plugins ∘ h'.plugins,
    h.entry ∘ h'.entry, h.config ∘ h'.config⟩

theorem appendJson_eq (l : Locals) (v : Text) :
    ∃ json len, l.appendJson v = { l with pluginJson := json, pluginJsonLen := len } := by
  simp only [appendJson]
  split_ifs <;> exact ⟨_, _, rfl⟩

/-- A scalar moves texts and the phase only. -/
theorem frame_scalar {l : Locals} (h : l.Nested) (v : Text) : l.Frame (l.scalar v).1 := by
  obtain ⟨json, len, happ⟩ := l.appendJson_eq v
  simp only [scalar, pluginScalar, happ]
  split_ifs <;> exact ⟨h, le_rfl, rfl, id, id, id⟩

/-- A sequence around a part that keeps the frame. -/
theorem frame_sequence {l m : Locals} (hm : l.sequenceStart.Frame m) :
    l.Frame m.sequenceEnd := by
  have hs : l.sequenceStart.depth = l.depth + 1 ∧
      l.sequenceStart.foundLogSection = l.foundLogSection := by
    simp only [sequenceStart]
    split_ifs <;> exact ⟨rfl, rfl⟩
  have hd := hm.depth
  refine ⟨⟨nofun, nofun⟩, ?_, hm.found.trans hs.2, nofun, nofun, nofun⟩
  show l.depth ≤ m.depth - 1
  omega

/-- What the start of a mapping does to the flags and to `depth`. -/
theorem mappingStart_cases (l : Locals) :
    l.mappingStart.depth = l.depth + 1 ∧ l.mappingStart.expectKey = true ∧
      l.mappingStart.inPlugins = l.inPlugins ∧
      ((l.inPlugins = true ∧ l.inPluginEntry = true ∧ l.inPluginConfig = false ∧
          l.mappingStart.inPluginEntry = true ∧ l.mappingStart.inPluginConfig = true) ∨
        (l.inPlugins = true ∧ l.inPluginEntry = false ∧
          l.mappingStart.inPluginEntry = true ∧
          l.mappingStart.inPluginConfig = l.inPluginConfig) ∨
        (l.mappingStart.inPluginEntry = l.inPluginEntry ∧
          l.mappingStart.inPluginConfig = l.inPluginConfig)) ∧
      (l.depth ≠ 0 → l.mappingStart.foundLogSection = l.foundLogSection) := by
  simp only [mappingStart]
  split_ifs <;> simp_all

/-- What the end of a mapping does to them. -/
theorem mappingEnd_cases (l : Locals) :
    l.mappingEnd.1.expectKey = true ∧ l.mappingEnd.1.inPlugins = l.inPlugins ∧
      l.mappingEnd.1.foundLogSection = l.foundLogSection ∧
      ((l.inPluginConfig = true ∧ l.mappingEnd.1.inPluginConfig = false ∧
          l.mappingEnd.1.inPluginEntry = l.inPluginEntry ∧ l.mappingEnd.1.depth = l.depth) ∨
        (l.inPluginConfig = false ∧ l.mappingEnd.1.inPluginConfig = false ∧
          l.inPluginEntry = true ∧ l.mappingEnd.1.inPluginEntry = false ∧
          l.mappingEnd.1.depth = l.depth) ∨
        (l.inPluginConfig = false ∧ l.inPluginEntry = false ∧
          l.mappingEnd.1.inPluginConfig = false ∧ l.mappingEnd.1.inPluginEntry = false ∧
          l.mappingEnd.1.depth = l.depth - 1)) := by
  simp only [mappingEnd, finishJson]
  split_ifs <;> simp_all

/-- A mapping around a part that keeps the frame: the two plugin cases leave `depth` larger. -/
theorem frame_mapping {l m : Locals} (h : l.Nested) (hd : 1 ≤ l.depth)
    (hm : l.mappingStart.Frame m) : l.Frame m.mappingEnd.1 := by
  obtain ⟨sdepth, -, splugins, sflags, sfound⟩ := l.mappingStart_cases
  obtain ⟨-, eplugins, efound, eflags⟩ := m.mappingEnd_cases
  obtain ⟨⟨mc, me⟩, md, mf, fp, fe, fc⟩ := hm
  have hdepth : l.depth ≤ m.mappingEnd.1.depth := by
    rcases eflags with ⟨-, -, -, e⟩ | ⟨-, -, -, -, e⟩ | ⟨-, -, -, -, e⟩ <;> omega
  refine ⟨?_, hdepth, efound.trans (mf.trans (sfound (by omega))), ?_, ?_, ?_⟩
  · rcases eflags with ⟨hc, e1, e2, -⟩ | ⟨-, e1, -, e2, -⟩ | ⟨-, -, e1, e2, -⟩
    · exact ⟨by simp [e1], fun he => by rw [eplugins]; exact me (by rw [← e2]; exact he)⟩
    · exact ⟨by simp [e1], by simp [e2]⟩
    · exact ⟨by simp [e1], by simp [e2]⟩
  · rw [eplugins, ← splugins]
    exact fp
  · -- an entry that was not open is closed again: its own `config` mapping cannot still be open
    rcases eflags with ⟨hc, -, e2, -⟩ | ⟨-, -, -, e2, -⟩ | ⟨-, -, -, e2, -⟩
    · intro _
      rcases sflags with ⟨-, he, -⟩ | ⟨-, he, -, hsc⟩ | ⟨hse, hsc⟩
      · exact he
      · exact h.1 (by rw [← hsc]; exact fc hc)
      · exact h.1 (by rw [← hsc]; exact fc hc)
    · simp [e2]
    · simp [e2]
  · rcases eflags with ⟨-, e1, -⟩ | ⟨-, e1, -⟩ | ⟨-, -, e1, -⟩ <;> simp [e1]

/-- A start of a mapping keeps the flags nested. -/
theorem nested_mappingStart {l : Locals} (h : l.Nested) : l.mappingStart.Nested := by
  obtain ⟨-, -, splugins, sflags, -⟩ := l.mappingStart_cases
  rcases sflags with ⟨hp, -, -, e, c⟩ | ⟨hp, hne, e, c⟩ | ⟨e, c⟩
  · exact ⟨fun _ => e, fun _ => splugins.trans hp⟩
  · exact ⟨fun _ => e, fun _ => splugins.trans hp⟩
  · exact ⟨by rw [e, c]; exact h.1, by rw [e, splugins]; exact h.2⟩

theorem nested_sequenceStart {l : Locals} (h : l.Nested) : l.sequenceStart.Nested := by
  simp only [sequenceStart]
  split_ifs
  · exact ⟨h.1, fun _ => rfl⟩
  · exact h

/-- The frame of every node, by the rule. -/
theorem frameRule : NodeRule (fun _ => true) (fun l => l.Nested ∧ 1 ≤ l.depth)
    (fun l es => l.Frame (l.run es)) where
  nil h := Frame.refl h.1
  append := by
    intro l es es' _ hes hes'
    rw [run_append]
    exact hes.trans hes'
  keep h hes := ⟨hes.nested, h.2.trans hes.depth⟩
  ref h _ := Frame.refl h.1
  scalar h _ := frame_scalar h.1 _
  seq := by
    intro l items h _
    refine ⟨⟨nested_sequenceStart h.1, ?_⟩, fun es hes => ?_⟩
    · have := h.2
      simp only [sequenceStart]
      split_ifs <;> simp only <;> omega
    · rw [run, run_append]
      exact frame_sequence hes
  map := by
    intro l entries h _
    refine ⟨⟨nested_mappingStart h.1, ?_⟩, fun es hes => ?_⟩
    · have := h.2
      have := l.mappingStart_cases.1
      omega
    · rw [run, run_append]
      exact frame_mapping h.1 h.2 hes

/-- **A complete node closes what it opened,** at any depth but zero. -/
theorem frame_run (n : Node) {l : Locals} (h : l.Nested) (hd : 1 ≤ l.depth) :
    l.Frame (l.run n.events) :=
  frameRule.node n (all_true n) l ⟨h, hd⟩

/-! ### Outside the section -/

/-- No plugins sequence is open, and the stream has no second document. -/
structure Outside (l : Locals) : Prop where
  found : l.foundLogSection = false
  plugins : l.inPlugins = false
  entry : l.inPluginEntry = false
  config : l.inPluginConfig = false

theorem Outside.nested {l : Locals} (h : l.Outside) : l.Nested :=
  ⟨by simp [h.config], by simp [h.entry]⟩

theorem Outside.of_frame {l m : Locals} (h : l.Outside) (hm : l.Frame m) : m.Outside where
  found := hm.found.trans h.found
  plugins := by simpa [h.plugins] using mt hm.plugins
  entry := by simpa [h.entry] using mt hm.entry
  config := by simpa [h.config] using mt hm.config

/-- The parser looks at no scalar here: it is neither in the section nor at the top level. -/
structure Skips (l : Locals) : Prop where
  out : l.Outside
  noSection : l.inLogSection = false
  depth : 2 ≤ l.depth

/-- The parser takes scalars for keys and values here. -/
def Reads (l : Locals) : Prop := l.inLogSection = true ∨ l.foundLogSection = false ∧ l.depth = 1

/-- A scalar outside a plugin entry is passed over, or is a key, or is the value of a key. -/
theorem scalar_cases {l : Locals} (he : l.inPluginEntry = false) (v : Text) :
    (¬l.Reads ∧ l.scalar v = (l, none)) ∨
      (l.Reads ∧ l.expectKey = true ∧
        l.scalar v = ({ l with currentKey := cut 128 v, expectKey := false }, none)) ∨
      (l.Reads ∧ l.expectKey = false ∧
        l.scalar v =
          ({ l with expectKey := true }, (findKey l.currentKey).map fun h => .value h v)) := by
  rw [scalar, if_neg (by simp [he]), Reads]
  split_ifs with hskip hkey
  · exact .inl ⟨by rintro (h | h); exacts [by simp [h] at hskip, hskip.2 h], rfl⟩
  · exact .inr (.inl ⟨by by_contra h; push Not at h; simp_all, hkey, rfl⟩)
  · exact .inr (.inr ⟨by by_contra h; push Not at h; simp_all, by simpa using hkey, rfl⟩)

theorem Skips.not_reads {l : Locals} (h : l.Skips) : ¬l.Reads := by
  have hd := h.depth
  rintro (hl | ⟨-, hl⟩)
  · simp [h.noSection] at hl
  · omega

/-- A skipped scalar changes nothing. -/
theorem Skips.scalar_eq {l : Locals} (h : l.Skips) (v : Text) : l.scalar v = (l, none) := by
  rcases scalar_cases h.out.entry v with ⟨-, heq⟩ | ⟨hr, -⟩ | ⟨hr, -⟩
  · exact heq
  · exact absurd hr h.not_reads
  · exact absurd hr h.not_reads

/-- Where a mapping starts that is neither a plugin's nor the section. -/
theorem mappingStart_of_outside {l : Locals} (h : l.Outside)
    (hd : 2 ≤ l.depth ∨ l.depth = 1 ∧ l.currentKey ≠ str "log") :
    l.mappingStart =
      { l with depth := l.depth + 1, inLogSection := false, expectKey := true } := by
  simp only [mappingStart, h.plugins, Bool.false_eq_true, false_and, if_false]
  rcases hd with hd | ⟨hd, hk⟩
  · rw [if_neg (by omega), if_neg (by omega)]
  · rw [if_neg (by omega), if_neg (by simp [hk])]

theorem mappingEnd_of_outside {l : Locals} (h : l.Outside) :
    l.mappingEnd =
      ({ l with
          inLogSection := l.inLogSection && decide (2 < l.depth)
          depth := l.depth - 1
          expectKey := true }, none) := by
  simp only [mappingEnd, h.config, h.entry, Bool.false_eq_true, if_false]

theorem sequenceStart_of_ne {l : Locals} (h : l.currentKey ≠ str "plugins") :
    l.sequenceStart = { l with depth := l.depth + 1, expectKey := true } := by
  rw [sequenceStart, if_neg (by simp [h])]

/-- Two events around others that make no setting. -/
theorem settings_wrap {l : Locals} {e e' : Event} {es : List Event}
    (h : (l.step e).2 = none) (hes : (l.step e).1.settings es = [])
    (h' : (((l.step e).1.run es).step e').2 = none) :
    l.settings (e :: (es ++ [e'])) = [] := by
  rw [settings, settings_append, h, hes, settings, h']
  rfl

/-- **Outside the section a node makes no setting and moves only the phase,** if it has no
sequence or `current_key` is not `plugins`. -/
theorem skipRule {c : Text} {p : Node → Bool}
    (hc : c = str "plugins" → ∀ items, p (.seq items) = false) :
    NodeRule p (fun l => l.Skips ∧ l.currentKey = c)
      (fun l es => l.settings es = [] ∧ ∃ b, l.run es = { l with expectKey := b }) where
  nil _ := ⟨rfl, _, rfl⟩
  append := by
    rintro l es es' - ⟨hs, b, hb⟩ ⟨hs', b', hb'⟩
    refine ⟨by rw [settings_append, hs, hs', List.append_nil], b', ?_⟩
    rw [run_append, hb', hb]
  keep := by
    rintro l es ⟨h, hk⟩ ⟨-, b, hb⟩
    rw [hb]
    exact ⟨⟨⟨h.out.found, h.out.plugins, h.out.entry, h.out.config⟩, h.noSection, h.depth⟩, hk⟩
  ref _ _ := ⟨rfl, _, rfl⟩
  scalar := by
    rintro l v ⟨h, -⟩ -
    have hstep : l.step (.scalar v) = (l, none) := h.scalar_eq v
    exact ⟨by rw [settings, hstep]; rfl, l.expectKey, by rw [run, hstep]; rfl⟩
  seq := by
    rintro l items ⟨h, hk⟩ hp
    have hne : l.currentKey ≠ str "plugins" := by
      rintro heq
      rw [hc (hk.symm.trans heq) items] at hp
      cases hp
    have hstart := sequenceStart_of_ne hne
    have hd := h.depth
    refine ⟨?_, fun es hes => ?_⟩
    · rw [hstart]
      exact ⟨⟨⟨h.out.found, h.out.plugins, h.out.entry, h.out.config⟩, h.noSection, by
        show 2 ≤ l.depth + 1
        omega⟩, hk⟩
    · obtain ⟨hs, b, hb⟩ := hes
      have hend : (l.sequenceStart.run es).sequenceEnd = { l with expectKey := true } := by
        rw [hb, hstart]
        apply Locals.ext <;> simp [sequenceEnd, h.out.plugins, h.out.entry, h.out.config]
      refine ⟨settings_wrap rfl hs rfl, true, ?_⟩
      rw [run, run_append]
      exact hend
  map := by
    rintro l entries ⟨h, hk⟩ -
    have hd := h.depth
    have hstart := mappingStart_of_outside h.out (.inl hd)
    refine ⟨?_, fun es hes => ?_⟩
    · rw [hstart]
      exact ⟨⟨⟨h.out.found, h.out.plugins, h.out.entry, h.out.config⟩, rfl, by
        show 2 ≤ l.depth + 1
        omega⟩, hk⟩
    · obtain ⟨hs, b, hb⟩ := hes
      have hend : (l.mappingStart.run es).mappingEnd = ({ l with expectKey := true }, none) := by
        rw [hb, hstart]
        simp [mappingEnd, h.out.config, h.out.entry, h.noSection]
      refine ⟨settings_wrap rfl hs (congrArg Prod.snd hend), true, ?_⟩
      rw [run, run_append]
      exact congrArg Prod.fst hend

/-! ### Nodes that never say `plugins` -/

/-- The test for a scalar `plugins`. -/
def notPlugins : Node → Bool
  | .scalar v => v ≠ str "plugins"
  | _ => true

/-- **A node without `plugins` keeps `depth` and opens no section;** the section is still on
after it only if it has no mapping. -/
theorem plainRule : NodeRule notPlugins
    (fun l => l.Outside ∧ 2 ≤ l.depth ∧ l.currentKey ≠ str "plugins")
    (fun l es => (l.run es).Outside ∧ (l.run es).depth = l.depth ∧
      (l.run es).currentKey ≠ str "plugins" ∧
      ((l.run es).inLogSection = true → l.inLogSection = true ∧ .mappingStart ∉ es)) where
  nil h := ⟨h.1, rfl, h.2.2, fun hl => ⟨hl, by simp⟩⟩
  append := by
    rintro l es es' - ⟨-, hd, -, hs⟩ ⟨ho', hd', hk', hs'⟩
    rw [run_append]
    refine ⟨ho', hd'.trans hd, hk', fun hl => ?_⟩
    obtain ⟨hm, hes'⟩ := hs' hl
    obtain ⟨hm, hes⟩ := hs hm
    exact ⟨hm, by simp [hes, hes']⟩
  keep h hes := ⟨hes.1, h.2.1.trans hes.2.1.ge, hes.2.2.1⟩
  ref h _ := ⟨h.1, rfl, h.2.2, fun hl => ⟨hl, by simp⟩⟩
  scalar := by
    rintro l v ⟨h, hd, hk⟩ hp
    have hv : cut 128 v ≠ str "plugins" := cut_ne_of_ne (by decide) (by simpa [notPlugins] using hp)
    have ho : ∀ c b, Outside { l with currentKey := c, expectKey := b } := fun _ _ =>
      ⟨h.found, h.plugins, h.entry, h.config⟩
    simp only [run, step]
    rcases scalar_cases h.entry v with ⟨-, heq⟩ | ⟨-, -, heq⟩ | ⟨-, -, heq⟩ <;> rw [heq]
    · exact ⟨h, rfl, hk, fun hl => ⟨hl, by simp⟩⟩
    · exact ⟨ho _ _, rfl, hv, fun hl => ⟨hl, by simp⟩⟩
    · exact ⟨ho _ _, rfl, hk, fun hl => ⟨hl, by simp⟩⟩
  seq := by
    rintro l items ⟨h, hd, hk⟩ -
    have hstart := sequenceStart_of_ne hk
    refine ⟨⟨?_, ?_, ?_⟩, fun es hes => ?_⟩
    · rw [hstart]
      exact ⟨h.found, h.plugins, h.entry, h.config⟩
    · rw [hstart]
      show 2 ≤ l.depth + 1
      omega
    · rw [hstart]
      exact hk
    · obtain ⟨ho, hd', hk', hs⟩ := hes
      rw [run, run_append]
      refine ⟨⟨ho.found, rfl, rfl, rfl⟩, ?_, hk', fun hl => ?_⟩
      · show (l.sequenceStart.run es).depth - 1 = l.depth
        rw [hd', hstart]
        simp
      · obtain ⟨hl, hes⟩ := hs hl
        rw [hstart] at hl
        exact ⟨hl, by simp [hes]⟩
  map := by
    rintro l entries ⟨h, hd, hk⟩ -
    have hstart := mappingStart_of_outside h (.inl hd)
    refine ⟨⟨?_, ?_, ?_⟩, fun es hes => ?_⟩
    · rw [hstart]
      exact ⟨h.found, h.plugins, h.entry, h.config⟩
    · rw [hstart]
      show 2 ≤ l.depth + 1
      omega
    · rw [hstart]
      exact hk
    · obtain ⟨ho, hd', hk', hs⟩ := hes
      have hend := mappingEnd_of_outside ho
      have hrun : l.run (.mappingStart :: (es ++ [.mappingEnd])) =
          (l.mappingStart.run es).mappingEnd.1 := by
        rw [run, run_append]
        rfl
      rw [hrun, hend]
      refine ⟨⟨ho.found, ho.plugins, ho.entry, ho.config⟩, ?_, hk', fun hl => ?_⟩
      · show (l.mappingStart.run es).depth - 1 = l.depth
        rw [hd', hstart]
        simp
      · -- inside the mapping the section was off
        simp only [Bool.and_eq_true] at hl
        have hoff := (hs hl.1).1
        rw [hstart] at hoff
        cases hoff

/-! ### Nodes without mappings -/

/-- The test for a mapping. -/
def notMap : Node → Bool
  | .map _ => false
  | _ => true

/-- **A node without mappings moves the phase, the key and the plugin index only,** and outside the
section it does not move the key and makes no setting. -/
theorem flatRule : NodeRule notMap
    (fun l => l.inPluginEntry = false ∧ l.inPluginConfig = false ∧ l.foundLogSection = false)
    (fun l es => ∃ e c i q,
      l.run es = { l with expectKey := e, currentKey := c, pluginIndex := i, inPlugins := q } ∧
        (q = true → l.inPlugins = true) ∧
        (l.inLogSection = false → 2 ≤ l.depth → c = l.currentKey ∧ l.settings es = [])) where
  nil _ := ⟨_, _, _, _, rfl, id, fun _ _ => ⟨rfl, rfl⟩⟩
  append := by
    rintro l es es' - ⟨e, c, i, q, hr, hq, hs⟩ ⟨e', c', i', q', hr', hq', hs'⟩
    refine ⟨e', c', i', q', by rw [run_append, hr', hr], ?_, fun hl hd => ?_⟩
    · intro h
      have := hq' h
      rw [hr] at this
      exact hq this
    · obtain ⟨hc, hes⟩ := hs hl hd
      obtain ⟨hc', hes'⟩ := hs' (by rw [hr]; exact hl) (by rw [hr]; exact hd)
      rw [hr] at hc'
      exact ⟨hc'.trans hc, by rw [settings_append, hes, hes']; rfl⟩
  keep := by
    rintro l es ⟨he, hc, hf⟩ ⟨e, c, i, q, hr, -⟩
    rw [hr]
    exact ⟨he, hc, hf⟩
  ref _ _ := ⟨_, _, _, _, rfl, id, fun _ _ => ⟨rfl, rfl⟩⟩
  scalar := by
    rintro l v ⟨he, hc, hf⟩ -
    have hno : l.inLogSection = false → 2 ≤ l.depth → ¬l.Reads := by
      rintro hl hd (h | ⟨-, h⟩)
      · simp [hl] at h
      · omega
    simp only [run, settings, step]
    rcases scalar_cases he v with ⟨-, heq⟩ | ⟨hr, -, heq⟩ | ⟨hr, -, heq⟩ <;> rw [heq]
    · exact ⟨_, _, _, _, rfl, id, fun _ _ => ⟨rfl, rfl⟩⟩
    · exact ⟨_, _, _, _, rfl, id, fun hl hd => absurd hr (hno hl hd)⟩
    · exact ⟨_, _, _, _, rfl, id, fun hl hd => absurd hr (hno hl hd)⟩
  seq := by
    rintro l items ⟨he, hc, hf⟩ -
    have hstart : ∃ i q, l.sequenceStart =
        { l with depth := l.depth + 1, expectKey := true, pluginIndex := i, inPlugins := q } := by
      simp only [sequenceStart]
      split_ifs <;> exact ⟨_, _, rfl⟩
    obtain ⟨i, q, hstart⟩ := hstart
    refine ⟨by rw [hstart]; exact ⟨he, hc, hf⟩, fun es hes => ?_⟩
    obtain ⟨e', c', i', q', hr, -, hs⟩ := hes
    have hrun : l.run (.sequenceStart :: (es ++ [.sequenceEnd])) =
        (l.sequenceStart.run es).sequenceEnd := by
      rw [run, run_append]
      rfl
    refine ⟨true, c', i', false, ?_, fun hq => (by cases hq), fun hl hd => ?_⟩
    · rw [hrun, hr, hstart]
      simp [sequenceEnd, he, hc]
    · obtain ⟨hc', hes⟩ := hs (by rw [hstart]; exact hl) (by
        rw [hstart]
        show 2 ≤ l.depth + 1
        omega)
      rw [hstart] at hc'
      exact ⟨hc', settings_wrap rfl hes rfl⟩
  map _ hp := nomatch hp

/-- Variables that differ only in what is overwritten before it is read: the phase where no scalar
is looked at, the plugin index outside a plugins sequence. -/
def Sim (l m : Locals) : Prop :=
  ∃ e i, m = { l with expectKey := e, pluginIndex := i } ∧
    (l.Reads ∨ l.inPluginEntry = true → e = l.expectKey) ∧
    (l.inPlugins = true ∨ l.inPluginEntry = true → i = l.pluginIndex)

theorem Sim.refl (l : Locals) : l.Sim l := ⟨_, _, rfl, fun _ => rfl, fun _ => rfl⟩

/-- Similar locals answer a scalar alike. -/
theorem sim_scalar {l m : Locals} (h : l.Sim m) (v : Text) :
    (l.scalar v).2 = (m.scalar v).2 ∧ (l.scalar v).1.Sim (m.scalar v).1 := by
  obtain ⟨e, i, rfl, he, hi⟩ := h
  by_cases hentry : l.inPluginEntry = true
  · obtain rfl := he (.inr hentry)
    obtain rfl := hi (.inr hentry)
    exact ⟨rfl, Sim.refl _⟩
  · rw [Bool.not_eq_true] at hentry
    have hm : inPluginEntry { l with expectKey := e, pluginIndex := i } = false := hentry
    rcases scalar_cases hentry v with ⟨hr, heq⟩ | ⟨hr, hk, heq⟩ | ⟨hr, hk, heq⟩
    · rcases scalar_cases hm v with ⟨-, heq'⟩ | ⟨hr', -⟩ | ⟨hr', -⟩
      · rw [heq, heq']
        exact ⟨rfl, e, i, rfl, he, hi⟩
      · exact absurd hr' hr
      · exact absurd hr' hr
    all_goals
      obtain rfl := he (.inl hr)
      rcases scalar_cases hm v with ⟨hr', -⟩ | ⟨-, hk', heq'⟩ | ⟨-, hk', heq'⟩
      · exact absurd hr hr'
    · rw [heq, heq']
      exact ⟨rfl, _, i, rfl, fun _ => rfl, hi⟩
    · exact absurd (hk.symm.trans hk') (by simp)
    · exact absurd (hk.symm.trans hk') (by simp)
    · rw [heq, heq']
      exact ⟨rfl, _, i, rfl, fun _ => rfl, hi⟩

theorem sim_mappingStart {l m : Locals} (h : l.Sim m) : l.mappingStart.Sim m.mappingStart := by
  obtain ⟨e, i, rfl, -, hi⟩ := h
  simp only [mappingStart]
  split_ifs with h1 h2
  · exact ⟨_, i, rfl, fun _ => rfl, hi⟩
  · exact ⟨_, i, rfl, fun _ => rfl, fun _ => hi (.inl h2.1)⟩
  all_goals exact ⟨_, i, rfl, fun _ => rfl, hi⟩

theorem sim_mappingEnd {l m : Locals} (h : l.Sim m) :
    l.mappingEnd.2 = m.mappingEnd.2 ∧ l.mappingEnd.1.Sim m.mappingEnd.1 := by
  obtain ⟨e, i, rfl, -, hi⟩ := h
  by_cases hentry : l.inPluginEntry = true
  · obtain rfl := hi (.inr hentry)
    simp only [mappingEnd]
    split_ifs <;> exact ⟨rfl, _, _, rfl, fun _ => rfl, fun _ => rfl⟩
  · simp only [mappingEnd]
    split_ifs with hc <;> exact ⟨rfl, _, _, rfl, fun _ => rfl, hi⟩

/-- One event keeps the similarity, and makes the same setting. -/
theorem sim_step {l m : Locals} (h : l.Sim m) (e : Event) :
    (l.step e).2 = (m.step e).2 ∧ (l.step e).1.Sim (m.step e).1 := by
  cases e with
  | sequenceStart =>
    obtain ⟨e, i, rfl, -, hi⟩ := h
    refine ⟨rfl, ?_⟩
    simp only [step, sequenceStart]
    split_ifs
    · exact Sim.refl _
    · exact ⟨_, i, rfl, fun _ => rfl, hi⟩
  | sequenceEnd =>
    obtain ⟨e, i, rfl, -, hi⟩ := h
    exact ⟨rfl, _, i, rfl, fun _ => rfl, by simp [step, sequenceEnd]⟩
  | scalar v => exact sim_scalar h v
  | mappingStart => exact ⟨rfl, sim_mappingStart h⟩
  | mappingEnd => exact sim_mappingEnd h
  | _ => exact ⟨rfl, h⟩

/-- **Similar variables make the same settings** from any events. -/
theorem Sim.settings_eq (es : List Event) : ∀ {l m : Locals}, l.Sim m →
    l.settings es = m.settings es := by
  induction es with
  | nil => exact fun _ => rfl
  | cons e es ih =>
    intro l m h
    obtain ⟨hset, hsim⟩ := sim_step h e
    rw [settings, settings, hset, ih hsim]

end Locals

/-! ### The scalars of a sequence, as the section reads them -/

mutual

/-- The runs of scalars without the start or the end of a sequence between them, of a node and
of what follows it: the run that is still open to the left, and the runs after it. -/
def nodeRuns : Node → List Text × List (List Text) → List Text × List (List Text)
  | .ref, rs => rs
  | .scalar v, rs => (v :: rs.1, rs.2)
  | .seq items, rs =>
    let inner := itemsRuns items ([], rs.1 :: rs.2)
    ([], inner.1 :: inner.2)
  | .map _, rs => ([], rs.1 :: rs.2)
termination_by structural n => n

def itemsRuns : List Node → List Text × List (List Text) → List Text × List (List Text)
  | [], rs => rs
  | n :: ns, rs => nodeRuns n (itemsRuns ns rs)
termination_by structural ns => ns

end

/-- Keys and values by turns; a key at the end has no value. -/
def pairs : List Text → List (Text × Text)
  | k :: v :: r => (k, v) :: pairs r
  | _ => []

/-- The settings of runs of scalars. -/
def readings (rs : List Text × List (List Text)) : List Setting :=
  (rs.1 :: rs.2).flatMap fun r => (pairs r).filterMap fun e => (findKey e.1).map (.value · e.2)

/-- The key that waits for its value. -/
def Locals.Waiting (l : Locals) (w : List Text) : Prop :=
  (l.expectKey = true ∧ w = []) ∨ (l.expectKey = false ∧ ∃ k, w = [k] ∧ findKey l.currentKey = findKey k)

theorem readings_of_waiting {l : Locals} {w : List Text} (h : l.Waiting w) (r : List Text)
    (rs : List (List Text)) : readings (w, r :: rs) = readings (r, rs) := by
  rcases h with ⟨-, rfl⟩ | ⟨-, k, rfl, -⟩ <;> rfl

theorem readings_of_waiting_nil {l : Locals} {w : List Text} (h : l.Waiting w) :
    readings (w, []) = [] := by
  rcases h with ⟨-, rfl⟩ | ⟨-, k, rfl, -⟩ <;> rfl

/-- Runs without a known key make no setting. -/
theorem readings_eq_nil_iff {rs : List Text × List (List Text)} :
    readings rs = [] ↔ ∀ r ∈ rs.1 :: rs.2, ∀ e ∈ pairs r, findKey e.1 = none := by
  simp only [readings, List.flatMap_eq_nil_iff, List.filterMap_eq_nil_iff, Option.map_eq_none_iff]

/-- The parser is in the section, and not in a plugin entry. -/
structure Locals.InSection (l : Locals) : Prop where
  on : l.inLogSection = true
  entry : l.inPluginEntry = false
  config : l.inPluginConfig = false
  found : l.foundLogSection = false

/-- A node without mappings stays in the section. -/
theorem Locals.InSection.run_flat {l : Locals} (h : l.InSection) {n : Node}
    (hn : n.all Locals.notMap = true) : (l.run n.events).InSection := by
  obtain ⟨e, c, i, q, hr, -⟩ := Locals.flatRule.node n hn l ⟨h.entry, h.config, h.found⟩
  rw [hr]
  exact ⟨h.on, h.entry, h.config, h.found⟩

theorem Locals.InSection.scalar {l : Locals} (h : l.InSection) (v : Text) {w : List Text}
    (hw : l.Waiting w) : ∃ w', (l.scalar v).1.Waiting w' ∧ ∀ rs : List Text × List (List Text),
      readings (w ++ v :: rs.1, rs.2) = (l.scalar v).2.toList ++ readings (w' ++ rs.1, rs.2) := by
  rcases Locals.scalar_cases h.entry v with ⟨hr, -⟩ | ⟨-, hk, heq⟩ | ⟨-, hk, heq⟩
  · exact absurd (.inl h.on) hr
  · rcases hw with ⟨-, rfl⟩ | ⟨hk', -⟩
    · rw [heq]
      exact ⟨[v], .inr ⟨rfl, v, rfl, findKey_cut v⟩, fun _ => rfl⟩
    · exact absurd (hk.symm.trans hk') (by simp)
  · rcases hw with ⟨hk', -⟩ | ⟨-, k, rfl, hfind⟩
    · exact absurd (hk'.symm.trans hk) (by simp)
    · rw [heq]
      refine ⟨[], .inl ⟨rfl, rfl⟩, fun rs => ?_⟩
      rw [hfind]
      cases hf : findKey k <;> simp [readings, pairs, hf]

/-- **In the section, a node without mappings makes the settings of its runs.** -/
theorem settings_nodeRuns (n : Node) : n.all Locals.notMap = true → ∀ {l : Locals},
    l.InSection → ∀ {w}, l.Waiting w →
      ∃ w', (l.run n.events).Waiting w' ∧ ∀ rs : List Text × List (List Text),
        readings (w ++ (nodeRuns n rs).1, (nodeRuns n rs).2) =
          l.settings n.events ++ readings (w' ++ rs.1, rs.2) := by
  induction n using Node.induct with
  | ref =>
    intro _ l _ w hw
    exact ⟨w, hw, fun _ => rfl⟩
  | scalar v =>
    intro _ l h w hw
    obtain ⟨w', hw', hrs⟩ := h.scalar v hw
    refine ⟨w', hw', fun rs => ?_⟩
    rw [nodeRuns, hrs, Node.events, Locals.settings, Locals.settings, List.append_nil]
    rfl
  | map entries => exact fun hn => by simp [Node.all, Locals.notMap] at hn
  | seq items ih =>
    intro hn l h w hw
    rw [Node.all, Bool.and_eq_true, itemsAll_iff] at hn
    -- the items one after another, with the runs that follow as a parameter
    have hitems : ∀ (ns : List Node), (∀ n ∈ ns, n ∈ items) → ∀ {m : Locals}, m.InSection →
        ∀ {w}, m.Waiting w → ∃ w', (m.run (itemsEvents ns)).Waiting w' ∧
          ∀ rs : List Text × List (List Text),
            readings (w ++ (itemsRuns ns rs).1, (itemsRuns ns rs).2) =
              m.settings (itemsEvents ns) ++ readings (w' ++ rs.1, rs.2) := by
      intro ns
      induction ns with
      | nil => exact fun _ m _ w hw => ⟨w, hw, fun _ => rfl⟩
      | cons n ns ihns =>
        intro hns m hm w hw
        have hmem := hns n (by simp)
        obtain ⟨w₁, hw₁, h₁⟩ := ih n hmem (hn.2 n hmem) hm hw
        obtain ⟨w₂, hw₂, h₂⟩ := ihns (fun k hk => hns k (List.mem_cons_of_mem _ hk))
          (hm.run_flat (hn.2 n hmem)) hw₁
        rw [itemsEvents, Locals.run_append]
        refine ⟨w₂, hw₂, fun rs => ?_⟩
        rw [itemsRuns, h₁, h₂, Locals.settings_append, List.append_assoc]
    have hstart : l.sequenceStart.InSection ∧ l.sequenceStart.Waiting [] := by
      simp only [Locals.sequenceStart]
      split_ifs <;> exact ⟨⟨h.on, h.entry, h.config, h.found⟩, .inl ⟨rfl, rfl⟩⟩
    obtain ⟨w', hw', hrs⟩ := hitems items (fun _ h => h) hstart.1 hstart.2
    rw [Node.events, Locals.run, Locals.run_append, Locals.settings, Locals.settings_append]
    refine ⟨[], .inl ⟨rfl, rfl⟩, fun rs => ?_⟩
    have hin := hrs ([], rs.1 :: rs.2)
    rw [List.append_nil, readings_of_waiting hw'] at hin
    rw [nodeRuns, List.append_nil, readings_of_waiting hw]
    exact hin.trans (by simp [Locals.settings, Locals.step])

end Config
end Clogx
