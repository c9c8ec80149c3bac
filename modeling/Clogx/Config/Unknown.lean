/-
# Unknown entries of the section

The comment over `parse_config_file` promises that nested and unknown structure
is skipped.  Inside the section a nested mapping clears `in_log_section` for
good, the items of a sequence are read as keys and values, and an alias is no
event the phase counts; an unknown entry is inert exactly when its value does
none of the three.  That it is read as an entry at all depends on its place: an
alias before it shifts keys and values.
-/

import Clogx.Config.Section

namespace Clogx
namespace Config

open CLib Yaml

/-- The runs of scalars of a value. -/
def runs (v : Node) : List (List Text) := (nodeRuns v ([], [])).1 :: (nodeRuns v ([], [])).2

/-- **A value the section passes over:** no alias, no mapping anywhere in it, and no key of the
table where a key is read and a value follows. -/
def Inert (v : Node) : Prop :=
  v ≠ .ref ∧ v.all Locals.notMap = true ∧ ∀ r ∈ runs v, ∀ e ∈ pairs r, findKey e.1 = none

/-- Whether a key is expected after a node of the section. -/
def expectAfter (expect : Bool) : Node → Bool
  | .ref => expect
  | .scalar _ => !expect
  | _ => true

/-- **Where an entry can stand:** a key is expected there, and what follows it begins with a scalar
key or is the end. -/
structure Place (a b post : List (Node × Node)) : Prop where
  before : (parts a).foldl expectAfter true = true
  behind : ∀ e ∈ (b ++ post).head?, ∃ k, e.1 = .scalar k

/-- Deleting the entry `e` of the section changes nothing. -/
def Deletable (pre a : List (Node × Node)) (e : Node × Node) (b post : List (Node × Node)) : Prop :=
  ∀ t, parseConfigFile (.events (logDoc pre (a ++ e :: b) post)) t =
    parseConfigFile (.events (logDoc pre (a ++ b) post)) t

/-- Before a node of the section, or of a part of it that is passed over. -/
structure Locals.InLog (l : Locals) (expect : Bool) : Prop where
  out : l.Outside
  depth : 2 ≤ l.depth
  key : l.inLogSection = true → l.expectKey = expect

theorem Locals.InLog.skips {l : Locals} {expect : Bool} (h : l.InLog expect)
    (hl : l.inLogSection = false) : l.Skips :=
  ⟨h.out, hl, h.depth⟩

/-- **The key/value phase after a node,** whatever is in it. -/
theorem Locals.InLog.node {l : Locals} {expect : Bool} (h : l.InLog expect) (n : Node) :
    (l.run n.events).InLog (expectAfter expect n) := by
  have hd := h.depth
  have hframe := Locals.frame_run n h.out.nested (by omega)
  refine ⟨h.out.of_frame hframe, hd.trans hframe.depth, ?_⟩
  cases n with
  | ref => exact h.key
  | scalar v =>
    intro hl
    rw [Node.events, Locals.run, Locals.run] at hl ⊢
    rcases Locals.scalar_cases h.out.entry v with ⟨hr, heq⟩ | ⟨-, hk, heq⟩ | ⟨-, hk, heq⟩
    · rw [Locals.step, heq] at hl
      exact absurd (.inl hl) hr
    all_goals
      rw [Locals.step, heq] at hl ⊢
      obtain rfl := (h.key hl).symm.trans hk
      rfl
  | seq ns =>
    intro _
    rw [Node.events, Locals.run, Locals.run_append]
    rfl
  | map es =>
    intro _
    rw [Node.events, Locals.run, Locals.run_append]
    exact (Locals.mappingEnd_cases _).1

/-- Inside `log`, whole nodes keep the parser in `log`. -/
theorem Locals.InLog.nodes (ns : List Node) : ∀ {l : Locals} {expect : Bool}, l.InLog expect →
    (l.run (itemsEvents ns)).InLog (ns.foldl expectAfter expect) := by
  induction ns with
  | nil => exact fun h => h
  | cons n ns ih =>
    intro l expect h
    rw [itemsEvents, Locals.run_append]
    exact ih (h.node n)

/-- The entry leaves the variables as they were, but for what is overwritten before it is read. -/
def Locals.Close (l m : Locals) : Prop :=
  (l.inLogSection = false → l.Sim m) ∧
    (l.inLogSection = true → ∃ c i, m = { l with currentKey := c, pluginIndex := i })

/-- The flag of a `plugins` sequence that is not open. -/
theorem Locals.Outside.inPlugins_eq {l : Locals} (h : l.Outside) {q : Bool}
    (hq : q = true → l.inPlugins = true) : q = l.inPlugins := by
  cases q with
  | false => exact h.plugins.symm
  | true => exact (hq rfl).symm

theorem Locals.Outside.not_plugin {l : Locals} (h : l.Outside) :
    ¬(l.inPlugins = true ∨ l.inPluginEntry = true) := by
  rw [h.plugins, h.entry]
  simp

/-- Outside the section an entry without mappings makes no setting. -/
theorem Locals.InLog.flat {l : Locals} {expect : Bool} (h : l.InLog expect)
    (hsec : l.inLogSection = false) {e : Node × Node} (hkey : e.1.all Locals.notMap = true)
    (hval : e.2.all Locals.notMap = true) :
    l.settings (entryEvents e) = [] ∧ l.Sim (l.run (entryEvents e)) := by
  have rule := Locals.flatRule
  obtain ⟨x, c, i, q, hr, hq, hs⟩ := rule.entry (rule.node e.1 hkey) (rule.node e.2 hval) l
    ⟨h.out.entry, h.out.config, h.out.found⟩
  obtain ⟨rfl, hset⟩ := hs hsec h.depth
  obtain rfl := h.out.inPlugins_eq hq
  refine ⟨hset, x, i, hr, ?_, ?_⟩
  · rintro (hr | he)
    · exact absurd hr (h.skips hsec).not_reads
    · exact absurd (h.out.entry.symm.trans he) (by simp)
  · exact fun hp => absurd hp h.out.not_plugin

/-- Behind an unknown key an inert value makes no setting. -/
theorem Locals.InSection.settings_inert {l : Locals} (h : l.InSection) {k : Text}
    (hwait : l.Waiting [k]) (hk : findKey k = none) {v : Node} (hv : Inert v) :
    l.settings v.events = [] := by
  obtain ⟨href, hflat, hruns⟩ := hv
  obtain ⟨w, hw, hrs⟩ := settings_nodeRuns v hflat h hwait
  have hread := hrs ([], [])
  rw [List.append_nil, readings_of_waiting_nil hw, List.append_nil] at hread
  rw [← hread]
  refine readings_eq_nil_iff.2 (List.forall_mem_cons.2 ⟨?_, fun r hr => ?_⟩)
  · -- the key is read with the first scalar of the value, and is unknown
    cases v with
    | ref => exact absurd rfl href
    | map es => simp [Node.all, Locals.notMap] at hflat
    | seq ns => exact fun e he => by cases he
    | scalar w =>
      intro e he
      obtain rfl := List.mem_singleton.1 he
      exact hk
  · exact hruns r (List.mem_cons_of_mem _ hr)

/-- Behind an inert value a key is expected. -/
theorem Locals.InLog.run_inert {l : Locals} (h : l.InLog false) (hsec : l.inLogSection = true)
    {v : Node} (hv : Inert v) : ∃ c i, l.run v.events =
      { l with expectKey := true, currentKey := c, pluginIndex := i } := by
  obtain ⟨href, hflat, -⟩ := hv
  obtain ⟨e, c, i, q, hr, hq, -⟩ := Locals.flatRule.node v hflat l
    ⟨h.out.entry, h.out.config, h.out.found⟩
  obtain rfl := h.out.inPlugins_eq hq
  have hafter : expectAfter false v = true := by
    cases v with
    | ref => exact absurd rfl href
    | _ => rfl
  have hkey := ((h.node v).key (by rw [hr]; exact hsec)).trans hafter
  rw [hr] at hkey
  obtain rfl : e = true := hkey
  exact ⟨c, i, hr⟩

/-- **An unknown key with an inert value makes no setting and leaves the variables close.** -/
theorem Locals.InLog.inert {l : Locals} (h : l.InLog true) {k : Text} (hk : findKey k = none)
    {v : Node} (hv : Inert v) :
    l.settings (entryEvents (.scalar k, v)) = [] ∧
      l.Close (l.run (entryEvents (.scalar k, v))) := by
  cases hsec : l.inLogSection with
  | false =>
    obtain ⟨hset, hsim⟩ := h.flat hsec (e := (.scalar k, v)) rfl hv.2.1
    exact ⟨hset, fun _ => hsim, fun hl => absurd (hsec.symm.trans hl) (by simp)⟩
  | true =>
    have hstep := Locals.step_key h.out.entry (.inl hsec) (h.key hsec) k
    have hrun : l.run (Node.scalar k).events =
        { l with currentKey := cut 128 k, expectKey := false } := congrArg Prod.fst hstep
    have hnil : l.settings (Node.scalar k).events = [] := by
      rw [Node.events, Locals.settings, hstep]
      rfl
    have hlog : (l.run (Node.scalar k).events).InLog false := h.node (.scalar k)
    rw [entryEvents_eq, Locals.run_append, Locals.settings_append, hnil, List.nil_append]
    rw [hrun] at hlog ⊢
    obtain ⟨c, i, hr⟩ := hlog.run_inert hsec hv
    have hin := Locals.InSection.mk (l := { l with currentKey := cut 128 k, expectKey := false })
      hsec h.out.entry h.out.config h.out.found
    refine ⟨hin.settings_inert (.inr ⟨rfl, k, rfl, findKey_cut k⟩) hk hv,
      fun hl => absurd (hsec.symm.trans hl) (by simp), fun _ => ⟨c, i, ?_⟩⟩
    rw [hr, ← h.key hsec]

/-- A key overwrites the key before it. -/
theorem settings_of_key {l : Locals} (h : l.Outside) (hr : l.Reads) (hk : l.expectKey = true)
    (c : Text) (i : ℕ) (k : Text) (es : List Event) :
    l.settings (.scalar k :: es) =
      ({ l with currentKey := c, pluginIndex := i } : Locals).settings (.scalar k :: es) := by
  rw [Locals.settings, Locals.settings, Locals.step_key h.entry hr hk,
    Locals.step_key (l := { l with currentKey := c, pluginIndex := i }) h.entry hr hk]
  exact congrArg _ (Locals.Sim.settings_eq es
    ⟨false, i, rfl, fun _ => rfl, fun hp => absurd hp h.not_plugin⟩)

/-- What follows an entry of the section: its other entries and those of the root. -/
def tailEvents (b post : List (Node × Node)) : List Event :=
  entriesEvents b ++ .mappingEnd :: (entriesEvents post ++ [.mappingEnd])

theorem tailEvents_cons (e : Node × Node) (b post : List (Node × Node)) :
    tailEvents (e :: b) post = entryEvents e ++ tailEvents b post := by
  rw [tailEvents, entriesEvents, List.append_assoc]
  rfl

/-- Entries that begin with a scalar key, unless there are none. -/
theorem entriesEvents_cases {es : List (Node × Node)} (h : ∀ e ∈ es.head?, ∃ k, e.1 = .scalar k) :
    es = [] ∨ ∃ k rest, entriesEvents es = .scalar k :: rest := by
  cases es with
  | nil => exact .inl rfl
  | cons e es =>
    obtain ⟨k, hk⟩ := h e rfl
    refine .inr ⟨k, e.2.events ++ entriesEvents es, ?_⟩
    rw [entriesEvents, entryEvents_eq, hk]
    rfl

/-- **Close variables make the same settings from what follows.** -/
theorem Locals.Close.settings_eq {l m : Locals} (h : l.InLog true) (hc : l.Close m)
    {b post : List (Node × Node)} (hnext : ∀ e ∈ (b ++ post).head?, ∃ k, e.1 = .scalar k) :
    l.settings (tailEvents b post) = m.settings (tailEvents b post) := by
  cases hsec : l.inLogSection with
  | false => exact (hc.1 hsec).settings_eq _
  | true =>
    obtain ⟨c, i, rfl⟩ := hc.2 hsec
    rw [tailEvents]
    have hb : ∀ e ∈ b.head?, ∃ k, e.1 = .scalar k := fun e he =>
      hnext e (by rw [List.head?_append, Option.mem_def.1 he]; rfl)
    rcases entriesEvents_cases hb with rfl | ⟨k, rest, hb⟩
    · -- the section ends: its end leaves the parser reading, one level up
      have hd := h.depth
      have ho : Locals.Outside { l with currentKey := c, pluginIndex := i } :=
        ⟨h.out.found, h.out.plugins, h.out.entry, h.out.config⟩
      have hstep : l.step .mappingEnd = _ := Locals.mappingEnd_of_outside h.out
      have hstep' : ({ l with currentKey := c, pluginIndex := i } : Locals).step .mappingEnd = _ :=
        Locals.mappingEnd_of_outside ho
      rw [entriesEvents, List.nil_append, Locals.settings, Locals.settings, hstep, hstep']
      refine congrArg _ ?_
      rcases @entriesEvents_cases post hnext with rfl | ⟨k, rest, hp⟩
      · rw [entriesEvents, List.nil_append]
        refine Eq.trans (Locals.Outside.settings_mappingEnd ?_)
            (Locals.Outside.settings_mappingEnd ?_).symm <;>
          exact ⟨h.out.found, h.out.plugins, h.out.entry, h.out.config⟩
      · rw [hp, List.cons_append]
        refine settings_of_key (l := { l with
          inLogSection := l.inLogSection && decide (2 < l.depth)
          depth := l.depth - 1
          expectKey := true })
          ⟨h.out.found, h.out.plugins, h.out.entry, h.out.config⟩ ?_ rfl c i k _
        by_cases h2 : 2 < l.depth
        · exact .inl (by simp [hsec, h2])
        · exact .inr ⟨h.out.found, by
            show l.depth - 1 = 1
            omega⟩
    · rw [hb, List.cons_append]
      exact settings_of_key h.out (.inl hsec) (h.key hsec) c i k _

/-- The events before an entry of the section. -/
def headEvents (pre a : List (Node × Node)) : List Event :=
  entriesEvents pre ++ .scalar (str "log") :: .mappingStart :: entriesEvents a

/-- The document, split at an entry of the section. -/
theorem settings_root (pre m post : List (Node × Node)) (a b : List (Node × Node))
    (hm : entriesEvents m = entriesEvents a ++ entriesEvents b) :
    ({} : Locals).settings (Node.map (pre ++ (.scalar (str "log"), .map m) :: post)).events =
      top.settings (headEvents pre a ++ tailEvents b post) := by
  rw [Node.events, entriesEvents_append, entriesEvents, entryEvents_eq]
  show top.settings _ = _
  simp only [headEvents, tailEvents, Node.events, hm, List.append_assoc, List.cons_append,
    List.nil_append]

/-- At an entry of the section the parser is in it, or passes over it. -/
theorem inLog_head (pre a : List (Node × Node)) :
    (top.run (headEvents pre a)).InLog ((parts a).foldl expectAfter true) := by
  have htop : top.Outside := ⟨rfl, rfl, rfl, rfl⟩
  have rule := Locals.frameRule
  have hpre : top.Frame (top.run (entriesEvents pre)) :=
    rule.entries (fun e _ => rule.entry (rule.node e.1 (all_true e.1))
      (rule.node e.2 (all_true e.2))) top ⟨htop.nested, le_rfl⟩
  have hlog := hpre.trans (Locals.frame_scalar hpre.nested (str "log"))
  generalize hl : ((top.run (entriesEvents pre)).scalar (str "log")).1 = l at hlog
  have hout := htop.of_frame hlog
  have hd : 1 ≤ l.depth := hlog.depth
  obtain ⟨sdepth, skey, splug, sflags, sfound⟩ := l.mappingStart_cases
  have hstart : l.mappingStart.InLog true := by
    have hflags : l.mappingStart.inPluginEntry = false ∧
        l.mappingStart.inPluginConfig = false := by
      rcases sflags with ⟨hp, -⟩ | ⟨hp, -⟩ | ⟨he, hc⟩
      · exact absurd (hout.plugins.symm.trans hp) (by simp)
      · exact absurd (hout.plugins.symm.trans hp) (by simp)
      · exact ⟨he.trans hout.entry, hc.trans hout.config⟩
    exact ⟨⟨(sfound (by omega)).trans hout.found, splug.trans hout.plugins, hflags.1, hflags.2⟩,
      by omega, fun _ => skey⟩
  have hrun : top.run (headEvents pre a) = l.mappingStart.run (entriesEvents a) := by
    rw [headEvents, Locals.run_append, ← hl]
    rfl
  rw [hrun, ← itemsEvents_parts]
  exact hstart.nodes _

/-- **An unknown entry with an inert value can be deleted.** -/
theorem deletable_of_inert {k : Text} (hk : findKey k = none) {v : Node} (hv : Inert v)
    {a b post : List (Node × Node)} (hplace : Place a b post) (pre : List (Node × Node)) :
    Deletable pre a (.scalar k, v) b post := by
  intro t
  have hin := inLog_head pre a
  rw [hplace.before] at hin
  obtain ⟨hnil, hclose⟩ := hin.inert hk hv
  have hwith : entriesEvents (a ++ (.scalar k, v) :: b) =
      entriesEvents a ++ entriesEvents ((.scalar k, v) :: b) := entriesEvents_append _ _
  rw [logDoc, logDoc, parse_document, parse_document, settings_root pre _ post _ _ hwith,
    settings_root pre _ post _ _ (entriesEvents_append a b), Locals.settings_append,
    Locals.settings_append, hclose.settings_eq hin hplace.behind]
  rw [tailEvents_cons, Locals.settings_append, hnil, List.nil_append]

/-- The settings of a document that is a section alone. -/
def sectionSettings (m : List (Node × Node)) : List Setting :=
  ({} : Locals).settings (Node.map [(.scalar (str "log"), .map m)]).events

theorem parse_alone (m : List (Node × Node)) (t : Target) :
    parseConfigFile (.events (logDoc [] m [])) t =
      (sectionSettings m).foldl Setting.apply ⟨t, false⟩ :=
  parse_document _ t

/-- The variables after the first key of the section. -/
def afterKey (k : Text) : Locals :=
  { depth := 2, inLogSection := true, currentKey := cut 128 k, expectKey := false }

/-- A section is read entry by entry. -/
theorem sectionSettings_cons (k : Text) (v : Node) (b : List (Node × Node)) :
    sectionSettings ((.scalar k, v) :: b) =
      (afterKey k).settings v.events ++
        ((afterKey k).run v.events).settings (tailEvents b []) := by
  have hhead : top.run (headEvents [] []) =
        { depth := 2, inLogSection := true, currentKey := str "log" } ∧
      top.settings (headEvents [] []) = [] := by
    decide +kernel
  have hroot := settings_root [] ((.scalar k, v) :: b) [] [] ((.scalar k, v) :: b) rfl
  rw [Locals.settings_append, hhead.1, hhead.2, tailEvents_cons, entryEvents_eq,
    List.append_assoc] at hroot
  have hkey : ∀ es, Locals.settings { depth := 2, inLogSection := true, currentKey := str "log" }
      (.scalar k :: es) = (afterKey k).settings es := fun _ => rfl
  exact hroot.trans ((hkey _).trans (Locals.settings_append v.events (tailEvents b []) _))

/-- The entry can be deleted wherever it can stand. -/
def Harmless (k : Text) (v : Node) : Prop :=
  ∀ pre a b post, Place a b post → Deletable pre a (.scalar k, v) b post

/-- An entry behind which the section no longer finds a level cannot be deleted. -/
theorem not_harmless {k : Text} {v : Node} (s : List Setting)
    (h : ∀ x, sectionSettings [(.scalar k, v), levelEntry x] = s) : ¬Harmless k v := by
  intro hh
  refine parse_levelEntry (p := s.foldl Setting.apply ⟨pole true, false⟩) fun x => ?_
  rw [← h x, ← parse_alone]
  refine (hh [] [] [levelEntry x] [] ⟨rfl, fun e he => ?_⟩ (pole true)).symm
  cases he
  exact ⟨_, rfl⟩

/-- The ends of the section and of the root make no setting. -/
theorem settings_ends {l : Locals} (h : l.Outside) : l.settings (tailEvents [] []) = [] := by
  have hstep : l.step .mappingEnd = _ := Locals.mappingEnd_of_outside h
  show (l.step .mappingEnd).2.toList ++ (l.step .mappingEnd).1.settings [.mappingEnd] = []
  rw [hstep]
  exact Locals.Outside.settings_mappingEnd ⟨h.found, h.plugins, h.entry, h.config⟩

/-- An alias is not counted as the value of its key: the next key is. -/
theorem sectionSettings_ref {k : Text} (hk : findKey k = none) (x : String) :
    sectionSettings [(.scalar k, .ref), levelEntry x] = [] := by
  rw [sectionSettings_cons]
  have hval := Locals.step_value (l := afterKey k) rfl (.inl rfl) rfl (str "level")
  have hkey : (afterKey k).currentKey = cut 128 k := rfl
  rw [hkey, findKey_cut, hk] at hval
  show (afterKey k).settings (.scalar (str "level") :: .scalar (str x) :: tailEvents [] []) = []
  rw [Locals.settings, hval]
  show Locals.settings _ (.scalar (str x) :: tailEvents [] []) = []
  rw [Locals.settings, Locals.step_key rfl (.inl rfl) rfl]
  exact settings_ends ⟨rfl, rfl, rfl, rfl⟩

/-- After a value with a mapping in it the section is passed over. -/
theorem sectionSettings_of_skips {k : Text} {v : Node}
    (h : ((afterKey k).run v.events).Skips)
    (hk : ((afterKey k).run v.events).currentKey ≠ str "plugins") (x : String) :
    sectionSettings [(.scalar k, v), levelEntry x] = (afterKey k).settings v.events := by
  have hall : entriesAll (fun _ => true) [levelEntry x] = true := rfl
  obtain ⟨hs, b, hb⟩ := h.entries (fun hc => absurd hc hk) hall
  have hends : Locals.settings { (afterKey k).run v.events with expectKey := b }
      (tailEvents [] []) = [] :=
    settings_ends ⟨h.out.found, h.out.plugins, h.out.entry, h.out.config⟩
  have htail : tailEvents [levelEntry x] [] =
      entriesEvents [levelEntry x] ++ tailEvents [] [] := rfl
  rw [sectionSettings_cons, htail, Locals.settings_append, hs, hb, hends, List.append_nil,
    List.append_nil]

/-- **An unknown entry that can be deleted has an inert value,** if the value does not say
`plugins`. -/
theorem inert_of_harmless {k : Text} (hk : findKey k = none) (hkp : k ≠ str "plugins") {v : Node}
    (hv : v.all Locals.notPlugins = true) (h : Harmless k v) : Inert v := by
  have hout : (afterKey k).Outside := ⟨rfl, rfl, rfl, rfl⟩
  obtain ⟨ho, hd, hkey, hsec⟩ := Locals.plainRule.node v hv (afterKey k)
    ⟨hout, by simp [afterKey], cut_ne_of_ne (by decide) hkp⟩
  have href : v ≠ .ref := by
    rintro rfl
    exact not_harmless _ (sectionSettings_ref hk) h
  have hflat : v.all Locals.notMap = true := by
    by_contra hmap
    have hoff : ((afterKey k).run v.events).inLogSection = false := by
      by_contra hon
      refine hmap (all_of_mappingStart_notMem ?_ v (hsec (by simpa using hon)).2)
      intro n hn
      cases n with
      | map es => exact ⟨es, rfl⟩
      | _ => cases hn
    exact not_harmless _ (sectionSettings_of_skips ⟨ho, hoff, hd.ge⟩ hkey) h
  -- deleted from a section of its own, the entry must have made no setting
  have hnil : (afterKey k).settings v.events = [] := by
    by_contra hne
    obtain ⟨t, ht⟩ := exists_foldl_ne hne
    have halone := h [] [] [] [] ⟨rfl, nofun⟩ t
    have hempty : sectionSettings [] = [] := by decide +kernel
    rw [List.nil_append, List.nil_append, parse_alone, parse_alone, sectionSettings_cons,
      settings_ends ho, List.append_nil, hempty] at halone
    exact ht halone
  obtain ⟨w, hw, hrs⟩ := settings_nodeRuns v hflat (l := afterKey k) ⟨rfl, rfl, rfl, rfl⟩
    (.inr ⟨rfl, k, rfl, findKey_cut k⟩)
  have hread := hrs ([], [])
  rw [hnil, List.append_nil, readings_of_waiting_nil hw, List.append_nil,
    readings_eq_nil_iff] at hread
  refine ⟨href, hflat, List.forall_mem_cons.2 ⟨?_, fun r hr =>
    hread r (List.mem_cons_of_mem _ hr)⟩⟩
  cases v with
  | ref => exact absurd rfl href
  | map es => simp [Node.all, Locals.notMap] at hflat
  | seq ns => exact fun e he => by cases he
  | scalar u => exact fun e he => by cases he

/-- **Unknown structure of the section is inert if its value is,** in every document in which a key
is expected at the entry and what follows it begins with a scalar key.  A value that does not say
`plugins` has to be inert for that. -/
theorem unknown_entry_inert {k : Text} (hk : findKey k = none) (hkp : k ≠ str "plugins")
    (v : Node) :
    (∀ pre a b post, Inert v ∧ Place a b post → Deletable pre a (.scalar k, v) b post) ∧
      (v.all Locals.notPlugins = true → Harmless k v → Inert v) :=
  ⟨fun pre _ _ _ h => deletable_of_inert hk h.1 h.2 pre, inert_of_harmless hk hkp⟩

/-- `tags: [web, prod]` between `level: DEBUG` and a mapping can be deleted. -/
theorem unknown_entry_inert_tags :
    Deletable [] [levelEntry "DEBUG"]
      (.scalar (str "tags"), .seq [.scalar (str "web"), .scalar (str "prod")])
      [(.scalar (str "nested"), .map [])] [] := by
  refine (unknown_entry_inert (by decide +kernel) (by decide) _).1 _ _ _ _
    ⟨⟨nofun, rfl, by decide +kernel⟩, rfl, fun e he => ?_⟩
  cases he
  exact ⟨_, rfl⟩

/-- The items of `tags: [level, DEBUG]` are taken as a setting, and a nested mapping hides the
setting after it. -/
theorem unknown_entry_not_inert :
    let level := levelEntry "DEBUG"
    let tags := (Node.scalar (str "tags"), Node.seq [level.1, level.2])
    let nested := (Node.scalar (str "nested"), Node.map [])
    (parseConfigFile (.events (logDoc [] [tags] [])) (pole true)).target.cfg.level = .debug ∧
      (parseConfigFile (.events (logDoc [] [] [])) (pole true)).target.cfg.level = .trace ∧
      (parseConfigFile (.events (logDoc [] [nested, level] [])) (pole true)).target.cfg.level =
        .trace ∧
      (parseConfigFile (.events (logDoc [] [level] [])) (pole true)).target.cfg.level = .debug := by
  decide +kernel

end Config
end Clogx
