/-
# Loggers and the static buffers of the parser

`log_init`, `logger_create`, `log_reload`, `logger_reload` (`core/log.c`),
`log_config_set` (`core/config.c`) and `logger_config_set` on any number of
loggers.  Each logger owns its configuration and two format buffers, but the
parser stores the format strings of a file in two static buffers that all loggers
share, and points the configuration there.  `log_config_load_into` copies them to
the logger and points the configuration at the copies, unless the file was
rejected: then it returns at once, and the configuration keeps pointing at the
static buffers, which the next file of any logger overwrites.

What follows the load in these functions (the limiter, the sinks and the worker)
reads the configuration and does not write it (`reload_toLogger`); whether it
succeeds is an argument here.
-/

import Clogx.Config.Reload
import Clogx.Machine.Run

namespace Clogx
namespace Config

open CLib Yaml
open Machine (Reach Reachable)

/-- The part of `logger_t` that holds its configuration. -/
structure Instance where
  config : LogConfig
  configPath : Text
  formatStr : Text
  timeFormatStr : Text
  initialized : Bool
deriving DecidableEq

/-- `g_default_logger`, or a logger that `logger_create` returned. -/
inductive Name (ι : Type*)
  | default
  | created (i : ι)
deriving DecidableEq

/-- The static buffers and the loggers. -/
structure World (ι : Type*) where
  gConfigFormat : Text
  gConfigTimeFormat : Text
  gDefaultLogger : Instance
  created : ι → Option Instance

/-- Memory that is all zero. -/
def zeroInstance : Instance where
  config :=
    { (pole false).cfg with
      level := .trace
      formatType := .text
      format := .null
      timeFormat := .null }
  configPath := []
  formatStr := []
  timeFormatStr := []
  initialized := false

/-- A `log_config_t` that is handed over, with the texts its two pointers lead to. -/
structure ConfigArg where
  fields : LogConfig
  format : Option Text
  timeFormat : Option Text

variable {ι : Type*} [DecidableEq ι]

namespace World

/-- Before the first call. -/
def init : World ι := ⟨[], [], zeroInstance, fun _ => none⟩

/-- The logger of a name. -/
def logger (w : World ι) : Name ι → Option Instance
  | .default => some w.gDefaultLogger
  | .created i => w.created i

/-- The logger of a name is `l` now. -/
def set (w : World ι) (n : Name ι) (l : Instance) : World ι :=
  match n with
  | .default => { w with gDefaultLogger := l }
  | .created i => { w with created := Function.update w.created i (some l) }

/-- What the loader works on. -/
def view (w : World ι) (l : Instance) : Logger :=
  ⟨l.config, l.configPath, l.formatStr, l.timeFormatStr, w.gConfigFormat, w.gConfigTimeFormat⟩

/-- `log_config_load_into` on the logger `l`: its result, the logger, and the static buffers. -/
def load (w : World ι) (files : Text → Entry) (path : PathArg) (l : Instance) :
    ℤ × Instance × World ι :=
  let r := logConfigLoadInto files path (w.view l)
  (r.1, ⟨r.2.config, r.2.configPath, r.2.formatStr, r.2.timeFormatStr, l.initialized⟩,
    { w with gConfigFormat := r.2.gConfigFormat, gConfigTimeFormat := r.2.gConfigTimeFormat })

/-- The text behind `config.format`. -/
def formatText (w : World ι) (l : Instance) : Option Text :=
  match l.config.format with
  | .null => none
  | .own => some l.formatStr
  | .global => some w.gConfigFormat

/-- The text behind `config.time_format`. -/
def timeFormatText (w : World ι) (l : Instance) : Option Text :=
  match l.config.timeFormat with
  | .null => none
  | .own => some l.timeFormatStr
  | .global => some w.gConfigTimeFormat

end World

/-- `logger_config_set`. -/
def loggerConfigSet (cfg : ConfigArg) (l : Instance) : Instance :=
  { l with
    config :=
      { cfg.fields with
        format := if cfg.format.isSome then .own else .null
        timeFormat := if cfg.timeFormat.isSome then .own else .null }
    formatStr := (cfg.format.map (cut maxFormatSize)).getD l.formatStr
    timeFormatStr := (cfg.timeFormat.map (cut 64)).getD l.timeFormatStr }

/-- `apply_config`: `format_type` is not copied, and of the plugins only the counted ones. -/
def applyConfig (cfg : ConfigArg) (l : Instance) : Instance :=
  { l with
    config :=
      { cfg.fields with
        formatType := l.config.formatType
        filePath := cut maxPathSize cfg.fields.filePath
        socketHost := cut maxPathSize cfg.fields.socketHost
        socketTlsCaFile := cut maxPathSize cfg.fields.socketTlsCaFile
        pluginSoPaths := fun i =>
          if (i.val : ℤ) < cfg.fields.pluginCount then cut maxPathSize (cfg.fields.pluginSoPaths i)
          else l.config.pluginSoPaths i
        pluginParamsJson := fun i =>
          if (i.val : ℤ) < cfg.fields.pluginCount then
            cut maxPluginConfigSize (cfg.fields.pluginParamsJson i)
          else l.config.pluginParamsJson i
        format := if cfg.format.isSome then .own else l.config.format
        timeFormat := if cfg.timeFormat.isSome then .own else l.config.timeFormat }
    formatStr := (cfg.format.map (cut maxFormatSize)).getD l.formatStr
    timeFormatStr := (cfg.timeFormat.map (cut 64)).getD l.timeFormatStr }

/-- A call; `ready` says whether what follows the load succeeds. -/
inductive Call (ι : Type*)
  | loggerCreate (i : ι) (files : Text → Entry) (path : PathArg) (ready : Bool)
  | logInit (files : Text → Entry) (path : PathArg) (ready : Bool)
  | reload (n : Name ι) (files : Text → Entry)
  | loggerConfigSet (n : Name ι) (cfg : ConfigArg)
  | logConfigSet (cfg : ConfigArg)

/-- The logger a call works on. -/
def Call.owner : Call ι → Name ι
  | .loggerCreate i .. => .created i
  | .logInit .. => .default
  | .reload n _ => n
  | .loggerConfigSet n _ => n
  | .logConfigSet _ => .default

/-- One call.  `logger_create` returns a pointer that no live logger has, and frees it again if it
fails; `log_reload` is the reload of the default logger. -/
def callStep (w : World ι) : Call ι → Option (World ι)
  | .loggerCreate i files path ready =>
    if (w.created i).isSome then none
    else
      let r := w.load files path zeroInstance
      if r.1 = 0 ∧ ready = true then
        some (r.2.2.set (.created i) { r.2.1 with initialized := true })
      else some r.2.2
  | .logInit files path ready =>
    if w.gDefaultLogger.initialized then some w
    else
      let r := w.load files path w.gDefaultLogger
      some (r.2.2.set .default { r.2.1 with initialized := decide (r.1 = 0 ∧ ready = true) })
  | .reload n files =>
    (w.logger n).map fun l =>
      if l.initialized then
        let r := w.load files .own l
        r.2.2.set n r.2.1
      else w
  | .loggerConfigSet n cfg => (w.logger n).map fun l => w.set n (loggerConfigSet cfg l)
  | .logConfigSet cfg => some (w.set .default (applyConfig cfg w.gDefaultLogger))

/-- A reload changes the configuration by its load alone. -/
theorem reload_toLogger {σ δ ω : Type*} (env : Env σ δ ω) (s : State σ δ ω) :
    (loggerReload env s).2.toLogger =
      if s.initialized = true then (logConfigLoadInto env.files .own s.toLogger).2
      else s.toLogger := by
  cases hinit : s.initialized with
  | false => simp [loggerReload, hinit]
  | true =>
    simp only [loggerReload, hinit, Bool.true_eq_false, if_false, if_true]
    split_ifs with hret
    · rfl
    · simp only [State.rebuild]
      cases buildSnapshot env (logConfigLoadInto env.files .own s.toLogger).2.config with
      | none => rfl
      | some sinks =>
        simp only [State.commit]
        split_ifs <;> rfl

/-! ### What a file leaves in the static buffers -/

/-- The text of a setting of handler `h`. -/
def Setting.textOf (h : Handler) : Setting → Option Text
  | .value h' v => if h' = h then some v else none
  | .plugin .. => none

/-- The last text that the settings give to `h`. -/
def lastText (h : Handler) (ss : List Setting) : Option Text :=
  (ss.filterMap (Setting.textOf h)).getLast?

/-- A buffer of `n` bytes that only the handler `h` writes, with every text it gets. -/
structure Holds (buf : Target → Text) (h : Handler) (n : ℕ) : Prop where
  write : ∀ v, ∃ f, h.write v = some f ∧ ∀ t, buf (f t) = cut n v
  others : ∀ h' v f t, h' ≠ h → h'.write v = some f → buf (f t) = buf t
  plugin : ∀ i path json p, buf ((Setting.plugin i path json).apply p).target = buf p.target

theorem holds_format : Holds Target.gConfigFormat .format 512 where
  write v := ⟨_, rfl, fun _ => rfl⟩
  others h' v f t hne hf := by
    cases h' <;>
      simp only [Handler.write, Option.some.injEq, Option.map_eq_some_iff] at hf <;>
      first
      | (subst hf; rfl)
      | (obtain ⟨n, -, rfl⟩ := hf; rfl)
      | exact absurd rfl hne
  plugin _ _ _ _ := rfl

theorem holds_timeFormat : Holds Target.gConfigTimeFormat .timeFormat 64 where
  write v := ⟨_, rfl, fun _ => rfl⟩
  others h' v f t hne hf := by
    cases h' <;>
      simp only [Handler.write, Option.some.injEq, Option.map_eq_some_iff] at hf <;>
      first
      | (subst hf; rfl)
      | (obtain ⟨n, -, rfl⟩ := hf; rfl)
      | exact absurd rfl hne
  plugin _ _ _ _ := rfl

/-- **A buffer holds the last text of its setting,** or what it held before. -/
theorem Holds.foldl {buf : Target → Text} {h : Handler} {n : ℕ} (hb : Holds buf h n)
    (ss : List Setting) (p : Parsed) :
    buf (ss.foldl Setting.apply p).target = ((lastText h ss).map (cut n)).getD (buf p.target) := by
  induction ss using List.reverseRecOn with
  | nil => rfl
  | append_singleton ss s ih =>
    rw [List.foldl_append, List.foldl_cons, List.foldl_nil, lastText, List.filterMap_append]
    -- a setting of another handler
    have hskip (hs : s.textOf h = none)
        (hkeep : buf (s.apply (ss.foldl Setting.apply p)).target =
          buf (ss.foldl Setting.apply p).target) :
        buf (s.apply (ss.foldl Setting.apply p)).target =
          ((ss.filterMap (Setting.textOf h) ++ [s].filterMap (Setting.textOf h)).getLast?.map
            (cut n)).getD (buf p.target) := by
      rw [hkeep, ih, List.filterMap_cons_none hs, List.filterMap_nil, List.append_nil]
      rfl
    cases s with
    | plugin i path json => exact hskip rfl (hb.plugin i path json _)
    | value h' v =>
      by_cases heq : h' = h
      · subst heq
        obtain ⟨f, hf, hbuf⟩ := hb.write v
        have htext : (Setting.value h' v).textOf h' = some v := if_pos rfl
        rw [Setting.apply, hf, List.filterMap_cons_some htext, List.filterMap_nil,
          List.getLast?_concat]
        exact hbuf _
      · refine hskip (if_neg heq) ?_
        rw [Setting.apply]
        cases hw : h'.write v with
        | none => rfl
        | some f => exact hb.others h' v f _ heq hw

/-- The entry that a load reads. -/
def Logger.entryFor (L : Logger) (files : Text → Entry) (path : PathArg) : Entry :=
  if (L.prepare path).configPath = [] then .unreadable else files (L.prepare path).configPath

theorem load_eq (L : Logger) (files : Text → Entry) (path : PathArg) :
    logConfigLoadInto files path L = (L.prepare path).loadFrom (L.entryFor files path) := by
  rw [logConfigLoadInto, Logger.entryFor]
  split_ifs <;> rfl

/-- **What a load leaves in the static buffers:** the last texts of its file, whether the file is
accepted or not. -/
theorem load_buffers (L : Logger) (files : Text → Entry) (path : PathArg) :
    (logConfigLoadInto files path L).2.gConfigFormat =
        ((lastText .format (L.entryFor files path).settings).map (cut 512)).getD L.gConfigFormat ∧
      (logConfigLoadInto files path L).2.gConfigTimeFormat =
        ((lastText .timeFormat (L.entryFor files path).settings).map (cut 64)).getD
          L.gConfigTimeFormat := by
  rw [load_eq]
  cases L.entryFor files path with
  | unreadable => exact ⟨rfl, rfl⟩
  | file f =>
    have htarget := (parseConfigFile_entry f (L.prepare path).target).1
    have hformat := holds_format.foldl (Entry.file f).settings ⟨(L.prepare path).target, false⟩
    have htime := holds_timeFormat.foldl (Entry.file f).settings ⟨(L.prepare path).target, false⟩
    rw [← htarget] at hformat htime
    rw [Logger.loadFrom]
    split_ifs <;> exact ⟨hformat, htime⟩

/-- An accepted load leaves the logger with its own strings. -/
theorem load_own_strings {L : Logger} {files : Text → Entry} {path : PathArg}
    (h : (logConfigLoadInto files path L).1 = 0) :
    (logConfigLoadInto files path L).2.config.format = .own ∧
      (logConfigLoadInto files path L).2.config.timeFormat = .own := by
  rw [load_eq] at h ⊢
  cases he : L.entryFor files path with
  | unreadable => exact ⟨rfl, rfl⟩
  | file f =>
    rw [he, Logger.loadFrom] at h
    rw [Logger.loadFrom]
    split_ifs at h ⊢ with hret
    · exact absurd h hret
    · exact ⟨rfl, rfl⟩

/-! ### Calls on other loggers -/

/-- The settings of the file that a call parses, none if it parses no file. -/
def Call.settings (w : World ι) : Call ι → List Setting
  | .loggerCreate _ files path _ => ((w.view zeroInstance).entryFor files path).settings
  | .logInit files path _ =>
    if w.gDefaultLogger.initialized then []
    else ((w.view w.gDefaultLogger).entryFor files path).settings
  | .reload n files =>
    match w.logger n with
    | some l => if l.initialized then ((w.view l).entryFor files .own).settings else []
    | none => []
  | .loggerConfigSet .. | .logConfigSet _ => []

namespace World

theorem logger_set_of_ne {w : World ι} {n m : Name ι} (h : n ≠ m) (l : Instance) :
    (w.set m l).logger n = w.logger n := by
  cases n with
  | default =>
    cases m with
    | default => exact absurd rfl h
    | created j => rfl
  | created i =>
    cases m with
    | default => rfl
    | created j => exact Function.update_of_ne (fun hij => h (congrArg _ hij)) ..

theorem logger_set_self (w : World ι) (n : Name ι) (l : Instance) :
    (w.set n l).logger n = some l := by
  cases n with
  | default => rfl
  | created i => exact Function.update_self ..

theorem buffers_set (w : World ι) (n : Name ι) (l : Instance) :
    (w.set n l).gConfigFormat = w.gConfigFormat ∧
      (w.set n l).gConfigTimeFormat = w.gConfigTimeFormat := by
  cases n <;> exact ⟨rfl, rfl⟩

omit [DecidableEq ι] in
theorem logger_load (w : World ι) (files : Text → Entry) (path : PathArg) (l : Instance) :
    (w.load files path l).2.2.logger = w.logger := by
  funext n
  cases n <;> rfl

end World

/-- The effect of a call outside its own logger: `ss` are the settings it parses. -/
structure Outside (w w' : World ι) (owner : Name ι) (ss : List Setting) : Prop where
  loggers : ∀ n ≠ owner, w'.logger n = w.logger n
  format : w'.gConfigFormat = ((lastText .format ss).map (cut 512)).getD w.gConfigFormat
  timeFormat : w'.gConfigTimeFormat =
    ((lastText .timeFormat ss).map (cut 64)).getD w.gConfigTimeFormat

omit [DecidableEq ι] in
theorem Outside.of_load (w : World ι) (files : Text → Entry) (path : PathArg) (l : Instance)
    (owner : Name ι) :
    Outside w (w.load files path l).2.2 owner ((w.view l).entryFor files path).settings where
  loggers n _ := congrFun (w.logger_load files path l) n
  format := (load_buffers (w.view l) files path).1
  timeFormat := (load_buffers (w.view l) files path).2

/-- The call may write its own logger. -/
theorem Outside.set {w w' : World ι} {owner : Name ι} {ss : List Setting}
    (h : Outside w w' owner ss) (l : Instance) : Outside w (w'.set owner l) owner ss where
  loggers n hn := (World.logger_set_of_ne hn l).trans (h.loggers n hn)
  format := (w'.buffers_set owner l).1.trans h.format
  timeFormat := (w'.buffers_set owner l).2.trans h.timeFormat

omit [DecidableEq ι] in
theorem Outside.refl (w : World ι) (owner : Name ι) : Outside w w owner [] :=
  ⟨fun _ _ => rfl, rfl, rfl⟩

/-- **What a call does outside its own logger:** it leaves the texts of its file in the static
buffers. -/
theorem callStep_outside {w w' : World ι} {c : Call ι} (h : callStep w c = some w') :
    Outside w w' c.owner (c.settings w) := by
  cases c with
  | loggerCreate i files path ready =>
    simp only [callStep] at h
    split_ifs at h <;> cases h
    · exact (Outside.of_load w files path zeroInstance _).set _
    · exact .of_load w files path zeroInstance _
  | logInit files path ready =>
    rw [callStep] at h
    rw [Call.settings]
    split_ifs at h ⊢ with hinit <;> cases h
    · exact .refl w _
    · exact (Outside.of_load w files path _ _).set _
  | reload n files =>
    obtain ⟨l, hl, rfl⟩ := Option.map_eq_some_iff.1 h
    simp only [Call.settings, hl]
    split_ifs
    · exact (Outside.of_load w files .own l _).set _
    · exact .refl w _
  | loggerConfigSet n cfg =>
    obtain ⟨l, -, rfl⟩ := Option.map_eq_some_iff.1 h
    exact (Outside.refl w _).set _
  | logConfigSet cfg =>
    cases h
    exact (Outside.refl w _).set _

/-- No logger but `owner` has changed, nor the texts behind its configuration. -/
def Isolated (w w' : World ι) (owner : Name ι) : Prop :=
  ∀ n ≠ owner, w'.logger n = w.logger n ∧ ∀ l, w.logger n = some l →
    w'.formatText l = w.formatText l ∧ w'.timeFormatText l = w.timeFormatText l

/-- Wherever another logger reads a static buffer, the file of the call gives no text for that
buffer, or the one that is there. -/
def Spares (w : World ι) (c : Call ι) : Prop :=
  ∀ n ≠ c.owner, ∀ l, w.logger n = some l →
    (l.config.format = .global →
      ∀ v, lastText .format (c.settings w) = some v → cut 512 v = w.gConfigFormat) ∧
    (l.config.timeFormat = .global →
      ∀ v, lastText .timeFormat (c.settings w) = some v → cut 64 v = w.gConfigTimeFormat)

/-- A buffer is kept by a text that was there, or by none. -/
theorem getD_map_eq_iff {o : Option Text} {f : Text → Text} {b : Text} :
    (o.map f).getD b = b ↔ ∀ v, o = some v → f v = b := by
  cases o <;> simp

omit [DecidableEq ι] in
theorem formatText_eq_iff {w w' : World ι} (l : Instance) :
    w'.formatText l = w.formatText l ↔
      (l.config.format = .global → w'.gConfigFormat = w.gConfigFormat) := by
  simp only [World.formatText]
  cases l.config.format <;> simp

omit [DecidableEq ι] in
theorem timeFormatText_eq_iff {w w' : World ι} (l : Instance) :
    w'.timeFormatText l = w.timeFormatText l ↔
      (l.config.timeFormat = .global → w'.gConfigTimeFormat = w.gConfigTimeFormat) := by
  simp only [World.timeFormatText]
  cases l.config.timeFormat <;> simp

/-- **A call leaves every other logger alone exactly if it spares the static buffers that others
read.**  For every world, so at every place of every sequence of calls. -/
theorem isolated_iff {w w' : World ι} {c : Call ι} (h : callStep w c = some w') :
    Isolated w w' c.owner ↔ Spares w c := by
  have hout := callStep_outside h
  refine forall_congr' fun n => forall_congr' fun hn => ?_
  rw [and_iff_right (hout.loggers n hn)]
  refine forall_congr' fun l => forall_congr' fun _ => ?_
  rw [formatText_eq_iff, timeFormatText_eq_iff, hout.format, hout.timeFormat, getD_map_eq_iff,
    getD_map_eq_iff]

/-- The events of a file with a format, and a level that may not exist. -/
def formatAndLevel (format level : String) : List Event :=
  documentEvents (.map [(.scalar (str "log"), .map
    [(.scalar (str "format"), .scalar (str format)), (.scalar (str "level"), .scalar (str level))])])

/-- The calls that put two loggers into one buffer: both are created, and the first is reloaded
from a file that is rejected behind its format. -/
def twoLoggers : List (Call Bool) :=
  [.loggerCreate false (fun _ => .unreadable) (.text (str "a.yaml")) true,
    .loggerCreate true (fun _ => .unreadable) (.text (str "b.yaml")) true,
    .reload (.created false) fun _ => .file (.events (formatAndLevel "first" "LOUD"))]

/-- A reload of the second logger from `es`, after them. -/
def reloadSecond (es : List Event) : Call Bool := .reload (.created true) fun _ => .file (.events es)

/-- A file without a format spares the first logger, although that one reads the static buffer. -/
theorem isolated_level_only : ∃ w w' : World Bool,
    Machine.run callStep .init twoLoggers = some w ∧ callStep w (reloadSecond withoutPlugin) = some w' ∧
      (w.created false).map w.formatText = some (some (str "first")) ∧
      Isolated w w' (.created true) := by
  obtain ⟨w, hw, hfirst⟩ := Option.map_eq_some_iff.1 (by decide +kernel :
    (Machine.run callStep (.init : World Bool) twoLoggers).map
      (fun w => (w.created false).map w.formatText) = some (some (some (str "first"))))
  obtain ⟨w', hw'⟩ := Option.isSome_iff_exists.1 (by decide +kernel :
    ((Machine.run callStep (.init : World Bool) twoLoggers).bind
      (callStep · (reloadSecond withoutPlugin))).isSome = true)
  rw [hw, Option.bind_some] at hw'
  refine ⟨w, w', hw, hw', hfirst, (isolated_iff hw').2 fun n _ l _ => ?_⟩
  have hnone : lastText .format ((reloadSecond withoutPlugin).settings w) = none ∧
      lastText .timeFormat ((reloadSecond withoutPlugin).settings w) = none := by
    rw [reloadSecond, Call.settings]
    split
    case h_1 l _ =>
      rw [Logger.entryFor]
      split_ifs <;> exact ⟨rfl, rfl⟩
    case h_2 => exact ⟨rfl, rfl⟩
  rw [hnone.1, hnone.2]
  exact ⟨fun _ v h => absurd h.symm (Option.some_ne_none v),
    fun _ v h => absurd h.symm (Option.some_ne_none v)⟩

/-- **The format of one logger is overwritten by the reload of another:** the text behind the
first logger's `config.format` is `first` before and `second` after. -/
theorem format_overwritten :
    let textOfFirst := fun calls : List (Call Bool) =>
      (Machine.run callStep .init calls).map fun w => (w.created false).map w.formatText
    textOfFirst twoLoggers = some (some (some (str "first"))) ∧
      textOfFirst (twoLoggers ++ [reloadSecond (formatAndLevel "second" "WARN")]) =
        some (some (some (str "second"))) := by
  decide +kernel

/-! ### Runs without a rejected file -/

/-- No file is rejected on a logger that stays: `logger_create` frees a logger that fails. -/
def Accepts (w : World ι) : Call ι → Prop
  | .logInit files path _ =>
    w.gDefaultLogger.initialized = false → (w.load files path w.gDefaultLogger).1 = 0
  | .reload n files => ∀ l, w.logger n = some l → l.initialized = true →
      (w.load files .own l).1 = 0
  | _ => True

/-- The logger does not point at the static buffers. -/
def Instance.Apart (l : Instance) : Prop :=
  l.config.format ≠ .global ∧ l.config.timeFormat ≠ .global

theorem Instance.Apart.of_config {l l' : Instance} (h : l.Apart) (hc : l'.config = l.config) :
    l'.Apart := by
  rw [Apart, hc]
  exact h

theorem Instance.apart_loggerConfigSet (cfg : ConfigArg) (l : Instance) :
    (loggerConfigSet cfg l).Apart := by
  simp only [Apart, loggerConfigSet]
  constructor <;> split_ifs <;> exact Pointer.noConfusion

theorem Instance.Apart.applyConfig {l : Instance} (h : l.Apart) (cfg : ConfigArg) :
    (applyConfig cfg l).Apart := by
  simp only [Apart, Config.applyConfig]
  constructor <;> split_ifs
  · exact Pointer.noConfusion
  · exact h.1
  · exact Pointer.noConfusion
  · exact h.2

omit [DecidableEq ι] in
theorem apart_of_load {w : World ι} {files : Text → Entry} {path : PathArg} {l : Instance}
    (h : (w.load files path l).1 = 0) : (w.load files path l).2.1.Apart := by
  obtain ⟨hformat, htime⟩ := load_own_strings (L := w.view l) h
  constructor
  · rw [show (w.load files path l).2.1.config.format = .own from hformat]
    exact Pointer.noConfusion
  · rw [show (w.load files path l).2.1.config.timeFormat = .own from htime]
    exact Pointer.noConfusion

/-- **In a run without a rejected file no logger points at the static buffers,** so that every
call spares them. -/
theorem spares_of_accepted {w : World ι} (h : Reach callStep Accepts .init w) (c : Call ι) :
    Spares w c := by
  suffices H : ∀ n l, w.logger n = some l → l.Apart by
    intro n _ l hl
    exact ⟨fun hg => absurd hg (H n l hl).1, fun hg => absurd hg (H n l hl).2⟩
  refine h.invariant (I := fun w => ∀ n l, w.logger n = some l → l.Apart) ?_ ?_
  · intro n l hl
    cases n with
    | default =>
      cases hl
      exact ⟨Pointer.noConfusion, Pointer.noConfusion⟩
    | created i => cases hl
  · intro w c w' hw hok hs n l hl
    have hout := callStep_outside hs
    by_cases hn : n = c.owner
    · subst hn
      -- the logger of the call: as it was, loaded from a file that was accepted, or set
      have hset {w₁ : World ι} {l₁ : Instance}
          (hw₁ : (w₁.set c.owner l₁).logger c.owner = some l) (hl₁ : l₁.Apart) : l.Apart := by
        rw [World.logger_set_self] at hw₁
        exact Option.some.inj hw₁ ▸ hl₁
      cases c with
      | loggerCreate i files path ready =>
        simp only [callStep] at hs
        split_ifs at hs with hlive hready <;> cases hs
        · exact hset hl ((apart_of_load hready.1).of_config rfl)
        · rw [World.logger_load] at hl
          exact hw _ l hl
      | logInit files path ready =>
        simp only [callStep] at hs
        split_ifs at hs with hinit <;> cases hs
        · exact hw _ l hl
        · exact hset hl ((apart_of_load (hok (Bool.eq_false_iff.2 hinit))).of_config rfl)
      | reload m files =>
        obtain ⟨l₀, hl₀, rfl⟩ := Option.map_eq_some_iff.1 hs
        split_ifs at hl with hinit
        · exact hset hl (apart_of_load (hok l₀ hl₀ hinit))
        · exact hw _ l hl
      | loggerConfigSet m cfg =>
        obtain ⟨l₀, -, rfl⟩ := Option.map_eq_some_iff.1 hs
        exact hset hl (Instance.apart_loggerConfigSet cfg l₀)
      | logConfigSet cfg =>
        cases hs
        exact hset hl ((hw .default _ rfl).applyConfig cfg)
    · rw [hout.loggers n hn] at hl
      exact hw n l hl

end Config
end Clogx
