/-
# `log_config_load_into`

Loading a configuration writes the defaults over the live `logger->config`, lets
`parse_config_file` write over them, and copies the two format strings into the
buffers of the logger (`core/config.c`).

The defaults are a list of assignments, and six fields of `log_config_t` are not
in it: `format_type`, the two Prometheus fields and the three plugin fields.
They keep what they held before, so what a load leaves behind depends on the
logger's history exactly through them.
-/

import Clogx.Config.Parser

namespace Clogx
namespace Config

open CLib Yaml

/-- The part of `logger_t` a load touches, with the two static buffers of the parser. -/
structure Logger where
  config : LogConfig
  configPath : Text
  formatStr : Text
  timeFormatStr : Text
  gConfigFormat : Text
  gConfigTimeFormat : Text
deriving DecidableEq

/-- The `yaml_path` argument: `NULL`, the logger's own `config_path`, or another text. -/
inductive PathArg
  | null
  | own
  | text (p : Text)

/-- What a path names: nothing `access` can read, or a file. -/
inductive Entry
  | unreadable
  | file (f : File)

/-- `CLOG_MAX_FORMAT_SIZE`. -/
def maxFormatSize : ℕ := 1024

def defaultFormat : Text := str "[%time] [%level] %msg"

def defaultTimeFormat : Text := str "%Y-%m-%d %H:%M:%S"

/-- The assignments of the defaults. -/
def LogConfig.withDefaults (c : LogConfig) : LogConfig :=
  { c with
    level := .info
    async := false
    queueSize := 8192
    color := true
    consoleEnable := 1
    consoleStderr := 0
    fileEnable := 0
    filePath := []
    fileMaxSize := 100 * 1024 * 1024
    fileBackups := 10
    socketEnable := 0
    socketHost := []
    socketPort := 0
    socketTls := false
    socketTlsCaFile := []
    socketTlsSkipVerify := false
    socketAsync := false
    socketRingCapacity := 0
    socketBackoffMinMs := 0
    socketBackoffMaxMs := 0
    socketConnectTimeoutMs := 0
    rateLimitEnable := false
    rateLimitMaxPerSec := 0
    rateLimitBurst := 0
    catchSignals := true
    format := .own
    timeFormat := .own }

/-- The configuration path after the argument was looked at. -/
def Logger.pathFor (L : Logger) : PathArg → Text
  | .null => []
  | .own => L.configPath
  | .text p => if p = [] then [] else cut 512 p

/-- The state before the file is parsed. -/
def Logger.prepare (L : Logger) (path : PathArg) : Logger :=
  { L with
    config := L.config.withDefaults
    formatStr := cut maxFormatSize defaultFormat
    timeFormatStr := cut 64 defaultTimeFormat
    configPath := L.pathFor path }

/-- The configuration and the buffers, as `parse_config_file` is handed them. -/
def Logger.target (L : Logger) : Target := ⟨L.config, L.gConfigFormat, L.gConfigTimeFormat⟩

def Logger.setTarget (L : Logger) (t : Target) : Logger :=
  { L with
    config := t.cfg
    gConfigFormat := t.gConfigFormat
    gConfigTimeFormat := t.gConfigTimeFormat }

/-- The text a format pointer leads to. -/
def Pointer.text (p : Pointer) (null own global : Text) : Text :=
  match p with
  | .null => null
  | .own => own
  | .global => global

/-- The format strings are copied back into the logger. -/
def Logger.adoptFormats (L : Logger) : Logger :=
  { L with
    formatStr := cut maxFormatSize (L.config.format.text defaultFormat L.formatStr L.gConfigFormat)
    timeFormatStr :=
      cut 64 (L.config.timeFormat.text defaultTimeFormat L.timeFormatStr L.gConfigTimeFormat)
    config.format := .own
    config.timeFormat := .own }

/-- The file is parsed into the live configuration. -/
def Logger.loadFrom (L : Logger) : Entry → ℤ × Logger
  | .unreadable => (0, L)
  | .file f =>
    let p := parseConfigFile f L.target
    if p.ret ≠ 0 then (p.ret, L.setTarget p.target)
    else (0, (L.setTarget p.target).adoptFormats)

/-- `log_config_load_into`: the return value and the logger afterwards. -/
def logConfigLoadInto (files : Text → Entry) (path : PathArg) (L : Logger) : ℤ × Logger :=
  let L := L.prepare path
  if L.configPath = [] then (0, L) else L.loadFrom (files L.configPath)

/-! ### What a load forgets -/

/-- The fields the defaults do not write. -/
def Logger.carried (L : Logger) :
    FormatType × Bool × ℤ × (Fin maxPlugins → Text) × (Fin maxPlugins → Text) × ℤ :=
  (L.config.formatType, L.config.prometheusEnable, L.config.prometheusPort,
    L.config.pluginSoPaths, L.config.pluginParamsJson, L.config.pluginCount)

/-- The same configuration, and the same format strings behind it. -/
def Logger.Same (L M : Logger) : Prop :=
  L.config = M.config ∧ L.formatStr = M.formatStr ∧ L.timeFormatStr = M.timeFormatStr

instance (L M : Logger) : Decidable (L.Same M) := inferInstanceAs (Decidable (_ ∧ _))

/-- Two targets a reader of the configuration cannot tell apart: a static buffer counts only
while the configuration points to it. -/
def Target.Agree (t u : Target) : Prop :=
  t.cfg = u.cfg ∧ (t.cfg.format = .global → t.gConfigFormat = u.gConfigFormat) ∧
    (t.cfg.timeFormat = .global → t.gConfigTimeFormat = u.gConfigTimeFormat)

instance (t u : Target) : Decidable (t.Agree u) := inferInstanceAs (Decidable (_ ∧ _ ∧ _))

theorem Handler.agree_write {h : Handler} {v : Text} {f : Target → Target}
    (hf : h.write v = some f) {t u : Target} (htu : t.Agree u) : (f t).Agree (f u) := by
  obtain ⟨hc, hfmt, htime⟩ := htu
  cases h <;>
    simp only [Handler.write, Option.some.injEq, Option.map_eq_some_iff] at hf <;>
    first
    | (subst hf; simp_all [Target.Agree])
    | (obtain ⟨n, -, rfl⟩ := hf; simp_all [Target.Agree])

/-- A setting takes targets that agree to targets that agree, and is rejected in both or in
neither. -/
theorem Setting.agree_apply (s : Setting) {p q : Parsed} (h : p.target.Agree q.target)
    (he : p.hasErrors = q.hasErrors) :
    (s.apply p).target.Agree (s.apply q).target ∧ (s.apply p).hasErrors = (s.apply q).hasErrors := by
  cases s with
  | value k v =>
    cases hw : k.write v with
    | none =>
      simp only [Setting.apply, hw]
      exact ⟨h, trivial⟩
    | some f =>
      simp only [Setting.apply, hw]
      exact ⟨Handler.agree_write hw h, he⟩
  | plugin i path json =>
    obtain ⟨hc, hfmt, htime⟩ := h
    simp only [Setting.apply]
    exact ⟨⟨by simp only [hc], hfmt, htime⟩, he⟩

/-- The parser keeps the agreement through a whole file. -/
theorem parseLoop_agree (es : List Event) : ∀ (l : Locals) {p q : Parsed},
    p.target.Agree q.target → p.hasErrors = q.hasErrors →
      (parseLoop l p es).target.Agree (parseLoop l q es).target ∧
        (parseLoop l p es).hasErrors = (parseLoop l q es).hasErrors := by
  induction es with
  | nil => exact fun _ _ _ h _ => ⟨h, rfl⟩
  | cons e es ih =>
    intro l p q h he
    have hstep : ∀ s : Option Setting, (p.applyOption s).target.Agree (q.applyOption s).target ∧
        (p.applyOption s).hasErrors = (q.applyOption s).hasErrors := by
      rintro (_ | s)
      · exact ⟨h, he⟩
      · exact s.agree_apply h he
    cases e with
    | streamEnd => exact ⟨h, he⟩
    | _ => exact ih _ (hstep _).1 (hstep _).2

/-- Parsing keeps two targets in agreement. -/
theorem parseConfigFile_agree (f : File) {t u : Target} (h : t.Agree u) :
    (parseConfigFile f t).target.Agree (parseConfigFile f u).target ∧
      (parseConfigFile f t).ret = (parseConfigFile f u).ret := by
  cases f with
  | unopenable => exact ⟨h, rfl⟩
  | events es =>
    obtain ⟨ha, he⟩ := parseLoop_agree es {} (p := ⟨t, false⟩) (q := ⟨u, false⟩) h rfl
    exact ⟨ha, by rw [parseConfigFile, parseConfigFile, Parsed.ret, Parsed.ret, he]⟩

/-- The defaults leave the carried fields, and nothing else, of the old configuration. -/
theorem withDefaults_eq_of_carried {L M : Logger} (h : L.carried = M.carried) :
    L.config.withDefaults = M.config.withDefaults := by
  simp only [Logger.carried, Prod.mk.injEq] at h
  obtain ⟨h1, h2, h3, h4, h5, h6⟩ := h
  simp only [LogConfig.withDefaults, h1, h2, h3, h4, h5, h6]

/-- Targets that agree give the same strings. -/
theorem Target.Agree.text_eq {t u : Target} (h : t.Agree u) (null own : Text) :
    t.cfg.format.text null own t.gConfigFormat = u.cfg.format.text null own u.gConfigFormat ∧
      t.cfg.timeFormat.text null own t.gConfigTimeFormat =
        u.cfg.timeFormat.text null own u.gConfigTimeFormat := by
  obtain ⟨hc, hfmt, htime⟩ := h
  rw [← hc]
  constructor
  · cases hp : t.cfg.format with
    | global => exact hfmt hp
    | _ => rfl
  · cases hp : t.cfg.timeFormat with
    | global => exact htime hp
    | _ => rfl

/-- Loggers a reader of the configuration cannot tell apart load a file in the same way. -/
theorem Logger.same_loadFrom {L M : Logger} (ht : L.target.Agree M.target)
    (hf : L.formatStr = M.formatStr) (htf : L.timeFormatStr = M.timeFormatStr) (e : Entry)
    (h0 : (L.loadFrom e).1 = 0) :
    (M.loadFrom e).1 = 0 ∧ (L.loadFrom e).2.Same (M.loadFrom e).2 := by
  cases e with
  | unreadable => exact ⟨rfl, ht.1, hf, htf⟩
  | file f =>
    obtain ⟨ha, hret⟩ := parseConfigFile_agree f ht
    simp only [loadFrom, ← hret] at h0 ⊢
    split_ifs at h0 ⊢ with hr
    · exact absurd h0 hr
    · obtain ⟨hfmt, -⟩ := ha.text_eq defaultFormat M.formatStr
      obtain ⟨-, htime⟩ := ha.text_eq defaultTimeFormat M.timeFormatStr
      refine ⟨rfl, ?_, ?_, ?_⟩
      · simp only [adoptFormats, setTarget, ha.1]
      · simp only [adoptFormats, setTarget, hf, hfmt]
      · simp only [adoptFormats, setTarget, htf, htime]

/-- **A load forgets the history of the logger exactly as far as the carried fields agree:** two
loggers end up with the same configuration and format strings, from every file, if and only if
the six fields that have no default were the same in both before. -/
theorem load_forgets_iff_carried (L M : Logger) :
    (∀ files path, (path = PathArg.own → L.configPath = M.configPath) →
      (logConfigLoadInto files path L).1 = 0 →
        (logConfigLoadInto files path M).1 = 0 ∧
          (logConfigLoadInto files path L).2.Same (logConfigLoadInto files path M).2) ↔
      L.carried = M.carried := by
  constructor
  · intro h
    -- without a file what is left is the defaults over the old configuration
    obtain ⟨-, hcfg, -⟩ := h (fun _ => .unreadable) .null (fun hp => nomatch hp) rfl
    have hd : L.config.withDefaults = M.config.withDefaults := hcfg
    simp only [LogConfig.withDefaults, LogConfig.mk.injEq] at hd
    simp only [Logger.carried, hd]
  · intro h files path hown
    have hpath : L.pathFor path = M.pathFor path := by
      cases path with
      | own => exact hown rfl
      | _ => rfl
    have hagree : (L.prepare path).target.Agree (M.prepare path).target :=
      ⟨withDefaults_eq_of_carried h, (nomatch ·), (nomatch ·)⟩
    have hsame : (L.prepare path).configPath = (M.prepare path).configPath := hpath
    simp only [logConfigLoadInto, hsame]
    split_ifs with hp
    · exact fun _ => ⟨rfl, hagree.1, rfl, rfl⟩
    · exact Logger.same_loadFrom hagree rfl rfl _

/-- A logger that never loaded anything. -/
def freshLogger : Logger where
  config := (pole false).cfg
  configPath := []
  formatStr := []
  timeFormatStr := []
  gConfigFormat := []
  gConfigTimeFormat := []

/-- The events of `log: {plugins: [{path: p.so}]}`. -/
def withPlugin : List Event :=
  documentEvents (.map [(.scalar (str "log"), .map
    [(.scalar (str "plugins"), .seq [.map [(.scalar (str "path"), .scalar (str "p.so"))]])])])

/-- The events of `log: {level: WARN}`. -/
def withoutPlugin : List Event :=
  documentEvents (.map [(.scalar (str "log"), .map
    [(.scalar (str "level"), .scalar (str "WARN"))])])

/-- A plugin survives the removal of its section: the file without it is loaded over a logger
that had loaded the file with it, and over a fresh one. -/
theorem plugin_survives_reload :
    let load := fun es => logConfigLoadInto (fun _ => .file (.events es)) (.text (str "c.yaml"))
    (load withoutPlugin (load withPlugin freshLogger).2).1 = 0 ∧
      (load withoutPlugin freshLogger).1 = 0 ∧
      (load withoutPlugin (load withPlugin freshLogger).2).2.config.pluginCount = 1 ∧
      (load withoutPlugin freshLogger).2.config.pluginCount = 0 := by
  decide +kernel

end Config
end Clogx
