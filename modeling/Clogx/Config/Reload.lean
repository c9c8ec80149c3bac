/-
# `log_reload` and `logger_reload`

A reload loads the remembered file into the live configuration, initialises the
rate limiter from it and builds the new sinks; only then does it touch the
running sinks and the async worker (`core/log.c`, `core/dispatcher.c`,
`core/rate_limit.c`).

When the file is rejected, or no sink can be made, the call returns an error with
the sinks and the worker untouched, but the configuration has been overwritten:
it is the old one only if it already was what the defaults and the accepted
settings of the file give.
-/

import Clogx.Config.Load

namespace Clogx
namespace Config

open CLib Yaml

/-- The results of a reload. -/
inductive Errno
  | ok
  | reload
  | configOpen
  | noSinks
  | threadCreate
deriving DecidableEq

/-- What a sink is made from. -/
inductive SinkSpec
  | console (stderr : Bool) (color : Bool)
  | file (path : Text) (maxSize : ℕ) (backups : ℤ)
  | socket (host : Text) (port : ℤ) (tls : Bool) (caFile : Text) (skipVerify : Bool)
  | socketAsync (host : Text) (port : ℤ) (tls : Bool) (caFile : Text) (skipVerify : Bool)
      (ringCapacity backoffMinMs backoffMaxMs connectTimeoutMs : ℕ)
  | plugin (path json : Text)

/-- The state of the rate limiter; `δ` is `double`. -/
structure RateLimiter (δ : Type*) where
  enabled : Bool
  tokens : δ
  maxTokens : δ
  fillRate : δ
  lastUpdateMs : ℕ
  suppressedCount : ℕ
  totalSuppressed : ℕ
deriving DecidableEq

/-- A logger with its rate limiter, its sinks and the state of its async worker. -/
structure State (σ δ ω : Type*) extends Logger where
  rl : RateLimiter δ
  sinks : List σ
  worker : ω
  initialized : Bool

/-- What a reload finds outside the logger: the files, the clock, the conversions to `double`,
the sink factories and the two calls that stop and start the worker. -/
structure Env (σ δ ω : Type*) where
  files : Text → Entry
  nowMs : ℕ
  toDouble : ℤ → δ
  perMs : ℤ → δ
  make : SinkSpec → Option σ
  shutdown : ω → ω
  start : ℤ → ω → ℤ × ω

variable {σ δ ω : Type*}

/-- `create_sinks_from_cfg`: the sinks a configuration asks for. -/
def createSinksFromCfg (c : LogConfig) : List SinkSpec :=
  (if c.consoleEnable ≠ 0 then [.console (c.consoleStderr ≠ 0) c.color] else []) ++
  (if c.fileEnable ≠ 0 ∧ 0 < c.filePath.length then
    [.file c.filePath c.fileMaxSize c.fileBackups] else []) ++
  (if c.socketEnable ≠ 0 ∧ 0 < c.socketHost.length then
    [if c.socketAsync then
      .socketAsync c.socketHost c.socketPort c.socketTls c.socketTlsCaFile c.socketTlsSkipVerify
        c.socketRingCapacity c.socketBackoffMinMs c.socketBackoffMaxMs c.socketConnectTimeoutMs
    else
      .socket c.socketHost c.socketPort c.socketTls c.socketTlsCaFile c.socketTlsSkipVerify]
  else [])

/-- `log_plugin_create_sinks_from_config`: a plugin without a path is passed over. -/
def pluginSpecs (c : LogConfig) : List SinkSpec :=
  (List.finRange maxPlugins).filterMap fun i =>
    if (i.val : ℤ) < c.pluginCount ∧ c.pluginSoPaths i ≠ [] then
      some (.plugin (c.pluginSoPaths i) (c.pluginParamsJson i))
    else none

/-- `log_dispatcher_build_snapshot_for`: `none` when no sink could be made. -/
def buildSnapshot (env : Env σ δ ω) (c : LogConfig) : Option (List σ) :=
  match (createSinksFromCfg c ++ pluginSpecs c).filterMap env.make with
  | [] => none
  | sinks => some sinks

/-- `log_rate_limit_init_for`. -/
def RateLimiter.init (env : Env σ δ ω) (enable : Bool) (maxPerSec burst : ℤ)
    (r : RateLimiter δ) : RateLimiter δ :=
  if enable ∧ 0 < maxPerSec ∧ 0 < burst then
    { r with
      enabled := true
      maxTokens := env.toDouble burst
      tokens := env.toDouble burst
      fillRate := env.perMs maxPerSec
      lastUpdateMs := env.nowMs
      suppressedCount := 0 }
  else { r with enabled := false }

/-- The end of a reload: stop the worker, swap the sinks, start the worker again. -/
def State.commit (s : State σ δ ω) (env : Env σ δ ω) (sinks : List σ) : Errno × State σ δ ω :=
  let s := { s with worker := env.shutdown s.worker, sinks := sinks }
  if s.config.async then
    let (ret, worker) := env.start s.config.queueSize s.worker
    (if ret ≠ 0 then .threadCreate else .ok, { s with worker := worker })
  else (.ok, s)

/-- The reload after the file was loaded. -/
def State.rebuild (s : State σ δ ω) (env : Env σ δ ω) : Errno × State σ δ ω :=
  let c := s.config
  let s := { s with rl := s.rl.init env c.rateLimitEnable c.rateLimitMaxPerSec c.rateLimitBurst }
  match buildSnapshot env c with
  | none => (.noSinks, s)
  | some sinks => s.commit env sinks

/-- `logger_reload`. -/
def loggerReload (env : Env σ δ ω) (s : State σ δ ω) : Errno × State σ δ ω :=
  if s.initialized = false then (.reload, s)
  else
    let (ret, L) := logConfigLoadInto env.files .own s.toLogger
    let s := { s with toLogger := L }
    if ret ≠ 0 then (.configOpen, s) else s.rebuild env

/-- `log_reload`: the same steps on the default logger. -/
def logReload (env : Env σ δ ω) (gDefaultLogger : State σ δ ω) : Errno × State σ δ ω :=
  loggerReload env gDefaultLogger

/-! ### What a failed reload leaves -/

/-- Nothing a caller can see has changed. -/
def State.Unchanged (s s' : State σ δ ω) : Prop :=
  s'.target.Agree s.target ∧ s'.formatStr = s.formatStr ∧ s'.timeFormatStr = s.timeFormatStr ∧
    s'.rl = s.rl ∧ s'.sinks = s.sinks ∧ s'.worker = s.worker

/-- The settings of a file. -/
def Entry.settings : Entry → List Setting
  | .file (.events es) => ({} : Locals).settings (beforeEnd es)
  | _ => []

/-- The file is there and is not accepted. -/
def Entry.rejected : Entry → Bool
  | .unreadable => false
  | .file .unopenable => true
  | .file (.events es) => rejects es

/-- The entry a reload reads. -/
def State.entry (s : State σ δ ω) (env : Env σ δ ω) : Entry :=
  if s.configPath = [] then .unreadable else env.files s.configPath

/-- The defaults, overridden by the settings of the file. -/
def State.overridden (s : State σ δ ω) (env : Env σ δ ω) : Target :=
  ((s.entry env).settings.foldl Setting.apply
    ⟨⟨s.config.withDefaults, s.gConfigFormat, s.gConfigTimeFormat⟩, false⟩).target

/-- The limiter is disabled if the configuration says so, and full and new otherwise. -/
def RateLimiter.AtStart (env : Env σ δ ω) (c : LogConfig) (r : RateLimiter δ) : Prop :=
  if c.rateLimitEnable ∧ 0 < c.rateLimitMaxPerSec ∧ 0 < c.rateLimitBurst then
    r.enabled = true ∧ r.maxTokens = env.toDouble c.rateLimitBurst ∧
      r.tokens = env.toDouble c.rateLimitBurst ∧ r.fillRate = env.perMs c.rateLimitMaxPerSec ∧
      r.lastUpdateMs = env.nowMs ∧ r.suppressedCount = 0
  else r.enabled = false

theorem RateLimiter.init_eq_self_iff (env : Env σ δ ω) (c : LogConfig) (r : RateLimiter δ) :
    r.init env c.rateLimitEnable c.rateLimitMaxPerSec c.rateLimitBurst = r ↔ r.AtStart env c := by
  obtain ⟨enabled, tokens, maxTokens, fillRate, last, suppressed, total⟩ := r
  rw [init, AtStart]
  split_ifs with h
  · simp only [RateLimiter.mk.injEq]
    tauto
  · simp only [RateLimiter.mk.injEq]
    tauto

/-- **The configuration already is what the file gives.**  After a file that is rejected the
parser's buffers are not copied; after a file that is accepted they are, and the limiter was
started. -/
def State.Settled (s : State σ δ ω) (env : Env σ δ ω) : Prop :=
  let o := s.overridden env
  if (s.entry env).rejected then
    o.Agree s.target ∧ s.formatStr = defaultFormat ∧ s.timeFormatStr = defaultTimeFormat
  else
    s.config = { o.cfg with format := .own, timeFormat := .own } ∧
      s.formatStr =
        cut maxFormatSize (o.cfg.format.text defaultFormat defaultFormat o.gConfigFormat) ∧
      s.timeFormatStr =
        cut 64 (o.cfg.timeFormat.text defaultTimeFormat defaultTimeFormat o.gConfigTimeFormat) ∧
      s.rl.AtStart env s.config

/-- What `parse_config_file` does to the prepared logger. -/
theorem parseConfigFile_entry (f : File) (t : Target) :
    (parseConfigFile f t).target =
        ((Entry.file f).settings.foldl Setting.apply ⟨t, false⟩).target ∧
      ((parseConfigFile f t).ret ≠ 0 ↔ (Entry.file f).rejected) := by
  cases f with
  | unopenable => exact ⟨rfl, by simp [parseConfigFile, Parsed.ret, Entry.rejected]⟩
  | events es =>
    obtain ⟨ht, hh⟩ := parseConfigFile_events es t
    exact ⟨ht, by simp [Parsed.ret, hh, Entry.rejected]⟩

/-- A load of the logger's own path reads its entry into the prepared logger. -/
theorem load_own (env : Env σ δ ω) (s : State σ δ ω) :
    logConfigLoadInto env.files .own s.toLogger =
      (s.toLogger.prepare .own).loadFrom (s.entry env) := by
  have hpath : (s.toLogger.prepare .own).configPath = s.configPath := rfl
  rw [logConfigLoadInto, State.entry, hpath]
  split_ifs <;> rfl

/-- Copying the strings back changes nothing where no file was parsed. -/
theorem adoptFormats_prepare (L : Logger) (path : PathArg) :
    (L.prepare path).adoptFormats = L.prepare path := by
  have hcut : ∀ (n : ℕ) (t : Text), cut n (cut n t) = cut n t := by
    intro n t
    rw [cut, cut, List.take_take, Nat.min_self]
  simp only [Logger.adoptFormats, Logger.prepare, LogConfig.withDefaults, Pointer.text, hcut]

/-- The logger after the load of a file that is rejected. -/
theorem load_of_rejected {env : Env σ δ ω} {s : State σ δ ω}
    (h : (s.entry env).rejected = true) :
    (logConfigLoadInto env.files .own s.toLogger).1 ≠ 0 ∧
      (logConfigLoadInto env.files .own s.toLogger).2 =
        (s.toLogger.prepare .own).setTarget (s.overridden env) := by
  rw [load_own, State.overridden]
  cases he : s.entry env with
  | unreadable =>
    rw [he] at h
    cases h
  | file f =>
    obtain ⟨ht, hr⟩ := parseConfigFile_entry f (s.toLogger.prepare .own).target
    rw [he] at h
    simp only [Logger.loadFrom, if_pos (hr.2 h), ht]
    exact ⟨hr.2 h, rfl⟩

/-- The logger after the load of a file that is accepted, or of none. -/
theorem load_of_accepted {env : Env σ δ ω} {s : State σ δ ω}
    (h : (s.entry env).rejected = false) :
    logConfigLoadInto env.files .own s.toLogger =
      (0, ((s.toLogger.prepare .own).setTarget (s.overridden env)).adoptFormats) := by
  rw [load_own, State.overridden]
  cases he : s.entry env with
  | unreadable => exact Prod.ext rfl (adoptFormats_prepare _ _).symm
  | file f =>
    obtain ⟨ht, hr⟩ := parseConfigFile_entry f (s.toLogger.prepare .own).target
    rw [he] at h
    simp only [Logger.loadFrom, if_neg (mt hr.1 (by rw [h]; simp)), ht]
    rfl

/-- A reload that fails after the load has failed to make a sink, and has started the limiter. -/
theorem reload_of_accepted {env : Env σ δ ω} {s : State σ δ ω} {L : Logger}
    (hinit : s.initialized = true) (hload : logConfigLoadInto env.files .own s.toLogger = (0, L))
    (hfail : (loggerReload env s).1 = .configOpen ∨ (loggerReload env s).1 = .noSinks) :
    (loggerReload env s).2 =
      { s with
        toLogger := L
        rl := s.rl.init env L.config.rateLimitEnable L.config.rateLimitMaxPerSec
          L.config.rateLimitBurst } := by
  have hreload : loggerReload env s = State.rebuild { s with toLogger := L } env := by
    simp [loggerReload, hinit, hload]
  rw [hreload, State.rebuild] at hfail ⊢
  cases hsnap : buildSnapshot env L.config with
  | none => simp only
  | some sinks =>
    simp only [hsnap, State.commit] at hfail
    split_ifs at hfail <;> simp at hfail

/-- **A failed reload leaves the logger unchanged if and only if its configuration already was
what the file gives.**  The sinks and the worker are the same either way. -/
theorem failed_reload_unchanged_iff (env : Env σ δ ω) (s : State σ δ ω)
    (hfail : (loggerReload env s).1 = .configOpen ∨ (loggerReload env s).1 = .noSinks) :
    s.Unchanged (loggerReload env s).2 ↔ s.Settled env := by
  have hinit : s.initialized = true := by
    by_contra hi
    rw [Bool.not_eq_true] at hi
    simp [loggerReload, hi] at hfail
  cases hrej : (s.entry env).rejected with
  | true =>
    obtain ⟨hret, hload⟩ := load_of_rejected hrej
    have hreload : (loggerReload env s).2 =
        { s with toLogger := (s.toLogger.prepare .own).setTarget (s.overridden env) } := by
      simp only [loggerReload, hinit, Bool.true_eq_false, if_false, if_pos hret, hload]
    simp only [hreload, State.Unchanged, State.Settled, hrej, if_true, and_true]
    exact and_congr_right fun _ => and_congr eq_comm eq_comm
  | false =>
    have hreload := reload_of_accepted hinit (load_of_accepted hrej) hfail
    simp only [hreload, State.Unchanged, State.Settled, hrej, Bool.false_eq_true, if_false,
      RateLimiter.init_eq_self_iff, and_true]
    generalize hL : ((s.toLogger.prepare .own).setTarget (s.overridden env)).adoptFormats = L
    constructor
    · rintro ⟨⟨hcfg, -⟩, hfmt, htime, hrl⟩
      have hcfg : L.config = s.config := hcfg
      rw [hcfg] at hrl
      subst hL
      exact ⟨hcfg.symm, hfmt.symm, htime.symm, hrl⟩
    · rintro ⟨hcfg, hfmt, htime, hrl⟩
      have hLs : L.config = s.config := by
        rw [hcfg, ← hL]
        rfl
      rw [hLs]
      subst hL
      exact ⟨⟨hLs, (nomatch ·), (nomatch ·)⟩, hfmt.symm, htime.symm, hrl⟩

/-- The events of `log: {level: LOUD}`, a level there is not. -/
def badLevel : List Event :=
  documentEvents (.map [(.scalar (str "log"), .map
    [(.scalar (str "level"), .scalar (str "LOUD"))])])

/-- The file holds `badLevel`, and every sink can be made. -/
def badLevelEnv : Env Unit ℤ Unit where
  files := fun _ => .file (.events badLevel)
  nowMs := 0
  toDouble := id
  perMs := id
  make := fun _ => some ()
  shutdown := id
  start := fun _ w => (0, w)

/-- A logger that runs at `level` and is otherwise at its defaults. -/
def runningAt (level : Level) : State Unit ℤ Unit where
  config := { (pole false).cfg.withDefaults with level := level }
  configPath := str "c.yaml"
  formatStr := defaultFormat
  timeFormatStr := defaultTimeFormat
  gConfigFormat := []
  gConfigTimeFormat := []
  rl := ⟨false, 0, 0, 0, 0, 0, 0⟩
  sinks := [()]
  worker := ()
  initialized := true

/-- The logger of a failed reload that does stay as it was: it was at the defaults. -/
theorem failed_reload_unchanged_defaults :
    (loggerReload badLevelEnv (runningAt .info)).1 = .configOpen ∧
      (runningAt .info).Unchanged (loggerReload badLevelEnv (runningAt .info)).2 := by
  have hfail : (loggerReload badLevelEnv (runningAt .info)).1 = .configOpen := by decide +kernel
  refine ⟨hfail, (failed_reload_unchanged_iff badLevelEnv (runningAt .info) (.inl hfail)).2 ?_⟩
  have hrej : ((runningAt .info).entry badLevelEnv).rejected = true := by decide +kernel
  have hagree : ((runningAt .info).overridden badLevelEnv).Agree (runningAt .info).target := by
    decide +kernel
  rw [State.Settled, if_pos hrej]
  exact ⟨hagree, rfl, rfl⟩

/-- A logger that ran at `DEBUG` runs at `INFO` after a reload that was refused. -/
theorem failed_reload_resets_level :
    (loggerReload badLevelEnv (runningAt .debug)).1 = .configOpen ∧
      (runningAt .debug).config.level = .debug ∧
      (loggerReload badLevelEnv (runningAt .debug)).2.config.level = .info := by
  decide +kernel

end Config
end Clogx
