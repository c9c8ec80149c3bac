/-
# Settings of the configuration file

`log_config_t`, the sorted key table `g_config_keys` and the handler switch of
`parse_config_file` in `core/config.c`.

A handler gets the text of a value and either writes fields of the configuration
or reports the value and sets `has_errors`.  `Handler.write` is that switch; the
two buffers `format` and `time_format` are copied to, `g_config_format` and
`g_config_time_format`, are static and belong to the state it writes.
-/

import Clogx.CLib.Text

namespace Clogx
namespace Config

open CLib

/-- `log_level_t`. -/
inductive Level
  | trace
  | debug
  | info
  | warn
  | error
  | fatal
deriving DecidableEq

/-- `log_format_type_t`. -/
inductive FormatType
  | text
  | json
  | otelJson
deriving DecidableEq

/-- Where `format` or `time_format` points: nowhere, to the buffer of the logger
(`format_str`, `time_format_str`), or to the static buffer of the parser. -/
inductive Pointer
  | null
  | own
  | global
deriving DecidableEq

/-- `CLOG_MAX_PATH_SIZE`. -/
def maxPathSize : ℕ := 512

/-- `CLOG_MAX_PLUGINS`. -/
def maxPlugins : ℕ := 8

/-- `CLOG_MAX_PLUGIN_CONFIG_SIZE`. -/
def maxPluginConfigSize : ℕ := 4096

/-- `log_config_t`. -/
structure LogConfig where
  level : Level
  async : Bool
  queueSize : ℤ
  color : Bool
  formatType : FormatType
  format : Pointer
  timeFormat : Pointer
  consoleEnable : ℤ
  consoleStderr : ℤ
  fileEnable : ℤ
  filePath : Text
  fileMaxSize : ℕ
  fileBackups : ℤ
  socketEnable : ℤ
  socketHost : Text
  socketPort : ℤ
  socketTls : Bool
  socketTlsCaFile : Text
  socketTlsSkipVerify : Bool
  socketAsync : Bool
  socketRingCapacity : ℕ
  socketBackoffMinMs : ℕ
  socketBackoffMaxMs : ℕ
  socketConnectTimeoutMs : ℕ
  rateLimitEnable : Bool
  rateLimitMaxPerSec : ℤ
  rateLimitBurst : ℤ
  catchSignals : Bool
  prometheusEnable : Bool
  prometheusPort : ℤ
  pluginSoPaths : Fin maxPlugins → Text
  pluginParamsJson : Fin maxPlugins → Text
  pluginCount : ℤ
deriving DecidableEq

/-- What the parser writes: the configuration and the buffers its two pointers may be set to. -/
structure Target where
  cfg : LogConfig
  gConfigFormat : Text
  gConfigTimeFormat : Text
deriving DecidableEq

/-- `config_handler_t`. -/
inductive Handler
  | async
  | backup
  | catchSignals
  | color
  | consoleEnable
  | consoleStderr
  | fileEnable
  | filePath
  | format
  | host
  | level
  | maxSize
  | port
  | queueSize
  | rateLimitBurst
  | rateLimitEnable
  | rateLimitMaxPerSec
  | socketEnable
  | socketTls
  | socketTlsCaFile
  | socketTlsSkipVerify
  | socketAsync
  | socketRingCapacity
  | socketBackoffMinMs
  | socketBackoffMaxMs
  | socketConnectTimeoutMs
  | timeFormat
  | prometheusEnable
  | prometheusPort
deriving DecidableEq

/-- `g_config_keys`. -/
def configKeys : List (Text × Handler) :=
  [(str "async", .async),
   (str "backup", .backup),
   (str "backups", .backup),
   (str "catch_signals", .catchSignals),
   (str "color", .color),
   (str "console_enable", .consoleEnable),
   (str "console_stderr", .consoleStderr),
   (str "file_backups", .backup),
   (str "file_enable", .fileEnable),
   (str "file_max_size", .maxSize),
   (str "file_path", .filePath),
   (str "format", .format),
   (str "host", .host),
   (str "level", .level),
   (str "max_size", .maxSize),
   (str "path", .filePath),
   (str "port", .port),
   (str "prometheus_enable", .prometheusEnable),
   (str "prometheus_port", .prometheusPort),
   (str "queue_size", .queueSize),
   (str "rate_limit_burst", .rateLimitBurst),
   (str "rate_limit_enable", .rateLimitEnable),
   (str "rate_limit_max_per_sec", .rateLimitMaxPerSec),
   (str "socket_async", .socketAsync),
   (str "socket_backoff_max_ms", .socketBackoffMaxMs),
   (str "socket_backoff_min_ms", .socketBackoffMinMs),
   (str "socket_connect_timeout_ms", .socketConnectTimeoutMs),
   (str "socket_enable", .socketEnable),
   (str "socket_ring_capacity", .socketRingCapacity),
   (str "socket_tls", .socketTls),
   (str "socket_tls_ca_file", .socketTlsCaFile),
   (str "socket_tls_skip_verify", .socketTlsSkipVerify),
   (str "time_format", .timeFormat),
   (str "tls_ca_file", .socketTlsCaFile),
   (str "tls_enable", .socketTls),
   (str "tls_skip_verify", .socketTlsSkipVerify)]

/-- The `bsearch` of `current_key` in `g_config_keys`. -/
def findKey (key : Text) : Option Handler := bsearch compare key configKeys

/-- The table is in `strcmp` order. -/
theorem configKeys_sorted : configKeys.Pairwise fun a b => compare a.1 b.1 = .lt := by
  decide +kernel

/-- **The search finds exactly the keys of the table.** -/
theorem findKey_eq_some_iff {key : Text} {h : Handler} :
    findKey key = some h ↔ (key, h) ∈ configKeys :=
  bsearch_eq_some_iff configKeys_sorted

/-- A key of the table is short. -/
theorem length_lt_of_findKey {key : Text} {h : Handler} (hk : findKey key = some h) :
    key.length < 127 := by
  have hall : ∀ e ∈ configKeys, e.1.length < 127 := by decide +kernel
  exact hall _ (findKey_eq_some_iff.1 hk)

/-- A key is looked up after it was cut to the 128 bytes of `current_key`: no key of the table
is lost by that, and no other key becomes one. -/
theorem findKey_cut (key : Text) : findKey (cut 128 key) = findKey key := by
  rcases Nat.lt_or_ge key.length 128 with hlt | hge
  · rw [cut_of_length_lt hlt]
  · have hcut : (cut 128 key).length = 127 := by
      rw [cut, List.length_take]
      omega
    have hnone : ∀ {k : Text}, 127 ≤ k.length → findKey k = none := fun hk =>
      Option.eq_none_iff_forall_ne_some.2 fun h hf =>
        absurd (length_lt_of_findKey hf) (by omega)
    rw [hnone hcut.ge, hnone (by omega)]

/-! ### The handlers -/

/-- The comparison every boolean setting makes. -/
def isTrue (v : Text) : Bool := v == str "true"

/-- The same into an `int` field. -/
def isTrueInt (v : Text) : ℤ := if isTrue v then 1 else 0

/-- The level names. -/
def levelOf (v : Text) : Option Level :=
  if v = str "TRACE" then some .trace
  else if v = str "DEBUG" then some .debug
  else if v = str "INFO" then some .info
  else if v = str "WARN" then some .warn
  else if v = str "ERROR" then some .error
  else if v = str "FATAL" then some .fatal
  else none

/-- A signed number of a setting, between `lo` and `hi`. -/
def intIn (lo hi : ℤ) (v : Text) : Option ℤ :=
  (strtol v).bind fun n => if lo ≤ n ∧ n ≤ hi then some (toInt n) else none

/-- `LONG_MAX`. -/
def longMax : ℤ := 2 ^ 63 - 1

/-- An upper- or lower-case letter. -/
def isLetter (upper lower c : UInt8) : Bool := c == upper || c == lower

/-- The multiplier of a unit letter. -/
def unitOf (c : UInt8) : ℕ :=
  if isLetter 75 107 c then 1024
  else if isLetter 77 109 c then 1024 * 1024
  else if isLetter 71 103 c then 1024 * 1024 * 1024
  else 1

/-- The two-letter suffix, then the one-letter suffix, of a size: the multiplier and how many
bytes of the text it takes.  The text is reversed. -/
def sizeUnit : Text → ℕ × ℕ
  | u1 :: u0 :: _ =>
    if isLetter 66 98 u1 ∧ unitOf u0 ≠ 1 then (unitOf u0, 2)
    else if unitOf u1 ≠ 1 then (unitOf u1, 1)
    else (1, 0)
  | [u1] => if unitOf u1 ≠ 1 then (unitOf u1, 1) else (1, 0)
  | [] => (1, 0)

/-- `max_size`: a number of bytes with a unit suffix. -/
def maxSizeOf (v : Text) : Option ℕ :=
  if v.length = 0 ∨ 64 ≤ v.length then none
  else
    let (mult, suffix) := sizeUnit v.reverse
    (strtoul (v.take (v.length - suffix))).bind fun n =>
      if 1 < mult ∧ (2 ^ 64 - 1) / mult < n then none else some (n * mult)

/-- **The handler switch:** what a value does to the configuration, `none` for one that is
rejected with `has_errors = 1`. -/
def Handler.write : Handler → Text → Option (Target → Target)
  | .level, v => (levelOf v).map fun l t => { t with cfg.level := l }
  | .async, v => some fun t => { t with cfg.async := isTrue v }
  | .queueSize, v => (intIn 1 longMax v).map fun n t => { t with cfg.queueSize := n }
  | .catchSignals, v => some fun t => { t with cfg.catchSignals := isTrue v }
  | .color, v => some fun t => { t with cfg.color := isTrue v }
  | .format, v => some fun t =>
    { t with
      gConfigFormat := cut 512 v
      cfg.format := .global
      cfg.formatType := if v = str "json" ∨ v = str "JSON" then .json else .text }
  | .timeFormat, v => some fun t =>
    { t with gConfigTimeFormat := cut 64 v, cfg.timeFormat := .global }
  | .consoleEnable, v => some fun t => { t with cfg.consoleEnable := isTrueInt v }
  | .consoleStderr, v => some fun t => { t with cfg.consoleStderr := isTrueInt v }
  | .fileEnable, v => some fun t => { t with cfg.fileEnable := isTrueInt v }
  | .filePath, v => some fun t =>
    { t with cfg.filePath := cut maxPathSize v, cfg.fileEnable := 1 }
  | .maxSize, v => (maxSizeOf v).map fun n t => { t with cfg.fileMaxSize := n }
  | .backup, v => (intIn 0 longMax v).map fun n t => { t with cfg.fileBackups := n }
  | .host, v => some fun t =>
    { t with cfg.socketHost := cut maxPathSize v, cfg.socketEnable := 1 }
  | .port, v => (intIn 1 65535 v).map fun n t => { t with cfg.socketPort := n }
  | .socketEnable, v => some fun t => { t with cfg.socketEnable := isTrueInt v }
  | .socketTls, v => some fun t => { t with cfg.socketTls := isTrue v }
  | .socketTlsCaFile, v => some fun t => { t with cfg.socketTlsCaFile := cut maxPathSize v }
  | .socketTlsSkipVerify, v => some fun t => { t with cfg.socketTlsSkipVerify := isTrue v }
  | .socketAsync, v => some fun t => { t with cfg.socketAsync := isTrue v }
  | .socketRingCapacity, v => (strtoul v).map fun n t => { t with cfg.socketRingCapacity := n }
  | .socketBackoffMinMs, v =>
    (strtoul v).map fun n t => { t with cfg.socketBackoffMinMs := n % 2 ^ 32 }
  | .socketBackoffMaxMs, v =>
    (strtoul v).map fun n t => { t with cfg.socketBackoffMaxMs := n % 2 ^ 32 }
  | .socketConnectTimeoutMs, v =>
    (strtoul v).map fun n t => { t with cfg.socketConnectTimeoutMs := n % 2 ^ 32 }
  | .rateLimitEnable, v => some fun t => { t with cfg.rateLimitEnable := isTrue v }
  | .rateLimitMaxPerSec, v =>
    (intIn 1 longMax v).map fun n t => { t with cfg.rateLimitMaxPerSec := n }
  | .rateLimitBurst, v => (intIn 1 longMax v).map fun n t => { t with cfg.rateLimitBurst := n }
  | .prometheusEnable, v => some fun t => { t with cfg.prometheusEnable := isTrue v }
  | .prometheusPort, v => (intIn 1 65535 v).map fun n t => { t with cfg.prometheusPort := n }

/-- One write of the parser: a scalar setting, or a plugin entry that is complete. -/
inductive Setting
  | value (h : Handler) (v : Text)
  | plugin (index : Fin maxPlugins) (path json : Text)
deriving DecidableEq

/-- What `parse_config_file` has done so far. -/
@[ext]
structure Parsed where
  target : Target
  hasErrors : Bool
deriving DecidableEq

def Setting.apply (p : Parsed) : Setting → Parsed
  | .value h v =>
    match h.write v with
    | some f => { p with target := f p.target }
    | none => { p with hasErrors := true }
  | .plugin i path json =>
    { p with
      target.cfg.pluginSoPaths :=
        Function.update p.target.cfg.pluginSoPaths i (cut maxPathSize path)
      target.cfg.pluginParamsJson :=
        Function.update p.target.cfg.pluginParamsJson i (cut maxPluginConfigSize json)
      target.cfg.pluginCount := i + 1 }

/-- The return value. -/
def Parsed.ret (p : Parsed) : ℤ := if p.hasErrors then -1 else 0

/-- The value is one its handler reports. -/
def Setting.rejected : Setting → Bool
  | .value h v => (h.write v).isNone
  | .plugin .. => false

theorem Setting.apply_hasErrors (s : Setting) (p : Parsed) :
    (s.apply p).hasErrors = (p.hasErrors || s.rejected) := by
  cases s with
  | value h v => cases hw : h.write v <;> simp [Setting.apply, Setting.rejected, hw]
  | plugin i path json => simp [Setting.apply, Setting.rejected]

/-- **There is an error in the end if and only if some setting was rejected.** -/
theorem foldl_hasErrors (ss : List Setting) : ∀ p : Parsed,
    (ss.foldl Setting.apply p).hasErrors = (p.hasErrors || ss.any Setting.rejected) := by
  induction ss with
  | nil => simp
  | cons s ss ih =>
    intro p
    rw [List.foldl_cons, ih, s.apply_hasErrors, List.any_cons, Bool.or_assoc]

/-! ### Every setting can be seen -/

/-- A configuration, and another one that differs from it in every field a setting writes. -/
def pole (b : Bool) : Target where
  cfg :=
    { level := if b then .trace else .debug
      async := b
      queueSize := if b then 1 else 0
      color := b
      formatType := if b then .text else .json
      format := if b then .null else .own
      timeFormat := if b then .null else .own
      consoleEnable := if b then 1 else 0
      consoleStderr := if b then 1 else 0
      fileEnable := if b then 1 else 0
      filePath := if b then [1] else []
      fileMaxSize := if b then 1 else 0
      fileBackups := if b then 1 else 0
      socketEnable := if b then 1 else 0
      socketHost := if b then [1] else []
      socketPort := if b then 1 else 0
      socketTls := b
      socketTlsCaFile := if b then [1] else []
      socketTlsSkipVerify := b
      socketAsync := b
      socketRingCapacity := if b then 1 else 0
      socketBackoffMinMs := if b then 1 else 0
      socketBackoffMaxMs := if b then 1 else 0
      socketConnectTimeoutMs := if b then 1 else 0
      rateLimitEnable := b
      rateLimitMaxPerSec := if b then 1 else 0
      rateLimitBurst := if b then 1 else 0
      catchSignals := b
      prometheusEnable := b
      prometheusPort := if b then 1 else 0
      pluginSoPaths := fun _ => []
      pluginParamsJson := fun _ => []
      pluginCount := 0 }
  gConfigFormat := []
  gConfigTimeFormat := []

/-- A value that is accepted leaves the same thing in its field whatever was there before. -/
theorem Handler.write_idem {h : Handler} {v : Text} {f : Target → Target}
    (hf : h.write v = some f) (t : Target) : f (f t) = f t := by
  cases h <;>
    simp only [Handler.write, Option.some.injEq, Option.map_eq_some_iff] at hf <;>
    -- a handler that accepts every value, then one that reads a number or a level
    first
    | (subst hf; rfl)
    | (obtain ⟨n, -, rfl⟩ := hf; rfl)

/-- So one of the two poles is not what it leaves. -/
theorem Handler.write_ne_pole {h : Handler} {v : Text} {f : Target → Target}
    (hf : h.write v = some f) : ∃ b, ∀ t, f t ≠ pole b := by
  by_contra hno
  push Not at hno
  have hfix (b : Bool) : f (pole b) = pole b := by
    obtain ⟨t, ht⟩ := hno b
    rw [← ht]
    exact Handler.write_idem hf t
  have htrue := hfix true
  have hfalse := hfix false
  cases h <;>
    simp only [Handler.write, Option.some.injEq, Option.map_eq_some_iff] at hf <;>
    first
    | (subst hf; simp [pole] at htrue hfalse; all_goals simp_all)
    | (obtain ⟨n, -, rfl⟩ := hf; simp [pole] at htrue hfalse; all_goals simp_all)

/-- **Every setting can be seen:** it is rejected, or there is a configuration it never leaves. -/
theorem Setting.exists_ne (s : Setting) :
    ∃ t₀, ∀ p, (s.apply p).hasErrors = false → (s.apply p).target ≠ t₀ := by
  cases s with
  | value h v =>
    cases hw : h.write v with
    | none =>
      refine ⟨pole true, fun p hp => ?_⟩
      rw [Setting.apply, hw] at hp
      cases hp
    | some f =>
      obtain ⟨b, hb⟩ := Handler.write_ne_pole hw
      refine ⟨pole b, fun p _ => ?_⟩
      rw [Setting.apply, hw]
      exact hb p.target
  | plugin i path json =>
    refine ⟨pole true, fun p _ heq => ?_⟩
    have hcount := congrArg (fun t => t.cfg.pluginCount) heq
    simp only [Setting.apply, pole] at hcount
    omega

/-- **A list of settings does something** to some configuration, unless it is empty. -/
theorem exists_foldl_ne {ss : List Setting} (hne : ss ≠ []) :
    ∃ t₀, ss.foldl Setting.apply ⟨t₀, false⟩ ≠ ⟨t₀, false⟩ := by
  obtain ⟨t₀, ht⟩ := (ss.getLast hne).exists_ne
  refine ⟨t₀, fun heq => ?_⟩
  rw [← List.dropLast_append_getLast hne, List.foldl_append] at heq
  exact ht _ (congrArg Parsed.hasErrors heq) (congrArg Parsed.target heq)

end Config
end Clogx
