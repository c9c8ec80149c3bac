/-
# Building the sinks

`create_sinks_from_cfg`, `log_dispatcher_init_for`,
`log_dispatcher_build_snapshot_for` and `log_dispatcher_commit_snapshot_for` of
`core/dispatcher.c`, with `log_plugin_create_sinks_from_config` of
`core/plugin_loader.c`.

The two builders do the same with local arrays of different sizes.  What a factory
makes is an argument, and so is whether the array of the sinks can be allocated.
-/

import Clogx.CLib.Text

namespace Clogx
namespace Dispatcher

open CLib

/-- `CLOG_MAX_PLUGINS`. -/
def maxPlugins : ℕ := 8

/-- The size of the array `sinks` of `log_dispatcher_init_for`. -/
def initSlots : ℕ := 8

/-- The size of the array `sinks` of `log_dispatcher_build_snapshot_for`. -/
def snapshotSlots : ℕ := 8 + maxPlugins

/-- `log_config_t`, as far as the builders read it. -/
structure SinkConfig where
  consoleEnable : Bool
  consoleStderr : Bool
  fileEnable : Bool
  filePath : Text
  socketEnable : Bool
  socketHost : Text
  socketAsync : Bool
  pluginSoPaths : List Text
  pluginCount : pluginSoPaths.length ≤ maxPlugins

/-- The factories; a plugin is loaded and then asked for a sink. -/
inductive Factory
  | consoleSinkCreate
  | consoleSinkCreateStderr
  | fileSinkCreate
  | socketSinkCreateAsyncEx
  | socketSinkCreateTls
  | plugin (i : ℕ)

variable {σ : Type*}

/-- `if (sink) sinks[count++] = sink`. -/
def keep (sinks : List σ) : Option σ → List σ
  | some sink => sinks ++ [sink]
  | none => sinks

variable (make : Factory → Option σ)

/-- `create_sinks_from_cfg`. -/
def createSinksFromCfg (cfg : SinkConfig) : List σ :=
  let sinks :=
    if cfg.consoleEnable then
      keep [] (if cfg.consoleStderr then make .consoleSinkCreateStderr else make .consoleSinkCreate)
    else []
  let sinks :=
    if cfg.fileEnable = true ∧ 0 < cfg.filePath.length then keep sinks (make .fileSinkCreate)
    else sinks
  if cfg.socketEnable = true ∧ 0 < cfg.socketHost.length then
    keep sinks
      (if cfg.socketAsync then make .socketSinkCreateAsyncEx else make .socketSinkCreateTls)
  else sinks

/-- The loop of `log_plugin_create_sinks_from_config` from plugin `i` on. -/
def pluginLoop (maxSinks : ℕ) : ℕ → List Text → List σ → List σ
  | _, [], created => created
  | i, soPath :: soPaths, created =>
    if created.length < maxSinks then
      if soPath = [] then pluginLoop maxSinks (i + 1) soPaths created
      else
        match make (.plugin i) with
        | none => pluginLoop maxSinks (i + 1) soPaths created
        | some sink => pluginLoop maxSinks (i + 1) soPaths (created ++ [sink])
    else created

/-- `log_plugin_create_sinks_from_config`. -/
def logPluginCreateSinksFromConfig (cfg : SinkConfig) (maxSinks : ℤ) : List σ :=
  if maxSinks ≤ 0 then [] else pluginLoop make maxSinks.toNat 0 cfg.pluginSoPaths []

/-- What a call does: what it returns, the sinks of the logger afterwards, the sinks that factories
made and the sinks that were destroyed. -/
structure Outcome (σ : Type*) where
  ret : ℤ
  installed : List σ
  created : List σ
  destroyed : List σ

/-- `log_dispatcher_init_for` on a logger with the sinks `old`. -/
def logDispatcherInitFor (malloc : Bool) (cfg : SinkConfig) (old : List σ) : Outcome σ :=
  let builtin := createSinksFromCfg make cfg
  let plugins := logPluginCreateSinksFromConfig make cfg maxPlugins
  let sinks := builtin ++ plugins.take (initSlots - builtin.length)
  if sinks.length = 0 then ⟨-1, old, builtin ++ plugins, []⟩
  else if malloc then ⟨0, sinks, builtin ++ plugins, old⟩
  else ⟨-1, [], builtin ++ plugins, old ++ sinks⟩

/-- `log_dispatcher_build_snapshot_for`: the snapshot, if there is one, the sinks that were made and
those that were destroyed. -/
def logDispatcherBuildSnapshotFor (malloc : Bool) (cfg : SinkConfig) :
    Option (List σ) × List σ × List σ :=
  let builtin := createSinksFromCfg make cfg
  let maxPluginSinks : ℤ := snapshotSlots - builtin.length
  let maxPluginSinks := if maxPlugins < maxPluginSinks then (maxPlugins : ℤ) else maxPluginSinks
  let plugins :=
    if 0 < maxPluginSinks then logPluginCreateSinksFromConfig make cfg maxPluginSinks else []
  let sinks := builtin ++ plugins.take (snapshotSlots - builtin.length)
  if sinks.length = 0 then (none, builtin ++ plugins, [])
  else if malloc then (some sinks, builtin ++ plugins, [])
  else (none, builtin ++ plugins, sinks)

/-- `log_dispatcher_commit_snapshot_for`: the sinks of the logger, and those that are destroyed. -/
def logDispatcherCommitSnapshotFor (old snapshot : List σ) : List σ × List σ := (snapshot, old)

/-- A reload: a snapshot is built, and committed if that succeeds. -/
def reload (malloc : Bool) (cfg : SinkConfig) (old : List σ) : Outcome σ :=
  match logDispatcherBuildSnapshotFor make malloc cfg with
  | (none, created, destroyed) => ⟨-1, old, created, destroyed⟩
  | (some snapshot, created, destroyed) =>
    let committed := logDispatcherCommitSnapshotFor old snapshot
    ⟨0, committed.1, created, destroyed ++ committed.2⟩

/-! ### What the configuration asks for -/

/-- The built-in factories that the configuration calls, in order. -/
def builtinFactories (cfg : SinkConfig) : List Factory :=
  (if cfg.consoleEnable then
    [if cfg.consoleStderr then .consoleSinkCreateStderr else .consoleSinkCreate] else []) ++
  (if cfg.fileEnable = true ∧ 0 < cfg.filePath.length then [.fileSinkCreate] else []) ++
  (if cfg.socketEnable = true ∧ 0 < cfg.socketHost.length then
    [if cfg.socketAsync then .socketSinkCreateAsyncEx else .socketSinkCreateTls] else [])

/-- The plugins with a path, from plugin `i` on. -/
def pluginFactories : ℕ → List Text → List Factory
  | _, [] => []
  | i, soPath :: soPaths =>
    (if soPath = [] then [] else [.plugin i]) ++ pluginFactories (i + 1) soPaths

/-- The sinks that the configuration asks for and that could be made. -/
def wanted (cfg : SinkConfig) : List σ :=
  (builtinFactories cfg ++ pluginFactories 0 cfg.pluginSoPaths).filterMap make

theorem keep_make (sinks : List σ) (f : Factory) :
    keep sinks (make f) = sinks ++ [f].filterMap make := by
  cases hf : make f <;> simp [keep, hf]

theorem createSinksFromCfg_eq (cfg : SinkConfig) :
    createSinksFromCfg make cfg = (builtinFactories cfg).filterMap make := by
  rw [builtinFactories, List.filterMap_append, List.filterMap_append, createSinksFromCfg]
  simp only [← apply_ite make, keep_make, List.nil_append]
  split_ifs <;> simp only [List.filterMap_nil, List.append_nil, List.nil_append]

theorem length_builtin_le (cfg : SinkConfig) : (createSinksFromCfg make cfg).length ≤ 3 := by
  rw [createSinksFromCfg_eq]
  refine (List.length_filterMap_le _ _).trans ?_
  rw [builtinFactories]
  split_ifs <;> simp

/-- Every plugin takes one place at most, so that the bound of the loop is not met. -/
theorem pluginLoop_eq {maxSinks : ℕ} : ∀ (soPaths : List Text) (i : ℕ) (created : List σ),
    created.length + soPaths.length ≤ maxSinks →
    pluginLoop make maxSinks i soPaths created =
      created ++ (pluginFactories i soPaths).filterMap make
  | [], _, created, _ => (List.append_nil created).symm
  | soPath :: soPaths, i, created, h => by
      rw [List.length_cons] at h
      rw [pluginLoop, pluginFactories, if_pos (by omega)]
      by_cases hempty : soPath = []
      · rw [if_pos hempty, if_pos hempty]
        exact pluginLoop_eq soPaths (i + 1) created (by omega)
      · rw [if_neg hempty, if_neg hempty]
        cases hmake : make (.plugin i) with
        | none =>
          dsimp only
          rw [pluginLoop_eq soPaths (i + 1) created (by omega)]
          simp [hmake]
        | some sink =>
          dsimp only
          rw [pluginLoop_eq soPaths (i + 1) (created ++ [sink]) (by
            rw [List.length_append, List.length_singleton]
            omega)]
          simp [hmake]

theorem pluginSinks_eq (cfg : SinkConfig) :
    logPluginCreateSinksFromConfig make cfg maxPlugins =
      (pluginFactories 0 cfg.pluginSoPaths).filterMap make := by
  rw [logPluginCreateSinksFromConfig, if_neg (by decide)]
  exact pluginLoop_eq make cfg.pluginSoPaths 0 [] (by
    rw [List.length_nil, Nat.zero_add]
    exact cfg.pluginCount)

theorem length_pluginFactories_le : ∀ (soPaths : List Text) (i : ℕ),
    (pluginFactories i soPaths).length ≤ soPaths.length
  | [], _ => le_rfl
  | soPath :: soPaths, i => by
      have hrest := length_pluginFactories_le soPaths (i + 1)
      rw [pluginFactories, List.length_append, List.length_cons]
      split_ifs <;> simp only [List.length_nil, List.length_singleton] <;> omega

/-! ### The two builders -/

theorem wanted_eq (cfg : SinkConfig) : wanted make cfg =
    createSinksFromCfg make cfg ++ logPluginCreateSinksFromConfig make cfg maxPlugins := by
  rw [wanted, List.filterMap_append, createSinksFromCfg_eq, pluginSinks_eq]

/-- `log_dispatcher_init_for` keeps the first sinks that its array holds. -/
theorem init_eq (malloc : Bool) (cfg : SinkConfig) (old : List σ) :
    logDispatcherInitFor make malloc cfg old =
      if wanted make cfg = [] then ⟨-1, old, [], []⟩
      else if malloc then ⟨0, (wanted make cfg).take initSlots, wanted make cfg, old⟩
      else ⟨-1, [], wanted make cfg, old ++ (wanted make cfg).take initSlots⟩ := by
  have hlen := length_builtin_le make cfg
  have hstored : createSinksFromCfg make cfg ++ (logPluginCreateSinksFromConfig make cfg
      maxPlugins).take (initSlots - (createSinksFromCfg make cfg).length) =
      (wanted make cfg).take initSlots := by
    rw [wanted_eq, List.take_append, List.take_of_length_le (hlen.trans (by decide))]
  rw [logDispatcherInitFor, hstored, ← wanted_eq]
  by_cases hnone : wanted make cfg = []
  · rw [hnone]
    rfl
  · rw [if_neg hnone, if_neg]
    rw [List.length_take]
    have hpos := List.length_pos_of_ne_nil hnone
    simp only [initSlots]
    omega

/-- A reload keeps all of them. -/
theorem reload_eq (malloc : Bool) (cfg : SinkConfig) (old : List σ) :
    reload make malloc cfg old =
      if wanted make cfg = [] then ⟨-1, old, [], []⟩
      else if malloc then ⟨0, wanted make cfg, wanted make cfg, old⟩
      else ⟨-1, old, wanted make cfg, wanted make cfg⟩ := by
  have hlen := length_builtin_le make cfg
  have hplugins : (logPluginCreateSinksFromConfig make cfg maxPlugins).length ≤ maxPlugins := by
    rw [pluginSinks_eq]
    exact ((List.length_filterMap_le _ _).trans (length_pluginFactories_le _ 0)).trans cfg.pluginCount
  have hmax : (if (maxPlugins : ℤ) < (snapshotSlots : ℤ) - (createSinksFromCfg make cfg).length then
      (maxPlugins : ℤ) else (snapshotSlots : ℤ) - (createSinksFromCfg make cfg).length) =
      maxPlugins := by
    refine if_pos ?_
    simp only [snapshotSlots, maxPlugins]
    omega
  have hstored : createSinksFromCfg make cfg ++ (logPluginCreateSinksFromConfig make cfg
      maxPlugins).take (snapshotSlots - (createSinksFromCfg make cfg).length) = wanted make cfg := by
    rw [wanted_eq, List.take_of_length_le (hplugins.trans (by simp only [snapshotSlots]; omega))]
  rw [reload, logDispatcherBuildSnapshotFor]
  dsimp only
  rw [hmax, if_pos (show (0 : ℤ) < maxPlugins by decide), hstored, ← wanted_eq]
  by_cases hnone : wanted make cfg = []
  · rw [hnone]
    rfl
  · rw [if_neg (mt List.length_eq_zero_iff.1 hnone), if_neg hnone]
    cases malloc <;> rfl

/-- Every sink that was made is a sink of the logger or was destroyed. -/
def NoneLost (out : Outcome σ) : Prop :=
  ∀ sink ∈ out.created, sink ∈ out.installed ∨ sink ∈ out.destroyed

/-- **Init and reload build the same sinks, and lose none, exactly if the sinks that can be made are
at most eight.** -/
theorem same_sinks_iff (cfg : SinkConfig) (old : List σ) :
    ((logDispatcherInitFor make true cfg old).installed = (reload make true cfg old).installed ∧
      ∀ malloc, NoneLost (logDispatcherInitFor make malloc cfg old) ∧
        NoneLost (reload make malloc cfg old)) ↔
      (wanted make cfg).length ≤ initSlots := by
  by_cases hnone : wanted make cfg = []
  · refine iff_of_true ⟨?_, fun malloc => ?_⟩ (by rw [hnone]; exact Nat.zero_le _)
    · rw [init_eq, reload_eq, if_pos hnone, if_pos hnone]
    · rw [init_eq, reload_eq, if_pos hnone, if_pos hnone]
      exact ⟨fun sink h => absurd h List.not_mem_nil, fun sink h => absurd h List.not_mem_nil⟩
  · constructor
    · rintro ⟨hsame, -⟩
      rw [init_eq, reload_eq, if_neg hnone, if_neg hnone, if_pos rfl, if_pos rfl] at hsame
      exact (List.take_eq_self_iff _).1 hsame
    · intro hfit
      simp only [init_eq, reload_eq, if_neg hnone, List.take_of_length_le hfit]
      refine ⟨rfl, fun malloc => ?_⟩
      cases malloc with
      | true => exact ⟨fun sink h => .inl h, fun sink h => .inl h⟩
      | false => exact ⟨fun sink h => .inr (List.mem_append_right old h), fun sink h => .inr h⟩

/-- The console and eight plugins. -/
def nineSinks : SinkConfig where
  consoleEnable := true
  consoleStderr := false
  fileEnable := false
  filePath := []
  socketEnable := false
  socketHost := []
  socketAsync := false
  pluginSoPaths := List.replicate 8 (str "p.so")
  pluginCount := le_rfl

/-- Factories that all succeed; the console is sink 8, plugin `i` is sink `i`. -/
def makeAll : Factory → Option ℕ
  | .plugin i => some i
  | _ => some 8

/-- Init leaves out the ninth sink and does not destroy it, and a reload installs it. -/
theorem ninth_sink_lost :
    (logDispatcherInitFor makeAll true nineSinks []).installed = [8, 0, 1, 2, 3, 4, 5, 6] ∧
      7 ∈ (logDispatcherInitFor makeAll true nineSinks []).created ∧
      (logDispatcherInitFor makeAll true nineSinks []).destroyed = [] ∧
      (reload makeAll true nineSinks []).installed = [8, 0, 1, 2, 3, 4, 5, 6, 7] := by
  decide

end Dispatcher
end Clogx
