/-
# The cache of loaded plugins

`core/plugin_loader.c`: the table `g_handles` with `log_plugin_load`,
`log_plugin_scan`, `log_plugin_unload` and `log_plugin_shutdown_all`.  What the
dynamic linker answers is an argument of the load (`Library`), and so is the
listing of a scanned directory.  `log_plugin_scan` takes the lock for each file
anew, so it is a sequence of loads, between which other threads may work
(`logPluginScan_eq`).

A slot keeps the first 511 bytes of its path, but the search compares them with
the whole path asked for.  So a path of 512 bytes or more is never found again,
and a path of 511 bytes may be taken for a longer one.  `Unclipped` says of a path
that neither happens; it is exactly what makes a second load return the handle of
the first (`load_kept_iff`).

A handle is a pointer into the table, here the number of its slot.  The fields
after `count` are history: they record what happened and no function reads them.
-/

import Clogx.CLib.Buffer
import Mathlib.Data.Fintype.Card

namespace Clogx
namespace Plugin

open CLib

/-- `CLOGX_MAX_LOADED_PLUGINS`. -/
def maxLoadedPlugins : ℕ := 16

/-- `CLOG_MAX_PATH_SIZE`. -/
def maxPathSize : ℕ := 512

/-- `CLOGX_PLUGIN_ABI_VERSION`. -/
def pluginAbiVersion : ℕ := 1

/-- A place in `g_handles`. -/
abbrev SlotIx := Fin maxLoadedPlugins

/-- `clogx_plugin_t`, as far as the loader decides by it. -/
structure Desc where
  abiVersion : ℕ
deriving DecidableEq

/-- `struct clogx_plugin_handle`. -/
structure Handle where
  dlHandle : Option ℕ
  createFn : Option ℕ
  desc : Option Desc
  soPath : Text
  used : Bool
deriving DecidableEq

/-- A slot after `memset`. -/
def Handle.zero : Handle := ⟨none, none, none, [], false⟩

/-- `g_handles` and `g_handle_count`; the path each slot was loaded from, and the paths
`clog_dlopen` was called with. -/
structure Cache where
  handles : SlotIx → Handle
  count : ℤ
  loadedFrom : SlotIx → Text
  opens : List Text

/-- What `clog_dlopen`, the two `clog_dlsym` and the descriptor function answer; `none` is
`NULL`. -/
structure Library where
  dlopen : Option ℕ
  descFn : Option (Option Desc)
  createFn : Option ℕ

namespace Cache

/-- Before the first call. -/
def init : Cache := ⟨fun _ => .zero, 0, fun _ => [], []⟩

/-- `memset(h, 0, sizeof(*h))`. -/
def clear (c : Cache) (slot : SlotIx) : Cache :=
  { c with handles := Function.update c.handles slot .zero }

/-- `find_slot_locked`. -/
def findSlotLocked (c : Cache) (soPath : Text) : Option SlotIx :=
  (List.finRange maxLoadedPlugins).find? fun i =>
    (c.handles i).used && (c.handles i).soPath == soPath

/-- `alloc_slot_locked`. -/
def allocSlotLocked (c : Cache) : Option SlotIx :=
  (List.finRange maxLoadedPlugins).find? fun i => !(c.handles i).used

/-- The slot is filled: the path is stashed, cut to the size of its field. -/
def fill (c : Cache) (slot : SlotIx) (soPath : Text) (dl : ℕ) (desc : Option Desc)
    (createFn : Option ℕ) : Cache :=
  { c with
    handles := Function.update c.handles slot
      ⟨some dl, createFn, desc, cut maxPathSize soPath, true⟩
    count := c.count + 1
    loadedFrom := Function.update c.loadedFrom slot soPath }

end Cache

/-- `log_plugin_load`; the empty path stands for `NULL` too. -/
def logPluginLoad (soPath : Text) (lib : Library) (c : Cache) : Option SlotIx × Cache :=
  if soPath = [] then (none, c)
  else
    match c.findSlotLocked soPath with
    | some slot => (some slot, c)
    | none =>
      match c.allocSlotLocked with
      | none => (none, c)
      | some slot =>
        let c := { c.clear slot with opens := c.opens ++ [soPath] }
        match lib.dlopen, lib.descFn with
        | none, _ => (none, c)
        | some _, none => (none, c.clear slot)
        | some dl, some desc =>
          if desc.map Desc.abiVersion = some pluginAbiVersion then
            (some slot, c.fill slot soPath dl desc lib.createFn)
          else (none, c.clear slot)

/-- `log_plugin_unload`. -/
def logPluginUnload (h : Option SlotIx) (c : Cache) : Cache :=
  match h with
  | none => c
  | some slot =>
    if (c.handles slot).used then { c.clear slot with count := c.count - 1 } else c

/-- `log_plugin_shutdown_all`. -/
def logPluginShutdownAll (c : Cache) : Cache :=
  { c with
    handles := fun i => if (c.handles i).used then .zero else c.handles i
    count := 0 }

/-- A name that `log_plugin_scan` takes: it ends in `.so`, does not begin with a dot, and fits. -/
def isCandidate (name : Text) : Bool :=
  3 < name.length && name.head? != some 46 && name.drop (name.length - 3) == str ".so" &&
    name.length < maxPathSize

/-- The paths that `log_plugin_scan` loads, from the entries of the directory. -/
def scanPaths (dir : Text) (entries : List Text) : List Text :=
  (((entries.filter isCandidate).take maxLoadedPlugins).map fun name => dir ++ 47 :: name).filter
    fun path => path.length < maxPathSize + 256

/-- The loop of `log_plugin_scan` over the paths; `lib i` answers the load of path `i`. -/
def scanLoop (lib : ℕ → Library) : ℕ → List Text → List SlotIx → Cache → List SlotIx × Cache
  | _, [], found, c => (found, c)
  | i, path :: paths, found, c =>
    let r := logPluginLoad path (lib i) c
    scanLoop lib (i + 1) paths (found ++ r.1.toList) r.2

/-- `log_plugin_scan`: the number of plugins loaded, and what is stored in `out`.  No listing is a
directory that cannot be opened. -/
def logPluginScan (dir : Text) (listing : Option (List Text)) (max : ℕ) (lib : ℕ → Library)
    (c : Cache) : (ℤ × List SlotIx) × Cache :=
  match listing with
  | none => ((0, []), c)
  | some entries =>
    let r := scanLoop lib 0 (scanPaths dir entries) [] c
    ((r.1.length, r.1.take max), r.2)

/-! ### Sequences of calls -/

/-- A call, or a part of one, that holds the lock throughout. -/
inductive Act
  | load (soPath : Text) (lib : Library)
  | unload (h : Option SlotIx)
  | shutdownAll

/-- What it leaves. -/
def Act.apply (c : Cache) : Act → Cache
  | .load soPath lib => (logPluginLoad soPath lib c).2
  | .unload h => logPluginUnload h c
  | .shutdownAll => logPluginShutdownAll c

/-- The cache after the calls `acts`. -/
def after (acts : List Act) : Cache := acts.foldl Act.apply .init

/-- The loads of `log_plugin_scan`. -/
def scanActs (dir : Text) (listing : Option (List Text)) (lib : ℕ → Library) : List Act :=
  (scanPaths dir (listing.getD [])).mapIdx fun i path => .load path (lib i)

theorem scanLoop_eq (lib : ℕ → Library) (paths : List Text) : ∀ (i : ℕ) (found : List SlotIx)
    (c : Cache), (scanLoop lib i paths found c).2 =
      (paths.mapIdx fun k path => Act.load path (lib (i + k))).foldl Act.apply c := by
  induction paths with
  | nil => exact fun _ _ _ => rfl
  | cons path paths ih =>
    intro i found c
    rw [scanLoop, ih, List.mapIdx_cons, List.foldl_cons]
    simp only [Nat.add_zero, Nat.add_assoc, Nat.add_comm 1]
    rfl

/-- **A scan is the loads of its files.** -/
theorem logPluginScan_eq (dir : Text) (listing : Option (List Text)) (max : ℕ) (lib : ℕ → Library)
    (c : Cache) : (logPluginScan dir listing max lib c).2 =
      (scanActs dir listing lib).foldl Act.apply c := by
  cases listing with
  | none => rfl
  | some entries =>
    have h := scanLoop_eq lib (scanPaths dir entries) 0 [] c
    simp only [Nat.zero_add] at h
    exact h

/-! ### What a load does -/

/-- The first index with a property. -/
theorem find?_finRange {n : ℕ} {p : Fin n → Bool} {i : Fin n} :
    (List.finRange n).find? p = some i ↔ p i = true ∧ ∀ j < i, p j = false := by
  rw [List.find?_eq_some_iff_getElem]
  simp only [List.getElem_finRange, List.length_finRange, Bool.not_eq_true']
  constructor
  · rintro ⟨hp, k, hk, rfl, hbefore⟩
    exact ⟨hp, fun j hj => hbefore j hj⟩
  · rintro ⟨hp, hbefore⟩
    exact ⟨hp, i, i.isLt, rfl, fun j hj => hbefore ⟨j, hj.trans i.isLt⟩ hj⟩

theorem findSlotLocked_eq_some {c : Cache} {soPath : Text} {i : SlotIx} :
    c.findSlotLocked soPath = some i ↔
      ((c.handles i).used = true ∧ (c.handles i).soPath = soPath) ∧
        ∀ j < i, (c.handles j).used = true → (c.handles j).soPath ≠ soPath := by
  rw [Cache.findSlotLocked, find?_finRange]
  simp only [Bool.and_eq_true, beq_iff_eq, Bool.and_eq_false_imp, beq_eq_false_iff_ne]

theorem findSlotLocked_eq_none {c : Cache} {soPath : Text}
    (h : c.findSlotLocked soPath = none) {i : SlotIx} (hi : (c.handles i).used = true) :
    (c.handles i).soPath ≠ soPath := by
  have hno := List.find?_eq_none.1 h i (List.mem_finRange i)
  simpa [hi] using hno

theorem allocSlotLocked_eq_some {c : Cache} {i : SlotIx} (h : c.allocSlotLocked = some i) :
    (c.handles i).used = false := by
  simpa using (find?_finRange.1 h).1

/-- A failed load has cleared at most a free slot. -/
def Cache.Failed (c c' : Cache) : Prop :=
  c'.count = c.count ∧ c'.loadedFrom = c.loadedFrom ∧
    (c'.handles = c.handles ∨ ∃ slot, (c.handles slot).used = false ∧
      c'.handles = Function.update c.handles slot .zero)

/-- **The three outcomes of a load:** the handle found, no handle, or a free slot filled for a path
that no slot holds. -/
theorem logPluginLoad_cases (soPath : Text) (lib : Library) (c : Cache) :
    (∃ i, c.findSlotLocked soPath = some i ∧ logPluginLoad soPath lib c = (some i, c)) ∨
    (logPluginLoad soPath lib c).1 = none ∧ c.Failed (logPluginLoad soPath lib c).2 ∨
    ∃ slot dl desc, soPath ≠ [] ∧ c.findSlotLocked soPath = none ∧
      (c.handles slot).used = false ∧ logPluginLoad soPath lib c =
        (some slot, { c.fill slot soPath dl desc lib.createFn with
          opens := c.opens ++ [soPath] }) := by
  have hsame : c.Failed c := ⟨rfl, rfl, .inl rfl⟩
  unfold logPluginLoad
  split_ifs with hempty
  · exact .inr (.inl ⟨rfl, hsame⟩)
  cases hfind : c.findSlotLocked soPath with
  | some slot => exact .inl ⟨slot, rfl, rfl⟩
  | none =>
    refine .inr ?_
    cases halloc : c.allocSlotLocked with
    | none => exact .inl ⟨rfl, hsame⟩
    | some slot =>
      have hfree := allocSlotLocked_eq_some halloc
      have hcleared : c.Failed { c.clear slot with opens := c.opens ++ [soPath] } :=
        ⟨rfl, rfl, .inr ⟨slot, hfree, rfl⟩⟩
      have htwice : c.Failed
          (Cache.clear { c.clear slot with opens := c.opens ++ [soPath] } slot) :=
        ⟨rfl, rfl, .inr ⟨slot, hfree, Function.update_idem ..⟩⟩
      simp only
      split
      case h_1 => exact .inl ⟨rfl, hcleared⟩
      case h_2 => exact .inl ⟨rfl, htwice⟩
      case h_3 dl desc _ _ =>
        split_ifs
        · refine .inr ⟨slot, dl, desc, hempty, trivial, hfree, ?_⟩
          simp only [Cache.fill, Cache.clear, Function.update_idem]
        · exact .inl ⟨rfl, htwice⟩

/-! ### The invariant -/

/-- The slots in use. -/
def Cache.usedSlots (c : Cache) : Finset SlotIx :=
  Finset.univ.filter fun i => (c.handles i).used = true

theorem Cache.mem_usedSlots {c : Cache} {i : SlotIx} :
    i ∈ c.usedSlots ↔ (c.handles i).used = true := by
  simp [usedSlots]

/-- What holds after any calls. -/
structure Inv (c : Cache) : Prop where
  count : c.count = c.usedSlots.card
  stored : ∀ i, (c.handles i).used = true → (c.handles i).soPath = cut maxPathSize (c.loadedFrom i)
  named : ∀ i, (c.handles i).used = true → c.loadedFrom i ≠ []

/-- **A failed load leaves every slot in use as it was,** and brings none into use. -/
theorem Cache.Failed.handles {c c' : Cache} (h : c.Failed c') (i : SlotIx) :
    (c'.handles i).used = (c.handles i).used ∧
      ((c.handles i).used = true → c'.handles i = c.handles i) := by
  obtain ⟨-, -, heq | ⟨slot, hfree, heq⟩⟩ := h
  · rw [heq]
    exact ⟨rfl, fun _ => rfl⟩
  · rw [heq]
    rcases eq_or_ne i slot with rfl | hne
    · rw [Function.update_self, hfree]
      exact ⟨rfl, fun hused => by cases hused⟩
    · rw [Function.update_of_ne hne]
      exact ⟨rfl, fun _ => rfl⟩

theorem Cache.Failed.usedSlots {c c' : Cache} (h : c.Failed c') : c'.usedSlots = c.usedSlots := by
  ext i
  rw [Cache.mem_usedSlots, Cache.mem_usedSlots, (h.handles i).1]

theorem Inv.failed {c c' : Cache} (h : Inv c) (hf : c.Failed c') : Inv c' where
  count := by rw [hf.1, hf.usedSlots, h.count]
  stored i hi := by
    have hused : (c.handles i).used = true := (hf.handles i).1 ▸ hi
    rw [(hf.handles i).2 hused, hf.2.1]
    exact h.stored i hused
  named i hi := by
    rw [hf.2.1]
    exact h.named i ((hf.handles i).1 ▸ hi)

/-- A free slot comes into use. -/
theorem Inv.fill {c : Cache} (h : Inv c) {slot : SlotIx} (hfree : (c.handles slot).used = false)
    {soPath : Text} (hpath : soPath ≠ []) (dl : ℕ) (desc : Option Desc) (createFn : Option ℕ) :
    Inv (c.fill slot soPath dl desc createFn) := by
  have hother {i : SlotIx} (hne : i ≠ slot) :
      (c.fill slot soPath dl desc createFn).handles i = c.handles i :=
    Function.update_of_ne hne ..
  have hfrom {i : SlotIx} (hne : i ≠ slot) :
      (c.fill slot soPath dl desc createFn).loadedFrom i = c.loadedFrom i :=
    Function.update_of_ne hne ..
  have hself : (c.fill slot soPath dl desc createFn).handles slot =
      ⟨some dl, createFn, desc, cut maxPathSize soPath, true⟩ := Function.update_self ..
  have hnew : (c.fill slot soPath dl desc createFn).loadedFrom slot = soPath :=
    Function.update_self ..
  have hins : (c.fill slot soPath dl desc createFn).usedSlots = insert slot c.usedSlots := by
    ext i
    rw [Finset.mem_insert, Cache.mem_usedSlots, Cache.mem_usedSlots]
    rcases eq_or_ne i slot with rfl | hne
    · rw [hself]
      simp
    · rw [hother hne]
      simp [hne]
  have hout : slot ∉ c.usedSlots := by
    rw [Cache.mem_usedSlots, hfree]
    exact Bool.false_ne_true
  refine ⟨?_, fun i hi => ?_, fun i hi => ?_⟩
  · rw [hins, Finset.card_insert_of_notMem hout]
    push_cast
    rw [← h.count]
    rfl
  · rcases eq_or_ne i slot with rfl | hne
    · rw [hself, hnew]
    · rw [hother hne] at hi ⊢
      rw [hfrom hne]
      exact h.stored i hi
  · rcases eq_or_ne i slot with rfl | hne
    · rwa [hnew]
    · rw [hfrom hne]
      exact h.named i (hother hne ▸ hi)

/-- Slots go out of use. -/
theorem Inv.shrink {c c' : Cache} (h : Inv c) (hcount : c'.count = c'.usedSlots.card)
    (hfrom : c'.loadedFrom = c.loadedFrom)
    (hkept : ∀ i, (c'.handles i).used = true → c'.handles i = c.handles i) : Inv c' where
  count := hcount
  stored i hi := by
    have heq := hkept i hi
    rw [hfrom, heq]
    exact h.stored i (heq ▸ hi)
  named i hi := by
    rw [hfrom]
    exact h.named i (hkept i hi ▸ hi)

theorem loadedFrom_logPluginUnload (c : Cache) (ptr : Option SlotIx) :
    (logPluginUnload ptr c).loadedFrom = c.loadedFrom := by
  fun_cases logPluginUnload ptr c <;> rfl

/-- An unload leaves the other slots alone. -/
theorem handles_logPluginUnload {c : Cache} {ptr : Option SlotIx} {i : SlotIx}
    (hi : ((logPluginUnload ptr c).handles i).used = true) :
    (logPluginUnload ptr c).handles i = c.handles i := by
  cases ptr with
  | none => rfl
  | some slot =>
    rw [logPluginUnload] at hi ⊢
    split_ifs at hi ⊢ with hused
    · change (Function.update c.handles slot .zero i).used = true at hi
      change Function.update c.handles slot .zero i = c.handles i
      rcases eq_or_ne i slot with rfl | hne
      · rw [Function.update_self] at hi
        cases hi
      · exact Function.update_of_ne hne ..
    · rfl

theorem count_logPluginUnload {c : Cache} (h : c.count = c.usedSlots.card) (ptr : Option SlotIx) :
    (logPluginUnload ptr c).count = (logPluginUnload ptr c).usedSlots.card := by
  cases ptr with
  | none => exact h
  | some slot =>
    rw [logPluginUnload]
    split_ifs with hused
    · have herase : (c.clear slot).usedSlots = c.usedSlots.erase slot := by
        ext i
        rw [Finset.mem_erase, Cache.mem_usedSlots, Cache.mem_usedSlots, Cache.clear]
        rcases eq_or_ne i slot with rfl | hne
        · simp [Handle.zero]
        · simp [hne]
      change c.count - 1 = ((c.clear slot).usedSlots.card : ℤ)
      have hmem := Cache.mem_usedSlots.2 hused
      have hpos := Finset.card_pos.2 ⟨slot, hmem⟩
      rw [herase, Finset.card_erase_of_mem hmem, h]
      omega
    · exact h

/-- After `log_plugin_shutdown_all` no slot is in use. -/
theorem used_logPluginShutdownAll (c : Cache) (i : SlotIx) :
    ((logPluginShutdownAll c).handles i).used = false := by
  change (if (c.handles i).used then Handle.zero else c.handles i).used = false
  split_ifs with hused
  · rfl
  · exact Bool.eq_false_iff.2 hused

theorem usedSlots_logPluginShutdownAll (c : Cache) : (logPluginShutdownAll c).usedSlots = ∅ := by
  ext i
  rw [Cache.mem_usedSlots, used_logPluginShutdownAll c i]
  simp

/-- **Every call keeps the invariant.** -/
theorem Inv.apply {c : Cache} (h : Inv c) (a : Act) : Inv (a.apply c) := by
  cases a with
  | load soPath lib =>
    rcases logPluginLoad_cases soPath lib c with ⟨i, -, heq⟩ | ⟨-, hfailed⟩ |
      ⟨slot, dl, desc, hpath, -, hfree, heq⟩
    · rw [Act.apply, heq]
      exact h
    · exact h.failed hfailed
    · rw [Act.apply, heq]
      obtain ⟨hcount, hstored, hnamed⟩ := h.fill hfree hpath dl desc lib.createFn
      exact ⟨hcount, hstored, hnamed⟩
  | unload ptr =>
    exact h.shrink (count_logPluginUnload h.count ptr) (loadedFrom_logPluginUnload c ptr)
      fun i hi => handles_logPluginUnload hi
  | shutdownAll =>
    refine h.shrink ?_ rfl fun i hi => absurd hi ?_
    · rw [Act.apply, usedSlots_logPluginShutdownAll]
      rfl
    · rw [Act.apply, used_logPluginShutdownAll c i]
      exact Bool.false_ne_true

theorem inv_init : Inv .init where
  count := by
    have hempty : Cache.init.usedSlots = ∅ := by
      ext i
      rw [Cache.mem_usedSlots]
      simp [Cache.init, Handle.zero]
    rw [hempty]
    rfl
  stored _ hi := by cases hi
  named _ hi := by cases hi

theorem after_concat (acts : List Act) (a : Act) : after (acts ++ [a]) = a.apply (after acts) := by
  rw [after, List.foldl_append]
  rfl

/-- **After any calls the count is right.** -/
theorem inv_after (acts : List Act) : Inv (after acts) := by
  induction acts using List.reverseRecOn with
  | nil => exact inv_init
  | append_singleton acts a ih =>
    rw [after_concat]
    exact ih.apply a

/-! ### Loading a path twice -/

/-- No path is loaded in two slots. -/
def Single (c : Cache) : Prop :=
  ∀ i j, (c.handles i).used = true → (c.handles j).used = true →
    c.loadedFrom i = c.loadedFrom j → i = j

/-- What a call owes to the paths loaded before it.  A load of a path that is loaded returns its
handle, without another `clog_dlopen`; and a load that fails changes no slot in use and brings
none into use. -/
def Kept (c : Cache) : Act → Prop
  | .load soPath lib =>
    (∀ i, (c.handles i).used = true → c.loadedFrom i = soPath →
      logPluginLoad soPath lib c = (some i, c)) ∧
    ((logPluginLoad soPath lib c).1 = none →
      (logPluginLoad soPath lib c).2.usedSlots = c.usedSlots)
  | _ => True

/-- If the path is loaded, it is stored whole, and no slot before its own stores the same bytes of
a longer path. -/
def Unclipped (c : Cache) : Act → Prop
  | .load soPath _ =>
    ∀ i, (c.handles i).used = true → c.loadedFrom i = soPath →
      soPath.length < maxPathSize ∧
        ∀ j < i, (c.handles j).used = true → cut maxPathSize (c.loadedFrom j) ≠ soPath
  | _ => True

theorem cut_eq_self_iff {n : ℕ} (hn : 0 < n) {t : Text} : cut n t = t ↔ t.length < n := by
  rw [cut, List.take_eq_self_iff]
  omega

/-- **A loaded path is found exactly if it is unclipped.** -/
theorem load_kept_iff {c : Cache} (h : Inv c) (a : Act) : Kept c a ↔ Unclipped c a := by
  cases a with
  | unload | shutdownAll => exact Iff.rfl
  | load soPath lib =>
    have hfails : (logPluginLoad soPath lib c).1 = none →
        (logPluginLoad soPath lib c).2.usedSlots = c.usedSlots := by
      intro hnone
      rcases logPluginLoad_cases soPath lib c with ⟨i, -, heq⟩ | ⟨-, hfailed⟩ |
        ⟨slot, dl, desc, -, -, -, heq⟩
      · rw [heq]
      · exact hfailed.usedSlots
      · rw [heq] at hnone
        cases hnone
    rw [Kept, and_iff_left hfails, Unclipped]
    refine forall_congr' fun i => forall_congr' fun hi => forall_congr' fun hfrom => ?_
    have hstored := h.stored i hi
    rw [hfrom] at hstored
    have hfind : c.findSlotLocked soPath = some i ↔ soPath.length < maxPathSize ∧
        ∀ j < i, (c.handles j).used = true → cut maxPathSize (c.loadedFrom j) ≠ soPath := by
      rw [findSlotLocked_eq_some, hstored, cut_eq_self_iff (by decide), and_iff_right hi]
      refine and_congr_right fun _ => forall_congr' fun j => forall_congr' fun _ =>
        forall_congr' fun hj => ?_
      rw [h.stored j hj]
    rw [← hfind]
    constructor
    · intro hload
      rcases logPluginLoad_cases soPath lib c with ⟨k, hk, heq⟩ | ⟨hnone, -⟩ |
        ⟨slot, dl, desc, -, -, hfree, heq⟩
      · rw [heq] at hload
        rw [hk]
        exact (Prod.mk.inj hload).1
      · rw [hload] at hnone
        cases hnone
      · rw [heq] at hload
        obtain rfl := Option.some.inj (Prod.mk.inj hload).1
        rw [hi] at hfree
        cases hfree
    · intro hk
      rw [logPluginLoad, if_neg (hfrom ▸ h.named i hi), hk]

/-- A call that loads nothing anew keeps the paths apart. -/
theorem Single.of_kept {c c' : Cache} (h : Single c) (hfrom : c'.loadedFrom = c.loadedFrom)
    (hused : ∀ i, (c'.handles i).used = true → (c.handles i).used = true) : Single c' := by
  intro i j hi hj heq
  rw [hfrom] at heq
  exact h i j (hused i hi) (hused j hj) heq

/-- **An unclipped call keeps the paths apart.** -/
theorem Single.apply {c : Cache} (h : Single c) (hinv : Inv c) {a : Act} (hok : Unclipped c a) :
    Single (a.apply c) := by
  cases a with
  | unload ptr =>
    refine h.of_kept (loadedFrom_logPluginUnload c ptr) fun i hi => ?_
    rw [← handles_logPluginUnload hi]
    exact hi
  | shutdownAll =>
    refine h.of_kept rfl fun i hi => absurd hi ?_
    rw [Act.apply, used_logPluginShutdownAll c i]
    exact Bool.false_ne_true
  | load soPath lib =>
    rcases logPluginLoad_cases soPath lib c with ⟨i, -, heq⟩ | ⟨-, hfailed⟩ |
      ⟨slot, dl, desc, -, hfind, hfree, heq⟩
    · rw [Act.apply, heq]
      exact h
    · exact h.of_kept hfailed.2.1 fun i hi => (hfailed.handles i).1 ▸ hi
    · rw [Act.apply, heq]
      -- no slot holds the path that comes into the free slot
      have hnew {j : SlotIx} (hj : (c.handles j).used = true) : c.loadedFrom j ≠ soPath := by
        intro hfrom
        have hshort := (hok j hj hfrom).1
        refine findSlotLocked_eq_none hfind hj ?_
        rw [hinv.stored j hj, hfrom, (cut_eq_self_iff (by decide)).2 hshort]
      intro i j hi hj hsame
      change (Function.update c.handles slot _ i).used = true at hi
      change (Function.update c.handles slot _ j).used = true at hj
      change Function.update c.loadedFrom slot soPath i =
        Function.update c.loadedFrom slot soPath j at hsame
      rcases eq_or_ne i slot with rfl | hine
      · rcases eq_or_ne j i with rfl | hjne
        · rfl
        · rw [Function.update_self, Function.update_of_ne hjne] at hsame
          rw [Function.update_of_ne hjne] at hj
          exact absurd hsame.symm (hnew hj)
      · rw [Function.update_of_ne hine] at hi hsame
        rcases eq_or_ne j slot with rfl | hjne
        · rw [Function.update_self] at hsame
          exact absurd hsame (hnew hi)
        · rw [Function.update_of_ne hjne] at hj hsame
          exact h i j hi hj hsame

/-- What should hold along the calls `acts`: after each of them the count is that of the slots in
use, there are at most sixteen of these, no path is loaded in two of them, and the next call keeps
what it owes. -/
def Sound (acts : List Act) : Prop :=
  ∀ before, before <+: acts →
    ((after before).count = (after before).usedSlots.card ∧
      (after before).usedSlots.card ≤ maxLoadedPlugins ∧ Single (after before)) ∧
    ∀ a, before ++ [a] <+: acts → Kept (after before) a

/-- Unclipped calls keep the paths apart all along. -/
theorem single_after {acts : List Act}
    (h : ∀ before a, before ++ [a] <+: acts → Single (after before) → Unclipped (after before) a)
    (before : List Act) (hpre : before <+: acts) : Single (after before) := by
  induction before using List.reverseRecOn with
  | nil =>
    intro i j hi
    cases hi
  | append_singleton before a ih =>
    have hbefore := ih ((List.prefix_append before [a]).trans hpre)
    rw [after_concat]
    exact hbefore.apply (inv_after before) (h before a hpre hbefore)

/-- **The cache is sound exactly if no load of a loaded path is clipped.**  For every sequence of
loads, unloads and shutdowns; a scan is a sequence of loads. -/
theorem cache_sound_iff (acts : List Act) :
    (Sound acts ↔ ∀ before a, before ++ [a] <+: acts → Unclipped (after before) a) ∧
    ∀ dir listing max lib c, (logPluginScan dir listing max lib c).2 =
      (scanActs dir listing lib).foldl Act.apply c := by
  refine ⟨⟨fun h before a hpre => ?_, fun h before hpre => ⟨⟨?_, ?_, ?_⟩, fun a ha => ?_⟩⟩,
    logPluginScan_eq⟩
  · have hbefore := (List.prefix_append before [a]).trans hpre
    exact (load_kept_iff (inv_after before) a).1 ((h before hbefore).2 a hpre)
  · exact (inv_after before).count
  · exact (Finset.card_le_univ _).trans_eq (Fintype.card_fin _)
  · exact single_after (fun before a hpre _ => h before a hpre) before hpre
  · exact (load_kept_iff (inv_after before) a).2 (h before a ha)

/-- A library that loads, with a descriptor of the right version. -/
def goodLibrary : Library := ⟨some 1, some (some ⟨pluginAbiVersion⟩), none⟩

/-- **A path of 600 bytes is loaded twice:** by two scans of the same directory, each with a
`clog_dlopen` of its own and a handle of its own. -/
theorem long_path_twice :
    let dir := List.replicate 595 97
    let path := dir ++ str "/b.so"
    let scan := logPluginScan dir (some [str "b.so"]) 1 fun _ => goodLibrary
    let first := scan .init
    let second := scan first.2
    first.1 = (1, [⟨0, by decide⟩]) ∧ second.1 = (1, [⟨1, by decide⟩]) ∧
      second.2.opens = [path, path] ∧ second.2.count = 2 ∧
      (∀ i : SlotIx, i.val < 2 →
        (second.2.handles i).used = true ∧ second.2.loadedFrom i = path) := by
  decide +kernel

/-- Every slot in use was filled by a load of its path. -/
theorem load_mem_of_used (acts : List Act) (i : SlotIx)
    (hi : ((after acts).handles i).used = true) :
    ∃ lib, Act.load ((after acts).loadedFrom i) lib ∈ acts := by
  induction acts using List.reverseRecOn with
  | nil => cases hi
  | append_singleton acts a ih =>
    rw [after_concat] at hi ⊢
    -- a slot that the last call did not fill
    have hold (hfrom : (a.apply (after acts)).loadedFrom i = (after acts).loadedFrom i)
        (hused : ((after acts).handles i).used = true) :
        ∃ lib, Act.load ((a.apply (after acts)).loadedFrom i) lib ∈ acts ++ [a] := by
      obtain ⟨lib, hmem⟩ := ih hused
      exact ⟨lib, List.mem_append_left _ (hfrom ▸ hmem)⟩
    cases a with
    | unload ptr =>
      refine hold (congrFun (loadedFrom_logPluginUnload _ ptr) i) ?_
      rw [← handles_logPluginUnload hi]
      exact hi
    | shutdownAll =>
      rw [Act.apply, used_logPluginShutdownAll] at hi
      cases hi
    | load soPath lib =>
      rcases logPluginLoad_cases soPath lib (after acts) with ⟨k, -, heq⟩ | ⟨-, hfailed⟩ |
        ⟨slot, dl, desc, -, -, -, heq⟩
      · rw [Act.apply, heq] at hi hold ⊢
        exact hold rfl hi
      · exact hold (congrFun hfailed.2.1 i) ((hfailed.handles i).1 ▸ hi)
      · rw [Act.apply, heq] at hi hold ⊢
        rcases eq_or_ne i slot with rfl | hne
        · refine ⟨lib, List.mem_append_right _ (List.mem_singleton.2 ?_)⟩
          exact congrArg (Act.load · lib) (Function.update_self ..)
        · refine hold (Function.update_of_ne hne ..) ?_
          change (Function.update (after acts).handles slot _ i).used = true at hi
          rwa [Function.update_of_ne hne] at hi

/-- **With paths below 512 bytes no load is clipped.** -/
theorem unclipped_of_short {acts : List Act}
    (hshort : ∀ soPath lib, Act.load soPath lib ∈ acts → soPath.length < maxPathSize)
    (before : List Act) (a : Act) (hpre : before ++ [a] <+: acts) :
    Unclipped (after before) a := by
  have hfrom {before : List Act} (hpre : before <+: acts) {i : SlotIx}
      (hi : ((after before).handles i).used = true) :
      ((after before).loadedFrom i).length < maxPathSize := by
    obtain ⟨lib, hmem⟩ := load_mem_of_used before i hi
    exact hshort _ lib (hpre.subset hmem)
  have hnext (before : List Act) (a : Act) (hpre : before ++ [a] <+: acts)
      (hsingle : Single (after before)) : Unclipped (after before) a := by
    have hbefore := (List.prefix_append before [a]).trans hpre
    cases a with
    | unload | shutdownAll => trivial
    | load soPath lib =>
      rintro i hi rfl
      refine ⟨hfrom hbefore hi, fun j hj hused hcut => ?_⟩
      rw [(cut_eq_self_iff (by decide)).2 (hfrom hbefore hused)] at hcut
      exact hj.ne (hsingle j i hused hi hcut)
  have hbefore := (List.prefix_append before [a]).trans hpre
  exact hnext before a hpre (single_after hnext before hbefore)

end Plugin
end Clogx
