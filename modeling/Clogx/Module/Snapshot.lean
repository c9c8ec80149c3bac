/-
# The module name under concurrent writers

`logger_set_module_internal` and the snapshot that `logger_writevprintf_internal`
and `logger_write_kv_internal` take of `logger->module` (`core/log.c`), on any
number of threads.  One step is one operation on shared memory: a mutex call, a
look at `module_gen` or an increment of it, the store of one byte by `snprintf`,
or the copy of one byte by `memcpy`.

The writers hold `module_mutex`, so they follow the sequence lock one at a time;
the fast path of a reader ignores the mutex and relies on the counter, and its
fallback takes the mutex.  `module_gen` does not wrap.

`since` and `versions` are history: the number of sets completed when the log call
of a thread began, and the contents of `module` after each completed set.
-/

import Clogx.CLib.Text
import Clogx.Machine.Run
import Clogx.Seqlock.Protocol

namespace Clogx
namespace Module

open CLib
open Machine (Reach Reachable)
open Seqlock (Mem Copying)

/-- `sizeof(logger->module)`. -/
def moduleSize : ℕ := 64

/-- `char[64]`. -/
abbrev Bytes := Fin moduleSize → UInt8

/-- A store to one byte of `module`. -/
abbrev Store := Fin moduleSize × UInt8

/-- The name that is set: `main` for `NULL` and for the empty name. -/
def nameOf : Option Text → Text
  | none | some [] => str "main"
  | some m => m

/-- The stores of `snprintf(logger->module, 64, "%s", name)`: what fits, and the terminator. -/
def snprintfStores (name : Text) : List Store :=
  (List.finRange moduleSize).zip (cut moduleSize name ++ [0])

/-- What the stores `todo` make of the bytes. -/
def storeAll (todo : List Store) (b : Bytes) : Bytes :=
  todo.foldl (fun b e => Function.update b e.1 e.2) b

/-- Where a thread stands: in `logger_set_module_internal`, or in the part of a log call that
takes the snapshot. -/
inductive Pc
  | idle
  | setLock (todo : List Store)
  | setOdd (todo : List Store)
  | setStore (todo : List Store)
  | setEven
  | setUnlock
  | loadGen
  | copy (gen1 : ℕ) (todo : List (Fin moduleSize))
  | reloadGen (gen1 : ℕ)
  | lock
  | lockedCopy (todo : List (Fin moduleSize))
  | unlock
  | taken
deriving DecidableEq

/-- The name, its counter and mutex, the threads with their arrays `module_buf`, and the
history. -/
structure State (ι : Type*) where
  module : Bytes
  moduleGen : ℕ
  moduleMutex : Option ι
  pc : ι → Pc
  moduleBuf : ι → Bytes
  since : ι → ℕ
  versions : List Bytes

/-- The contents of `module` when `logger_init_internal` or `logger_create_from_config` returns:
they set the name over the bytes `old` and the counter back to 0. -/
def initialName (old : Bytes) : Bytes := storeAll (snprintfStores (nameOf (some (str "main")))) old

/-- The logger as it was created; the arrays of the threads are whatever they were. -/
def State.init {ι : Type*} (old : Bytes) (junk : ι → Bytes) : State ι where
  module := initialName old
  moduleGen := 0
  moduleMutex := none
  pc _ := .idle
  moduleBuf := junk
  since _ := 0
  versions := [initialName old]

/-- A call begins, or a thread takes its next step. -/
inductive Act (ι : Type*)
  | callSet (t : ι) (m : Option Text)
  | callLog (t : ι)
  | step (t : ι)

variable {ι : Type*} [DecidableEq ι]

namespace State

variable (s : State ι)

/-- Thread `t` goes to `pc`. -/
def goto (t : ι) (pc : Pc) : State ι := { s with pc := Function.update s.pc t pc }

/-- `module_buf[k] = logger->module[k]` of thread `t`. -/
def copyByte (t : ι) (k : Fin moduleSize) : State ι :=
  { s with
    moduleBuf := Function.update s.moduleBuf t (Function.update (s.moduleBuf t) k (s.module k)) }

end State

/-- One step of thread `t`. -/
def threadStep (s : State ι) (t : ι) : Option (State ι) :=
  match s.pc t with
  | .idle | .taken => none
  | .setLock todo =>
    if s.moduleMutex = none then some ({ s with moduleMutex := some t }.goto t (.setOdd todo))
    else none
  | .setOdd todo => some ({ s with moduleGen := s.moduleGen + 1 }.goto t (.setStore todo))
  | .setStore [] => some (s.goto t .setEven)
  | .setStore ((k, c) :: todo) =>
    some ({ s with module := Function.update s.module k c }.goto t (.setStore todo))
  | .setEven =>
    some ({ s with
      moduleGen := s.moduleGen + 1
      versions := s.versions ++ [s.module] }.goto t .setUnlock)
  | .setUnlock => some ({ s with moduleMutex := none }.goto t .idle)
  | .loadGen =>
    if s.moduleGen % 2 = 0 then
      some (s.goto t (.copy s.moduleGen (List.finRange moduleSize)))
    else some (s.goto t .lock)
  | .copy gen1 [] => some (s.goto t (.reloadGen gen1))
  | .copy gen1 (k :: todo) => some ((s.copyByte t k).goto t (.copy gen1 todo))
  | .reloadGen gen1 =>
    if gen1 = s.moduleGen then some (s.goto t .taken) else some (s.goto t .lock)
  | .lock =>
    if s.moduleMutex = none then
      some ({ s with moduleMutex := some t }.goto t (.lockedCopy (List.finRange moduleSize)))
    else none
  | .lockedCopy [] => some (s.goto t .unlock)
  | .lockedCopy (k :: todo) => some ((s.copyByte t k).goto t (.lockedCopy todo))
  | .unlock => some ({ s with moduleMutex := none }.goto t .taken)

/-- No call of the thread is in progress. -/
def Pc.free : Pc → Bool
  | .idle | .taken => true
  | _ => false

/-- One step of the system. -/
def step (s : State ι) : Act ι → Option (State ι)
  | .callSet t m =>
    if (s.pc t).free then some (s.goto t (.setLock (snprintfStores (nameOf m)))) else none
  | .callLog t =>
    if (s.pc t).free then
      some ({ s with since := Function.update s.since t (s.versions.length - 1) }.goto t .loadGen)
    else none
  | .step t => threadStep s t

/-! ### The invariant -/

/-- The sequence lock in the state. -/
def State.mem (s : State ι) : Mem (Fin moduleSize) UInt8 := ⟨s.moduleGen, s.module, s.versions⟩

/-- The thread holds `module_mutex`. -/
def Pc.holds : Pc → Bool
  | .setOdd _ | .setStore _ | .setEven | .setUnlock | .lockedCopy _ | .unlock => true
  | _ => false

/-- The thread is between the two increments. -/
def Pc.writing : Pc → Bool
  | .setStore _ | .setEven => true
  | _ => false

/-- There is a terminator. -/
def Terminated (b : Bytes) : Prop := ∃ i, b i = 0

/-- `snprintf` stores a terminator, last. -/
theorem snprintfStores_eq (name : Text) :
    ∃ todo i, snprintfStores name = todo ++ [(i, 0)] := by
  have hlt : (cut moduleSize name).length < moduleSize := length_cut_lt (by decide) name
  let i : Fin moduleSize := ⟨(cut moduleSize name).length, hlt⟩
  let all := List.finRange moduleSize
  have hlen : (all.take i).length = (cut moduleSize name).length := by
    rw [List.length_take, List.length_finRange]
    exact min_eq_left hlt.le
  have hdrop : all.drop i = i :: all.drop (i + 1) := by
    have hi : i.1 < all.length := by
      rw [List.length_finRange]
      exact hlt
    rw [List.drop_eq_getElem_cons hi, List.getElem_finRange]
    rfl
  refine ⟨(all.take i).zip (cut moduleSize name), i, ?_⟩
  calc snprintfStores name
      = (all.take i ++ all.drop i).zip (cut moduleSize name ++ [0]) := by
        rw [List.take_append_drop]
        rfl
    _ = (all.take i).zip (cut moduleSize name) ++ (all.drop i).zip [0] := List.zip_append hlen
    _ = (all.take i).zip (cut moduleSize name) ++ [(i, 0)] := by
        rw [hdrop, List.zip_cons_cons, List.zip_nil_right]

/-- Whatever was there before, there is a terminator after `snprintf`. -/
theorem terminated_snprintf (name : Text) (b : Bytes) :
    Terminated (storeAll (snprintfStores name) b) := by
  obtain ⟨todo, i, heq⟩ := snprintfStores_eq name
  refine ⟨i, ?_⟩
  rw [heq, storeAll, List.foldl_append]
  exact Function.update_self ..

/-- The copy is the contents after a completed set, not older than the last one before the call. -/
def Whole (versions : List Bytes) (since : ℕ) (buf : Bytes) : Prop :=
  ∃ v, since ≤ v ∧ versions[v]? = some buf

/-- What holds of a thread at its place. -/
def Pc.Ok (r : Mem (Fin moduleSize) UInt8) (since : ℕ) (buf : Bytes) : Pc → Prop
  | .idle => True
  | .setLock todo | .setOdd todo => ∀ b, Terminated (storeAll todo b)
  | .setStore todo => Terminated (storeAll todo r.cells)
  | .setEven => Terminated r.cells
  | .setUnlock => True
  | .loadGen | .lock => since ≤ r.gen / 2
  | .copy gen1 todo => Copying r since gen1 (· ∉ todo) buf
  | .reloadGen gen1 => Copying r since gen1 (fun _ => True) buf
  | .lockedCopy todo => Copying r since r.gen (· ∉ todo) buf
  | .unlock | .taken => Whole r.versions since buf

/-- The invariant. -/
structure Inv (s : State ι) : Prop where
  mem : Seqlock.Inv s.mem
  owner : ∀ t, (s.pc t).holds = true ↔ s.moduleMutex = some t
  odd : ∀ t, (s.pc t).writing = true → s.moduleGen % 2 = 1
  even : (∀ t, (s.pc t).writing = false) → s.moduleGen % 2 = 0
  terminated : ∀ b ∈ s.versions, Terminated b
  threads : ∀ t, (s.pc t).Ok s.mem (s.since t) (s.moduleBuf t)

theorem Pc.holds_of_writing {p : Pc} (h : p.writing = true) : p.holds = true := by
  cases p <;> first | rfl | cases h

theorem Pc.holds_of_free {p : Pc} (h : p.free = true) : p.holds = false := by
  cases p <;> first | rfl | cases h

theorem Pc.writing_of_free {p : Pc} (h : p.free = true) : p.writing = false := by
  cases p <;> first | rfl | cases h

/-! ### What the other threads keep -/

section Frame

variable {r : Mem (Fin moduleSize) UInt8} {since : ℕ} {buf : Bytes} {p : Pc}

/-- A writer enters. -/
theorem Pc.Ok.enter (h : p.Ok r since buf) (hp : p.holds = false) : p.Ok r.enter since buf := by
  cases p with
  | idle | setLock | taken => exact h
  | loadGen | lock =>
    have hle : since ≤ r.gen / 2 := h
    change since ≤ (r.gen + 1) / 2
    omega
  | copy | reloadGen => exact Copying.enter h
  | setOdd | setStore | setEven | setUnlock | lockedCopy | unlock => cases hp

/-- A writer stores a byte. -/
theorem Pc.Ok.store (h : p.Ok r since buf) (hp : p.holds = false) (hodd : r.gen % 2 = 1)
    (k : Fin moduleSize) (c : UInt8) : p.Ok (r.store k c) since buf := by
  cases p with
  | idle | setLock | taken | loadGen | lock => exact h
  | copy | reloadGen => exact Copying.store h hodd k c
  | setOdd | setStore | setEven | setUnlock | lockedCopy | unlock => cases hp

/-- A writer leaves. -/
theorem Pc.Ok.leave (h : p.Ok r since buf) (hp : p.holds = false) : p.Ok r.leave since buf := by
  cases p with
  | idle | setLock => exact h
  | loadGen | lock =>
    have hle : since ≤ r.gen / 2 := h
    change since ≤ (r.gen + 1) / 2
    omega
  | copy | reloadGen => exact Copying.leave h
  | taken =>
    obtain ⟨v, hv, hversion⟩ := h
    exact ⟨v, hv, Seqlock.version_leave hversion⟩
  | setOdd | setStore | setEven | setUnlock | lockedCopy | unlock => cases hp

end Frame

/-! ### Steps -/

variable {s s' : State ι} {t : ι} {p : Pc}

/-- Only thread `t` has moved, to `p`. -/
structure Moves (s s' : State ι) (t : ι) (p : Pc) : Prop where
  pc : s'.pc = Function.update s.pc t p
  buf : ∀ u ≠ t, s'.moduleBuf u = s.moduleBuf u
  since : ∀ u ≠ t, s'.since u = s.since u

/-- A step that leaves the arrays alone. -/
theorem Moves.goto (s : State ι) (t : ι) (p : Pc) : Moves s (s.goto t p) t p :=
  ⟨rfl, fun _ _ => rfl, fun _ _ => rfl⟩

/-- **The invariant after a move of one thread,** from what the move does to the lock, and what
the others keep. -/
theorem Inv.move (h : Inv s) (hm : Moves s s' t p) (hmem : Seqlock.Inv s'.mem)
    (howner : p.holds = true ↔ s'.moduleMutex = some t)
    (hothers : ∀ u ≠ t, s'.moduleMutex = some u ↔ s.moduleMutex = some u)
    (hparity : s'.moduleGen % 2 = 1 ↔ p.writing = true ∨ ∃ u ≠ t, (s.pc u).writing = true)
    (hterm : ∀ b ∈ s'.versions, Terminated b)
    (hframe : ∀ u ≠ t, (s.pc u).Ok s'.mem (s.since u) (s.moduleBuf u))
    (hok : p.Ok s'.mem (s'.since t) (s'.moduleBuf t)) : Inv s' where
  mem := hmem
  owner u := by
    rw [hm.pc]
    rcases eq_or_ne u t with rfl | hne
    · rw [Function.update_self]
      exact howner
    · rw [Function.update_of_ne hne, hothers u hne]
      exact h.owner u
  odd u hu := by
    rw [hm.pc] at hu
    refine hparity.2 ?_
    rcases eq_or_ne u t with rfl | hne
    · rw [Function.update_self] at hu
      exact .inl hu
    · rw [Function.update_of_ne hne] at hu
      exact .inr ⟨u, hne, hu⟩
  even hnone := by
    by_contra hodd
    rw [hm.pc] at hnone
    rcases hparity.1 (by omega) with hp | ⟨u, hne, hu⟩
    · have ht := hnone t
      rw [Function.update_self, hp] at ht
      cases ht
    · have hu' := hnone u
      rw [Function.update_of_ne hne, hu] at hu'
      cases hu'
  terminated := hterm
  threads u := by
    rw [hm.pc]
    rcases eq_or_ne u t with rfl | hne
    · rw [Function.update_self]
      exact hok
    · rw [Function.update_of_ne hne, hm.buf u hne, hm.since u hne]
      exact hframe u hne

omit [DecidableEq ι] in
/-- The counter is odd exactly if a thread is writing. -/
theorem Inv.parity (h : Inv s) : s.moduleGen % 2 = 1 ↔ ∃ u, (s.pc u).writing = true := by
  constructor
  · intro hodd
    by_contra hno
    have heven := h.even fun u => Bool.eq_false_iff.2 fun hu => hno ⟨u, hu⟩
    omega
  · rintro ⟨u, hu⟩
    exact h.odd u hu

omit [DecidableEq ι] in
/-- Who holds the mutex is the only one who does. -/
theorem Inv.holds_false (h : Inv s) (ht : (s.pc t).holds = true) {u : ι} (hne : u ≠ t) :
    (s.pc u).holds = false := by
  refine Bool.eq_false_iff.2 fun hu => hne ?_
  have heq := ((h.owner u).1 hu).symm.trans ((h.owner t).1 ht)
  exact Option.some.inj heq

omit [DecidableEq ι] in
theorem Inv.writing_false (h : Inv s) (ht : (s.pc t).holds = true) {u : ι} (hne : u ≠ t) :
    (s.pc u).writing = false := by
  refine Bool.eq_false_iff.2 fun hu => ?_
  have hfalse := h.holds_false ht hne
  rw [Pc.holds_of_writing hu] at hfalse
  cases hfalse

/-- A step that leaves the name, the counter and the mutex alone. -/
theorem Inv.quiet (h : Inv s) (hm : Moves s s' t p) (hmem : s'.mem = s.mem)
    (hmutex : s'.moduleMutex = s.moduleMutex) (hholds : p.holds = (s.pc t).holds)
    (hwriting : p.writing = (s.pc t).writing)
    (hok : p.Ok s.mem (s'.since t) (s'.moduleBuf t)) : Inv s' := by
  have hgen : s'.moduleGen = s.moduleGen := congrArg Mem.gen hmem
  have hversions : s'.versions = s.versions := congrArg Mem.versions hmem
  refine h.move hm (hmem ▸ h.mem) ?_ (fun u _ => by rw [hmutex]) ?_ ?_ (fun u _ => ?_) (hmem ▸ hok)
  · rw [hholds, hmutex]
    exact h.owner t
  · rw [hgen, h.parity, hwriting]
    constructor
    · rintro ⟨u, hu⟩
      rcases eq_or_ne u t with rfl | hne
      · exact .inl hu
      · exact .inr ⟨u, hne, hu⟩
    · rintro (ht | ⟨u, -, hu⟩)
      · exact ⟨t, ht⟩
      · exact ⟨u, hu⟩
  · rw [hversions]
    exact h.terminated
  · rw [hmem]
    exact h.threads u

/-- A thread goes from `q` to `p` and touches nothing. -/
theorem Inv.goto {q : Pc} (h : Inv s) (hpc : s.pc t = q) (hholds : p.holds = q.holds)
    (hwriting : p.writing = q.writing) (hok : p.Ok s.mem (s.since t) (s.moduleBuf t)) :
    Inv (s.goto t p) := by
  subst hpc
  exact h.quiet (.goto s t p) rfl rfl hholds hwriting hok

omit [DecidableEq ι] in
/-- Where nobody holds the mutex, nobody writes. -/
theorem Inv.even_of_free (h : Inv s) (hfree : s.moduleMutex = none) : s.moduleGen % 2 = 0 := by
  refine h.even fun u => Bool.eq_false_iff.2 fun hu => ?_
  have howner := (h.owner u).1 (Pc.holds_of_writing hu)
  rw [hfree] at howner
  cases howner

omit [DecidableEq ι] in
/-- Who holds the mutex and is not writing finds the counter even. -/
theorem Inv.even_of_holds (h : Inv s) (ht : (s.pc t).holds = true)
    (hw : (s.pc t).writing = false) : s.moduleGen % 2 = 0 := by
  refine h.even fun u => ?_
  rcases eq_or_ne u t with rfl | hne
  · exact hw
  · exact h.writing_false ht hne

/-- `clog_mutex_lock`. -/
theorem Inv.acquire (h : Inv s) (hfree : s.moduleMutex = none) (hp : p.holds = true)
    (hw : p.writing = false) (hok : p.Ok s.mem (s.since t) (s.moduleBuf t)) :
    Inv ({ s with moduleMutex := some t }.goto t p) := by
  have heven := h.even_of_free hfree
  refine h.move ⟨rfl, fun _ _ => rfl, fun _ _ => rfl⟩ h.mem (iff_of_true hp rfl) ?_ ?_ h.terminated
    (fun u _ => h.threads u) hok
  · intro u hne
    rw [hfree]
    exact iff_of_false (fun heq => hne (Option.some.inj heq).symm) (Option.some_ne_none u).symm
  · change s.moduleGen % 2 = 1 ↔ _
    refine iff_of_false (by omega) ?_
    rintro (ht | ⟨u, -, hu⟩)
    · rw [hw] at ht
      cases ht
    · have hodd := h.odd u hu
      omega

/-- `clog_mutex_unlock`. -/
theorem Inv.release (h : Inv s) (ht : (s.pc t).holds = true) (htw : (s.pc t).writing = false)
    (hp : p.holds = false) (hw : p.writing = false)
    (hok : p.Ok s.mem (s.since t) (s.moduleBuf t)) :
    Inv ({ s with moduleMutex := none }.goto t p) := by
  have heven := h.even_of_holds ht htw
  refine h.move ⟨rfl, fun _ _ => rfl, fun _ _ => rfl⟩ h.mem ?_ ?_ ?_ h.terminated
    (fun u _ => h.threads u) hok
  · rw [hp]
    exact iff_of_false Bool.false_ne_true (Option.some_ne_none t).symm
  · intro u hne
    have hu := h.holds_false ht hne
    refine iff_of_false (Option.some_ne_none u).symm fun heq => ?_
    rw [(h.owner u).2 heq] at hu
    cases hu
  · change s.moduleGen % 2 = 1 ↔ _
    refine iff_of_false (by omega) ?_
    rintro (hp' | ⟨u, hne, hu⟩)
    · rw [hw] at hp'
      cases hp'
    · rw [h.writing_false ht hne] at hu
      cases hu

/-- A writer's operation on the name: the new memory is `r`. -/
theorem Inv.write (h : Inv s) (hm : Moves s s' t p) (ht : (s.pc t).holds = true)
    (hmutex : s'.moduleMutex = s.moduleMutex) (hp : p.holds = true) (hmem : Seqlock.Inv s'.mem)
    (hparity : s'.moduleGen % 2 = 1 ↔ p.writing = true) (hterm : ∀ b ∈ s'.versions, Terminated b)
    (hframe : ∀ u, (s.pc u).holds = false → (s.pc u).Ok s'.mem (s.since u) (s.moduleBuf u))
    (hok : p.Ok s'.mem (s'.since t) (s'.moduleBuf t)) : Inv s' := by
  refine h.move hm hmem ?_ (fun u _ => by rw [hmutex]) ?_ hterm
    (fun u hne => hframe u (h.holds_false ht hne)) hok
  · rw [hmutex]
    exact iff_of_true hp ((h.owner t).1 ht)
  · rw [hparity]
    refine ⟨.inl, ?_⟩
    rintro (hw | ⟨u, hne, hu⟩)
    · exact hw
    · rw [h.writing_false ht hne] at hu
      cases hu

/-- The copy of the first byte of `todo`. -/
theorem copying_cons {r : Mem (Fin moduleSize) UInt8} {since gen : ℕ} {buf : Bytes}
    {k : Fin moduleSize} {todo : List (Fin moduleSize)}
    (h : Copying r since gen (· ∉ k :: todo) buf) :
    Copying r since gen (· ∉ todo) (Function.update buf k (r.cells k)) := by
  refine (h.copy k).mono fun j hj => ?_
  rcases eq_or_ne j k with rfl | hne
  · exact .inl rfl
  · exact .inr (List.not_mem_cons_of_ne_of_not_mem hne hj)

/-- **Every step of a thread keeps the invariant.** -/
theorem Inv.threadStep (h : Inv s) (hs : threadStep s t = some s') : Inv s' := by
  have hok := h.threads t
  unfold Module.threadStep at hs
  split at hs
  case h_1 => cases hs
  case h_2 => cases hs
  case h_3 todo hpc =>
    rw [hpc] at hok
    split_ifs at hs with hfree
    cases hs
    exact h.acquire hfree rfl rfl hok
  case h_4 todo hpc =>
    rw [hpc] at hok
    have ht : (s.pc t).holds = true := by rw [hpc]; rfl
    have heven := h.even_of_holds ht (by rw [hpc]; rfl)
    cases hs
    refine h.write (p := .setStore todo) ⟨rfl, fun _ _ => rfl, fun _ _ => rfl⟩ ht rfl rfl
      (h.mem.enter heven) ?_ h.terminated (fun u hu => (h.threads u).enter hu) (hok _)
    change (s.moduleGen + 1) % 2 = 1 ↔ true = true
    exact iff_of_true (by omega) rfl
  case h_5 hpc =>
    rw [hpc] at hok
    cases hs
    exact h.goto hpc rfl rfl hok
  case h_6 k c todo hpc =>
    rw [hpc] at hok
    have ht : (s.pc t).holds = true := by rw [hpc]; rfl
    have hodd := h.odd t (by rw [hpc]; rfl)
    cases hs
    exact h.write (p := .setStore todo) ⟨rfl, fun _ _ => rfl, fun _ _ => rfl⟩ ht rfl rfl
      (h.mem.store hodd k c) (iff_of_true hodd rfl) h.terminated
      (fun u hu => (h.threads u).store hu hodd k c) hok
  case h_7 hpc =>
    rw [hpc] at hok
    have ht : (s.pc t).holds = true := by rw [hpc]; rfl
    have hodd := h.odd t (by rw [hpc]; rfl)
    cases hs
    refine h.write (p := .setUnlock) ⟨rfl, fun _ _ => rfl, fun _ _ => rfl⟩ ht rfl rfl
      (h.mem.leave hodd) ?_ ?_ (fun u hu => (h.threads u).leave hu) trivial
    · change (s.moduleGen + 1) % 2 = 1 ↔ false = true
      exact iff_of_false (by omega) Bool.false_ne_true
    · intro b hb
      rcases List.mem_append.1 hb with hold | hnew
      · exact h.terminated b hold
      · obtain rfl := List.mem_singleton.1 hnew
        exact hok
  case h_8 hpc =>
    cases hs
    exact h.release (by rw [hpc]; rfl) (by rw [hpc]; rfl) rfl rfl trivial
  case h_9 hpc =>
    rw [hpc] at hok
    split_ifs at hs with heven <;> cases hs
    · refine h.goto hpc rfl rfl ?_
      refine (Copying.start (r := s.mem) heven hok _).mono fun k hk => ?_
      exact hk (List.mem_finRange k)
    · exact h.goto hpc rfl rfl hok
  case h_10 gen1 hpc =>
    rw [hpc] at hok
    cases hs
    exact h.goto hpc rfl rfl (hok.mono fun k _ => List.not_mem_nil)
  case h_11 gen1 k todo hpc =>
    rw [hpc] at hok
    cases hs
    refine h.quiet (p := .copy gen1 todo)
      ⟨rfl, fun u hne => Function.update_of_ne hne .., fun _ _ => rfl⟩ rfl rfl
      (by rw [hpc]; rfl) (by rw [hpc]; rfl) ?_
    change Copying s.mem (s.since t) gen1 (· ∉ todo)
      (Function.update s.moduleBuf t (Function.update (s.moduleBuf t) k (s.module k)) t)
    rw [Function.update_self]
    exact copying_cons hok
  case h_12 gen1 hpc =>
    rw [hpc] at hok
    split_ifs at hs with hsame <;> cases hs
    · exact h.goto hpc rfl rfl (hok.validated h.mem hsame.symm fun _ => trivial)
    · refine h.goto hpc rfl rfl ?_
      exact hok.since_le.trans (Nat.div_le_div_right hok.gen_le)
  case h_13 hpc =>
    rw [hpc] at hok
    split_ifs at hs with hfree
    cases hs
    refine h.acquire hfree rfl rfl ?_
    refine (Copying.start (r := s.mem) (h.even_of_free hfree) hok _).mono fun k hk => ?_
    exact hk (List.mem_finRange k)
  case h_14 hpc =>
    rw [hpc] at hok
    cases hs
    exact h.goto hpc rfl rfl (hok.validated h.mem rfl fun _ => List.not_mem_nil)
  case h_15 k todo hpc =>
    rw [hpc] at hok
    cases hs
    refine h.quiet (p := .lockedCopy todo)
      ⟨rfl, fun u hne => Function.update_of_ne hne .., fun _ _ => rfl⟩ rfl rfl
      (by rw [hpc]; rfl) (by rw [hpc]; rfl) ?_
    change Copying s.mem (s.since t) s.mem.gen (· ∉ todo)
      (Function.update s.moduleBuf t (Function.update (s.moduleBuf t) k (s.module k)) t)
    rw [Function.update_self]
    exact copying_cons hok
  case h_16 hpc =>
    rw [hpc] at hok
    cases hs
    exact h.release (by rw [hpc]; rfl) (by rw [hpc]; rfl) rfl rfl hok

/-- **Every step keeps the invariant.** -/
theorem Inv.step {a : Act ι} (h : Inv s) (hs : step s a = some s') : Inv s' := by
  cases a with
  | callSet t m =>
    simp only [Module.step] at hs
    split_ifs at hs with hfree
    cases hs
    exact h.quiet (.goto s t _) rfl rfl (Pc.holds_of_free hfree).symm
      (Pc.writing_of_free hfree).symm (terminated_snprintf (nameOf m))
  | callLog t =>
    simp only [Module.step] at hs
    split_ifs at hs with hfree
    cases hs
    refine h.quiet (p := .loadGen)
      ⟨rfl, fun _ _ => rfl, fun u hne => Function.update_of_ne hne ..⟩ rfl rfl
      (Pc.holds_of_free hfree).symm (Pc.writing_of_free hfree).symm ?_
    change Function.update s.since t (s.versions.length - 1) t ≤ s.moduleGen / 2
    have hcount : s.versions.length = s.moduleGen / 2 + 1 := h.mem.count
    rw [Function.update_self, hcount]
    exact le_rfl
  | step t => exact h.threadStep hs

omit [DecidableEq ι] in
theorem inv_init (old : Bytes) (junk : ι → Bytes) : Inv (State.init old junk) where
  mem := Seqlock.inv_start (initialName old)
  owner t := iff_of_false Bool.false_ne_true (Option.some_ne_none t).symm
  odd _ h := absurd h Bool.false_ne_true
  even _ := rfl
  terminated b hb := by
    obtain rfl := List.mem_singleton.1 hb
    exact terminated_snprintf _ old
  threads _ := trivial

/-- The invariant holds of every interleaving. -/
theorem inv_of_reachable {old : Bytes} {junk : ι → Bytes}
    (h : Reachable step (State.init old junk) s) : Inv s :=
  h.invariant (inv_init old junk) fun _ _ _ hinv _ hs => hinv.step hs

/-- **A snapshot is never torn.**  When a log call has taken its snapshot, in any interleaving
with calls that set the name, the bytes are the contents of `module` after a completed set (or
the initial ones), not older than the last one completed before the call began, and they have a
terminator. -/
theorem snapshot_whole {old : Bytes} {junk : ι → Bytes} (t : ι)
    (h : Reachable step (State.init old junk) s) (ht : s.pc t = .taken) :
    Whole s.versions (s.since t) (s.moduleBuf t) ∧ Terminated (s.moduleBuf t) := by
  have hinv := inv_of_reachable h
  have hwhole := hinv.threads t
  rw [ht] at hwhole
  obtain ⟨v, hv, hversion⟩ := hwhole
  exact ⟨⟨v, hv, hversion⟩, hinv.terminated _ (List.mem_of_getElem? hversion)⟩

/-- Thread 1 logs and has copied three bytes when thread 0 sets the name `db`: the second look at
the counter sends it to the mutex. -/
def overlapTrace : List (Act (Fin 2)) :=
  .callLog 1 :: List.replicate 4 (.step 1) ++ .callSet 0 (some (str "db")) ::
    List.replicate 8 (.step 0) ++ List.replicate 130 (.step 1)

/-- A set overlaps the copy, and the snapshot is the name that was set. -/
theorem snapshot_whole_overlap : ∃ s : State (Fin 2),
    Reachable step (State.init (fun _ => 0) fun _ _ => 0) s ∧ s.since 1 = 0 ∧
      s.versions.length = 2 ∧ s.moduleBuf 1 ⟨0, by decide⟩ = 100 ∧
      Whole s.versions (s.since 1) (s.moduleBuf 1) ∧ Terminated (s.moduleBuf 1) := by
  obtain ⟨s, hreach, ht, hsince, hversions, hname⟩ : ∃ s : State (Fin 2),
      Reachable step (State.init (fun _ => 0) fun _ _ => 0) s ∧ s.pc 1 = .taken ∧ s.since 1 = 0 ∧
        s.versions.length = 2 ∧ s.moduleBuf 1 ⟨0, by decide⟩ = 100 := by
    apply Machine.exists_of_run overlapTrace
    decide +kernel
  exact ⟨s, hreach, hsince, hversions, hname, snapshot_whole 1 hreach ht⟩

end Module
end Clogx
