/-
# Redaction while rules are added and cleared

The rule table of `core/log.c` is shared: `clog_redact_add` and `clog_redact_clear`
change it under `g_redact_mutex`, and a log call looks at `g_redact_count` without
the mutex, to go on at once if there is no rule, and takes the mutex otherwise.
Here the calls of any number of threads are interleaved; a step is one operation
on the mutex or on the shared memory, the two `snprintf` into a slot being two
steps and every rule that a log call reads being one.

A log call reads the table as a program of questions (`Prog`), so that the two paths,
with one loop over the rules or with one for each string of the record, are one
machine.  Each call gets what it computes from the table of one moment between
its start and its end (`redaction_linearizable`): a slot half written is never
seen, and a rule whose `clog_redact_add` has returned is applied.
-/

import Clogx.Machine.Run
import Clogx.Machine.Mutex
import Clogx.Redact.Structured
import Clogx.Redact.Truncate

namespace Clogx
namespace Redact

open CLib
open Machine
open Formatter (Kv KvVal)

/-! ### Programs that read the table -/

/-- `g_redact_rules` and `g_redact_count`. -/
structure Shared where
  slots : ℕ → Rule
  count : ℕ

/-- The rules in the table. -/
def Shared.rules (g : Shared) : List Rule := (List.range g.count).map g.slots

/-- What a log call does under the mutex: it reads the count or a slot, and goes on. -/
inductive Prog (β : Type)
  | ret (b : β)
  | count (k : ℕ → Prog β)
  | rule (r : ℕ) (k : Rule → Prog β)

namespace Prog

variable {β γ S : Type}

/-- What it computes from a table. -/
def eval (g : Shared) : Prog β → β
  | ret b => b
  | count k => (k g.count).eval g
  | rule r k => (k (g.slots r)).eval g

def map (f : β → γ) : Prog β → Prog γ
  | ret b => ret (f b)
  | count k => count fun n => (k n).map f
  | rule r k => rule r fun x => (k x).map f

theorem eval_map (f : β → γ) (g : Shared) (p : Prog β) : (p.map f).eval g = f (p.eval g) := by
  induction p with
  | ret b => rfl
  | count k ih => exact ih _
  | rule r k ih => exact ih _

/-- One program, and if it does not fail another. -/
def andThen : Prog (Option β) → (β → Prog (Option γ)) → Prog (Option γ)
  | ret none, _ => ret none
  | ret (some b), f => f b
  | count k, f => count fun n => (k n).andThen f
  | rule r k, f => rule r fun x => (k x).andThen f

theorem eval_andThen (g : Shared) (p : Prog (Option β)) (f : β → Prog (Option γ)) :
    (p.andThen f).eval g = (p.eval g).bind fun b => (f b).eval g := by
  induction p with
  | ret b => cases b <;> rfl
  | count k ih => exact ih _
  | rule r k ih => exact ih _

/-- `for (r = 0; r < g_redact_count; r++)`, from `r` on. -/
def loop (step : S → Rule → Option S) : ℕ → ℕ → S → Prog (Option S)
  | 0, _, _ => ret none
  | fuel + 1, r, st => count fun n =>
    if r < n then rule r fun x => (ret (step st x)).andThen (loop step fuel (r + 1))
    else ret (some st)

theorem eval_loop_from (step : S → Rule → Option S) (g : Shared) (fuel : ℕ) :
    ∀ (r : ℕ) (st : S), r ≤ g.count → g.count < r + fuel →
      (loop step fuel r st).eval g = (g.rules.drop r).foldlM step st := by
  induction fuel with
  | zero =>
    intro r st hle hlt
    omega
  | succ fuel ih =>
    intro r st hle hlt
    rw [loop, eval]
    split_ifs with hr
    · have hget : r < g.rules.length := by rwa [Shared.rules, List.length_map, List.length_range]
      have hslot : g.rules[r] = g.slots r := by
        simp only [Shared.rules, List.getElem_map, List.getElem_range]
      rw [List.drop_eq_getElem_cons hget, hslot, List.foldlM_cons, eval, eval_andThen]
      exact congrArg _ (funext fun st => ih (r + 1) st hr (by omega))
    · have hdrop : g.rules.drop r = [] := by
        apply List.drop_of_length_le
        rw [Shared.rules, List.length_map, List.length_range]
        omega
      rw [hdrop]
      rfl

/-- **A loop over the rules** folds them. -/
theorem eval_loop (step : S → Rule → Option S) {g : Shared} (hg : g.count ≤ maxRedactRules)
    (st : S) : (loop step (maxRedactRules + 1) 0 st).eval g = g.rules.foldlM step st :=
  eval_loop_from step g _ 0 st (Nat.zero_le _) (by omega)

end Prog

/-! ### The two paths -/

/-- **A log call:** its program under the mutex, what it returns without one, and what both
compute. -/
structure Job (β : Type) where
  prog : Prog β
  skip : β
  spec : List Rule → β
  prog_eq : ∀ g : Shared, g.count ≤ maxRedactRules → 0 < g.count → prog.eval g = spec g.rules
  skip_eq : skip = spec []

/-- Its result in another form. -/
def Job.map {β γ : Type} (f : β → γ) (job : Job β) : Job γ where
  prog := job.prog.map f
  skip := f job.skip
  spec rules := f (job.spec rules)
  prog_eq g hg hpos := by rw [Prog.eval_map, job.prog_eq g hg hpos]
  skip_eq := congrArg f job.skip_eq

theorem Shared.rules_ne_nil {g : Shared} (h : 0 < g.count) : ¬ g.rules.length = 0 := by
  rw [Shared.rules, List.length_map, List.length_range]
  omega

/-- The printf path: `redact_message_if_needed`. -/
def messageJob (fuel : ℕ) (buf : Block) (bufSize : ℕ) : Job (Option Block) where
  prog := Prog.loop (fun buf r =>
    if r.pattern.length = 0 ∨ r.mask.length = 0 then some buf
    else redactHits r.pattern r.mask bufSize fuel buf 0) (maxRedactRules + 1) 0 buf
  skip := some buf
  spec rules := redactMessageIfNeeded fuel rules buf bufSize
  prog_eq g hg hpos := by
    rw [Prog.eval_loop _ hg, redactMessageIfNeeded, if_neg (Shared.rules_ne_nil hpos)]
    rfl
  skip_eq := rfl

variable {φ : Type}

/-- The loop over the values of a record. -/
def valuesProg (os : Allocator) (fuel : ℕ) : List (Kv φ) → Mem → Prog (Option (List (Option Ptr) × Mem))
  | [], m => .ret (some ([], m))
  | kv :: kvs, m =>
    Prog.andThen
      (match kv.val with
      | .str (some s) =>
        (Prog.loop (HeapOnly.rule os fuel) (maxRedactRules + 1) 0
          { mem := { m with arg := s.val ++ [0] } }).andThen
            fun st => .ret (some (st.owned, st.mem))
      | _ => .ret (some (none, m)))
      fun r => (valuesProg os fuel kvs r.2).andThen fun rs => .ret (some (r.1 :: rs.1, rs.2))

theorem eval_valuesProg (os : Allocator) (fuel : ℕ) {g : Shared} (hg : g.count ≤ maxRedactRules)
    (kvs : List (Kv φ)) : ∀ m : Mem,
      (valuesProg os fuel kvs m).eval g = redactValues os fuel g.rules kvs m := by
  induction kvs with
  | nil => exact fun m => rfl
  | cons kv kvs ih =>
    intro m
    obtain ⟨key, val⟩ := kv
    have hrest : ∀ r : Option Ptr × Mem,
        ((valuesProg os fuel kvs r.2).andThen fun rs => .ret (some (r.1 :: rs.1, rs.2))).eval g =
          (redactValues os fuel g.rules kvs r.2).bind fun rs => some (r.1 :: rs.1, rs.2) := by
      intro r
      rw [Prog.eval_andThen, ih]
      rfl
    rw [valuesProg, redactValues, Prog.eval_andThen]
    simp only [hrest]
    cases val with
    | str s =>
      cases s with
      | none => rfl
      | some s =>
        simp only [redactValue, redactApplyAllHeapLocked]
        rw [Prog.eval_andThen, Prog.eval_loop _ hg]
        rfl
    | int | uint | float | bool => rfl

/-- The structured path: `redact_kv_record_if_needed`. -/
def recordJob (os : Allocator) (fuel : ℕ) (message : CString) (kvs : List (Kv φ)) (m : Mem) :
    Job (Option (View × Mem)) where
  prog := (Prog.loop (PingPong.rule os fuel) (maxRedactRules + 1) 0
    { mem := { m with arg := message.val ++ [0] } }).andThen fun st =>
      (valuesProg os fuel kvs st.mem).andThen fun r => .ret (some (⟨st.cur, st.owned, r.1⟩, r.2))
  skip := some (⟨.arg, none, kvs.map fun _ => none⟩, m)
  spec rules := redactKvRecordIfNeeded os fuel rules message kvs m
  prog_eq g hg hpos := by
    rw [Prog.eval_andThen, Prog.eval_loop _ hg, redactKvRecordIfNeeded,
      if_neg (Shared.rules_ne_nil hpos), redactApplyAllLocked]
    simp only [Prog.eval_andThen, eval_valuesProg os fuel hg]
    cases g.rules.foldlM (PingPong.rule os fuel) { mem := { m with arg := message.val ++ [0] } } <;> rfl
  skip_eq := rfl

/-- What a log call gets: the buffer of its message, or the pointers of its record. -/
inductive Outcome
  | message (buf : Option Block)
  | record (view : Option (View × Mem))

/-- The redaction of a log call, on the printf path or on the structured one. -/
inductive LogCall (φ : Type)
  | message (buf : Block) (bufSize : ℕ)
  | record (os : Allocator) (text : CString) (kvs : List (Kv φ)) (m : Mem)

/-- What it gets from a table. -/
def LogCall.outcome (fuel : ℕ) (rules : List Rule) : LogCall φ → Outcome
  | .message buf bufSize => .message (redactMessageIfNeeded fuel rules buf bufSize)
  | .record os text kvs m => .record (redactKvRecordIfNeeded os fuel rules text kvs m)

def LogCall.job (fuel : ℕ) : LogCall φ → Job Outcome
  | .message buf bufSize => (messageJob fuel buf bufSize).map .message
  | .record os text kvs m => (recordJob os fuel text kvs m).map .record

theorem LogCall.spec_job (fuel : ℕ) (call : LogCall φ) (rules : List Rule) :
    (call.job fuel).spec rules = call.outcome fuel rules := by
  cases call <;> rfl

/-! ### The machine -/

namespace Concurrent

/-- Where a thread is.  `start` is the number of changes of the table before its log call began. -/
inductive Pc (β : Type)
  | idle
  /-- `clog_redact_add`. -/
  | addLock (pattern mask : Option CString)
  | addCheck (pattern mask : Option CString)
  | addPattern (n : ℕ) (pattern : CString) (mask : Option CString)
  | addMask (n : ℕ) (pattern : CString) (mask : Option CString)
  | addStore (n : ℕ) (pattern : CString) (mask : Option CString)
  /-- `clog_redact_clear`. -/
  | clearLock
  | clearStore
  /-- A log call: before the look at the count, before the mutex, and under it. -/
  | logLoad (start : ℕ) (job : Job β)
  | logLock (start : ℕ) (job : Job β)
  | logRecheck (start : ℕ) (job : Job β)
  | logRun (start : ℕ) (job : Job β) (prog : Prog β)
  | logUnlock (start : ℕ) (job : Job β) (result : β)
  | unlock

/-- The table, the threads, and the history: the changes of the table in their order, and the log
calls that have returned, with their `start` and what they got. -/
structure State (ι β : Type) where
  mutex : Option ι
  shared : Shared
  pc : ι → Pc β
  calls : List TableCall
  finished : List (ℕ × Job β × β)

/-- A call begins, or a thread takes its next step. -/
inductive Act (ι β : Type)
  | add (t : ι) (pattern mask : Option CString)
  | clear (t : ι)
  | log (t : ι) (job : Job β)
  | step (t : ι)

variable {ι β : Type} [DecidableEq ι]

/-- No rule; the slots hold zeros. -/
def State.start : State ι β where
  mutex := none
  shared := ⟨fun _ => ⟨[], []⟩, 0⟩
  pc _ := .idle
  calls := []
  finished := []

namespace State

variable (s : State ι β)

/-- Thread `t` goes to `p`. -/
def goto (t : ι) (p : Pc β) : State ι β := { s with pc := Function.update s.pc t p }

/-- `clog_mutex_lock`. -/
def lock (t : ι) (p : Pc β) : Option (State ι β) :=
  if s.mutex = none then some ({ s with mutex := some t }.goto t p) else none

/-- `clog_mutex_unlock`. -/
def unlock (t : ι) : State ι β := { s with mutex := none }.goto t .idle

/-- `snprintf` into the slot `n`. -/
def setSlot (n : ℕ) (r : Rule) : State ι β :=
  { s with shared := ⟨Function.update s.shared.slots n r, s.shared.count⟩ }

/-- `clog_atomic_store_sz(&g_redact_count, n)`, by which `c` takes effect. -/
def setCount (n : ℕ) (c : TableCall) : State ι β :=
  { s with shared := ⟨s.shared.slots, n⟩, calls := s.calls ++ [c] }

end State

/-- The mask that is stored. -/
def maskText : Option CString → Text
  | none => str "***"
  | some m => if m.val = [] then str "***" else m.val

/-- The next step of thread `t`. -/
def threadStep (s : State ι β) (t : ι) : Option (State ι β) :=
  match s.pc t with
  | .idle => none
  | .addLock pattern mask => s.lock t (.addCheck pattern mask)
  | .addCheck none _ => some (s.goto t .unlock)
  | .addCheck (some pattern) mask =>
    if pattern.val = [] ∨ maxRedactRules ≤ s.shared.count then some (s.goto t .unlock)
    else some (s.goto t (.addPattern s.shared.count pattern mask))
  | .addPattern n pattern mask =>
    some ((s.setSlot n ⟨cut redactMaxPattern pattern.val, (s.shared.slots n).mask⟩).goto t
      (.addMask n pattern mask))
  | .addMask n pattern mask =>
    some ((s.setSlot n ⟨(s.shared.slots n).pattern, cut redactMaxMask (maskText mask)⟩).goto t
      (.addStore n pattern mask))
  | .addStore n pattern mask =>
    some ((s.setCount (n + 1) (.add (some pattern) mask)).goto t .unlock)
  | .clearLock => s.lock t .clearStore
  | .clearStore => some ((s.setCount 0 .clear).goto t .unlock)
  | .logLoad start job =>
    if s.shared.count = 0 then
      some ({ s with finished := s.finished ++ [(start, job, job.skip)] }.goto t .idle)
    else some (s.goto t (.logLock start job))
  | .logLock start job => s.lock t (.logRecheck start job)
  | .logRecheck start job =>
    if 0 < s.shared.count then some (s.goto t (.logRun start job job.prog))
    else some (s.goto t (.logUnlock start job job.skip))
  | .logRun start job (.ret b) => some (s.goto t (.logUnlock start job b))
  | .logRun start job (.count k) => some (s.goto t (.logRun start job (k s.shared.count)))
  | .logRun start job (.rule r k) => some (s.goto t (.logRun start job (k (s.shared.slots r))))
  | .logUnlock start job b =>
    some ({ s with finished := s.finished ++ [(start, job, b)] }.unlock t)
  | .unlock => some (s.unlock t)

/-- A call begins: thread `t` is not in another one. -/
def begin (s : State ι β) (t : ι) (p : Pc β) : Option (State ι β) :=
  match s.pc t with
  | .idle => some (s.goto t p)
  | _ => none

/-- One step. -/
def step (s : State ι β) : Act ι β → Option (State ι β)
  | .add t pattern mask => begin s t (.addLock pattern mask)
  | .clear t => begin s t .clearLock
  | .log t job => begin s t (.logLoad s.calls.length job)
  | .step t => threadStep s t

/-! ### The invariant -/

/-- Between a lock and its unlock. -/
def Pc.inside : Pc β → Bool
  | .addCheck .. | .addPattern .. | .addMask .. | .addStore .. | .clearStore | .logRecheck ..
  | .logRun .. | .logUnlock .. | .unlock => true
  | _ => false

/-- What a thread relies on at its place. -/
def Holds (g : Shared) (calls : List TableCall) : Pc β → Prop
  | .addPattern n pattern _ => n = g.count ∧ n < maxRedactRules ∧ pattern.val ≠ []
  | .addMask n pattern _ => n = g.count ∧ n < maxRedactRules ∧ pattern.val ≠ [] ∧
      (g.slots n).pattern = cut redactMaxPattern pattern.val
  | .addStore n pattern mask => n = g.count ∧ n < maxRedactRules ∧ pattern.val ≠ [] ∧
      g.slots n = ⟨cut redactMaxPattern pattern.val, cut redactMaxMask (maskText mask)⟩
  | .logLoad start _ | .logLock start _ | .logRecheck start _ => start ≤ calls.length
  | .logRun start job prog => start ≤ calls.length ∧ prog.eval g = job.spec (table calls)
  | .logUnlock start job b => start ≤ calls.length ∧ b = job.spec (table calls)
  | _ => True

/-- A call that has returned: it got what it computes from the table of one moment. -/
def Linear (calls : List TableCall) (c : ℕ × Job β × β) : Prop :=
  ∃ k, c.1 ≤ k ∧ k ≤ calls.length ∧ c.2.2 = c.2.1.spec (table (calls.take k))

/-- **The table in memory is that of the calls so far,** at every moment. -/
structure Inv (s : State ι β) : Prop where
  exclusive : Exclusive Pc.inside s.mutex s.pc
  bound : s.shared.count ≤ maxRedactRules
  rules : s.shared.rules = table s.calls
  holds : ∀ t, Holds s.shared s.calls (s.pc t)
  finished : ∀ c ∈ s.finished, Linear s.calls c

/-- Outside the mutex a thread relies on nothing but that the history grows. -/
theorem Holds.outside {g g' : Shared} {calls calls' : List TableCall} {p : Pc β}
    (h : Holds g calls p) (hp : p.inside = false) (hcalls : calls <+: calls') :
    Holds g' calls' p := by
  have hlen := hcalls.length_le
  cases p with
  | logLoad start job => exact Nat.le_trans h hlen
  | logLock start job => exact Nat.le_trans h hlen
  | idle | addLock | clearLock => exact trivial
  | _ => cases hp

theorem Linear.mono {calls calls' : List TableCall} {c : ℕ × Job β × β} (h : Linear calls c)
    (hcalls : calls <+: calls') : Linear calls' c := by
  obtain ⟨k, hstart, hk, hspec⟩ := h
  obtain ⟨rest, rfl⟩ := hcalls
  refine ⟨k, hstart, ?_, ?_⟩
  · rw [List.length_append]
    omega
  · rwa [List.take_append_of_le_length hk]

/-- Now is one moment. -/
theorem linear_now {calls : List TableCall} {start : ℕ} {job : Job β} {b : β}
    (hstart : start ≤ calls.length) (hb : b = job.spec (table calls)) :
    Linear calls (start, job, b) :=
  ⟨calls.length, hstart, Nat.le_refl _, by rwa [List.take_length]⟩

section Steps

variable {s s' : State ι β} {t : ι} {p q : Pc β}

/-- **The rule for a step:** the thread moves to a place where what it relies on holds; the table
changes only under the mutex, so that the others do not notice. -/
theorem Inv.of_step (h : Inv s) (hq : s.pc t = q) (hpc : s'.pc = Function.update s.pc t p)
    (hexcl : Exclusive Pc.inside s'.mutex s'.pc)
    (hshared : s'.shared = s.shared ∧ s'.calls = s.calls ∨ q.inside = true)
    (hcalls : s.calls <+: s'.calls) (hbound : s'.shared.count ≤ maxRedactRules)
    (hrules : s'.shared.rules = table s'.calls) (hp : Holds s'.shared s'.calls p)
    (hfinished : ∀ c ∈ s'.finished, c ∈ s.finished ∨ Linear s'.calls c) : Inv s' where
  exclusive := hexcl
  bound := hbound
  rules := hrules
  holds u := by
    rw [hpc]
    rcases eq_or_ne u t with rfl | hne
    · rwa [Function.update_self]
    · rw [Function.update_of_ne hne]
      rcases hshared with ⟨hshared, hcalls⟩ | hin
      · rw [hshared, hcalls]
        exact h.holds u
      · refine Holds.outside (h.holds u) ?_ hcalls
        by_contra hout
        rw [Bool.not_eq_false] at hout
        exact hne (h.exclusive.eq_of_inside (t := t) (by rwa [hq]) hout)
  finished c hc := by
    rcases hfinished c hc with hold | hnew
    · exact (h.finished c hold).mono hcalls
    · exact hnew

/-- Taking the mutex keeps it. -/
theorem Inv.lock (h : Inv s) (hq : s.pc t = q) (hs : s.lock t p = some s') (hp : p.inside = true)
    (hholds : Holds s.shared s.calls p) : Inv s' := by
  rw [State.lock] at hs
  split_ifs at hs with hfree
  cases hs
  have hexcl := h.exclusive
  rw [hfree] at hexcl
  exact h.of_step hq rfl (hexcl.lock hp) (.inl ⟨rfl, rfl⟩) (List.prefix_refl _) h.bound h.rules hholds
    fun c hc => .inl hc

/-- A thread goes on, and the table stays. -/
theorem Inv.goto (h : Inv s) (hq : s.pc t = q) (hp : p.inside = q.inside)
    (hholds : Holds s.shared s.calls p) : Inv (s.goto t p) :=
  h.of_step hq rfl (h.exclusive.move (by rw [hp, hq])) (.inl ⟨rfl, rfl⟩) (List.prefix_refl _) h.bound
    h.rules hholds fun c hc => .inl hc

/-- Releasing the mutex keeps it. -/
theorem Inv.unlock (h : Inv s) (hq : s.pc t = q) (hin : q.inside = true) : Inv (s.unlock t) :=
  h.of_step hq rfl (h.exclusive.unlock (t := t) (by rw [hq]; exact hin) rfl) (.inl ⟨rfl, rfl⟩)
    (List.prefix_refl _) h.bound h.rules trivial fun c hc => .inl hc

omit [DecidableEq ι] in
/-- The slot behind the last rule is written: the table stays. -/
theorem rules_setSlot (s : State ι β) (r : Rule) :
    (s.setSlot s.shared.count r).shared.rules = s.shared.rules := by
  simp only [State.setSlot, Shared.rules]
  refine List.map_congr_left fun k hk => ?_
  exact Function.update_of_ne (List.mem_range.1 hk).ne _ _

/-- Storing into a free slot keeps it. -/
theorem Inv.setSlot (h : Inv s) (hq : s.pc t = q) {n : ℕ} (hn : n = s.shared.count) {r : Rule}
    (hin : q.inside = true) (hp : p.inside = true) (hholds : Holds (s.setSlot n r).shared s.calls p) :
    Inv ((s.setSlot n r).goto t p) := by
  subst hn
  refine h.of_step hq rfl (h.exclusive.move (by rw [hp, hq, hin])) (.inr hin) (List.prefix_refl _)
    h.bound ?_ hholds fun c hc => .inl hc
  exact (rules_setSlot s r).trans h.rules

/-- A call takes effect. -/
theorem Inv.setCount (h : Inv s) (hq : s.pc t = q) (hin : q.inside = true) {n : ℕ} {c : TableCall}
    (hn : n ≤ maxRedactRules)
    (hrules : (s.setCount n c).shared.rules = tableStep (table s.calls) c) :
    Inv ((s.setCount n c).goto t .unlock) := by
  refine h.of_step hq rfl (h.exclusive.move (by rw [hq, hin]; rfl)) (.inr hin)
    (List.prefix_append _ _) hn ?_ trivial fun c hc => .inl hc
  refine hrules.trans ?_
  show _ = table (s.calls ++ [c])
  rw [table, table, List.foldl_append]
  rfl

/-- **A step of a thread keeps the invariant.** -/
theorem Inv.threadStep (h : Inv s) (hs : threadStep s t = some s') : Inv s' := by
  have hholds := h.holds t
  cases hq : s.pc t with
  | idle => simp [Concurrent.threadStep, hq] at hs
  | addLock pattern mask =>
    simp only [Concurrent.threadStep, hq] at hs
    exact h.lock hq hs rfl trivial
  | addCheck pattern mask =>
    cases pattern with
    | none =>
      simp only [Concurrent.threadStep, hq] at hs
      cases hs
      exact h.goto hq rfl trivial
    | some pattern =>
      simp only [Concurrent.threadStep, hq] at hs
      split_ifs at hs with hbad
      · cases hs
        exact h.goto hq rfl trivial
      · cases hs
        simp only [not_or, not_le] at hbad
        exact h.goto hq rfl ⟨rfl, hbad.2, hbad.1⟩
  | addPattern n pattern mask =>
    simp only [Concurrent.threadStep, hq] at hs
    cases hs
    rw [hq] at hholds
    obtain ⟨hn, hlt, hne⟩ := hholds
    exact h.setSlot hq hn rfl rfl ⟨hn, hlt, hne, by simp [State.setSlot]⟩
  | addMask n pattern mask =>
    simp only [Concurrent.threadStep, hq] at hs
    cases hs
    rw [hq] at hholds
    obtain ⟨hn, hlt, hne, hpattern⟩ := hholds
    exact h.setSlot hq hn rfl rfl ⟨hn, hlt, hne, by simp [State.setSlot, hpattern]⟩
  | addStore n pattern mask =>
    simp only [Concurrent.threadStep, hq] at hs
    cases hs
    rw [hq] at hholds
    obtain ⟨rfl, hlt, hne, hslot⟩ := hholds
    refine h.setCount hq rfl hlt ?_
    have hlen : (table s.calls).length = s.shared.count := by
      rw [← h.rules, Shared.rules, List.length_map, List.length_range]
    have hadd : tableStep (table s.calls) (.add (some pattern) mask) =
        table s.calls ++ [⟨cut redactMaxPattern pattern.val, cut redactMaxMask (maskText mask)⟩] := by
      have hok : ¬ (pattern.val = [] ∨ maxRedactRules ≤ (table s.calls).length) := by
        rw [hlen, not_or, not_le]
        exact ⟨hne, hlt⟩
      simp only [tableStep, clogRedactAdd, if_neg hok]
      cases mask <;> rfl
    rw [hadd, ← h.rules]
    simp only [State.setCount, Shared.rules, List.range_succ, List.map_append, List.map_singleton,
      hslot]
  | clearLock =>
    simp only [Concurrent.threadStep, hq] at hs
    exact h.lock hq hs rfl trivial
  | clearStore =>
    simp only [Concurrent.threadStep, hq] at hs
    cases hs
    exact h.setCount hq rfl (Nat.zero_le _) rfl
  | logLoad start job =>
    simp only [Concurrent.threadStep, hq] at hs
    rw [hq] at hholds
    split_ifs at hs with hzero
    · cases hs
      -- the count is zero, so the table is empty now
      have hempty : table s.calls = [] := by
        rw [← h.rules, Shared.rules, hzero]
        rfl
      refine h.of_step hq rfl (h.exclusive.move (by rw [hq]; rfl)) (.inl ⟨rfl, rfl⟩)
        (List.prefix_refl _) h.bound h.rules trivial fun c hc => ?_
      rcases List.mem_append.1 hc with hold | hnew
      · exact .inl hold
      · rw [List.mem_singleton.1 hnew]
        exact .inr (linear_now hholds (job.skip_eq.trans (by rw [← hempty]; rfl)))
    · cases hs
      exact h.goto hq rfl hholds
  | logLock start job =>
    simp only [Concurrent.threadStep, hq] at hs
    rw [hq] at hholds
    exact h.lock hq hs rfl hholds
  | logRecheck start job =>
    simp only [Concurrent.threadStep, hq] at hs
    rw [hq] at hholds
    split_ifs at hs with hpos
    · cases hs
      exact h.goto hq rfl ⟨hholds, by rw [job.prog_eq _ h.bound hpos, h.rules]⟩
    · cases hs
      have hempty : table s.calls = [] := by
        rw [← h.rules, Shared.rules, Nat.eq_zero_of_not_pos hpos]
        rfl
      exact h.goto hq rfl ⟨hholds, by rw [hempty]; exact job.skip_eq⟩
  | logRun start job prog =>
    rw [hq] at hholds
    obtain ⟨hstart, heval⟩ := hholds
    cases prog with
    | ret b | count k | rule r k =>
      simp only [Concurrent.threadStep, hq] at hs
      cases hs
      exact h.goto hq rfl ⟨hstart, heval⟩
  | logUnlock start job b =>
    simp only [Concurrent.threadStep, hq] at hs
    cases hs
    rw [hq] at hholds
    refine h.of_step hq rfl (h.exclusive.unlock (t := t) (by rw [hq]; rfl) rfl) (.inl ⟨rfl, rfl⟩)
      (List.prefix_refl _) h.bound h.rules trivial fun c hc => ?_
    rcases List.mem_append.1 hc with hold | hnew
    · exact .inl hold
    · rw [List.mem_singleton.1 hnew]
      exact .inr (linear_now hholds.1 hholds.2)
  | unlock =>
    simp only [Concurrent.threadStep, hq] at hs
    cases hs
    exact h.unlock hq rfl

theorem Inv.begin (h : Inv s) (hs : begin s t p = some s') (hp : p.inside = false)
    (hholds : Holds s.shared s.calls p) : Inv s' := by
  unfold Concurrent.begin at hs
  split at hs
  · rename_i hq
    cases hs
    exact h.goto hq hp hholds
  · cases hs

/-- Every step keeps the invariant. -/
theorem Inv.step (h : Inv s) {a : Act ι β} (hs : step s a = some s') : Inv s' := by
  cases a with
  | add t pattern mask => exact h.begin hs rfl trivial
  | clear t => exact h.begin hs rfl trivial
  | log t job => exact h.begin hs rfl (Nat.le_refl _)
  | step t => exact h.threadStep hs

omit [DecidableEq ι] in
theorem Inv.start : Inv (State.start : State ι β) where
  exclusive _ := by simp [State.start, Pc.inside]
  bound := Nat.zero_le _
  rules := rfl
  holds _ := trivial
  finished c hc := absurd hc List.not_mem_nil

end Steps

/-- **Every log call redacts with the table of one moment.**  In any interleaving of log calls with
calls that add and clear rules, a log call that has returned got what its path computes from the
table after `k` changes, and no change that took effect before the call began is missing. -/
theorem redaction_linearizable {s : State ι Outcome} (h : Reachable step State.start s)
    (fuel start : ℕ) (call : LogCall φ) (result : Outcome)
    (hc : (start, call.job fuel, result) ∈ s.finished) :
    ∃ k, start ≤ k ∧ k ≤ s.calls.length ∧
      result = call.outcome fuel (table (s.calls.take k)) := by
  obtain ⟨k, hstart, hk, hspec⟩ :=
    (Reach.invariant Inv.start (fun _ _ _ h _ => h.step) h).finished _ hc
  exact ⟨k, hstart, hk, hspec.trans (call.spec_job fuel _)⟩

/-- Thread 1 adds the rule `ab`, then thread 0 logs `xab`. -/
def addThenLog : List (Act (Fin 2) Outcome) :=
  List.flatten [[.add 1 (some ⟨str "ab", by decide⟩) none], List.replicate 6 (.step 1),
    [.log 0 ((LogCall.message (φ := Empty) [120, 97, 98, 0, 0, 0] 6).job 9)],
    List.replicate 8 (.step 0)]

/-- The log call sees the rule. -/
theorem redaction_linearizable_added : ∃ s : State (Fin 2) Outcome, ∃ result,
    (Reachable step State.start s ∧
      (1, (LogCall.message (φ := Empty) [120, 97, 98, 0, 0, 0] 6).job 9, result) ∈ s.finished) ∧
    ∃ k, 1 ≤ k ∧ k ≤ s.calls.length ∧ result =
      (LogCall.message (φ := Empty) [120, 97, 98, 0, 0, 0] 6).outcome 9 (table (s.calls.take k)) := by
  obtain ⟨s, hrun, result, hmem⟩ : ∃ s : State (Fin 2) Outcome, run step State.start addThenLog = some s ∧
      ∃ result, (1, (LogCall.message (φ := Empty) [120, 97, 98, 0, 0, 0] 6).job 9, result) ∈ s.finished :=
    ⟨_, rfl, _, List.mem_singleton.2 rfl⟩
  have h := reach_of_run addThenLog hrun
  exact ⟨s, result, ⟨h, hmem⟩, redaction_linearizable h 9 1 _ result hmem⟩

end Concurrent

end Redact
end Clogx
