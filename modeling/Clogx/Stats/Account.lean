/-
# What the statistics account for

Every message that is counted is suppressed by the rate limiter, or its write
returns, or it is still on its way (`Inv.total`).  With nothing on its way and
the queue drained, the messages whose write returned are the messages that were
dispatched, also those whose write returned an error: `log_async_write_for`
dispatches these itself.  They are the ones counted in `dropped_queue_full`, so
the three counters account for the total exactly if no write of a message fails.
-/

import Clogx.Stats.Model

namespace Clogx
namespace Stats

open SeqRing (Shape)
open Machine (Reach Reachable exists_of_run exists_of_runIf)

variable {ι ρ : Type*}

/-! ### Sums over threads -/

/-- One summand changes. -/
theorem sum_update_add {α : Type*} [DecidableEq ι] [Fintype ι] (w : α → ℕ) (f : ι → α) (t : ι)
    (x : α) : ∑ u, w (Function.update f t x u) + w (f t) = ∑ u, w (f u) + w x := by
  rw [← Finset.add_sum_erase _ _ (Finset.mem_univ t), ← Finset.add_sum_erase _ (fun u => w (f u))
    (Finset.mem_univ t), Function.update_self]
  have hrest : ∑ u ∈ Finset.univ.erase t, w (Function.update f t x u) =
      ∑ u ∈ Finset.univ.erase t, w (f u) :=
    Finset.sum_congr rfl fun u hu => by rw [Function.update_of_ne (Finset.ne_of_mem_erase hu)]
  omega

/-- The message of a thread is counted and on its way. -/
def Pc.onWay : Pc ρ → ℕ
  | .limit _ | .notice _ _ | .inNotice _ | .write _ | .inWrite => 1
  | _ => 0

/-- The failure of its write is still to be counted. -/
def Pc.failing : Pc ρ → ℕ
  | .countDropped => 1
  | _ => 0

/-! ### The invariant -/

/-- The call of `log_async_write_for` a thread is in. -/
def CallAt : Pc ρ → Async.Write (Rec ρ) → Prop
  | .inNotice _, w => ∃ c, w.call = some c ∧ c.record.isMessage = false
  | .inWrite, w => ∃ c, w.call = some c ∧ c.record.isMessage = true
  | _, w => w.call = none

/-- Is the record of a call a message? -/
def ofMessage (c : Async.Call (Rec ρ)) : Bool := c.record.isMessage

/-- **The account of the write path.** -/
structure Inv [Fintype ι] (s : State ι ρ) : Prop where
  call : ∀ t, CallAt (s.pc t) (s.async.write t)
  total : s.totalLogged = s.rl.totalSuppressed +
    s.async.events.countP (Async.Event.isReturn ofMessage) + s.direct.countP Rec.isMessage +
    ∑ t, (s.pc t).onWay
  dropped : s.async.events.countP (Async.Event.isFailure ofMessage) =
    s.droppedQueueFull + ∑ t, (s.pc t).failing

variable [DecidableEq ι] [Fintype ι] {s s' : State ι ρ} {t : ι}

omit [Fintype ι] in
@[simp] theorem setPc_self (s : State ι ρ) (t : ι) (pc : Pc ρ) : (s.setPc t pc).pc t = pc :=
  Function.update_self ..

omit [Fintype ι] in
theorem setPc_of_ne (s : State ι ρ) {u : ι} (hu : u ≠ t) (pc : Pc ρ) :
    (s.setPc t pc).pc u = s.pc u :=
  Function.update_of_ne hu ..

/-- **One thread moves**: the counters change by what it carries. -/
theorem Inv.move (h : Inv s) {pc : Pc ρ} (hpc : s'.pc = Function.update s.pc t pc)
    (hcall : CallAt pc (s'.async.write t)) (hwrite : ∀ u, u ≠ t → s'.async.write u = s.async.write u)
    (htotal : s'.totalLogged + (s.rl.totalSuppressed +
        s.async.events.countP (Async.Event.isReturn ofMessage) + s.direct.countP Rec.isMessage) +
        (s.pc t).onWay = s.totalLogged + (s'.rl.totalSuppressed +
        s'.async.events.countP (Async.Event.isReturn ofMessage) + s'.direct.countP Rec.isMessage) +
        pc.onWay)
    (hdropped : s'.async.events.countP (Async.Event.isFailure ofMessage) + s.droppedQueueFull +
        (s.pc t).failing = s.async.events.countP (Async.Event.isFailure ofMessage) +
        s'.droppedQueueFull + pc.failing) : Inv s' := by
  have honWay := sum_update_add Pc.onWay s.pc t pc
  have hfailing := sum_update_add Pc.failing s.pc t pc
  have h₁ := h.total
  have h₂ := h.dropped
  refine ⟨fun u => ?_, ?_, ?_⟩
  · by_cases hu : u = t
    · subst hu
      rw [hpc, Function.update_self]
      exact hcall
    · rw [hpc, Function.update_of_ne hu, hwrite u hu]
      exact h.call u
  · rw [hpc]
    omega
  · rw [hpc]
    omega

omit [DecidableEq ι] in
/-- Something moves in the async path that is no step of a call. -/
theorem Inv.beside (h : Inv s) {a : Async.State ι (Rec ρ)} (hwrite : a.write = s.async.write)
    {l : List (Async.Event (Rec ρ))} (hl : a.events = s.async.events ++ l)
    (hev : ∀ e ∈ l, e.ofCaller = false) : Inv { s with async := a } := by
  have hcount (f : Async.Event (Rec ρ) → Bool) (hf : ∀ e, e.ofCaller = false → f e = false) :
      a.events.countP f = s.async.events.countP f := by
    have hnone : l.countP f = 0 := List.countP_eq_zero.2 fun e he => by simp [hf e (hev e he)]
    rw [hl, List.countP_append, hnone, Nat.add_zero]
  refine ⟨fun u => hwrite ▸ h.call u, ?_, ?_⟩
  · show s.totalLogged = _
    rw [hcount _ fun e he => ?_]
    · exact h.total
    · cases e <;> first | rfl | cases he
  · rw [hcount _ fun e he => ?_]
    · exact h.dropped
    · cases e <;> first | rfl | cases he

omit [DecidableEq ι] [Fintype ι] in
/-- A thread in a call of `log_async_write_for` writes a notice or a message. -/
theorem CallAt.of_call {pc : Pc ρ} {w : Async.Write (Rec ρ)} {c : Async.Call (Rec ρ)}
    (h : CallAt pc w) (hc : w.call = some c) :
    (∃ r, pc = .inNotice r ∧ ofMessage c = false) ∨ pc = .inWrite ∧ ofMessage c = true := by
  cases pc with
  | inNotice r =>
    obtain ⟨d, hd, hm⟩ := h
    obtain rfl := Option.some.inj (hc.symm.trans hd)
    exact .inl ⟨r, rfl, hm⟩
  | inWrite =>
    obtain ⟨d, hd, hm⟩ := h
    obtain rfl := Option.some.inj (hc.symm.trans hd)
    exact .inr ⟨rfl, hm⟩
  | _ =>
    rw [show w.call = none from h] at hc
    cases hc

omit [Fintype ι] in
theorem afterAsync_of_open {a : Async.State ι (Rec ρ)} {c : Async.Call (Rec ρ)}
    (hc : (a.write t).call = some c) : afterAsync s t a = { s with async := a } := by
  unfold afterAsync
  split
  case h_1 hw _ | h_2 hw _ => rw [hw] at hc; cases hc
  case h_3 => rfl

omit [Fintype ι] in
/-- Where `t` stands after a step of its call. -/
theorem afterAsync_frame (s : State ι ρ) (t : ι) (a : Async.State ι (Rec ρ)) :
    (afterAsync s t a).async = a ∧ (afterAsync s t a).droppedQueueFull = s.droppedQueueFull ∧
      ((afterAsync s t a).pc = s.pc ∨ (∃ r, (afterAsync s t a).pc = Function.update s.pc t (.write r)) ∨
        s.pc t = .inWrite ∧ a.write t = .idle ∧ (afterAsync s t a).pc = Function.update s.pc t
          (if lastRet a.events = some Async.Ret.ok then .idle else .countDropped)) := by
  unfold afterAsync
  split
  case h_1 r _ _ => exact ⟨rfl, rfl, .inr (.inl ⟨r, rfl⟩)⟩
  case h_2 hidle hpc => exact ⟨rfl, rfl, .inr (.inr ⟨hpc, hidle, rfl⟩)⟩
  case h_3 => exact ⟨rfl, rfl, .inl rfl⟩

/-- **A call returns** with what `l` observes: a notice is followed by its message, and a message
is done, or has a failure to count. -/
theorem Inv.returned (h : Inv s) {a : Async.State ι (Rec ρ)} {c : Async.Call (Rec ρ)}
    (hc : (s.async.write t).call = some c) (hother : ∀ u, u ≠ t → a.write u = s.async.write u)
    (hidle : a.write t = .idle) {l : List (Async.Event (Rec ρ))} {ret : Async.Ret}
    (hl : a.events = s.async.events ++ (l ++ [.wrote c ret]))
    (hnone : ∀ e ∈ l, ∀ d r, e ≠ .wrote d r) : Inv (afterAsync s t a) := by
  have hret : lastRet a.events = some ret := by simp [lastRet, hl, ← List.append_assoc]
  have hcount (f : Async.Event (Rec ρ) → Bool) (hf : ∀ e, (∀ d r, e ≠ .wrote d r) → f e = false) :
      a.events.countP f = s.async.events.countP f + (if f (.wrote c ret) then 1 else 0) := by
    have hzero : l.countP f = 0 := List.countP_eq_zero.2 fun e he => by simp [hf e (hnone e he)]
    rw [hl, List.countP_append, List.countP_append, hzero, List.countP_singleton, Nat.zero_add]
  have hreturn := hcount (Async.Event.isReturn ofMessage) fun e he => by
    cases e <;> first | rfl | exact absurd rfl (he _ _)
  have hfailure := hcount (Async.Event.isFailure ofMessage) fun e he => by
    cases e <;> first | rfl | exact absurd rfl (he _ _)
  rcases (h.call t).of_call hc with ⟨r, hpc, hm⟩ | ⟨hpc, hm⟩
  · have heq : afterAsync s t a = { s with async := a }.setPc t (.write r) := by
      simp only [afterAsync, hidle, hpc]
    rw [heq]
    simp only [Async.Event.isReturn, Async.Event.isFailure, hm, Bool.and_false, Bool.false_eq_true,
      if_false, Nat.add_zero] at hreturn hfailure
    refine h.move rfl (congrArg _ hidle) hother ?_ ?_
    · simp only [setPc_async, setPc_totalLogged, setPc_rl, setPc_direct, hreturn, hpc, Pc.onWay]
    · simp only [setPc_async, setPc_droppedQueueFull, hfailure, hpc, Pc.failing]
  · by_cases hok : ret = .ok
    · have heq : afterAsync s t a = { s with async := a }.setPc t .idle := by
        simp only [afterAsync, hidle, hpc, hret, hok, if_true]
      rw [heq]
      simp only [Async.Event.isReturn, Async.Event.isFailure, hm, hok, if_true, ne_eq, not_true_eq_false,
        decide_false, Bool.false_and, Bool.false_eq_true, if_false, Nat.add_zero] at hreturn hfailure
      refine h.move rfl (congrArg _ hidle) hother ?_ ?_
      · simp only [setPc_async, setPc_totalLogged, setPc_rl, setPc_direct, hreturn, hpc, Pc.onWay]
        omega
      · simp only [setPc_async, setPc_droppedQueueFull, hfailure, hpc, Pc.failing]
    · have heq : afterAsync s t a = { s with async := a }.setPc t .countDropped := by
        simp only [afterAsync, hidle, hpc, hret, Option.some.injEq, hok, if_false]
      rw [heq]
      simp only [Async.Event.isReturn, Async.Event.isFailure, hm, hok, if_true, ne_eq,
        not_false_eq_true, decide_true, Bool.true_and] at hreturn hfailure
      refine h.move rfl (congrArg _ hidle) hother ?_ ?_
      · simp only [setPc_async, setPc_totalLogged, setPc_rl, setPc_direct, hreturn, hpc, Pc.onWay]
        omega
      · simp only [setPc_async, setPc_droppedQueueFull, hfailure, hpc, Pc.failing]
        omega

/-- **A step of a call of `log_async_write_for`.** -/
theorem Inv.callStep (h : Inv s) {a : Async.State ι (Rec ρ)} {c : Async.Call (Rec ρ)}
    (hc : (s.async.write t).call = some c) (hother : ∀ u, u ≠ t → a.write u = s.async.write u)
    (hstep : Async.CallStep s.async a t c) : Inv (afterAsync s t a) := by
  cases hstep with
  | goesOn hc' he =>
    rw [afterAsync_of_open hc']
    refine h.move (Function.update_eq_self t s.pc).symm ?_ hother (by rw [he]) (by rw [he])
    rcases (h.call t).of_call hc with ⟨r, hpc, hm⟩ | ⟨hpc, hm⟩ <;> rw [hpc] <;>
      exact ⟨c, hc', hm⟩
  | accepted hidle he => exact h.returned hc hother hidle (l := []) he nofun
  | refused ret hret hq hw hidle he =>
    exact h.returned hc hother hidle (l := [.dispatched false c]) he (by simp)

variable [Inhabited ρ] {g : Shape} {cfg : Config}

omit [Fintype ι] [Inhabited ρ] in
/-- The rate limiter suppresses the message and counts it, or lets it pass. -/
theorem askLimiter_cases (cfg : Config) (s : State ι ρ) (t : ι) (r : ρ) (token : Bool) :
    (∃ rl : Limiter, rl.totalSuppressed = s.rl.totalSuppressed + 1 ∧
      askLimiter cfg s t r token = { s with rl := rl }.setPc t .idle) ∨
    ∃ (rl : Limiter) (pc : Pc ρ), rl.totalSuppressed = s.rl.totalSuppressed ∧
      askLimiter cfg s t r token = { s with rl := rl }.setPc t pc ∧
      ((∃ n, pc = .notice r n) ∨ pc = .write r) := by
  unfold askLimiter logRateLimitAllowFor
  by_cases hen : cfg.rlEnabled = true
  · cases token with
    | true =>
      refine .inr ⟨{ s.rl with suppressedCount := 0 },
        if 0 < s.rl.suppressedCount then .notice r s.rl.suppressedCount else .write r, rfl,
        by simp [hen], ?_⟩
      split_ifs
      · exact .inl ⟨_, rfl⟩
      · exact .inr rfl
    | false => exact .inl ⟨⟨s.rl.suppressedCount + 1, s.rl.totalSuppressed + 1⟩, rfl, by simp [hen]⟩
  · exact .inr ⟨s.rl, .write r, rfl, by simp [hen], .inr rfl⟩

omit [Fintype ι] in
/-- A call of `log_async_write_for` starts. -/
theorem log_cases {a : Async.State ι (Rec ρ)} {r : Rec ρ}
    (hs : Async.step g s.async (.log t r) = some a) :
    (∃ c, (a.write t).call = some c ∧ c.record = r) ∧ (∀ u, u ≠ t → a.write u = s.async.write u) ∧
      a.events = s.async.events := by
  simp only [Async.step] at hs
  split at hs
  · cases hs
    refine ⟨⟨⟨s.async.calls, r⟩, ?_, rfl⟩, fun u hu => Async.setWrite_of_ne _ hu _, rfl⟩
    rw [Async.setWrite_self]
    rfl
  · cases hs

omit [Fintype ι] in
/-- The steps of the async path: of a call, or of the others. -/
theorem async_cases {a : Async.Act ι (Rec ρ)} (hs : step cfg g s (.async a) = some s') :
    ∃ q, Async.step g s.async a = some q ∧ a.opens = false ∧ Async.noShutdown s.async a ∧
      ((∃ t, a.caller = some t ∧ s' = afterAsync s t q) ∨
        a.caller = none ∧ s' = { s with async := q }) := by
  cases a with
  | log | callShutdown => cases hs
  | write t | cloneFails t | giveUp t | casMiss t =>
    obtain ⟨q, hq, rfl⟩ := Option.map_eq_some_iff.1 hs
    exact ⟨q, hq, rfl, trivial, .inl ⟨t, rfl, rfl⟩⟩
  | _ =>
    obtain ⟨q, hq, rfl⟩ := Option.map_eq_some_iff.1 hs
    exact ⟨q, hq, rfl, trivial, .inr ⟨rfl, rfl⟩⟩

/-- **The next operation on the write path keeps the account.** -/
theorem Inv.writePath (h : Inv s) (hs : writePath cfg g s t = some s') : Inv s' := by
  have hat := h.call t
  simp only [Stats.writePath] at hs
  cases hpc : s.pc t with
  | countTotal r =>
    simp only [hpc] at hs hat
    cases hs
    refine h.move rfl hat (fun _ _ => rfl) ?_ ?_ <;> simp [hpc, Pc.onWay, Pc.failing]
    omega
  | notice r n =>
    simp only [hpc] at hs hat
    split_ifs at hs
    · obtain ⟨a, ha, rfl⟩ := Option.map_eq_some_iff.1 hs
      obtain ⟨⟨c, hc, hr⟩, hother, he⟩ := log_cases ha
      refine h.move rfl ⟨c, hc, by rw [hr]; rfl⟩ hother ?_ ?_ <;>
        simp [hpc, he, Pc.onWay, Pc.failing]
    · cases hs
      refine h.move rfl hat (fun _ _ => rfl) ?_ ?_ <;>
        simp [hpc, Pc.onWay, Pc.failing, Rec.isMessage]
  | write r =>
    simp only [hpc] at hs hat
    split_ifs at hs
    · obtain ⟨a, ha, rfl⟩ := Option.map_eq_some_iff.1 hs
      obtain ⟨⟨c, hc, hr⟩, hother, he⟩ := log_cases ha
      refine h.move rfl ⟨c, hc, by rw [hr]; rfl⟩ hother ?_ ?_ <;>
        simp [hpc, he, Pc.onWay, Pc.failing]
    · cases hs
      refine h.move rfl hat (fun _ _ => rfl) ?_ ?_ <;>
        simp [hpc, Pc.onWay, Pc.failing, Rec.isMessage]
      omega
  | countDropped =>
    simp only [hpc] at hs hat
    cases hs
    refine h.move rfl hat (fun _ _ => rfl) ?_ ?_ <;> simp [hpc, Pc.onWay, Pc.failing]
    omega
  | idle | limit | inNotice | inWrite => simp [hpc] at hs

/-- **Every step keeps the account.** -/
theorem Inv.step {a : Act ι ρ} (h : Inv s) (hg : Async.Good g s.async)
    (hs : Stats.step cfg g s a = some s') : Inv s' := by
  cases a with
  | log t level r =>
    have hat := h.call t
    simp only [Stats.step] at hs
    split at hs
    case h_1 hpc =>
      rw [hpc] at hat
      split_ifs at hs <;> cases hs
      · exact h
      · refine h.move rfl hat (fun _ _ => rfl) ?_ ?_ <;> simp [hpc, Pc.onWay, Pc.failing]
    case h_2 => cases hs
  | write t => exact h.writePath hs
  | limit t token =>
    have hat := h.call t
    simp only [Stats.step] at hs
    split at hs
    case h_1 r hpc =>
      rw [hpc] at hat
      cases hs
      rcases askLimiter_cases cfg s t r token with ⟨rl, hrl, heq⟩ | ⟨rl, pc, hrl, heq, hnext⟩
      · rw [heq]
        refine h.move rfl hat (fun _ _ => rfl) ?_ ?_ <;> simp [hpc, hrl, Pc.onWay, Pc.failing]
        omega
      · rw [heq]
        rcases hnext with ⟨n, rfl⟩ | rfl <;>
          refine h.move rfl hat (fun _ _ => rfl) ?_ ?_ <;> simp [hpc, hrl, Pc.onWay, Pc.failing]
    case h_2 => cases hs
  | async b =>
    obtain ⟨q, hq, hopen, -, ⟨t, ht, rfl⟩ | ⟨hnone, rfl⟩⟩ := async_cases hs
    · obtain ⟨c, hc, hother, hstep⟩ := Async.callStep_step hg ht hopen hq
      exact h.callStep hc hother hstep
    · have hm := Async.moves_step hq
      obtain ⟨l, hl, hev⟩ := hm.events
      refine h.beside (hm.write hnone).1 hl fun e he => ?_
      have hof := (hev e he).2
      rw [hnone] at hof
      exact Bool.eq_false_iff.2 fun htrue => by cases hof htrue

omit [DecidableEq ι] in
/-- **Nothing on its way and nothing in the queue:** every message was suppressed or dispatched,
and as many were counted as dropped as calls of `log_async_write_for` with a message failed. -/
theorem Inv.settled (h : Inv s) (hg : Async.Good g s.async) (hr : Async.ReturnsInv s.async)
    (hquiet : s.Quiet) (hdrained : s.Drained) :
    s.totalLogged = s.rl.totalSuppressed + s.dispatched ∧
      s.droppedQueueFull = s.async.events.countP (Async.Event.isFailure ofMessage) := by
  have honWay : ∑ t, (s.pc t).onWay = 0 :=
    Finset.sum_eq_zero fun t _ => by rw [hquiet t]; rfl
  have hfailing : ∑ t, (s.pc t).failing = 0 :=
    Finset.sum_eq_zero fun t _ => by rw [hquiet t]; rfl
  have hcall (t : ι) : (s.async.write t).call = none := by
    have hat := h.call t
    rw [hquiet t] at hat
    exact hat
  have hcount := Async.countP_dispatched hg hr hcall hdrained.1 hdrained.2 ofMessage
  have htotal := h.total
  have hdropped := h.dropped
  refine ⟨?_, by omega⟩
  rw [State.dispatched, show (fun c : Async.Call (Rec ρ) => c.record.isMessage) = ofMessage from rfl]
  omega

omit [Fintype ι] in
/-- A step of the write path is at most one step of the async path. -/
theorem async_of_step {a : Act ι ρ} (hs : Stats.step cfg g s a = some s') :
    s'.async = s.async ∨ ∃ b, Async.step g s.async b = some s'.async := by
  cases a with
  | log t level r =>
    simp only [Stats.step] at hs
    split at hs
    · split_ifs at hs <;> cases hs <;> exact .inl rfl
    · cases hs
  | write t =>
    simp only [Stats.step, Stats.writePath] at hs
    cases hpc : s.pc t <;> simp only [hpc] at hs <;> try split_ifs at hs
    all_goals first
      | cases hs; done
      | (cases hs; exact .inl rfl)
      | (obtain ⟨q, hq, rfl⟩ := Option.map_eq_some_iff.1 hs; exact .inr ⟨_, hq⟩)
  | limit t token =>
    simp only [Stats.step] at hs
    split at hs
    · cases hs
      exact .inl rfl
    · cases hs
  | async b =>
    obtain ⟨q, hq, -, -, ⟨t, -, rfl⟩ | ⟨-, rfl⟩⟩ := async_cases hs
    · refine .inr ⟨b, ?_⟩
      rw [(afterAsync_frame s t q).1]
      exact hq
    · exact .inr ⟨b, hq⟩

/-- All accounts of a state. -/
structure Accounts (g : Shape) (s : State ι ρ) : Prop where
  good : Async.Good g s.async
  returns : Async.ReturnsInv s.async
  inv : Inv s

/-- Every step keeps the books. -/
theorem Accounts.step {a : Act ι ρ} (h : Accounts g s) (hs : Stats.step cfg g s a = some s') :
    Accounts g s' := by
  have hinv := h.inv.step h.good hs
  rcases async_of_step hs with heq | ⟨b, hb⟩
  · exact ⟨heq ▸ h.good, heq ▸ h.returns, hinv⟩
  · exact ⟨Async.good_step h.good hb, h.returns.step h.good hb, hinv⟩

theorem accounts_init (g : Shape) (junk : ℕ → Queue.Entry (Async.Call (Rec ρ))) :
    Accounts g (init g junk : State ι ρ) where
  good := Async.good_init g junk
  returns := ⟨List.nodup_nil, fun _ _ => nofun, fun _ => rfl⟩
  inv := ⟨fun _ => rfl, by simp [init, Async.logAsyncInitFor, Pc.onWay],
    by simp [init, Async.logAsyncInitFor, Pc.failing]⟩

end Stats
end Clogx
