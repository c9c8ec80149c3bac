/-
# The notices of the rate limiter

`logger_writevprintf_internal` and `logger_write_kv_internal` of `core/log.c` in
synchronous mode, from the level filter on: a call that the limiter rejects is
counted, and the first call that it lets through again is preceded by a notice of
level `WARN` with the count, which goes through the dispatcher like any record.

Here is exactly when the notices account for every call that was rejected.
-/

import Clogx.Dispatcher.Lines
import Clogx.RateLimit.Limiter

namespace Clogx
namespace RateLimit

open CLib Dispatcher
open Formatter (Record orEmpty)

/-- `LOG_LEVEL_WARN`. -/
def levelWarn : ℕ := 3

/-- The text of a notice. -/
def noticeText (n : ℕ) : Text :=
  str "[clogx] Suppressed " ++ decimal n ++ str " log messages due to rate limit"

theorem zero_notMem_noticeText (n : ℕ) : 0 ∉ noticeText n := by
  simp only [noticeText, List.mem_append, not_or]
  exact ⟨⟨by decide, fun h => absurd (mem_decimal h).1 (by decide)⟩, by decide⟩

/-- `supp_msg`. -/
def suppMsg (n : ℕ) : CString :=
  ⟨cut 128 (noticeText n), fun h => zero_notMem_noticeText n (List.mem_of_mem_take h)⟩

/-- A 64-bit count leaves the text of a notice whole. -/
theorem suppMsg_eq {n : ℕ} (h : n < 2 ^ 64) : (suppMsg n).val = noticeText n := by
  have hdigits : (decimal n).length ≤ 20 :=
    length_decimal_le_of_lt (by norm_num) (h.trans_le (by norm_num))
  have hparts : (noticeText n).length = 19 + (decimal n).length + 31 := by
    rw [noticeText, List.length_append, List.length_append]
    rfl
  exact cut_of_length_lt (by omega)

variable {φ : Type*}

/-- `supp_rec`. -/
def suppRec (record : Record φ) (n : ℕ) : Record φ :=
  { record with level := levelWarn, message := some (suppMsg n), kv := [] }

/-- A logger in synchronous mode, as far as the calls leave it alone. -/
structure Logger (φ : Type*) where
  format : Record φ → ℤ × Block
  frame : Frame
  config : Config
  sinks : List (Option Sink)

/-- A dispatch: the count, if the record is a notice, and the writes of the sinks. -/
structure Dispatched where
  notice : Option ℕ
  writes : Option (List (List Write))

def Logger.dispatch (logger : Logger φ) (notice : Option ℕ) (record : Record φ) : Dispatched :=
  ⟨notice, (logDispatcherDispatchFor logger.format logger.frame logger.config logger.sinks
    record).map Prod.snd⟩

/-- What the two write paths share: the limiter, the notice and the record `final`. -/
def Logger.limited (logger : Logger φ) (r : Limiter) (nowMs : ℕ) (record final : Record φ) :
    Bool × Limiter × List Dispatched :=
  let allowed := allowFor r nowMs
  if allowed.1 = false then (false, allowed.2.2, [])
  else
    let suppressed := allowed.2.1
    (true, allowed.2.2,
      (if 0 < suppressed then [logger.dispatch (some suppressed) (suppRec record suppressed)]
        else []) ++
        [logger.dispatch none final])

/-- `logger_writevprintf_internal` with the record that it builds: whether the limiter let it pass,
the limiter afterwards and the dispatches. -/
def loggerWritevprintfInternal (logger : Logger φ) (r : Limiter) (nowMs : ℕ) (record : Record φ) :
    Bool × Limiter × List Dispatched :=
  if record.level < logger.config.level then (true, r, [])
  else logger.limited r nowMs record record

/-- `logger_write_kv_internal`, which redacts the record after the notice. -/
def loggerWriteKvInternal (redactKv : Record φ → Record φ) (logger : Logger φ) (r : Limiter)
    (nowMs : ℕ) (record : Record φ) : Bool × Limiter × List Dispatched :=
  if record.level < logger.config.level then (true, r, [])
  else logger.limited r nowMs record (redactKv record)

/-- A log call: its record, the reading of the clock, and what redaction does to the record. -/
inductive Call (φ : Type*)
  | printf (record : Record φ) (nowMs : ℕ)
  | kv (record : Record φ) (nowMs : ℕ) (redactKv : Record φ → Record φ)

def Call.run (logger : Logger φ) (r : Limiter) : Call φ → Bool × Limiter × List Dispatched
  | .printf record nowMs => loggerWritevprintfInternal logger r nowMs record
  | .kv record nowMs redactKv => loggerWriteKvInternal redactKv logger r nowMs record

/-- A logger in a run: the limiter, the dispatches so far, and the number of calls that the limiter
rejected. -/
structure State where
  limiter : Limiter
  dispatched : List Dispatched
  rejected : ℕ

def State.call (logger : Logger φ) (s : State) (c : Call φ) : State :=
  let out := c.run logger s.limiter
  ⟨out.2.1, s.dispatched ++ out.2.2, s.rejected + if out.1 = false then 1 else 0⟩

def State.calls (logger : Logger φ) (s : State) (cs : List (Call φ)) : State :=
  cs.foldl (State.call logger) s

/-- The count that a dispatch announces to the sink of place `j`. -/
def Dispatched.announces (j : ℕ) (d : Dispatched) : ℕ :=
  match d.notice, d.writes with
  | some n, some writes => if (writes.getD j []).isEmpty then 0 else n
  | _, _ => 0

/-- The sum of the counts in the notices that were written to the sink of place `j`. -/
def announced (j : ℕ) (ds : List Dispatched) : ℕ := (ds.map (Dispatched.announces j)).sum

/-- **The notices account for the rejected calls,** for the sink of place `j`.  The counters of the
limiter are 64 bits wide. -/
structure Accounted (j : ℕ) (s : State) : Prop where
  total : s.limiter.rlTotalSuppressed = s.rejected % 2 ^ 64
  sum : s.rejected < 2 ^ 64 →
    announced j s.dispatched + s.limiter.rlSuppressedCount = s.limiter.rlTotalSuppressed
  wraps : (announced j s.dispatched + s.limiter.rlSuppressedCount) % 2 ^ 64 =
    s.limiter.rlTotalSuppressed
  texts : ∀ d ∈ s.dispatched, ∀ n writes, d.notice = some n → d.writes = some writes →
    writes.getD j [] ≠ [] → noticeText n <:+: bytes (writes.getD j [])

/-- The format renders a message as short as that of a notice, without truncation. -/
def Renders (format : Record φ → ℤ × Block) : Prop :=
  ∀ record : Record φ, (orEmpty record.message).length < 128 →
    ∃ line, Formats (format record) line ∧ orEmpty record.message <:+: line

/-! ### One notice -/

theorem infix_endLine (t : Text) : t <:+: endLine t := by
  rw [endLine]
  split_ifs
  · exact List.infix_rfl
  · exact (List.prefix_append t [10]).isInfix

theorem infix_shownLine (config : Config) (level : ℕ) (line : Text) (sink : Sink) :
    line <:+: shownLine config level line sink := by
  rw [shownLine]
  split_ifs
  · exact ⟨_, _, rfl⟩
  · exact List.infix_rfl

section Notice

variable {logger : Logger φ} {j : ℕ} {sink : Sink} (hrenders : Renders logger.format)
  (hsink : logger.sinks[j]? = some (some sink)) (hmin : sink.minLevel = 0)
include hrenders hsink hmin

/-- **A notice that passes the level of the logger is written to the sink,** with its text. -/
theorem writes_notice (hlevel : logger.config.level ≤ levelWarn) (record : Record φ) {n : ℕ}
    (hn : n < 2 ^ 64) :
    ∃ writes, (logger.dispatch (some n) (suppRec record n)).writes = some writes ∧
      writes.getD j [] ≠ [] ∧ noticeText n <:+: bytes (writes.getD j []) := by
  obtain ⟨line, hline, hmessage⟩ := hrenders (suppRec record n)
    (length_cut_lt (by norm_num) (noticeText n))
  have hmessage : noticeText n <:+: line := by
    rw [← suppMsg_eq hn]
    exact hmessage
  have hne : line ≠ [] := by
    rintro rfl
    have hempty := List.eq_nil_of_infix_nil hmessage
    simp [noticeText, str] at hempty
  obtain ⟨writes, heq, hshown⟩ := dispatch_eq logger.frame hline hne hlevel logger.sinks
  refine ⟨writes, by rw [Logger.dispatch, heq]; rfl, ?_⟩
  obtain ⟨hlen, hget⟩ := List.forall₂_iff_get.1 hshown
  obtain ⟨hj, hentry⟩ := List.getElem?_eq_some_iff.1 hsink
  have hj' : j < writes.length := hlen ▸ hj
  have hshown : Shown logger.config levelWarn line (some sink) writes[j] := by
    have := hget j hj hj'
    rwa [List.get_eq_getElem, hentry] at this
  have hadmits : Admits levelWarn sink := by
    rw [Admits, hmin]
    decide
  obtain ⟨w, ws, hcons, hbytes, -⟩ := hshown.1 hadmits
  rw [List.getD_eq_getElem?_getD, List.getElem?_eq_getElem hj', Option.getD_some, hbytes, hcons]
  exact ⟨List.cons_ne_nil w ws,
    (hmessage.trans (infix_shownLine _ _ line sink)).trans (infix_endLine _)⟩

theorem announces_notice (hlevel : logger.config.level ≤ levelWarn) (record : Record φ) {n : ℕ}
    (hn : n < 2 ^ 64) :
    (logger.dispatch (some n) (suppRec record n)).announces j = n := by
  obtain ⟨writes, hwrites, hne, -⟩ := writes_notice hrenders hsink hmin hlevel record hn
  rw [Dispatched.announces, hwrites]
  exact if_neg fun hempty => hne (List.isEmpty_iff.1 hempty)

end Notice

/-- A notice below the level of the logger announces nothing. -/
theorem announces_filtered {logger : Logger φ} (hlevel : levelWarn < logger.config.level) (j : ℕ)
    (notice : Option ℕ) (record : Record φ) (n : ℕ) :
    (logger.dispatch notice (suppRec record n)).announces j = 0 := by
  have hlevel : (suppRec record n).level < logger.config.level := hlevel
  have hnone : (logger.sinks.map fun _ => ([] : List Write)).getD j [] = [] := by
    rw [List.getD_eq_getElem?_getD, List.getElem?_map]
    cases logger.sinks[j]? <;> rfl
  rw [Logger.dispatch, dispatch_filtered logger.frame hlevel, Dispatched.announces]
  cases notice with
  | none => rfl
  | some n => exact if_pos (List.isEmpty_iff.2 hnone)

/-! ### One call -/

/-- What a call of the limiter does to its counters. -/
theorem allowFor_counts (r : Limiter) (nowMs : ℕ) :
    ((allowFor r nowMs).1 = true ∧ (allowFor r nowMs).2.2.rlTotalSuppressed = r.rlTotalSuppressed ∧
      (allowFor r nowMs).2.1 + (allowFor r nowMs).2.2.rlSuppressedCount = r.rlSuppressedCount) ∨
    ((allowFor r nowMs).1 = false ∧
      (allowFor r nowMs).2.2.rlTotalSuppressed = (r.rlTotalSuppressed + 1) % 2 ^ 64 ∧
      (allowFor r nowMs).2.2.rlSuppressedCount = (r.rlSuppressedCount + 1) % 2 ^ 64) := by
  have hkeep : (r.refill nowMs).rlSuppressedCount = r.rlSuppressedCount ∧
      (r.refill nowMs).rlTotalSuppressed = r.rlTotalSuppressed := by
    rw [Limiter.refill]
    split_ifs <;> exact ⟨rfl, rfl⟩
  by_cases hoff : r.rlEnabled = false
  · rw [allowFor, if_pos hoff]
    exact .inl ⟨rfl, rfl, Nat.zero_add _⟩
  · rw [allowFor, if_neg hoff]
    dsimp only
    by_cases htokens : 1 ≤ (r.refill nowMs).rlTokens
    · rw [if_pos htokens]
      exact .inl ⟨rfl, hkeep.2, hkeep.1⟩
    · rw [if_neg htokens]
      exact .inr ⟨rfl, by rw [← hkeep.2], by rw [← hkeep.1]⟩

/-- A call below the level of the logger does nothing; another goes through the limiter. -/
theorem call_cases (logger : Logger φ) (s : State) (c : Call φ) :
    s.call logger c = s ∨ ∃ nowMs record final,
      s.call logger c =
        ⟨(logger.limited s.limiter nowMs record final).2.1,
          s.dispatched ++ (logger.limited s.limiter nowMs record final).2.2,
          s.rejected + if (logger.limited s.limiter nowMs record final).1 = false then 1 else 0⟩ := by
  cases c with
  | printf record nowMs =>
    by_cases hlevel : record.level < logger.config.level
    · refine .inl ?_
      rw [State.call, Call.run, loggerWritevprintfInternal, if_pos hlevel]
      simp
    · refine .inr ⟨nowMs, record, record, ?_⟩
      rw [State.call, Call.run, loggerWritevprintfInternal, if_neg hlevel]
  | kv record nowMs redactKv =>
    by_cases hlevel : record.level < logger.config.level
    · refine .inl ?_
      rw [State.call, Call.run, loggerWriteKvInternal, if_pos hlevel]
      simp
    · refine .inr ⟨nowMs, record, redactKv record, ?_⟩
      rw [State.call, Call.run, loggerWriteKvInternal, if_neg hlevel]

/-- The write paths do to the limiter what one call of it does. -/
theorem limited_eq (logger : Logger φ) (r : Limiter) (nowMs : ℕ) (record final : Record φ) :
    (logger.limited r nowMs record final).1 = (allowFor r nowMs).1 ∧
      (logger.limited r nowMs record final).2.1 = (allowFor r nowMs).2.2 ∧
      ((allowFor r nowMs).1 = false → (logger.limited r nowMs record final).2.2 = []) ∧
      ((allowFor r nowMs).1 = true → (logger.limited r nowMs record final).2.2 =
        (if 0 < (allowFor r nowMs).2.1 then
          [logger.dispatch (some (allowFor r nowMs).2.1) (suppRec record (allowFor r nowMs).2.1)]
        else []) ++ [logger.dispatch none final]) := by
  rw [Logger.limited]
  dsimp only
  cases (allowFor r nowMs).1 with
  | true => exact ⟨rfl, rfl, fun h => (by cases h), fun _ => rfl⟩
  | false => exact ⟨rfl, rfl, fun _ => rfl, fun h => (by cases h)⟩

theorem announced_append (j : ℕ) (ds es : List Dispatched) :
    announced j (ds ++ es) = announced j ds + announced j es := by
  rw [announced, List.map_append, List.sum_append]
  rfl

/-- The invariant of a run: the counters, up to wraps of the pending count, and the texts of the
notices. -/
structure Balanced (j : ℕ) (s : State) : Prop where
  total : s.limiter.rlTotalSuppressed = s.rejected % 2 ^ 64
  pending : s.limiter.rlSuppressedCount < 2 ^ 64
  balance : ∃ k, announced j s.dispatched + s.limiter.rlSuppressedCount + 2 ^ 64 * k = s.rejected
  texts : ∀ d ∈ s.dispatched, ∀ n writes, d.notice = some n → d.writes = some writes →
    writes.getD j [] ≠ [] → noticeText n <:+: bytes (writes.getD j [])

theorem Balanced.accounted {j : ℕ} {s : State} (h : Balanced j s) : Accounted j s := by
  obtain ⟨k, hk⟩ := h.balance
  refine ⟨h.total, fun hlt => ?_, ?_, h.texts⟩
  · have hzero : k = 0 := by
      by_contra hne
      have : 2 ^ 64 * 1 ≤ 2 ^ 64 * k := Nat.mul_le_mul_left _ (Nat.pos_of_ne_zero hne)
      omega
    rw [hzero, Nat.mul_zero, Nat.add_zero] at hk
    rw [h.total, Nat.mod_eq_of_lt hlt, hk]
  · rw [h.total, ← hk, Nat.add_mul_mod_self_left]

section Step

variable {logger : Logger φ} {j : ℕ} {sink : Sink} (hrenders : Renders logger.format)
  (hsink : logger.sinks[j]? = some (some sink)) (hmin : sink.minLevel = 0)
  (hlevel : logger.config.level ≤ levelWarn)
include hrenders hsink hmin hlevel

/-- A call that is let through announces what the limiter gave up. -/
theorem announced_limited {r : Limiter} {nowMs : ℕ} (hret : (allowFor r nowMs).1 = true)
    (hn : (allowFor r nowMs).2.1 < 2 ^ 64) (record final : Record φ) :
    announced j (logger.limited r nowMs record final).2.2 = (allowFor r nowMs).2.1 ∧
      ∀ d ∈ (logger.limited r nowMs record final).2.2, ∀ n writes, d.notice = some n →
        d.writes = some writes → writes.getD j [] ≠ [] →
          noticeText n <:+: bytes (writes.getD j []) := by
  rw [(limited_eq logger r nowMs record final).2.2.2 hret]
  constructor
  · rw [announced_append]
    split_ifs with hpos
    · exact (Nat.add_zero _).trans
        ((Nat.add_zero _).trans (announces_notice hrenders hsink hmin hlevel record hn))
    · exact (Nat.eq_zero_of_not_pos hpos).symm
  · intro d hd n writes hcount hwrites _
    rcases List.mem_append.1 hd with hd | hd
    · split_ifs at hd
      · rw [List.mem_singleton.1 hd] at hcount hwrites
        obtain ⟨writes', hwrites', -, htext⟩ := writes_notice hrenders hsink hmin hlevel record hn
        rw [hwrites'] at hwrites
        cases hcount
        cases hwrites
        exact htext
      · cases hd
    · rw [List.mem_singleton.1 hd] at hcount
      cases hcount

/-- **One call keeps the balance,** if notices pass the level of the logger. -/
theorem Balanced.call {s : State} (h : Balanced j s) (c : Call φ) :
    Balanced j (s.call logger c) := by
  rcases call_cases logger s c with heq | ⟨nowMs, record, final, heq⟩
  · rwa [heq]
  · obtain ⟨k, hk⟩ := h.balance
    have hpending := h.pending
    obtain ⟨hfst, hlimiter, hnone, -⟩ := limited_eq logger s.limiter nowMs record final
    rw [heq, hfst, hlimiter]
    rcases allowFor_counts s.limiter nowMs with ⟨hret, htotal, hsum⟩ | ⟨hret, htotal, hcount⟩
    · -- The count that the limiter gave up is in the notice.
      obtain ⟨hannounced, htexts⟩ := announced_limited hrenders hsink hmin hlevel hret
        (by omega) record final
      rw [hret, if_neg (by decide)]
      refine ⟨htotal.trans h.total, lt_of_le_of_lt (by dsimp only; omega) hpending, ⟨k, ?_⟩, ?_⟩
      · dsimp only
        rw [announced_append, hannounced]
        omega
      · intro d hd
        rcases List.mem_append.1 hd with hd | hd
        · exact h.texts d hd
        · exact htexts d hd
    · rw [hret, if_pos rfl, hnone hret, List.append_nil]
      refine ⟨?_, ?_, ?_, h.texts⟩
      · dsimp only
        rw [htotal, h.total, Nat.mod_add_mod]
      · dsimp only
        rw [hcount]
        exact Nat.mod_lt _ (by norm_num)
      · dsimp only
        rw [hcount]
        by_cases hwrap : s.limiter.rlSuppressedCount + 1 = 2 ^ 64
        · refine ⟨k + 1, ?_⟩
          rw [hwrap, Nat.mod_self, Nat.mul_add]
          omega
        · refine ⟨k, ?_⟩
          rw [Nat.mod_eq_of_lt (by omega)]
          omega

theorem Balanced.calls (cs : List (Call φ)) :
    ∀ {s : State}, Balanced j s → Balanced j (s.calls logger cs) := by
  induction cs with
  | nil => exact fun h => h
  | cons c cs ih => exact fun h => ih (h.call hrenders hsink hmin hlevel c)

end Step

/-! ### A limiter that is off -/

/-- The limiter is off and no notice was made. -/
structure Quiet (s : State) : Prop where
  off : s.limiter.rlEnabled = false
  pending : s.limiter.rlSuppressedCount = 0
  total : s.limiter.rlTotalSuppressed = 0
  rejected : s.rejected = 0
  notices : ∀ d ∈ s.dispatched, d.notice = none

theorem Quiet.call {logger : Logger φ} {s : State} (h : Quiet s) (c : Call φ) :
    Quiet (s.call logger c) := by
  rcases call_cases logger s c with heq | ⟨nowMs, record, final, heq⟩
  · rwa [heq]
  · have hallow : allowFor s.limiter nowMs = (true, 0, s.limiter) := by
      rw [allowFor, if_pos h.off]
    obtain ⟨hfst, hlimiter, -, hdispatched⟩ := limited_eq logger s.limiter nowMs record final
    rw [hallow] at hfst hlimiter hdispatched
    rw [heq, hfst, hlimiter, hdispatched rfl]
    refine ⟨h.off, h.pending, h.total, h.rejected, fun d hd => ?_⟩
    rcases List.mem_append.1 hd with hd | hd
    · exact h.notices d hd
    · rw [List.mem_singleton.1 hd]
      rfl

theorem Quiet.calls {logger : Logger φ} (cs : List (Call φ)) :
    ∀ {s : State}, Quiet s → Quiet (s.calls logger cs) := by
  induction cs with
  | nil => exact fun h => h
  | cons c cs ih => exact fun h => ih (h.call c)

theorem Quiet.accounted {s : State} (h : Quiet s) (j : ℕ) : Accounted j s := by
  have hzero : announced j s.dispatched = 0 := by
    refine List.sum_eq_zero fun n hn => ?_
    obtain ⟨d, hd, rfl⟩ := List.mem_map.1 hn
    rw [Dispatched.announces, h.notices d hd]
  refine ⟨by rw [h.total, h.rejected, Nat.zero_mod], fun _ => ?_, ?_, fun d hd n writes hn => ?_⟩
  · rw [hzero, h.pending, h.total]
  · rw [hzero, h.pending, h.total, Nat.zero_mod]
  · rw [h.notices d hd] at hn
    cases hn

/-! ### A logger that filters its notices -/

/-- A call of the level of the logger, so that it passes the filter. -/
def probe (logger : Logger φ) (nowMs : ℕ) : Call φ :=
  .printf ⟨0, none, none, none, none, none, logger.config.level, 0, 0, 0, 0, 0, []⟩ nowMs

theorem call_probe (logger : Logger φ) (s : State) (nowMs : ℕ) :
    (s.call logger (probe logger nowMs)).limiter = (allowFor s.limiter nowMs).2.2 ∧
      (s.call logger (probe logger nowMs)).rejected =
        s.rejected + if (allowFor s.limiter nowMs).1 = false then 1 else 0 := by
  have hlevel : ¬ logger.config.level < logger.config.level := lt_irrefl _
  rw [probe, State.call, Call.run, loggerWritevprintfInternal, if_neg hlevel]
  dsimp only
  rw [(limited_eq logger s.limiter nowMs _ _).1, (limited_eq logger s.limiter nowMs _ _).2.1]
  exact ⟨rfl, rfl⟩

/-- With notices below the level of the logger nothing is ever announced. -/
theorem announced_calls_filtered {logger : Logger φ} (hlevel : levelWarn < logger.config.level)
    (j : ℕ) (cs : List (Call φ)) : ∀ {s : State}, announced j s.dispatched = 0 →
      announced j (s.calls logger cs).dispatched = 0 := by
  induction cs with
  | nil => exact fun h => h
  | cons c cs ih =>
    intro s h
    refine ih ?_
    rcases call_cases logger s c with heq | ⟨nowMs, record, final, heq⟩
    · rwa [heq]
    · obtain ⟨-, -, hnone, hdispatched⟩ := limited_eq logger s.limiter nowMs record final
      rw [heq]
      dsimp only
      rw [announced_append, h, Nat.zero_add]
      cases hret : (allowFor s.limiter nowMs).1 with
      | false => rw [hnone hret]; rfl
      | true =>
        rw [hdispatched hret, announced_append]
        split_ifs
        · exact (Nat.add_zero _).trans
            ((Nat.add_zero _).trans (announces_filtered hlevel j _ record _))
        · rfl

/-- As many calls as there are tokens, at one reading of the clock, all pass. -/
theorem calls_drain (logger : Logger φ) (cap rate : ℚ) (start total : ℕ) (n : ℕ) :
    ∀ s : State, s.limiter = ⟨true, n, cap, rate, start, 0, total⟩ →
      (s.calls logger (List.replicate n (probe logger start))).limiter =
        ⟨true, 0, cap, rate, start, 0, total⟩ ∧
      (s.calls logger (List.replicate n (probe logger start))).rejected = s.rejected := by
  induction n with
  | zero => exact fun s hs => ⟨hs.trans (by rw [Nat.cast_zero]), rfl⟩
  | succ n ih =>
    intro s hs
    have hallow : allowFor s.limiter start = (true, 0, ⟨true, n, cap, rate, start, 0, total⟩) := by
      have htokens : (1 : ℚ) ≤ ((n + 1 : ℕ) : ℚ) := by
        rw [Nat.cast_succ]
        exact le_add_of_nonneg_left (Nat.cast_nonneg n)
      rw [hs, allowFor, if_neg Bool.noConfusion]
      simp only [Limiter.refill, lt_irrefl, if_false, if_pos htokens]
      rw [Nat.cast_succ, add_sub_cancel_right]
    obtain ⟨hlimiter, hrejected⟩ := call_probe logger s start
    rw [hallow] at hlimiter hrejected
    obtain ⟨hlimiter', hrejected'⟩ := ih _ hlimiter
    rw [List.replicate_succ]
    exact ⟨hlimiter', hrejected'.trans (by rw [hrejected]; rfl)⟩

/-- The `n` tokens are taken, one call more is made at once, and another a second later. -/
def overdrawn (logger : Logger φ) (n start : ℕ) : List (Call φ) :=
  List.replicate n (probe logger start) ++ [probe logger start, probe logger (start + 1000)]

/-- **One call of them is rejected, and the last call clears the count.** -/
theorem calls_overdrawn (logger : Logger φ) {maxPerSec : ℤ} {n : ℕ} (hmax : 0 < maxPerSec)
    (hburst : (0 : ℤ) < n) {r : Limiter} (hr : r.rlTotalSuppressed = 0) (start : ℕ) :
    let s := State.calls logger ⟨initFor r true maxPerSec n start, [], 0⟩ (overdrawn logger n start)
    s.rejected = 1 ∧ s.limiter.rlSuppressedCount = 0 := by
  have hinit : initFor r true maxPerSec n start =
      ⟨true, n, n, maxPerSec / 1000, start, 0, 0⟩ := by
    rw [initFor, if_pos ⟨rfl, hmax, hburst⟩, hr]
    simp
  obtain ⟨hlimiter, hrejected⟩ := calls_drain logger n (maxPerSec / 1000) start 0 n
    ⟨initFor r true maxPerSec n start, [], 0⟩ hinit
  set s := State.calls logger ⟨initFor r true maxPerSec n start, [], 0⟩
    (List.replicate n (probe logger start)) with hs
  have hreject : allowFor s.limiter start =
      (false, 0, ⟨true, 0, n, maxPerSec / 1000, start, 1, 1⟩) := by
    rw [hlimiter, allowFor, if_neg Bool.noConfusion]
    simp [Limiter.refill]
  obtain ⟨hlimiter', hrejected'⟩ := call_probe logger s start
  rw [hreject] at hlimiter' hrejected'
  have hone : (1 : ℚ) ≤ maxPerSec := by exact_mod_cast hmax
  have hcap : (1 : ℚ) ≤ n := by exact_mod_cast hburst
  have hgrant : (allowFor (s.call logger (probe logger start)).limiter (start + 1000)).1 = true ∧
      (allowFor (s.call logger (probe logger start)).limiter
        (start + 1000)).2.2.rlSuppressedCount = 0 := by
    have htokens : (1 : ℚ) ≤ if (n : ℚ) < 0 + (1000 : ℕ) * (maxPerSec / 1000) then (n : ℚ)
        else 0 + (1000 : ℕ) * (maxPerSec / 1000) := by
      split_ifs
      · exact hcap
      · push_cast
        linarith
    rw [hlimiter', allowFor, if_neg Bool.noConfusion]
    simp only [Limiter.refill, if_pos (show start < start + 1000 by omega), Nat.add_sub_cancel_left,
      if_pos htokens, and_self]
  obtain ⟨hlimiter'', hrejected''⟩ :=
    call_probe logger (s.call logger (probe logger start)) (start + 1000)
  have hcalls : State.calls logger ⟨initFor r true maxPerSec n start, [], 0⟩
      (overdrawn logger n start) =
      (s.call logger (probe logger start)).call logger (probe logger (start + 1000)) := by
    rw [State.calls, overdrawn, List.foldl_append]
    rfl
  dsimp only
  rw [hcalls]
  refine ⟨?_, by rw [hlimiter'']; exact hgrant.2⟩
  rw [hrejected'', hgrant.1, hrejected', hrejected]
  rfl

/-- **The notices account for every rejected call, in every run,** exactly if the logger lets records
of level `WARN` through or the limiter is off.  The sink may be any of the sinks, with the minimum
level `TRACE`; the format is one that renders the message. -/
theorem notices_account_iff {logger : Logger φ} {j : ℕ} {sink : Sink}
    (hrenders : Renders logger.format) (hsink : logger.sinks[j]? = some (some sink))
    (hmin : sink.minLevel = 0) {r : Limiter} (hpending : r.rlSuppressedCount = 0)
    (htotal : r.rlTotalSuppressed = 0) (enable : Bool) (maxPerSec burst : ℤ) (start : ℕ) :
    (∀ cs, Accounted j (State.calls logger ⟨initFor r enable maxPerSec burst start, [], 0⟩ cs)) ↔
      logger.config.level ≤ levelWarn ∨ ¬ (enable = true ∧ 0 < maxPerSec ∧ 0 < burst) := by
  constructor
  · intro hall
    by_contra hnot
    simp only [not_or, not_not, not_le] at hnot
    obtain ⟨hlevel, rfl, hmax, hburst⟩ := hnot
    obtain ⟨n, rfl⟩ := Int.eq_ofNat_of_zero_le hburst.le
    obtain ⟨hrejected, hlost⟩ := calls_overdrawn logger hmax hburst htotal start
    have h := hall (overdrawn logger n start)
    have hsum := h.sum (by rw [hrejected]; norm_num)
    rw [announced_calls_filtered hlevel j _ rfl, hlost, h.total, hrejected] at hsum
    cases hsum
  · rintro (hlevel | hoff) cs
    · refine (Balanced.calls hrenders hsink hmin hlevel cs ?_).accounted
      have hcounts : (initFor r enable maxPerSec burst start).rlSuppressedCount = 0 ∧
          (initFor r enable maxPerSec burst start).rlTotalSuppressed = 0 := by
        rw [initFor]
        split_ifs
        · exact ⟨rfl, htotal⟩
        · exact ⟨hpending, htotal⟩
      refine ⟨hcounts.2, by rw [hcounts.1]; norm_num, ⟨0, ?_⟩,
        fun d hd => absurd hd List.not_mem_nil⟩
      dsimp only
      rw [hcounts.1]
      rfl
    · refine (Quiet.calls cs ?_).accounted j
      have hinit : initFor r enable maxPerSec burst start = { r with rlEnabled := false } :=
        if_neg hoff
      rw [hinit]
      exact ⟨rfl, hpending, htotal, rfl, fun d hd => absurd hd List.not_mem_nil⟩

/-- A logger with one sink, whose lines are the messages. -/
def plainLogger (level : ℕ) : Logger Empty where
  format record := always ((orEmpty record.message).take (maxFormattedSize - 1)) record
  frame := zeroFrame
  config := ⟨level, false⟩
  sinks := [some ⟨0, false, false⟩]

theorem renders_plainLogger (level : ℕ) : Renders (plainLogger level).format := by
  intro record hlen
  have hwhole : (orEmpty record.message).take (maxFormattedSize - 1) = orEmpty record.message :=
    List.take_of_length_le (by rw [maxFormattedSize]; omega)
  have hzero : 0 ∉ orEmpty record.message := by
    cases record.message with
    | none => exact List.not_mem_nil
    | some message => exact message.property
  refine ⟨orEmpty record.message, ?_, List.infix_rfl⟩
  show Formats (always ((orEmpty record.message).take (maxFormattedSize - 1)) record) _
  rw [hwhole]
  exact formats_always (by rw [maxFormattedSize]; omega) hzero record

/-- A logger of level `WARN` lets the notices through. -/
theorem notices_account_warn :
    Accounted 0 (State.calls (plainLogger 3) ⟨initFor resetFor true 10 2 5, [], 0⟩
      (overdrawn (plainLogger 3) 2 5)) :=
  (notices_account_iff (renders_plainLogger 3) (j := 0) rfl rfl (r := resetFor) rfl rfl
    true 10 2 5).2 (.inl le_rfl) _

/-- A logger of level `ERROR` with two tokens: of the calls at 5, 5, 5 and 1005 ms the third is
rejected, the fourth clears the count, and no notice is written. -/
theorem notice_filtered :
    let s := State.calls (plainLogger 4) ⟨initFor resetFor true 10 (2 : ℕ) 5, [], 0⟩
      (overdrawn (plainLogger 4) 2 5)
    s.rejected = 1 ∧ announced 0 s.dispatched + s.limiter.rlSuppressedCount = 0 := by
  obtain ⟨hrejected, hlost⟩ := calls_overdrawn (plainLogger 4) (by norm_num : (0 : ℤ) < 10)
    (by norm_num : (0 : ℤ) < (2 : ℕ)) (rfl : resetFor.rlTotalSuppressed = 0) 5
  refine ⟨hrejected, ?_⟩
  rw [announced_calls_filtered (by decide) 0 _ rfl, hlost]

end RateLimit
end Clogx
