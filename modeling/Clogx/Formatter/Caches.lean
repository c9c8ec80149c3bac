/-
# The caches of the formatter

The two caches of a thread are shared by all loggers and by the three renderers:
the compiled format of the last text line, and the text of the last second.  A
history is a list of calls from empty caches.

The format cache needs nothing: whatever it holds, the program it yields is that
of the format (`FmtCache.lookup_eq`).  The time cache keeps what `strftime` left
in the array even if the expansion did not fit, so a call is independent of the
history exactly as long as every text of a second fits.
-/

import Clogx.Formatter.Render

namespace Clogx
namespace Formatter

open CLib

/-! ### The format cache -/

/-- The program is that of the copy, which fits the array. -/
structure FmtCache.Coherent (c : FmtCache) : Prop where
  size : c.fmt.length < maxFormatSize
  ops : c.ops = fmtCompile c.fmt

theorem FmtCache.coherent_empty : FmtCache.empty.Coherent := ⟨by decide, rfl⟩

/-- **The cache yields the program of the format,** whatever it held. -/
theorem FmtCache.Coherent.lookup_eq {c : FmtCache} (h : c.Coherent) (fmt : Text) :
    c.lookup fmt = ⟨cut maxFormatSize fmt, fmtCompile (cut maxFormatSize fmt)⟩ := by
  rw [FmtCache.lookup]
  split_ifs with hne
  · rfl
  · obtain rfl := not_not.1 hne
    rw [cut_of_length_lt h.size, ← h.ops]

theorem FmtCache.coherent_compiled (fmt : Text) :
    FmtCache.Coherent ⟨cut maxFormatSize fmt, fmtCompile (cut maxFormatSize fmt)⟩ :=
  ⟨length_cut_lt (by norm_num [maxFormatSize]) fmt, rfl⟩

/-! ### The loop over the opcodes -/

section Ops

variable {φ : Type*} {libc : Libc} {leaves : Buf64 → Buf64} {fmt tf : Text} {record : Record φ}

/-- Only `%time` looks at `time_buf`. -/
theorem fmtCase_of_ne {op : FmtOp} (h : op ≠ .token .time) (t t' : Text) (l : Line) :
    fmtCase fmt t record l op = fmtCase fmt t' record l op := by
  cases op with
  | literal start len => rfl
  | token tok => cases tok <;> first | rfl | exact absurd rfl h

/-- What the text of the second keeps, the loop keeps. -/
theorem renderOps_invariant {Q : TimeCache → Prop} (ops : List FmtOp) :
    (.token .time ∈ ops → ∀ {c t c'}, Q c →
      formatSecCached libc leaves c (record.timestamp / 1000000) (some tf) 64 = some (t, c') →
      Q c') → ∀ {s s' : TimeCache × Line}, Q s.1 →
      ops.foldlM (renderOp libc leaves fmt tf record) s = some s' → Q s'.1 := by
  induction ops with
  | nil =>
    intro _ s s' hs h
    cases h
    exact hs
  | cons op ops ih =>
    intro hQ s s' hs h
    obtain ⟨m, hm, hrest⟩ := Option.bind_eq_some_iff.1 h
    refine ih (fun hmem => hQ (List.mem_cons_of_mem _ hmem)) ?_ hrest
    rw [renderOp] at hm
    split_ifs at hm with htime
    · obtain ⟨r, hr, rfl⟩ := Option.map_eq_some_iff.1 hm
      exact hQ (htime ▸ List.mem_cons_self ..) hs hr
    · cases hm
      exact hs

/-- **With a coherent time cache the loop is that of the text of the second.** -/
theorem renderOps_of_fits (leaves : Buf64 → Buf64) (fmt : Text) (record : Record φ)
    (ops : List FmtOp)
    (hfits : .token .time ∈ ops → SecFits libc (record.timestamp / 1000000) tf) (l : Line) :
    ∀ {time : TimeCache}, (tf.length < 64 → time.Coherent libc) →
      ∃ c, ops.foldlM (renderOp libc leaves fmt tf record) (time, l) =
        some (c, ops.foldl
          (fmtCase fmt (secText libc (record.timestamp / 1000000) tf) record) l) := by
  induction ops generalizing l with
  | nil => exact fun _ => ⟨_, rfl⟩
  | cons op ops ih =>
    intro time hs
    rw [List.foldlM_cons, List.foldl_cons, renderOp]
    split_ifs with htime
    · have hfits₁ := hfits (htime ▸ List.mem_cons_self ..)
      obtain ⟨c, hc⟩ := TimeCache.formatSecCached_of_fits hs hfits₁ leaves 64
      rw [cut_of_length_lt (length_secText hfits₁)] at hc
      rw [hc]
      exact ih (fun h => hfits (List.mem_cons_of_mem _ h)) _ fun htf =>
        (hs htf).formatSecCached htf hc
    · rw [fmtCase_of_ne htime [] (secText libc (record.timestamp / 1000000) tf)]
      exact ih (fun h => hfits (List.mem_cons_of_mem _ h)) _ hs

/-- A loop that comes to `%time` with a text that does not fit depends on what is left. -/
theorem renderOps_of_not_fits (hleaves : ∀ b, (leaves b).text = none)
    (hfits : ¬ SecFits libc (record.timestamp / 1000000) tf) (ops : List FmtOp) :
    ∀ {s : TimeCache × Line}, s.1.Fitted libc → .token .time ∈ ops →
      ops.foldlM (renderOp libc leaves fmt tf record) s = none := by
  induction ops with
  | nil => exact fun _ h => by cases h
  | cons op ops ih =>
    intro s hs hmem
    rw [List.foldlM_cons, renderOp]
    split_ifs with htime
    · rw [hs.formatSecCached_eq hfits, hleaves]
      rfl
    · exact ih hs ((List.mem_cons.1 hmem).resolve_left fun h => htime h.symm)

end Ops

/-! ### Calls -/

/-- A time format of at most 63 bytes. -/
abbrev TimeFormat := {t : CString // t.val.length ≤ 63}

/-- The renderers, with the formats they are given. -/
inductive Renderer
  | impl (fmt : CString) (timeFormat : Option TimeFormat)
  | jsonEx (timeFormat : Option TimeFormat)
  | otelJson

/-- A call of a renderer. -/
structure Call (φ : Type*) where
  renderer : Renderer
  record : Record φ
  buf : Text

/-- The text of a time format that is not `NULL`. -/
def timeFormatText (timeFormat : Option TimeFormat) : Option Text :=
  timeFormat.map fun t : TimeFormat => t.val.val

namespace Call

variable {φ : Type*}

/-- The second of the record. -/
def sec (call : Call φ) : ℕ := call.record.timestamp / 1000000

/-- The format of the time in the output, if there is one. -/
def timeFormat (call : Call φ) : Option Text :=
  match call.renderer with
  | .impl fmt tf =>
    if IsJson fmt then some ((timeFormatText tf).getD isoFormat)
    else if IsOtel fmt then some isoFormat
    else if .token .time ∈ fmtCompile (cut maxFormatSize fmt) then some (orIso (timeFormatText tf))
    else none
  | .jsonEx tf => some ((timeFormatText tf).getD isoFormat)
  | .otelJson => some isoFormat

/-- The text of the second fits the array of the time cache, if the call renders it. -/
def Fits (libc : Libc) (call : Call φ) : Prop :=
  ∀ tf ∈ call.timeFormat, SecFits libc call.sec tf

variable (snprintf6g : φ → Text) (libc : Libc)

/-- A call from some caches: what it returns, the buffer, and the caches afterwards. -/
def run (leaves : Buf64 → Buf64) (c : Caches) (call : Call φ) : Option ((ℤ × Out) × Caches) :=
  match call.renderer with
  | .impl fmt tf =>
    c.formatImpl snprintf6g libc leaves call.record call.buf fmt (timeFormatText tf)
  | .jsonEx tf => c.formatJsonEx snprintf6g libc leaves call.record call.buf (timeFormatText tf)
  | .otelJson => c.formatOtelJson snprintf6g libc leaves call.record call.buf

theorem length_timeFormatText {tf : Option TimeFormat} {t : Text} (h : t ∈ timeFormatText tf) :
    t.length < 64 := by
  obtain ⟨t', -, rfl⟩ := Option.map_eq_some_iff.1 h
  exact Nat.lt_succ_of_le t'.property

theorem length_getD_iso (tf : Option TimeFormat) :
    ((timeFormatText tf).getD isoFormat).length < 64 := by
  cases h : timeFormatText tf with
  | none => decide +kernel
  | some t => exact length_timeFormatText h

theorem length_orIso (tf : Option TimeFormat) : (orIso (timeFormatText tf)).length < 64 := by
  have hiso : isoFormat.length < 64 := by decide +kernel
  cases h : timeFormatText tf with
  | none => exact hiso
  | some t =>
    rw [orIso]
    split_ifs
    · exact length_timeFormatText h
    · exact hiso

/-- A call that puts the text of the second, in the format `tf`, into a line. -/
structure Stamps (call : Call φ) (tf : Text) (line : Text → ℤ × Out) : Prop where
  size : tf.length < 64
  format : call.timeFormat = some tf
  run_eq : ∀ leaves c, call.run snprintf6g libc leaves c =
    (formatSecCached libc leaves c.time call.sec (some tf) 64).map fun r =>
      (line r.1, { c with time := r.2 })

/-- A call that runs the program of the format `fmt`. -/
structure Interprets (call : Call φ) (fmt tf : Text) (line : Line → ℤ × Out) : Prop where
  size : tf.length < 64
  format : call.timeFormat = if .token .time ∈ fmtCompile fmt then some tf else none
  coherent : FmtCache.Coherent ⟨fmt, fmtCompile fmt⟩
  run_eq : ∀ leaves c, FmtCache.Coherent c.fmt → call.run snprintf6g libc leaves c =
    ((fmtCompile fmt).foldlM (renderOp libc leaves fmt tf call.record)
      (c.time, ⟨⟨[], call.buf⟩, 0⟩)).map fun s => (line s.2, ⟨⟨fmt, fmtCompile fmt⟩, s.1⟩)

/-- **A call is of one of two kinds.** -/
theorem cases (call : Call φ) :
    (∃ tf line, call.Stamps snprintf6g libc tf line) ∨
      ∃ fmt tf line, call.Interprets snprintf6g libc fmt tf line := by
  obtain ⟨renderer, record, buf⟩ := call
  cases renderer with
  | jsonEx tf =>
    exact .inl ⟨_, fun t => Formatter.formatJsonEx snprintf6g t record buf, length_getD_iso tf, rfl,
      fun leaves c => rfl⟩
  | otelJson =>
    exact .inl ⟨_, fun t => Formatter.formatOtelJson snprintf6g t record buf, by decide +kernel,
      rfl, fun leaves c => rfl⟩
  | impl fmt tf =>
    by_cases hjson : IsJson fmt
    · refine .inl ⟨_, fun t => Formatter.formatJsonEx snprintf6g t record buf,
        length_getD_iso tf, if_pos hjson, fun leaves c => ?_⟩
      exact if_pos hjson
    · by_cases hotel : IsOtel fmt
      · refine .inl ⟨isoFormat, fun t => Formatter.formatOtelJson snprintf6g t record buf,
          by decide +kernel, (if_neg hjson).trans (if_pos hotel), fun leaves c => ?_⟩
        exact (if_neg hjson).trans (if_pos hotel)
      · refine .inr ⟨cut maxFormatSize fmt, orIso (timeFormatText tf), fun l =>
          ((record.kv.foldl (appendKv snprintf6g) l).total,
            (record.kv.foldl (appendKv snprintf6g) l).out.terminate), length_orIso tf,
          (if_neg hjson).trans (if_neg hotel), FmtCache.coherent_compiled fmt,
          fun leaves c hc => ?_⟩
        refine ((if_neg hjson).trans (if_neg hotel)).trans ?_
        dsimp only
        rw [hc.lookup_eq]

/-- **A call whose text of the second fits has one result,** whatever the caches hold. -/
theorem run_of_fits {call : Call φ} (hfits : call.Fits libc) :
    ∃ r, ∀ leaves (c : Caches), c.fmt.Coherent → c.time.Coherent libc →
      ∃ c', call.run snprintf6g libc leaves c = some (r, c') := by
  rcases call.cases snprintf6g libc with ⟨tf, line, h⟩ | ⟨fmt, tf, line, h⟩
  · refine ⟨line (cut 64 (secText libc call.sec tf)), fun leaves c _ htime => ?_⟩
    obtain ⟨c', hc'⟩ := TimeCache.formatSecCached_of_fits (fun _ => htime) (hfits tf h.format)
      leaves 64
    exact ⟨_, by rw [h.run_eq, hc']; rfl⟩
  · refine ⟨line ((fmtCompile fmt).foldl (fmtCase fmt (secText libc call.sec tf) call.record)
      ⟨⟨[], call.buf⟩, 0⟩), fun leaves c hfmt htime => ?_⟩
    obtain ⟨c', hc'⟩ := renderOps_of_fits leaves fmt call.record (fmtCompile fmt)
      (fun hmem => hfits tf (h.format.trans (if_pos hmem))) ⟨⟨[], call.buf⟩, 0⟩ fun _ => htime
    exact ⟨_, by rw [h.run_eq leaves c hfmt, hc']; rfl⟩

/-- What the text of the second keeps of the time cache, the call keeps. -/
theorem run_invariant {call : Call φ} {leaves : Buf64 → Buf64} {Q : TimeCache → Prop}
    (hQ : ∀ {tf t c c'}, tf.length < 64 → tf ∈ call.timeFormat → Q c →
      formatSecCached libc leaves c call.sec (some tf) 64 = some (t, c') → Q c')
    {c c' : Caches} {r : ℤ × Out} (hfmt : c.fmt.Coherent) (hc : Q c.time)
    (h : call.run snprintf6g libc leaves c = some (r, c')) : c'.fmt.Coherent ∧ Q c'.time := by
  rcases call.cases snprintf6g libc with ⟨tf, line, hcall⟩ | ⟨fmt, tf, line, hcall⟩
  · rw [hcall.run_eq] at h
    obtain ⟨s, hs, heq⟩ := Option.map_eq_some_iff.1 h
    obtain ⟨-, rfl⟩ := Prod.mk.inj heq
    exact ⟨hfmt, hQ hcall.size hcall.format hc hs⟩
  · rw [hcall.run_eq leaves c hfmt] at h
    obtain ⟨s, hs, heq⟩ := Option.map_eq_some_iff.1 h
    obtain ⟨-, rfl⟩ := Prod.mk.inj heq
    refine ⟨hcall.coherent, ?_⟩
    refine renderOps_invariant (fmtCompile fmt) (fun hmem _ _ _ hq hsec => ?_) hc hs
    exact hQ hcall.size (hcall.format.trans (if_pos hmem)) hq hsec

/-- A call leaves coherent caches. -/
theorem run_coherent {call : Call φ} {leaves : Buf64 → Buf64} {c c' : Caches} {r : ℤ × Out}
    (hfmt : c.fmt.Coherent) (htime : c.time.Coherent libc)
    (h : call.run snprintf6g libc leaves c = some (r, c')) :
    c'.fmt.Coherent ∧ c'.time.Coherent libc :=
  run_invariant snprintf6g libc (fun hsize _ hq hsec => hq.formatSecCached hsize hsec) hfmt htime h

/-- A call whose text of the second does not fit depends on what `strftime` leaves. -/
theorem run_of_not_fits {call : Call φ} {leaves : Buf64 → Buf64}
    (hleaves : ∀ b, (leaves b).text = none) (hfits : ¬ call.Fits libc) {c : Caches}
    (hfmt : c.fmt.Coherent) (htime : c.time.Fitted libc) :
    call.run snprintf6g libc leaves c = none := by
  obtain ⟨tf, htf, hlong⟩ : ∃ tf, tf ∈ call.timeFormat ∧ ¬ SecFits libc call.sec tf := by
    simpa [Fits] using hfits
  rcases call.cases snprintf6g libc with ⟨tf', line, h⟩ | ⟨fmt, tf', line, h⟩
  · obtain rfl : tf' = tf := Option.some.inj (h.format.symm.trans htf)
    rw [h.run_eq, htime.formatSecCached_eq hlong, hleaves]
    rfl
  · have hformat := h.format.symm.trans htf
    split_ifs at hformat with hmem
    obtain rfl : tf' = tf := Option.some.inj hformat
    rw [h.run_eq leaves c hfmt, renderOps_of_not_fits hleaves hlong _ htime hmem]
    rfl

end Call

/-! ### Histories -/

section History

variable {φ : Type*} (snprintf6g : φ → Text) (libc : Libc)

/-- The caches after some calls; `leaves i` is what `strftime` leaves in the `i`-th of them. -/
def runHistory : (ℕ → Buf64 → Buf64) → Caches → List (Call φ) → Option Caches
  | _, c, [] => some c
  | leaves, c, call :: calls =>
    (call.run snprintf6g libc (leaves 0) c).bind fun r =>
      runHistory (fun i => leaves (i + 1)) r.2 calls

/-- The output of a call after others. -/
def outputAfter (leaves : ℕ → Buf64 → Buf64) (history : List (Call φ)) (call : Call φ) :
    Option (ℤ × Out) :=
  (runHistory snprintf6g libc leaves .empty history).bind fun c =>
    (call.run snprintf6g libc (leaves history.length) c).map Prod.fst

/-- **After any history the caches are coherent.** -/
theorem runHistory_coherent (calls : List (Call φ)) : ∀ {leaves : ℕ → Buf64 → Buf64}
    {c c' : Caches}, c.fmt.Coherent → c.time.Coherent libc →
      runHistory snprintf6g libc leaves c calls = some c' →
      c'.fmt.Coherent ∧ c'.time.Coherent libc := by
  induction calls with
  | nil =>
    intro leaves c c' hfmt htime h
    cases h
    exact ⟨hfmt, htime⟩
  | cons call calls ih =>
    intro leaves c c' hfmt htime h
    obtain ⟨r, hr, hrest⟩ := Option.bind_eq_some_iff.1 h
    obtain ⟨hfmt', htime'⟩ := Call.run_coherent snprintf6g libc hfmt htime hr
    exact ih hfmt' htime' hrest

/-- A history of calls that fit goes through. -/
theorem runHistory_of_fits (calls : List (Call φ)) : ∀ (leaves : ℕ → Buf64 → Buf64)
    (c : Caches), (∀ call ∈ calls, call.Fits libc) → c.fmt.Coherent → c.time.Coherent libc →
      ∃ c', runHistory snprintf6g libc leaves c calls = some c' := by
  induction calls with
  | nil => exact fun _ _ _ _ _ => ⟨_, rfl⟩
  | cons call calls ih =>
    intro leaves c hfits hfmt htime
    obtain ⟨hcall, hcalls⟩ := List.forall_mem_cons.1 hfits
    obtain ⟨r, hr⟩ := Call.run_of_fits snprintf6g libc hcall
    obtain ⟨c₁, hc₁⟩ := hr (leaves 0) c hfmt htime
    obtain ⟨hfmt₁, htime₁⟩ := Call.run_coherent snprintf6g libc hfmt htime hc₁
    rw [runHistory, hc₁]
    exact ih _ c₁ hcalls hfmt₁ htime₁

/-- If `strftime` leaves no terminator, a history that goes through has only calls that fit. -/
theorem fits_of_runHistory {leave : Buf64 → Buf64} (hleave : ∀ b, (leave b).text = none)
    (calls : List (Call φ)) : ∀ {c c' : Caches}, c.fmt.Coherent → c.time.Fitted libc →
      runHistory snprintf6g libc (fun _ => leave) c calls = some c' →
      (∀ call ∈ calls, call.Fits libc) ∧ c'.fmt.Coherent ∧ c'.time.Fitted libc := by
  induction calls with
  | nil =>
    intro c c' hfmt htime h
    cases h
    exact ⟨fun _ hmem => absurd hmem List.not_mem_nil, hfmt, htime⟩
  | cons call calls ih =>
    intro c c' hfmt htime h
    obtain ⟨r, hr, hrest⟩ := Option.bind_eq_some_iff.1 h
    have hfits : call.Fits libc := by
      by_contra hno
      rw [Call.run_of_not_fits snprintf6g libc hleave hno hfmt htime] at hr
      cases hr
    obtain ⟨hfmt', htime'⟩ := Call.run_invariant snprintf6g libc (Q := TimeCache.Fitted libc)
      (fun hsize htf _ hsec => TimeCache.Fitted.formatSecCached hsize (hfits _ htf) hsec)
      hfmt htime hr
    obtain ⟨hcalls, hlast⟩ := ih hfmt' htime' hrest
    exact ⟨List.forall_mem_cons.2 ⟨hfits, hcalls⟩, hlast⟩

/-- The caches are transparent to a call after a history: whatever `strftime` leaves in an array
that is too small, output and return value are those of the call from empty caches. -/
def Transparent (history : List (Call φ)) (call : Call φ) : Prop :=
  ∀ (leaves : ℕ → Buf64 → Buf64) (leaves' : ℕ → Buf64 → Buf64), ∃ r,
    outputAfter snprintf6g libc leaves history call = some r ∧
      outputAfter snprintf6g libc leaves' [] call = some r

/-- **The caches are transparent exactly if every text of a second fits its array.** -/
theorem transparent_iff (history : List (Call φ)) (call : Call φ) :
    Transparent snprintf6g libc history call ↔ ∀ c ∈ history ++ [call], c.Fits libc := by
  have hempty := TimeCache.coherent_empty libc
  rw [List.forall_mem_append, List.forall_mem_singleton]
  constructor
  · intro h
    -- The array without a terminator: any read of it leaves the array.
    let leave : Buf64 → Buf64 := fun _ => ⟨List.replicate 64 120, rfl⟩
    have hleave (b : Buf64) : (leave b).text = none := by decide +kernel
    obtain ⟨r, hr, -⟩ := h (fun _ => leave) (fun _ => leave)
    obtain ⟨c, hc, hcall⟩ := Option.bind_eq_some_iff.1 hr
    obtain ⟨hhistory, hfmt, htime⟩ := fits_of_runHistory snprintf6g libc hleave history
      FmtCache.coherent_empty (TimeCache.fitted_empty libc) hc
    refine ⟨hhistory, ?_⟩
    by_contra hno
    rw [Call.run_of_not_fits snprintf6g libc hleave hno hfmt htime] at hcall
    cases hcall
  · rintro ⟨hhistory, hcall⟩ leaves leaves'
    obtain ⟨r, hr⟩ := Call.run_of_fits snprintf6g libc hcall
    obtain ⟨c, hc⟩ := runHistory_of_fits snprintf6g libc history leaves .empty hhistory
      FmtCache.coherent_empty hempty
    obtain ⟨hfmt, htime⟩ := runHistory_coherent snprintf6g libc history
      FmtCache.coherent_empty hempty hc
    obtain ⟨c₁, hc₁⟩ := hr (leaves history.length) c hfmt htime
    obtain ⟨c₂, hc₂⟩ := hr (leaves' 0) .empty FmtCache.coherent_empty hempty
    refine ⟨r, ?_, ?_⟩
    · rw [outputAfter, hc, Option.bind_some, hc₁]
      rfl
    · rw [outputAfter, runHistory, Option.bind_some]
      exact congrArg (Option.map Prod.fst) hc₂

end History

/-! ### A text that does not fit -/

/-- Eight weekdays take 72 bytes. -/
def weekdays : TimeFormat := ⟨⟨str "%A%A%A%A%A%A%A%A", by decide +kernel⟩, by decide +kernel⟩

def hour : TimeFormat := ⟨⟨str "%H", by decide +kernel⟩, by decide +kernel⟩

/-- A library at ten o'clock on a Wednesday. -/
def wednesday : Libc where
  localtime _ := ⟨126, 0, 7, 10, 0, 0⟩
  expansion fmt _ :=
    if fmt = hour.val.val then ⟨str "10", by decide +kernel⟩
    else if fmt = weekdays.val.val then
      ⟨(List.replicate 8 (str "Wednesday")).flatten, by decide +kernel⟩
    else ⟨[], by simp⟩

/-- A line with the time only. -/
def timeCall (timeFormat : TimeFormat) : Call Empty where
  renderer := .impl ⟨str "%time", by decide +kernel⟩ (some timeFormat)
  record := ⟨0, none, none, none, none, none, 0, 0, 0, 0, 0, 0, []⟩
  buf := List.replicate 16 0

/-- If `strftime` leaves the array alone when it fails, the line shows the time of the call before:
`10` after a line with the hour, and nothing from empty caches. -/
theorem stale_time_shown :
    (outputAfter Empty.elim wednesday (fun _ b => b) [timeCall hour] (timeCall weekdays)).map
        (fun r => (r.1, r.2.done)) = some (2, str "10") ∧
      (outputAfter Empty.elim wednesday (fun _ b => b) [] (timeCall weekdays)).map
        (fun r => (r.1, r.2.done)) = some (0, []) ∧
      ¬ Transparent Empty.elim wednesday [timeCall hour] (timeCall weekdays) := by
  have hafter : (outputAfter Empty.elim wednesday (fun _ b => b) [timeCall hour]
      (timeCall weekdays)).map (fun r => (r.1, r.2.done)) = some (2, str "10") := by
    decide +kernel
  have hempty : (outputAfter Empty.elim wednesday (fun _ b => b) [] (timeCall weekdays)).map
      (fun r => (r.1, r.2.done)) = some (0, []) := by
    decide +kernel
  refine ⟨hafter, hempty, fun h => ?_⟩
  obtain ⟨r, hr, hr'⟩ := h (fun _ b => b) (fun _ b => b)
  rw [hr] at hafter
  rw [hr'] at hempty
  cases hafter.symm.trans hempty

end Formatter
end Clogx
