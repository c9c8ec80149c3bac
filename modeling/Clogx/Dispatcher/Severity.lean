/-
# The severity that syslog and journald are told

`syslog_write` of `sinks/syslog_sink.c` and `journald_priority_from_text` of
`sinks/journald_sink.c` do not get the level of a record.  They look for the names
of the levels in brackets, in a fixed order, in the whole line that the dispatcher
hands them.

The way of a record is that of the dispatcher: `format_impl` makes a line in the
array of the dispatch, after any calls before it, and the first write to a sink has
that line as its string.  So the priority is a function of the line
(`passed_iff`), and it is that of the level exactly if the line is `Kept`.
-/

import Clogx.Dispatcher.Lines
import Clogx.Formatter.Expansion
import Clogx.Journald.Packet
import Clogx.Trace.Header

namespace Clogx

open CLib

/-! ### The lines of the text renderer are strings -/

namespace Formatter

section Strings

variable {φ : Type*} {snprintf6g : φ → CString} {libc : Libc} {leaves : Buf64 → Buf64}
  {record : Record φ}

theorem zero_notMem_decimal (n : ℕ) : 0 ∉ decimal n :=
  fun h => absurd (mem_decimal h).1 (by decide)

theorem zero_notMem_signedDecimal (z : ℤ) : 0 ∉ signedDecimal z := by
  rw [signedDecimal]
  split_ifs
  · rw [List.mem_cons, not_or]
    exact ⟨by decide, zero_notMem_decimal _⟩
  · exact zero_notMem_decimal _

theorem zero_notMem_orText (s : Option CString) {text : Text} (h : 0 ∉ text) :
    0 ∉ orText s text := by
  cases s with
  | none => exact h
  | some s => exact s.property

theorem zero_notMem_levelToString (level : ℕ) : 0 ∉ levelToString level := by
  unfold levelToString
  split <;> decide

theorem zero_notMem_fieldText {time : Text} (htime : 0 ∉ time) (record : Record φ) (t : Token) :
    0 ∉ fieldText time record t := by
  cases t with
  | time => exact htime
  | level => exact zero_notMem_levelToString _
  | thread | pid => exact zero_notMem_decimal _
  | line => exact zero_notMem_signedDecimal _
  | newline =>
    rw [fieldText]
    decide
  | msg | file | func | module | tag => exact zero_notMem_orText _ (by decide)
  | traceId | spanId =>
    rw [fieldText]
    split_ifs
    · exact Trace.zero_notMem_hexBytes _
    · exact List.not_mem_nil

theorem zero_notMem_opText {time fmt : Text} (htime : 0 ∉ time) (hfmt : 0 ∉ fmt)
    (record : Record φ) (op : FmtOp) : 0 ∉ opText (fieldText time record) fmt op := by
  cases op with
  | literal start len => exact fun h => hfmt (List.mem_of_mem_drop (List.mem_of_mem_take h))
  | token t => exact zero_notMem_fieldText htime record t

theorem zero_notMem_pairSuffix (kv : Kv φ) :
    0 ∉ pairSuffix (fun x => (snprintf6g x).val) kv := by
  obtain ⟨key, val⟩ := kv
  cases key with
  | none => exact List.not_mem_nil
  | some key =>
    have hval : 0 ∉ valueText (fun x => (snprintf6g x).val) val := by
      cases val with
      | int i64 => exact zero_notMem_signedDecimal i64
      | uint u64 => exact zero_notMem_decimal u64
      | float f64 => exact (snprintf6g f64).property
      | str s => exact zero_notMem_orText s List.not_mem_nil
      | bool b =>
        rw [valueText]
        cases b <;> decide
    simp only [pairSuffix, Option.elim_some, List.mem_append, not_or]
    exact ⟨⟨⟨by decide, key.property⟩, by decide⟩, hval⟩

theorem zero_notMem_formatSecCached {c c' : TimeCache} {sec size : ℕ} {fmt : Option Text} {t : Text}
    (h : formatSecCached libc leaves c sec fmt size = some (t, c')) : 0 ∉ t := by
  rw [formatSecCached] at h
  obtain ⟨u, hu, heq⟩ := Option.map_eq_some_iff.1 h
  obtain ⟨rfl, -⟩ := Prod.mk.inj heq
  exact fun hmem => zero_notMem_of_strAt hu (List.mem_of_mem_take hmem)

/-- The loop over the opcodes, whatever the time cache answers. -/
theorem Line.Holds.renderOps {n : ℕ} (hn : 1 ≤ n) {fmt tf : Text} (hfmt : 0 ∉ fmt)
    (ops : List FmtOp) : ∀ {text : Text} {s s' : TimeCache × Line}, s.2.Holds n text → 0 ∉ text →
      ops.foldlM (renderOp libc leaves fmt tf record) s = some s' →
      ∃ text', s'.2.Holds n text' ∧ 0 ∉ text' := by
  induction ops with
  | nil =>
    intro text s s' hs hzero h
    cases h
    exact ⟨text, hs, hzero⟩
  | cons op ops ih =>
    intro text s s' hs hzero h
    obtain ⟨m, hm, hrest⟩ := Option.bind_eq_some_iff.1 h
    have hone : ∃ time, 0 ∉ time ∧ m.2 = Formatter.fmtCase fmt time record s.2 op := by
      rw [renderOp] at hm
      split_ifs at hm
      · obtain ⟨r, hr, rfl⟩ := Option.map_eq_some_iff.1 hm
        exact ⟨r.1, zero_notMem_formatSecCached hr, rfl⟩
      · cases hm
        exact ⟨[], List.not_mem_nil, rfl⟩
    obtain ⟨time, htime, hcase⟩ := hone
    have hnext := hs.fmtCase hn record fmt time op
    rw [← hcase] at hnext
    refine ih hnext ?_ hrest
    rw [List.mem_append, not_or]
    exact ⟨hzero, zero_notMem_opText htime hfmt record op⟩

/-- **A call of the text renderer leaves a string in its buffer,** and its length is returned as
long as it is in the range of `int`. -/
theorem formatImpl_string {c c' : Caches} (hcache : c.fmt.Coherent) {fmt : CString}
    (hjson : ¬ IsJson fmt) (hotel : ¬ IsOtel fmt) {tf : Option Text} {buf : Text}
    (hbuf : 1 ≤ buf.length) (hint : buf.length ≤ 2 ^ 31) {ret : ℤ} {out : Out}
    (h : c.formatImpl (fun x => (snprintf6g x).val) libc leaves record buf fmt tf =
      some ((ret, out), c')) :
    0 ∉ out.done ∧ ret = out.done.length ∧ (∃ rest, out.rest = 0 :: rest) ∧
      (out.done ++ out.rest).length = buf.length := by
  rw [Caches.formatImpl, if_neg hjson, if_neg hotel, hcache.lookup_eq] at h
  obtain ⟨s, hs, heq⟩ := Option.map_eq_some_iff.1 h
  have hempty : Line.Holds buf.length [] ⟨⟨[], buf⟩, 0⟩ :=
    ⟨List.take_nil.symm, Nat.zero_add _, by simp [toInt]⟩
  have hcut : 0 ∉ cut maxFormatSize fmt.val := fun hmem => fmt.property (List.mem_of_mem_take hmem)
  obtain ⟨text, hline, hzero⟩ := hempty.renderOps hbuf hcut _ List.not_mem_nil hs
  have hpairs := hline.pairs hbuf (fun x => (snprintf6g x).val) record.kv
  dsimp only at heq
  generalize record.kv.foldl (appendKv fun x => (snprintf6g x).val) s.2 = l at hpairs heq
  obtain ⟨hpair, -⟩ := Prod.mk.inj heq
  obtain ⟨rfl, rfl⟩ := Prod.mk.inj hpair
  obtain ⟨hdone, hsize, htotal⟩ := hpairs
  have hle : l.out.done.length ≤ buf.length - 1 := by
    rw [hdone]
    exact List.length_take_le ..
  obtain ⟨b, rest, hrest⟩ : ∃ b rest, l.out.rest = b :: rest :=
    List.exists_cons_of_ne_nil (List.ne_nil_of_length_pos (by omega))
  refine ⟨?_, ?_, ⟨rest, by rw [Out.terminate, hrest]⟩, ?_⟩
  · have hall : 0 ∉ text ++ record.kv.flatMap (pairSuffix fun x => (snprintf6g x).val) := by
      rw [List.mem_append, not_or]
      refine ⟨hzero, fun hmem => ?_⟩
      obtain ⟨kv, -, hkv⟩ := List.mem_flatMap.1 hmem
      exact zero_notMem_pairSuffix kv hkv
    exact fun hmem => hall (List.mem_of_mem_take (hdone ▸ hmem))
  · rw [htotal, toInt, Int.bmod_eq_of_le (by omega) (by omega)]
    rfl
  · rw [List.length_append, Out.length_terminate]
    exact hsize

end Strings

/-! ### A bracket in a format -/

/-- A bracket is in no name of a token, so a format can be expanded on both sides of it. -/
theorem Expands.bracket {field : Token → Text} {pre rest out out' : Text}
    (h : Expands field pre out) (h' : Expands field rest out') :
    Expands field (pre ++ 91 :: rest) (out ++ 91 :: out') := by
  have hnames : ∀ t ∈ Token.all, 91 ∉ t.name := by decide +kernel
  induction h with
  | nil => exact .byte (fun heq => absurd heq (by decide)) h'
  | @token t tail out hend _ ih =>
    rw [List.cons_append, List.append_assoc, List.append_assoc]
    refine .token ?_ ih
    cases tail with
    | nil => rintro c ⟨⟩; decide
    | cons c tail => exact hend
  | @byte c tail out hno _ ih =>
    refine .byte (fun hc t => ?_) ih
    rintro ⟨rest', happ, hend⟩
    -- The name ends before the bracket, so it stands in the first part already.
    obtain ⟨z, rfl, hz⟩ | ⟨z, hz, hrest⟩ := List.append_eq_append_iff.1 happ.symm
    · refine hno hc t ⟨z, rfl, fun d hd => hend d ?_⟩
      rw [hz, List.head?_append_of_ne_nil z (fun hnil => by simp [hnil] at hd)]
      exact hd
    · cases z with
      | nil => exact hno hc t ⟨[], by rw [hz, List.append_nil, List.append_nil], by simp⟩
      | cons d z =>
        obtain ⟨rfl, -⟩ := List.cons.inj hrest
        exact hnames t t.mem_all (by simp [hz])

/-- The name of a level in brackets. -/
def bracketed (level : ℕ) : Text := 91 :: (levelToString level ++ [93])

theorem levelFormat_eq : str "[%level]" = 91 :: 37 :: (Token.level.name ++ [93]) := by decide

/-- **The level in brackets** is in the text of a format that has it in brackets. -/
theorem expands_level {φ : Type*} {time : Text} {record : Record φ} {pre rest out out' : Text}
    (h : Expands (fieldText time record) pre out) (h' : Expands (fieldText time record) rest out') :
    Expands (fieldText time record) (pre ++ str "[%level]" ++ rest)
      (out ++ (bracketed record.level ++ out')) := by
  have hclose : Expands (fieldText time record) (93 :: rest) (93 :: out') :=
    .byte (fun heq => absurd heq (by decide)) h'
  have hlevel : Expands (fieldText time record) (37 :: (Token.level.name ++ 93 :: rest))
      (levelToString record.level ++ 93 :: out') :=
    .token (t := .level) (by rintro c ⟨⟩; decide) hclose
  have hall := h.bracket hlevel
  simpa [levelFormat_eq, bracketed] using hall

/-- A format with a bracket is not the name of another renderer. -/
theorem not_isJson_of_bracket {fmt : Text} (h : 91 ∈ fmt) : ¬ IsJson fmt ∧ ¬ IsOtel fmt := by
  constructor
  · rintro (rfl | rfl)
    · exact absurd h (by decide)
    · exact absurd h (by decide)
  · rintro (rfl | rfl | rfl | rfl)
    · exact absurd h (by decide)
    · exact absurd h (by decide)
    · exact absurd h (by decide)
    · exact absurd h (by decide)

end Formatter

/-! ### The sinks -/

namespace Syslog

open Journald (has)

/-- `LOG_CRIT`. -/
def logCrit : ℕ := 2

/-- `LOG_ERR`. -/
def logErr : ℕ := 3

/-- `LOG_WARNING`. -/
def logWarning : ℕ := 4

/-- `LOG_INFO`. -/
def logInfo : ℕ := 6

/-- `LOG_DEBUG`. -/
def logDebug : ℕ := 7

/-- The priority that `syslog_write` finds in a string. -/
def priorityOf (text : Text) : ℕ :=
  if has (str "[TRACE]") text || has (str "[DEBUG]") text then logDebug
  else if has (str "[WARN]") text || has (str "[WARNING]") text then logWarning
  else if has (str "[ERROR]") text then logErr
  else if has (str "[FATAL]") text then logCrit
  else logInfo

/-- `syslog_write`: what it passes to `syslog`, and what it returns. -/
def syslogWrite (buf : Block) (len : ℕ) : Option ((ℕ × Text) × ℤ) :=
  (strAt buf 0).map fun text => ((priorityOf text, text), toInt len)

end Syslog

namespace Severity

open Dispatcher Journald
open Formatter (Record Token Caches Libc Expands IsReference IsTemplate SecFits TimeFormat bracketed
  fieldText orIso runHistory secText segments timeFormatText)

/-- **The documented priority of a level.** -/
def severity : ℕ → ℕ
  | 0 => Syslog.logDebug
  | 1 => Syslog.logDebug
  | 2 => Syslog.logInfo
  | 3 => Syslog.logWarning
  | 4 => Syslog.logErr
  | 5 => Syslog.logCrit
  | _ => Syslog.logInfo

/-- The names that give the priority of a level, for one that is not the default. -/
def ownNames : ℕ → List Text
  | 0 => [str "[TRACE]", str "[DEBUG]"]
  | 1 => [str "[TRACE]", str "[DEBUG]"]
  | 3 => [str "[WARN]", str "[WARNING]"]
  | 4 => [str "[ERROR]"]
  | 5 => [str "[FATAL]"]
  | _ => []

/-- The names that are looked for before those of a level. -/
def earlierNames : ℕ → List Text
  | 0 => []
  | 1 => []
  | 3 => [str "[TRACE]", str "[DEBUG]"]
  | 4 => [str "[TRACE]", str "[DEBUG]", str "[WARN]", str "[WARNING]"]
  | 5 => [str "[TRACE]", str "[DEBUG]", str "[WARN]", str "[WARNING]", str "[ERROR]"]
  | _ => [str "[TRACE]", str "[DEBUG]", str "[WARN]", str "[WARNING]", str "[ERROR]", str "[FATAL]"]

/-- No name that is looked for before those of the level is in the line. -/
def Clean (level : ℕ) (line : Text) : Prop := ∀ name ∈ earlierNames level, ¬ name <:+: line

/-- The line is clean and has a name of the level, if it has one. -/
structure Kept (level : ℕ) (line : Text) : Prop where
  clean : Clean level line
  own : ownNames level ≠ [] → ∃ name ∈ ownNames level, name <:+: line

/-- `has` finds a substring. -/
theorem has_iff {pat : Text} (hpat : pat ≠ []) (text : Text) :
    has pat text = true ↔ pat <:+: text := by
  rw [has, ← not_iff_not, Bool.not_eq_true, Option.isSome_eq_false_iff, Option.isNone_iff_eq_none,
    strstr_eq_none_iff hpat, List.infix_iff_prefix_suffix]
  constructor
  · rintro h ⟨t, hpre, hsuf⟩
    exact h _ (List.suffix_iff_eq_drop.1 hsuf ▸ hpre)
  · exact fun h j hpre => h ⟨_, hpre, List.drop_suffix j text⟩

theorem kept_iff {level : ℕ} {line : Text} : Kept level line ↔
    Clean level line ∧ (ownNames level ≠ [] → ∃ name ∈ ownNames level, name <:+: line) :=
  ⟨fun h => ⟨h.clean, h.own⟩, fun h => ⟨h.1, h.2⟩⟩

/-- **The priority of a line is that of the level exactly if the line is kept.** -/
theorem priorityOf_eq_iff (level : ℕ) (line : Text) :
    Journald.priorityOf line = severity level ↔ Kept level line := by
  have hhas {name : Text} (hname : name ≠ []) := has_iff hname line
  rw [kept_iff, Clean, Journald.priorityOf]
  simp only [Bool.or_eq_true, hhas (by decide : str "[TRACE]" ≠ []),
    hhas (by decide : str "[DEBUG]" ≠ []), hhas (by decide : str "[WARN]" ≠ []),
    hhas (by decide : str "[WARNING]" ≠ []), hhas (by decide : str "[ERROR]" ≠ []),
    hhas (by decide : str "[FATAL]" ≠ [])]
  clear hhas
  -- Each level against the chain of searches.
  rcases level with _ | _ | _ | _ | _ | _ | level
  all_goals
    simp only [severity, ownNames, earlierNames]
    generalize str "[TRACE]" = trace, str "[DEBUG]" = debug, str "[WARN]" = warn,
      str "[WARNING]" = warning, str "[ERROR]" = error, str "[FATAL]" = fatal
    split_ifs <;> simp [Syslog.logDebug, Syslog.logInfo, Syslog.logWarning, Syslog.logErr,
      Syslog.logCrit] <;> tauto

theorem has_newline {name : Text} (hne : name ≠ []) (hnl : 10 ∉ name) (line : Text) :
    has name (line ++ [10]) = has name line := by
  rw [Bool.eq_iff_iff, has_iff hne, has_iff hne, List.infix_concat_iff, or_iff_right]
  rintro ⟨u, hu⟩
  have hlast := congrArg List.getLast? hu
  rw [List.getLast?_append_of_ne_nil _ hne, List.getLast?_concat] at hlast
  exact hnl (List.mem_of_getLast? hlast)

theorem priorityOf_newline (line : Text) :
    Journald.priorityOf (line ++ [10]) = Journald.priorityOf line := by
  simp only [Journald.priorityOf, has_newline (by decide : str "[TRACE]" ≠ []) (by decide) line,
    has_newline (by decide : str "[DEBUG]" ≠ []) (by decide) line,
    has_newline (by decide : str "[WARN]" ≠ []) (by decide) line,
    has_newline (by decide : str "[WARNING]" ≠ []) (by decide) line,
    has_newline (by decide : str "[ERROR]" ≠ []) (by decide) line,
    has_newline (by decide : str "[FATAL]" ≠ []) (by decide) line]

/-! ### What is passed on -/

variable {φ : Type*}

/-- **The priority of a record at an entry of the sinks:** what a sink of journald and a sink of
syslog make of the first write. -/
def Passed (format : Record φ → ℤ × Block) (frame : Frame) (cfg : Config)
    (sinks : List (Option Sink)) (i : ℕ) (record : Record φ) (priority : ℕ) : Prop :=
  ∃ ret writes w ws text, logDispatcherDispatchFor format frame cfg sinks record =
      some (ret, writes) ∧ writes[i]? = some (w :: ws) ∧
    journaldPriorityFromText w.buf = some priority ∧
    Syslog.syslogWrite w.buf w.len = some ((priority, text), toInt w.len)

section Passed

variable {format : Record φ → ℤ × Block} (frame : Frame) {cfg : Config} {record : Record φ}
  {line : Text} {sinks : List (Option Sink)} {i : ℕ} {sink : Sink}

/-- A sink that is not a console has the line as the string of its first write, up to a newline. -/
theorem exists_first_write (hline : Formats (format record) line) (hne : line ≠ [])
    (hlevel : cfg.level ≤ record.level) (hsink : sinks[i]? = some (some sink))
    (hplain : sink.console = false) (hadmits : Admits record.level sink) :
    ∃ writes w ws text, logDispatcherDispatchFor format frame cfg sinks record = some (0, writes) ∧
      writes[i]? = some (w :: ws) ∧ strAt w.buf 0 = some text ∧
      (text = line ∨ text = line ++ [10]) := by
  obtain ⟨writes, heq, hshown⟩ := dispatch_eq frame hline hne hlevel sinks
  obtain ⟨hlength, hall⟩ := List.forall₂_iff_get.1 hshown
  obtain ⟨hi, hget⟩ := List.getElem?_eq_some_iff.1 hsink
  have hi' : i < writes.length := hlength ▸ hi
  have hone := hall i hi hi'
  rw [List.get_eq_getElem, List.get_eq_getElem, hget] at hone
  obtain ⟨w, ws, hws, -, hterm, hbytes⟩ := hone.1 hadmits
  have hcolor : ¬ Colored cfg sink := by
    rintro ⟨-, hcolor⟩
    rw [consoleSinkIsColorEnabled, hplain, Bool.false_and] at hcolor
    cases hcolor
  rw [shownLine, if_neg hcolor] at hbytes
  obtain ⟨rest, hbuf⟩ := hterm w (hws ▸ List.mem_cons_self ..)
  have hzero : 0 ∉ w.bytes := by
    rcases hbytes with h | h
    · rw [h]
      exact hline.text
    · rw [h, List.mem_append, not_or]
      exact ⟨hline.text, by decide⟩
  exact ⟨writes, w, ws, w.bytes, heq, by rw [List.getElem?_eq_getElem hi', hws],
    strAt_eq hzero hbuf, hbytes⟩

/-- **The priority is that of the line,** and both sinks find the same. -/
theorem passed_iff (hline : Formats (format record) line) (hne : line ≠ [])
    (hlevel : cfg.level ≤ record.level) (hsink : sinks[i]? = some (some sink))
    (hplain : sink.console = false) (hadmits : Admits record.level sink) {priority : ℕ} :
    Passed format frame cfg sinks i record priority ↔ Journald.priorityOf line = priority := by
  obtain ⟨writes, w, ws, text, heq, hget, htext, hcases⟩ :=
    exists_first_write frame hline hne hlevel hsink hplain hadmits
  have hprio : Journald.priorityOf text = Journald.priorityOf line := by
    rcases hcases with rfl | rfl
    · rfl
    · exact priorityOf_newline line
  constructor
  · rintro ⟨ret, writes', w', ws', text', heq', hget', hjournald, -⟩
    obtain ⟨-, rfl⟩ := Prod.mk.inj (Option.some.inj (heq.symm.trans heq'))
    obtain ⟨rfl, -⟩ := List.cons.inj (Option.some.inj (hget.symm.trans hget'))
    rw [journaldPriorityFromText, htext] at hjournald
    rw [← hprio]
    exact Option.some.inj hjournald
  · rintro rfl
    refine ⟨0, writes, w, ws, text, heq, hget, ?_, ?_⟩
    · rw [journaldPriorityFromText, htext, ← hprio]
      rfl
    · rw [Syslog.syslogWrite, htext, ← hprio]
      rfl

end Passed

/-! ### The lines of a format -/

section Lines

variable (snprintf6g : φ → CString) (libc : Libc) (fmt : CString) (tf : Option TimeFormat)

/-- **What the text renderer leaves in the array of a dispatch,** after any calls before. -/
def Printed (record : Record φ) (out : ℤ × Block) : Prop :=
  ∃ history answers c leaves buf o c',
    runHistory (fun x => (snprintf6g x).val) libc answers .empty history = some c ∧
    buf.length = maxFormattedSize ∧
    c.formatImpl (fun x => (snprintf6g x).val) libc leaves record buf fmt (timeFormatText tf) =
      some ((out.1, o), c') ∧ out.2 = o.done ++ o.rest

/-- The string in the array. -/
def lineOf (out : ℤ × Block) : Text := (strAt out.2 0).getD []

/-- The text of `%time` in a line. -/
def timeOf (record : Record φ) : Text :=
  secText libc (record.timestamp / 1000000) (orIso (timeFormatText tf))

variable {snprintf6g libc fmt tf} {record : Record φ} {out : ℤ × Block}

/-- The call of the renderer, from coherent caches, and the string that it leaves. -/
theorem exists_call_of_printed (hbracket : 91 ∈ fmt.val)
    (h : Printed snprintf6g libc fmt tf record out) :
    ∃ (c : Caches) (leaves : Formatter.Buf64 → Formatter.Buf64) (buf : Text) (o : Formatter.Out)
      (c' : Caches), c.fmt.Coherent ∧ c.time.Coherent libc ∧ buf.length = maxFormattedSize ∧
      c.formatImpl (fun x => (snprintf6g x).val) libc leaves record buf fmt (timeFormatText tf) =
        some ((out.1, o), c') ∧ lineOf out = o.done ∧ Formats out o.done := by
  obtain ⟨history, answers, c, leaves, buf, o, c', hrun, hbuf, himpl, hout⟩ := h
  obtain ⟨hcache, htime⟩ := Formatter.runHistory_coherent _ libc history
    Formatter.FmtCache.coherent_empty (Formatter.TimeCache.coherent_empty libc) hrun
  obtain ⟨hjson, hotel⟩ := Formatter.not_isJson_of_bracket hbracket
  have hsize : maxFormattedSize = 8192 := rfl
  obtain ⟨hzero, hret, ⟨rest, hrest⟩, hlen⟩ :=
    Formatter.formatImpl_string hcache hjson hotel (by omega) (by omega) himpl
  have hblock : out.2 = o.done ++ 0 :: rest := by rw [hout, hrest]
  refine ⟨c, leaves, buf, o, c', hcache, htime, hbuf, himpl, ?_, hret, ⟨rest, hblock⟩,
    by rw [hout, hlen, hbuf], hzero⟩
  have hstr : strAt out.2 0 = some o.done := strAt_eq hzero hblock
  rw [lineOf, hstr, Option.getD_some]

theorem formats_of_printed (hbracket : 91 ∈ fmt.val)
    (h : Printed snprintf6g libc fmt tf record out) : Formats out (lineOf out) := by
  obtain ⟨-, -, -, o, -, -, -, -, -, hline, hformats⟩ := exists_call_of_printed hbracket h
  rwa [hline]

/-- **The line of a format is its reference text,** as far as the array goes. -/
theorem lineOf_printed (htemplate : IsTemplate fmt)
    (hfits : .token .time ∈ segments fmt → SecFits libc (record.timestamp / 1000000)
      (orIso (timeFormatText tf)))
    (hbracket : 91 ∈ fmt.val) (h : Printed snprintf6g libc fmt tf record out) {text : Text}
    (htext : IsReference (fun x => (snprintf6g x).val) (timeOf libc tf record) record fmt text) :
    lineOf out = text.take (maxFormattedSize - 1) := by
  obtain ⟨c, leaves, buf, o, c', hcache, htime, hbuf, himpl, hline, -⟩ :=
    exists_call_of_printed hbracket h
  have hpos : 1 ≤ buf.length := by
    rw [hbuf]
    decide
  obtain ⟨o', c₁, heq, hdone, -⟩ := Formatter.formatImpl_eq _ libc hcache htime leaves htemplate
    (timeFormatText tf) record hfits buf hpos htext
  obtain ⟨hpair, -⟩ := Prod.mk.inj (Option.some.inj (himpl.symm.trans heq))
  obtain ⟨-, rfl⟩ := Prod.mk.inj hpair
  rw [hline, hdone, hbuf]

/-- There is room for the level: the format is compiled whole, the text of `%time` fits its array,
and what stands before the level leaves room for it in the line. -/
def HasRoom (libc : Libc) (fmt : CString) (tf : Option TimeFormat) (pre : Text)
    (record : Record φ) : Prop :=
  IsTemplate fmt ∧
    (.token .time ∈ segments fmt →
      SecFits libc (record.timestamp / 1000000) (orIso (timeFormatText tf))) ∧
    ∃ before, Expands (fieldText (timeOf libc tf record) record) pre before ∧
      before.length + (bracketed record.level).length ≤ maxFormattedSize - 1

/-- A level that is not the default is among its own names. -/
theorem bracketed_mem_ownNames {level : ℕ} (h : ownNames level ≠ []) :
    bracketed level ∈ ownNames level := by
  rcases level with _ | _ | _ | _ | _ | _ | level
  all_goals first | decide | exact absurd rfl h

theorem bracket_mem {pre rest : Text} (hfmt : fmt.val = pre ++ str "[%level]" ++ rest) :
    91 ∈ fmt.val := by
  rw [hfmt]
  exact List.mem_append_left _ (List.mem_append_right _ (by decide))

/-- **With room for the level the line has its name.** -/
theorem bracketed_infix {pre rest : Text} (hfmt : fmt.val = pre ++ str "[%level]" ++ rest)
    (hroom : HasRoom libc fmt tf pre record) (h : Printed snprintf6g libc fmt tf record out) :
    bracketed record.level <:+: lineOf out := by
  have hbracket := bracket_mem hfmt
  obtain ⟨htemplate, hfits, before, hbefore, hlen⟩ := hroom
  obtain ⟨text, ⟨after, hafter, -⟩, -⟩ := Formatter.existsUnique_reference
    (fun x => (snprintf6g x).val) (timeOf libc tf record) record rest
  have htext : IsReference (fun x => (snprintf6g x).val) (timeOf libc tf record) record fmt
      (before ++ (bracketed record.level ++ after) ++
        record.kv.flatMap (Formatter.pairSuffix fun x => (snprintf6g x).val)) :=
    ⟨_, hfmt ▸ Formatter.expands_level hbefore hafter, rfl⟩
  rw [lineOf_printed htemplate hfits hbracket h htext, ← List.append_assoc, List.append_assoc,
    List.take_append, List.take_of_length_le (by rw [List.length_append]; exact hlen)]
  exact ⟨before, _, rfl⟩

/-- The same record with another message, module, tag and pairs. -/
def SameBut (record record' : Record φ) : Prop :=
  ∃ message module tag kv, record' =
    { record with message := message, module := module, tag := tag, kv := kv }

/-- **The severity of a record does not depend on its texts** exactly if they do not forge a name:
two records that differ in message, module, tag and pairs are passed on with the priority of their
level exactly if the lines are kept.  With room for the level that is so exactly if no name that is
looked for earlier is in the reference text. -/
theorem severity_kept_iff {pre rest : Text} (hfmt : fmt.val = pre ++ str "[%level]" ++ rest)
    {record' : Record φ} (hsame : SameBut record record') {format : Record φ → ℤ × Block}
    (hprinted : ∀ r ∈ [record, record'], Printed snprintf6g libc fmt tf r (format r))
    (hline : ∀ r ∈ [record, record'], 0 < (format r).1) (frame : Frame) {cfg : Config}
    (hlevel : cfg.level ≤ record.level) {sinks : List (Option Sink)} {i : ℕ} {sink : Sink}
    (hsink : sinks[i]? = some (some sink)) (hplain : sink.console = false)
    (hadmits : Admits record.level sink) :
    ((∀ r ∈ [record, record'], Passed format frame cfg sinks i r (severity record.level)) ↔
      ∀ r ∈ [record, record'], Kept record.level (lineOf (format r))) ∧
    ((∀ r ∈ [record, record'], HasRoom libc fmt tf pre r) →
      ((∀ r ∈ [record, record'], Passed format frame cfg sinks i r (severity record.level)) ↔
        ∀ r ∈ [record, record'], ∀ text,
          IsReference (fun x => (snprintf6g x).val) (timeOf libc tf r) r fmt text →
          Clean record.level (text.take (maxFormattedSize - 1)))) := by
  have hbracket := bracket_mem hfmt
  have hsame : ∀ r ∈ [record, record'], r.level = record.level := by
    obtain ⟨message, module, tag, kv, rfl⟩ := hsame
    simp
  have hone : ∀ r ∈ [record, record'],
      (Passed format frame cfg sinks i r (severity record.level) ↔
        Kept record.level (lineOf (format r))) := by
    intro r hr
    have hformats := formats_of_printed hbracket (hprinted r hr)
    have hne : lineOf (format r) ≠ [] := by
      have hpos := hline r hr
      rw [hformats.ret] at hpos
      exact List.ne_nil_of_length_pos (by omega)
    rw [passed_iff frame hformats hne (hsame r hr ▸ hlevel) hsink hplain (hsame r hr ▸ hadmits),
      priorityOf_eq_iff]
  refine ⟨forall₂_congr hone, fun hroom => forall₂_congr fun r hr => ?_⟩
  obtain ⟨htemplate, hfits, -⟩ := hroom r hr
  have hown : ownNames record.level ≠ [] →
      ∃ name ∈ ownNames record.level, name <:+: lineOf (format r) := fun h =>
    ⟨_, bracketed_mem_ownNames h, hsame r hr ▸ bracketed_infix hfmt (hroom r hr) (hprinted r hr)⟩
  rw [hone r hr, kept_iff, and_iff_left hown]
  constructor
  · intro hclean text htext
    rwa [← lineOf_printed htemplate hfits hbracket (hprinted r hr) htext]
  · intro hclean
    obtain ⟨text, htext, -⟩ := Formatter.existsUnique_reference (fun x => (snprintf6g x).val)
      (timeOf libc tf r) r fmt.val
    rw [lineOf_printed htemplate hfits hbracket (hprinted r hr) htext]
    exact hclean text htext

end Lines

/-- `[%level] %msg`. -/
def levelMsg : CString := ⟨str "[%level] %msg", by decide⟩

/-- A record of level `ERROR` with a message. -/
def errorRecord (message : CString) : Record Empty :=
  ⟨0, none, none, none, none, some message, 4, 0, 0, 0, 0, 0, []⟩

/-- No number is a `double`. -/
def noFloats : Empty → CString := Empty.elim

/-- What the text renderer makes of a record for `[%level] %msg`, on a new thread. -/
def printNew (record : Record Empty) : ℤ × Block :=
  (Caches.empty.formatImpl (fun x => (noFloats x).val) Formatter.wednesday id record
    (List.replicate maxFormattedSize 0) levelMsg none).elim (-1, []) fun r =>
      (r.1.1, r.1.2.done ++ r.1.2.rest)

theorem printed_printNew {record : Record Empty} {r : (ℤ × Formatter.Out) × Caches}
    (h : Caches.empty.formatImpl (fun x => (noFloats x).val) Formatter.wednesday id record
      (List.replicate maxFormattedSize 0) levelMsg none = some r) :
    Printed noFloats Formatter.wednesday levelMsg none record (printNew record) := by
  have hprint : printNew record = (r.1.1, r.1.2.done ++ r.1.2.rest) := by
    rw [printNew, h, Option.elim_some]
  exact ⟨[], fun _ => id, .empty, id, List.replicate maxFormattedSize 0, r.1.2, r.2, rfl,
    List.length_replicate, by rw [hprint]; exact h, by rw [hprint]⟩

theorem sameBut_errorRecord (message message' : CString) :
    SameBut (errorRecord message) (errorRecord message') :=
  ⟨some message', none, none, [], rfl⟩

theorem isTemplate_levelMsg : IsTemplate levelMsg :=
  ⟨by decide +kernel, by decide +kernel, by decide +kernel, by decide +kernel⟩

/-- The line of a short message. -/
theorem printed_errorRecord {message : CString}
    (hshort : (str "[ERROR] " ++ message.val).length ≤ maxFormattedSize - 1) :
    Printed noFloats Formatter.wednesday levelMsg none (errorRecord message)
        (printNew (errorRecord message)) ∧
      lineOf (printNew (errorRecord message)) = str "[ERROR] " ++ message.val ∧
      Formats (printNew (errorRecord message)) (str "[ERROR] " ++ message.val) := by
  have hmsg : Expands (fieldText (timeOf Formatter.wednesday none (errorRecord message))
      (errorRecord message)) (str " %msg") (32 :: message.val) :=
    .byte (fun heq => absurd heq (by decide)) (Formatter.expands_token .msg)
  have htext : IsReference (fun x => (noFloats x).val)
      (timeOf Formatter.wednesday none (errorRecord message)) (errorRecord message) levelMsg
      (str "[ERROR] " ++ message.val) :=
    ⟨_, Formatter.expands_level .nil hmsg, (List.append_nil _).symm⟩
  have hfits : .token .time ∈ segments levelMsg → SecFits Formatter.wednesday
      ((errorRecord message).timestamp / 1000000) (orIso (timeFormatText none)) :=
    fun hmem => absurd hmem (by decide +kernel)
  obtain ⟨o, c', heq, -, -⟩ := Formatter.formatImpl_eq (fun x => (noFloats x).val)
    Formatter.wednesday (c := .empty) Formatter.FmtCache.coherent_empty
    (Formatter.TimeCache.coherent_empty Formatter.wednesday) id isTemplate_levelMsg
    (timeFormatText none) (errorRecord message) hfits (List.replicate maxFormattedSize 0)
    (by rw [List.length_replicate]; decide) htext
  have hprinted := printed_printNew heq
  have hline := lineOf_printed isTemplate_levelMsg hfits (by decide) hprinted htext
  rw [List.take_of_length_le hshort] at hline
  exact ⟨hprinted, hline, hline ▸ formats_of_printed (by decide) hprinted⟩

def diskFull : CString := ⟨str "disk full", by decide⟩

def diskLost : CString := ⟨str "disk lost", by decide⟩

/-- Two records of level `ERROR` with plain messages are passed on with `LOG_ERR`. -/
theorem severity_kept_plain :
    Passed printNew zeroFrame ⟨0, false⟩ [some ⟨0, false, false⟩] 0 (errorRecord diskFull) 3 ∧
    Passed printNew zeroFrame ⟨0, false⟩ [some ⟨0, false, false⟩] 0 (errorRecord diskLost) 3 := by
  have hone {message : CString} (hshort : (str "[ERROR] " ++ message.val).length ≤ 8191)
      (hprio : Journald.priorityOf (str "[ERROR] " ++ message.val) = severity 4) :
      Printed noFloats Formatter.wednesday levelMsg none (errorRecord message)
          (printNew (errorRecord message)) ∧ 0 < (printNew (errorRecord message)).1 ∧
        Kept 4 (lineOf (printNew (errorRecord message))) := by
    obtain ⟨hprinted, hline, hformats⟩ := printed_errorRecord hshort
    refine ⟨hprinted, ?_, hline ▸ (priorityOf_eq_iff 4 _).1 hprio⟩
    rw [hformats.ret, List.length_append]
    exact Int.natCast_pos.2 (Nat.add_pos_left (by decide) _)
  have hlines : ∀ r ∈ [errorRecord diskFull, errorRecord diskLost],
      Printed noFloats Formatter.wednesday levelMsg none r (printNew r) ∧ 0 < (printNew r).1 ∧
        Kept 4 (lineOf (printNew r)) :=
    List.forall_mem_cons.2 ⟨hone (by decide) (by decide),
      List.forall_mem_singleton.2 (hone (by decide) (by decide))⟩
  have hfmt : levelMsg.val = [] ++ str "[%level]" ++ str " %msg" := by decide
  have hpassed := (severity_kept_iff hfmt (sameBut_errorRecord diskFull diskLost)
    (fun r hr => (hlines r hr).1) (fun r hr => (hlines r hr).2.1) zeroFrame
    (by decide : (⟨0, false⟩ : Config).level ≤ 4) (rfl : [some ⟨0, false, false⟩][0]? = _) rfl
    (by decide)).1.2 fun r hr => (hlines r hr).2.2
  exact ⟨hpassed _ (List.mem_cons_self ..), hpassed _ (by simp)⟩

def debugOff : CString := ⟨str "[DEBUG] off", by decide⟩

/-- `[DEBUG]` in the message of a record of level `ERROR` makes it one of `LOG_DEBUG`. -/
theorem debug_in_message : SameBut (errorRecord diskFull) (errorRecord debugOff) ∧
    Passed printNew zeroFrame ⟨0, false⟩ [some ⟨0, false, false⟩] 0 (errorRecord diskFull) 3 ∧
    Passed printNew zeroFrame ⟨0, false⟩ [some ⟨0, false, false⟩] 0 (errorRecord debugOff) 7 := by
  have hone {message : CString} (hshort : (str "[ERROR] " ++ message.val).length ≤ 8191)
      {priority : ℕ} (hprio : Journald.priorityOf (str "[ERROR] " ++ message.val) = priority) :
      Passed printNew zeroFrame ⟨0, false⟩ [some ⟨0, false, false⟩] 0 (errorRecord message)
        priority := by
    obtain ⟨-, -, hformats⟩ := printed_errorRecord hshort
    exact (passed_iff zeroFrame hformats (List.append_ne_nil_of_left_ne_nil (by decide) _)
      (by decide : 0 ≤ 4) rfl rfl (by decide : Admits 4 ⟨0, false, false⟩)).2 hprio
  exact ⟨sameBut_errorRecord _ _, hone (by decide) (by decide), hone (by decide) (by decide)⟩

end Severity
end Clogx
