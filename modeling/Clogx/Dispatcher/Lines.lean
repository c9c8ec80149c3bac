/-
# From a record to the writes of the sinks

`log_dispatcher_dispatch_for` of `core/dispatcher.c`: the level filter, the
formatted line, the copy of it in colour, and for every sink the write of the one
or the other with a newline at its end, staged in one buffer or in two writes.

The formatter is an argument.  What a sink is given is a block of memory and a
length, as `sink->write` is.  The model stops with `none` where the code would read
or write outside an array.
-/

import Clogx.CLib.Buffer
import Clogx.Formatter.Json

namespace Clogx
namespace Dispatcher

open CLib
open Formatter (Record)

/-- `CLOG_MAX_FORMATTED_SIZE`. -/
def maxFormattedSize : ℕ := 8192

/-- `CLOG_MAX_COLORED_SIZE`. -/
def maxColoredSize : ℕ := 16384

/-- `log_config_t`, as far as a dispatch reads it. -/
structure Config where
  level : ℕ
  color : Bool

/-- `log_sink_t`: its minimum level, whether its `write` is that of the console, and the console's
`use_color`. -/
structure Sink where
  minLevel : ℕ
  console : Bool
  useColor : Bool

/-- `console_sink_is_color_enabled`. -/
def consoleSinkIsColorEnabled (sink : Sink) : Bool := sink.console && sink.useColor

/-- `log_color_t`. -/
inductive LogColor
  | none
  | black
  | red
  | green
  | yellow
  | blue
  | purple
  | cyan
  | white

/-- `get_log_color`. -/
def getLogColor : ℕ → LogColor
  | 0 => .black
  | 1 => .blue
  | 2 => .green
  | 3 => .yellow
  | 4 => .red
  | 5 => .purple
  | _ => .none

/-- `ansi_codes`. -/
def ansiCode : LogColor → Text
  | .none => str "\x1b[30m"
  | .black => str "\x1b[30m"
  | .red => str "\x1b[31m"
  | .green => str "\x1b[32m"
  | .yellow => str "\x1b[33m"
  | .blue => str "\x1b[34m"
  | .purple => str "\x1b[35m"
  | .cyan => str "\x1b[36m"
  | .white => str "\x1b[37m"

/-- `reset_code`. -/
def resetCode : Text := str "\x1b[0m"

/-- The arguments of a call of `sink->write`. -/
structure Write where
  buf : Block
  len : ℕ

/-- What the sink is asked to write. -/
def Write.bytes (w : Write) : Text := w.buf.take w.len

/-- The local arrays of a dispatch, with whatever they hold. -/
structure Frame where
  colored : Block
  staged : Block
  coloredSize : colored.length = maxColoredSize
  stagedSize : staged.length = maxFormattedSize + 1

/-- The line in colour: `colored_len` and `colored_buf`. -/
def colorize (frame : Frame) (formatted : Block) (level : ℕ) : Option (ℤ × Block) := do
  let line ← strAt formatted 0
  let text := ansiCode (getLogColor level) ++ line ++ resetCode
  let colored ← store frame.colored 0 (cut maxColoredSize text ++ [0])
  return (if 0 < text.length ∧ text.length < maxColoredSize then text.length else -1, colored)

/-- The writes of one sink, of the first `writeLen` bytes of an array of `cap` bytes. -/
def writeLine (frame : Frame) (cap : ℕ) (writeBuf : Block) (writeLen : ℕ) :
    Option (List Write) := do
  if 0 < writeLen then
    let last ← writeBuf[writeLen - 1]?
    if last ≠ 10 then
      if writeLen + 1 < cap ∧ writeLen + 1 < maxFormattedSize + 1 then
        let staged ← store frame.staged 0 (writeBuf.take writeLen)
        let staged ← store staged writeLen [10]
        let staged ← store staged (writeLen + 1) [0]
        return [⟨staged, writeLen + 1⟩]
      else return [⟨writeBuf, writeLen⟩, ⟨[10, 0], 1⟩]
    else return [⟨writeBuf, writeLen⟩]
  else return [⟨writeBuf, writeLen⟩]

/-- The sink takes records of this level. -/
def Admits (level : ℕ) (sink : Sink) : Prop := ¬ toInt level < toInt sink.minLevel

instance (level : ℕ) (sink : Sink) : Decidable (Admits level sink) :=
  inferInstanceAs (Decidable (¬ _))

/-- The writes of an entry of the sinks. -/
def writeSink (frame : Frame) (level : ℕ) (formatted : Block) (len : ℕ) (coloredLen : ℤ)
    (colored : Block) : Option Sink → Option (List Write)
  | none => some []
  | some sink =>
    if Admits level sink then
      if 0 < coloredLen ∧ consoleSinkIsColorEnabled sink = true then
        writeLine frame maxColoredSize colored coloredLen.toNat
      else writeLine frame maxFormattedSize formatted len
    else some []

/-- The loop over the sinks: the writes of each. -/
def writeSinks (frame : Frame) (level : ℕ) (formatted : Block) (len : ℕ) (coloredLen : ℤ)
    (colored : Block) : List (Option Sink) → Option (List (List Write))
  | [] => some []
  | entry :: sinks => do
    let writes ← writeSink frame level formatted len coloredLen colored entry
    let rest ← writeSinks frame level formatted len coloredLen colored sinks
    return writes :: rest

variable {φ : Type*}

/-- `log_dispatcher_dispatch_for`: what it returns, and the writes of each sink. -/
def logDispatcherDispatchFor (format : Record φ → ℤ × Block) (frame : Frame) (cfg : Config)
    (sinks : List (Option Sink)) (record : Record φ) : Option (ℤ × List (List Write)) :=
  if record.level < cfg.level then some (0, sinks.map fun _ => [])
  else
    let formatted := format record
    if formatted.1 ≤ 0 then some (-1, sinks.map fun _ => [])
    else do
      let colored ←
        (if cfg.color then colorize frame formatted.2 record.level else some (-1, frame.colored))
      let writes ← writeSinks frame record.level formatted.2 formatted.1.toNat colored.1 colored.2
        sinks
      return (0, writes)

/-! ### One line -/

/-- **The formatter has made a line:** it returns the length of a text that stands in the array, with
its terminator. -/
structure Formats (out : ℤ × Block) (line : Text) : Prop where
  ret : out.1 = line.length
  buf : ∃ rest, out.2 = line ++ 0 :: rest
  size : out.2.length = maxFormattedSize
  text : 0 ∉ line

/-- A line with a newline at its end. -/
def endLine (line : Text) : Text := if line.getLast? = some 10 then line else line ++ [10]

/-- The bytes of some writes. -/
def bytes (writes : List Write) : Text := (writes.map Write.bytes).flatten

/-- A line in colour. -/
def inColor (level : ℕ) (line : Text) : Text := ansiCode (getLogColor level) ++ line ++ resetCode

theorem length_ansiCode (c : LogColor) : (ansiCode c).length = 5 := by
  cases c <;> rfl

theorem length_inColor (level : ℕ) (line : Text) :
    (inColor level line).length = line.length + 9 := by
  rw [inColor, List.length_append, List.length_append, length_ansiCode]
  have : resetCode.length = 4 := rfl
  omega

theorem inColor_getLast? (level : ℕ) (line : Text) : (inColor level line).getLast? = some 109 :=
  List.getLast?_append_of_ne_nil _ (by decide)

/-- The staged copy of a line with its newline. -/
theorem stage_line (frame : Frame) {line : Text} (h : line.length + 2 ≤ maxFormattedSize + 1) :
    ∃ rest, (store frame.staged 0 line).bind (fun staged =>
        (store staged line.length [10]).bind fun staged => store staged (line.length + 1) [0]) =
      some (line ++ 10 :: 0 :: rest) := by
  have hsize := frame.stagedSize
  obtain ⟨x, y, z, hxy, hx, hy⟩ : ∃ x y z, frame.staged = x ++ (y ++ z) ∧
      x.length = line.length ∧ y.length = 2 := by
    refine ⟨frame.staged.take line.length, (frame.staged.drop line.length).take 2,
      (frame.staged.drop line.length).drop 2, ?_, ?_, ?_⟩
    · rw [List.take_append_drop, List.take_append_drop]
    · rw [List.length_take]
      omega
    · rw [List.length_take, List.length_drop]
      omega
  obtain ⟨c, d, rfl⟩ := List.length_eq_two.1 hy
  have h1 : store frame.staged 0 line = some (line ++ ([c] ++ ([d] ++ z))) := by
    rw [hxy]
    exact store_append (x := []) hx.symm
  have h2 : store (line ++ ([c] ++ ([d] ++ z))) line.length [10] =
      some (line ++ ([10] ++ ([d] ++ z))) := store_append rfl
  have h3 : store (line ++ ([10] ++ ([d] ++ z))) (line.length + 1) [0] =
      some ((line ++ [10]) ++ ([0] ++ z)) := by
    have hlen : line.length + 1 = (line ++ [10]).length := by
      rw [List.length_append, List.length_singleton]
    rw [hlen, ← List.append_assoc]
    exact store_append rfl
  refine ⟨z, ?_⟩
  rw [h1, Option.bind_some, h2, Option.bind_some, h3, List.append_assoc]
  rfl

/-- The block goes on behind the bytes with a terminator. -/
def Write.Terminated (w : Write) : Prop := ∃ rest, w.buf = w.bytes ++ 0 :: rest

theorem bytes_of_append (t rest : Text) : (⟨t ++ rest, t.length⟩ : Write).bytes = t := List.take_left

theorem terminated_of_append (t rest : Text) : (⟨t ++ 0 :: rest, t.length⟩ : Write).Terminated :=
  ⟨rest, by rw [bytes_of_append]⟩

/-- **Staged or in two writes, a sink gets the line with a newline at its end;** every write is
terminated, and the first has the line. -/
theorem writeLine_eq (frame : Frame) (cap : ℕ) {line : Text} (hne : line ≠ []) (rest : Block) :
    ∃ w ws, writeLine frame cap (line ++ 0 :: rest) line.length = some (w :: ws) ∧
      bytes (w :: ws) = endLine line ∧ (∀ u ∈ w :: ws, u.Terminated) ∧
      (w.bytes = line ∨ w.bytes = line ++ [10]) := by
  have hpos : 0 < line.length := List.length_pos_of_ne_nil hne
  have hlast : (line ++ 0 :: rest)[line.length - 1]? = line.getLast? := by
    rw [List.getElem?_append_left (by omega), List.getLast?_eq_getElem?]
  have hget : line.getLast? = some (line.getLast hne) := List.getLast?_eq_some_getLast hne
  generalize line.getLast hne = last at hget
  have hwhole := bytes_of_append line (0 :: rest)
  have hterm := terminated_of_append line rest
  rw [writeLine, if_pos hpos, hlast, hget]
  simp only [Option.bind_eq_bind, Option.bind_some]
  by_cases hnl : last = 10
  · rw [if_neg (not_not.2 hnl)]
    refine ⟨_, [], rfl, ?_, fun u hu => List.mem_singleton.1 hu ▸ hterm, .inl hwhole⟩
    rw [endLine, hget, hnl, if_pos rfl, bytes, List.map_cons, hwhole]
    exact List.append_nil line
  · have hend : endLine line = line ++ [10] := by
      rw [endLine, hget, if_neg fun heq => hnl (Option.some.inj heq)]
    rw [if_pos hnl]
    by_cases hfit : line.length + 1 < cap ∧ line.length + 1 < maxFormattedSize + 1
    · obtain ⟨tail, hstage⟩ := stage_line frame (Nat.succ_le_of_lt hfit.2)
      have hnew : (line ++ [10]).length = line.length + 1 := by
        rw [List.length_append, List.length_singleton]
      have hstaged : (⟨line ++ 10 :: 0 :: tail, line.length + 1⟩ : Write).bytes = line ++ [10] := by
        rw [← hnew, List.append_cons]
        exact bytes_of_append _ _
      refine ⟨⟨line ++ 10 :: 0 :: tail, line.length + 1⟩, [], ?_, ?_, ?_, .inr hstaged⟩
      · rw [if_pos hfit, List.take_left]
        rw [← Option.bind_assoc, ← Option.bind_assoc, Option.bind_assoc (store _ _ _), hstage]
        rfl
      · rw [hend, bytes, List.map_cons, hstaged]
        exact List.append_nil _
      · intro u hu
        rw [List.mem_singleton.1 hu]
        exact ⟨tail, by rw [hstaged, List.append_assoc]; rfl⟩
    · rw [if_neg hfit]
      refine ⟨_, [⟨[10, 0], 1⟩], rfl, ?_, fun u hu => ?_, .inl hwhole⟩
      · rw [hend, bytes, List.map_cons, hwhole]
        rfl
      · rcases List.mem_cons.1 hu with rfl | hu
        · exact hterm
        · rw [List.mem_singleton.1 hu]
          exact ⟨[], rfl⟩

/-- The sink is given the line in colour. -/
def Colored (cfg : Config) (sink : Sink) : Prop :=
  cfg.color = true ∧ consoleSinkIsColorEnabled sink = true

instance (cfg : Config) (sink : Sink) : Decidable (Colored cfg sink) :=
  inferInstanceAs (Decidable (_ ∧ _))

/-- The text that a sink is given. -/
def shownLine (cfg : Config) (level : ℕ) (line : Text) (sink : Sink) : Text :=
  if Colored cfg sink then inColor level line else line

/-- What a dispatch does for an entry of the sinks. -/
def Shown (cfg : Config) (level : ℕ) (line : Text) : Option Sink → List Write → Prop
  | none, ws => ws = []
  | some sink, ws =>
    (Admits level sink → ∃ w ws', ws = w :: ws' ∧
      bytes ws = endLine (shownLine cfg level line sink) ∧ (∀ u ∈ ws, u.Terminated) ∧
      (w.bytes = shownLine cfg level line sink ∨
        w.bytes = shownLine cfg level line sink ++ [10])) ∧
    (¬ Admits level sink → ws = [])

/-- The line in colour always fits its array. -/
theorem colorize_eq (frame : Frame) (level : ℕ) {formatted : Block} {line : Text}
    (hbuf : ∃ rest, formatted = line ++ 0 :: rest) (hsize : formatted.length = maxFormattedSize)
    (htext : 0 ∉ line) :
    ∃ rest, colorize frame formatted level =
      some (((inColor level line).length : ℤ), inColor level line ++ 0 :: rest) := by
  obtain ⟨rest, rfl⟩ := hbuf
  have hlen := length_inColor level line
  have hcolored := frame.coloredSize
  have hline : line.length < maxFormattedSize := by
    rw [← hsize, List.length_append, List.length_cons]
    omega
  have hstr : strAt (line ++ 0 :: rest) 0 = some line := strAt_eq htext rfl
  have hshort : (inColor level line).length < maxColoredSize := by
    simp only [maxFormattedSize, maxColoredSize] at hline ⊢
    omega
  have hstore : store frame.colored 0 (inColor level line ++ [0]) =
      some (inColor level line ++ [0] ++ frame.colored.drop (inColor level line ++ [0]).length) :=
    store_fits (x := []) (by
      show (inColor level line ++ [0]).length ≤ frame.colored.length
      rw [List.length_append, List.length_singleton]
      omega)
  refine ⟨frame.colored.drop (inColor level line ++ [0]).length, ?_⟩
  rw [colorize, hstr]
  simp only [Option.bind_eq_bind, Option.bind_some]
  rw [← inColor, cut_of_length_lt hshort, hstore, if_pos ⟨by omega, hshort⟩, List.append_assoc]
  rfl

section Dispatch

variable (frame : Frame) {cfg : Config} {level : ℕ} {formatted : Block} {line : Text}

theorem writeSink_eq (hne : line ≠ []) (hbuf : ∃ rest, formatted = line ++ 0 :: rest)
    {coloredLen : ℤ} {colored : Block}
    (hcolored : if cfg.color = true then
        coloredLen = (inColor level line).length ∧ ∃ rest, colored = inColor level line ++ 0 :: rest
      else coloredLen = -1) (entry : Option Sink) :
    ∃ ws, writeSink frame level formatted line.length coloredLen colored entry = some ws ∧
      Shown cfg level line entry ws := by
  cases entry with
  | none => exact ⟨[], rfl, rfl⟩
  | some sink =>
    rw [writeSink]
    split_ifs with hadmits hcond
    · have hcolor : cfg.color = true := by
        by_contra hno
        rw [if_neg hno] at hcolored
        omega
      rw [if_pos hcolor] at hcolored
      obtain ⟨rfl, rest, rfl⟩ := hcolored
      have hne' : inColor level line ≠ [] := List.append_ne_nil_of_right_ne_nil _ (by decide)
      obtain ⟨w, ws, hwrite, h⟩ := writeLine_eq frame maxColoredSize hne' rest
      refine ⟨w :: ws, hwrite, fun _ => ⟨w, ws, rfl, ?_⟩, fun hno => absurd hadmits hno⟩
      rwa [shownLine, if_pos ⟨hcolor, hcond.2⟩]
    · have hplain : ¬ Colored cfg sink := by
        rintro ⟨hcolor, henabled⟩
        rw [if_pos hcolor, length_inColor] at hcolored
        exact hcond ⟨by omega, henabled⟩
      obtain ⟨rest, rfl⟩ := hbuf
      obtain ⟨w, ws, hwrite, h⟩ := writeLine_eq frame maxFormattedSize hne rest
      refine ⟨w :: ws, hwrite, fun _ => ⟨w, ws, rfl, ?_⟩, fun hno => absurd hadmits hno⟩
      rwa [shownLine, if_neg hplain]
    · exact ⟨[], rfl, fun hyes => absurd hyes hadmits, fun _ => rfl⟩

/-- Every sink receives its form of the line. -/
theorem writeSinks_eq (hne : line ≠ []) (hbuf : ∃ rest, formatted = line ++ 0 :: rest)
    {coloredLen : ℤ} {colored : Block}
    (hcolored : if cfg.color = true then
        coloredLen = (inColor level line).length ∧ ∃ rest, colored = inColor level line ++ 0 :: rest
      else coloredLen = -1) (sinks : List (Option Sink)) :
    ∃ writes, writeSinks frame level formatted line.length coloredLen colored sinks = some writes ∧
      List.Forall₂ (Shown cfg level line) sinks writes := by
  induction sinks with
  | nil => exact ⟨[], rfl, .nil⟩
  | cons entry sinks ih =>
    obtain ⟨ws, hsink, hshown⟩ := writeSink_eq frame hne hbuf hcolored entry
    obtain ⟨writes, hrest, hall⟩ := ih
    refine ⟨ws :: writes, ?_, .cons hshown hall⟩
    rw [writeSinks, hsink, hrest]
    rfl

variable {format : Record φ → ℤ × Block} {record : Record φ}

/-- **A dispatch of a record that is not filtered** writes its line to every sink that takes it. -/
theorem dispatch_eq (hline : Formats (format record) line) (hne : line ≠ [])
    (hlevel : cfg.level ≤ record.level) (sinks : List (Option Sink)) :
    ∃ writes, logDispatcherDispatchFor format frame cfg sinks record = some (0, writes) ∧
      List.Forall₂ (Shown cfg record.level line) sinks writes := by
  have hpos : 0 < line.length := List.length_pos_of_ne_nil hne
  rw [logDispatcherDispatchFor, if_neg (not_lt.2 hlevel)]
  dsimp only
  rw [if_neg (by rw [hline.ret]; omega), hline.ret, Int.toNat_natCast]
  by_cases hcolor : cfg.color = true
  · obtain ⟨rest, hcolorize⟩ :=
      colorize_eq frame record.level hline.buf hline.size hline.text
    have hcolored : if cfg.color = true then
        ((inColor record.level line).length : ℤ) = (inColor record.level line).length ∧
          ∃ rest', inColor record.level line ++ 0 :: rest = inColor record.level line ++ 0 :: rest'
        else ((inColor record.level line).length : ℤ) = -1 := by
      rw [if_pos hcolor]
      exact ⟨rfl, rest, rfl⟩
    obtain ⟨writes, heq, hall⟩ := writeSinks_eq frame hne hline.buf hcolored sinks
    refine ⟨writes, ?_, hall⟩
    rw [if_pos hcolor, hcolorize]
    simp only [Option.bind_eq_bind, Option.bind_some, heq]
    rfl
  · have hcolored : if cfg.color = true then
        (-1 : ℤ) = (inColor record.level line).length ∧
          ∃ rest, frame.colored = inColor record.level line ++ 0 :: rest
        else (-1 : ℤ) = -1 := by
      rw [if_neg hcolor]
    obtain ⟨writes, heq, hall⟩ := writeSinks_eq frame hne hline.buf hcolored sinks
    refine ⟨writes, ?_, hall⟩
    rw [if_neg hcolor]
    simp only [Option.bind_eq_bind, Option.bind_some, heq]
    rfl

/-- A record below the level of the logger is written to no sink. -/
theorem dispatch_filtered (hlevel : record.level < cfg.level) (sinks : List (Option Sink)) :
    logDispatcherDispatchFor format frame cfg sinks record = some (0, sinks.map fun _ => []) := by
  rw [logDispatcherDispatchFor, if_pos hlevel]

/-! ### The text is not changed -/

/-- What a sink is to receive: nothing if it does not take the record, else the line with a newline
at its end, for a console in colour once a colour code at the front and a reset code are taken
out. -/
def Received (cfg : Config) (level : ℕ) (line : Text) : Option Sink → List Write → Prop
  | none, ws => ws = []
  | some sink, ws =>
    (Admits level sink →
      (Colored cfg sink → ∃ u v,
        bytes ws = ansiCode (getLogColor level) ++ u ++ resetCode ++ v ∧ u ++ v = endLine line) ∧
      (¬ Colored cfg sink → bytes ws = endLine line)) ∧
    (¬ Admits level sink → ws = [])

/-- The sink is a console in colour, and the line has a newline already. -/
def EndsInColor (cfg : Config) (line : Text) (sink : Sink) : Prop :=
  Colored cfg sink ∧ line.getLast? = some 10

theorem received_of_shown {entry : Option Sink} {ws : List Write}
    (h : Shown cfg level line entry ws) :
    Received cfg level line entry ws ↔
      ∀ sink, entry = some sink → Admits level sink → ¬ EndsInColor cfg line sink := by
  cases entry with
  | none => exact iff_of_true h fun sink heq => (by cases heq)
  | some sink =>
    simp only [Option.some.injEq, forall_eq', Received]
    have hend : endLine (inColor level line) = inColor level line ++ [10] := by
      rw [endLine, inColor_getLast?, if_neg (by decide)]
    constructor
    · rintro ⟨hreceived, -⟩ hadmits ⟨hcolored, hnl⟩
      obtain ⟨u, v, hsplit, huv⟩ := (hreceived hadmits).1 hcolored
      obtain ⟨w, ws', -, hbytes, -⟩ := h.1 hadmits
      rw [hbytes, shownLine, if_pos hcolored, hend] at hsplit
      -- The newline behind the reset code is one byte more than the line has room for.
      have hlen := congrArg List.length hsplit
      have huv := congrArg List.length huv
      rw [endLine, if_pos hnl] at huv
      simp only [inColor, List.length_append, List.length_singleton] at hlen huv
      omega
    · intro hnot
      refine ⟨fun hadmits => ?_, h.2⟩
      obtain ⟨w, ws', -, hbytes, -⟩ := h.1 hadmits
      rw [hbytes, shownLine]
      refine ⟨fun hcolored => ?_, fun hplain => by rw [if_neg hplain]⟩
      have hnl : ¬ line.getLast? = some 10 := fun hnl => hnot hadmits ⟨hcolored, hnl⟩
      rw [if_pos hcolored, hend]
      exact ⟨line, [10], rfl, by rw [endLine, if_neg hnl]⟩

/-- A sink that takes the record does not go without. -/
theorem not_received_nil {sink : Sink} (hne : line ≠ []) (hadmits : Admits level sink) :
    ¬ Received cfg level line (some sink) [] := by
  have hend : endLine line ≠ [] := by
    rw [endLine]
    split_ifs
    · exact hne
    · exact List.append_ne_nil_of_right_ne_nil _ (by decide)
  rintro ⟨hreceived, -⟩
  by_cases hcolored : Colored cfg sink
  · obtain ⟨u, v, hnil, -⟩ := (hreceived hadmits).1 hcolored
    have hlen := congrArg List.length hnil
    rw [List.append_assoc, List.append_assoc, List.length_append, length_ansiCode] at hlen
    simp only [bytes, List.map_nil, List.flatten_nil, List.length_nil] at hlen
    omega
  · exact hend ((hreceived hadmits).2 hcolored).symm

/-- **Colour and staging leave the text as it is** exactly if the record passes the level of the
logger and no console in colour is given a line with a newline at its end (over the sinks that
take the record). -/
theorem text_unchanged_iff (hline : Formats (format record) line) (hne : line ≠ [])
    (cfg : Config) (sinks : List (Option Sink)) :
    ∃ ret writes, logDispatcherDispatchFor format frame cfg sinks record = some (ret, writes) ∧
      (List.Forall₂ (Received cfg record.level line) sinks writes ↔
        ∀ sink, some sink ∈ sinks → Admits record.level sink →
          cfg.level ≤ record.level ∧ ¬ EndsInColor cfg line sink) := by
  by_cases hlevel : cfg.level ≤ record.level
  · obtain ⟨writes, heq, hshown⟩ := dispatch_eq frame hline hne hlevel sinks
    refine ⟨0, writes, heq, ?_⟩
    simp only [hlevel, true_and]
    clear heq
    induction hshown with
    | nil => simp
    | cons hhead _ ih =>
      rw [List.forall₂_cons, ih, received_of_shown hhead]
      simp only [List.mem_cons, or_imp, forall_and]
      exact and_congr_left fun _ =>
        ⟨fun h sink heq => h sink heq.symm, fun h sink heq => h sink heq.symm⟩
  · refine ⟨0, _, dispatch_filtered frame (not_le.1 hlevel) sinks, ?_⟩
    simp only [hlevel, false_and, imp_false]
    induction sinks with
    | nil => simp
    | cons entry sinks ih =>
      rw [List.map_cons, List.forall₂_cons, ih]
      simp only [List.mem_cons, or_imp, forall_and]
      refine and_congr_left fun _ => ⟨?_, ?_⟩
      · rintro h sink rfl hadmits
        exact absurd h (not_received_nil hne hadmits)
      · intro h
        cases entry with
        | none => rfl
        | some sink =>
          exact ⟨fun hadmits => absurd hadmits (h sink rfl), fun _ => rfl⟩

end Dispatch

/-- A formatter that makes the same line of every record. -/
def always (line : Text) (_ : Record φ) : ℤ × Block :=
  (line.length, line ++ 0 :: List.replicate (maxFormattedSize - 1 - line.length) 0)

theorem formats_always {line : Text} (hlen : line.length < maxFormattedSize) (htext : 0 ∉ line)
    (record : Record φ) : Formats (always line record) line where
  ret := rfl
  buf := ⟨_, rfl⟩
  size := by
    rw [always, List.length_append, List.length_cons, List.length_replicate]
    omega
  text := htext

/-- A frame of zeros. -/
def zeroFrame : Frame :=
  ⟨List.replicate maxColoredSize 0, List.replicate (maxFormattedSize + 1) 0, List.length_replicate,
    List.length_replicate⟩

/-- A record of level `INFO`. -/
def info : Record Empty := ⟨0, none, none, none, none, none, 2, 0, 0, 0, 0, 0, []⟩

/-- A file gets the line of a logger in colour as it is. -/
theorem text_unchanged_file : ∃ ret writes,
    logDispatcherDispatchFor (always (str "hi\n")) zeroFrame ⟨0, true⟩ [some ⟨0, false, false⟩] info =
      some (ret, writes) ∧
    List.Forall₂ (Received ⟨0, true⟩ 2 (str "hi\n")) [some ⟨0, false, false⟩] writes := by
  have hline : Formats (always (str "hi\n") info) (str "hi\n") :=
    formats_always (by decide) (by decide) info
  obtain ⟨ret, writes, heq, hiff⟩ := text_unchanged_iff zeroFrame hline (by decide) ⟨0, true⟩
    [some ⟨0, false, false⟩]
  refine ⟨ret, writes, heq, hiff.2 fun sink hmem _ => ⟨by decide, ?_⟩⟩
  cases List.mem_singleton.1 hmem
  rintro ⟨⟨-, hconsole⟩, -⟩
  cases hconsole

/-- On a console in colour a line that has its newline gets a second one, behind the reset code. -/
theorem second_newline : ∃ writes,
    logDispatcherDispatchFor (always (str "hi\n")) zeroFrame ⟨0, true⟩ [some ⟨0, true, true⟩] info =
      some (0, [writes]) ∧ bytes writes = str "\x1b[32mhi\n\x1b[0m\n" := by
  have hline : Formats (always (str "hi\n") info) (str "hi\n") :=
    formats_always (by decide) (by decide) info
  have hlevel : (⟨0, true⟩ : Config).level ≤ info.level := by decide
  obtain ⟨writes, heq, hshown⟩ := dispatch_eq zeroFrame hline (by decide) hlevel
    [some ⟨0, true, true⟩]
  cases hshown with
  | cons hhead htail =>
    cases htail
    obtain ⟨w, ws, -, hbytes, -⟩ := hhead.1 (by decide)
    exact ⟨_, heq, hbytes.trans (by decide)⟩

end Dispatcher
end Clogx
