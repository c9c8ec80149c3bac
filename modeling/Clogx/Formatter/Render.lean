/-
# The text renderer

`core/formatter_fmt.c`: a format string is compiled to a program of literals and
tokens (`fmt_compile`), and `format_impl` runs the program on a record.  The
program of the last format stands in a cache of the thread, with a copy of the
format that its literals point into; `FmtOp.literal` holds the place and the
length in that copy.

Every round of `fmt_compile` writes one opcode, so the room left in `ops` counts
its rounds.  `remaining` starts at the size of the buffer and does not fall below
one.  What `isalpha` says is that of the C locale.
-/

import Clogx.Formatter.Clock
import Clogx.Formatter.Json

namespace Clogx
namespace Formatter

open CLib

/-! ### The compiler -/

/-- The opcodes of `fmt_op_t` other than `FMT_OP_LITERAL`. -/
inductive Token
  | time
  | level
  | msg
  | thread
  | pid
  | file
  | line
  | func
  | module
  | tag
  | newline
  | traceId
  | spanId
deriving DecidableEq

namespace Token

def name : Token → Text
  | time => str "time"
  | level => str "level"
  | msg => str "msg"
  | thread => str "thread"
  | pid => str "pid"
  | file => str "file"
  | line => str "line"
  | func => str "func"
  | module => str "module"
  | tag => str "tag"
  | newline => str "newline"
  | traceId => str "trace_id"
  | spanId => str "span_id"

/-- The tokens in the order in which `fmt_compile` tries them. -/
def all : List Token :=
  [time, level, msg, thread, pid, file, line, func, module, tag, newline, traceId, spanId]

end Token

/-- `fmt_op_t`. -/
inductive FmtOp
  | literal (start len : ℕ)
  | token (t : Token)
deriving DecidableEq

/-- `isalpha`. -/
def isalpha (c : UInt8) : Bool := (65 ≤ c && c ≤ 90) || (97 ≤ c && c ≤ 122)

/-- `token_match`: the token stands at the place, and no letter behind it. -/
def tokenMatch (fmt token : Text) : Bool :=
  token.isPrefixOf fmt && (fmt.drop token.length).head?.all fun c => !isalpha c

/-- The token behind a `%`. -/
def tokenAt (fmt : Text) : Option Token := Token.all.find? fun t => tokenMatch fmt t.name

/-- One round of `fmt_compile` at the place `pos`: the opcode, and how far `fmt_str` moves. -/
def nextOp (pos : ℕ) (fmt : Text) : FmtOp × ℕ :=
  if fmt.head? ≠ some 37 then
    let len := (fmt.takeWhile (· ≠ 37)).length
    (.literal pos len, len)
  else
    match tokenAt fmt.tail with
    | some t => (.token t, 1 + t.name.length)
    | none => (.literal pos 1, 1)

/-- The loop of `fmt_compile`, with the room left. -/
def compileLoop : ℕ → ℕ → Text → List FmtOp
  | 0, _, _ => []
  | _ + 1, _, [] => []
  | room + 1, pos, c :: fmt =>
    let op := nextOp pos (c :: fmt)
    op.1 :: compileLoop room (pos + op.2) ((c :: fmt).drop op.2)

/-- `FMT_MAX_OPS`. -/
def fmtMaxOps : ℕ := 64

/-- `CLOG_MAX_FORMAT_SIZE`. -/
def maxFormatSize : ℕ := 1024

/-- `fmt_compile`, with room for `FMT_MAX_OPS`. -/
def fmtCompile (fmt : Text) : List FmtOp := compileLoop (fmtMaxOps - 1) 0 fmt

/-- `clog_fmt_cache_t`. -/
structure FmtCache where
  fmt : Text
  ops : List FmtOp

/-- The cache of a new thread. -/
def FmtCache.empty : FmtCache := ⟨[], []⟩

/-- The cache for a format, which is compiled unless it is there. -/
def FmtCache.lookup (c : FmtCache) (fmt : Text) : FmtCache :=
  if fmt ≠ c.fmt then ⟨cut maxFormatSize fmt, fmtCompile (cut maxFormatSize fmt)⟩ else c

/-! ### The interpreter -/

/-- `out`, `remaining` and `total`. -/
structure Line where
  out : Out
  total : ℤ

/-- `total += append_token(&out, &remaining, token, token_len)`. -/
def appendToken (token : Text) (l : Line) : Line :=
  let tokenLen := if l.out.remaining ≤ token.length then l.out.remaining - 1 else token.length
  ⟨if 0 < tokenLen then (l.out.put (token.take tokenLen)).terminate else l.out,
    toInt (l.total + toInt tokenLen)⟩

/-- `s ? s : text`. -/
def orText (s : Option CString) (text : Text) : Text := s.elim text Subtype.val

section Interpreter

variable {φ : Type*} (snprintf6g : φ → Text)

/-- The cases of the switch over the opcodes; `time_buf` is an argument, and `literal` points into
the copy `fmt`. -/
def fmtCase (fmt timeBuf : Text) (record : Record φ) (l : Line) : FmtOp → Line
  | .literal start len => appendToken ((fmt.drop start).take len) l
  | .token .time => appendToken timeBuf l
  | .token .level => appendToken (levelToString record.level) l
  | .token .msg => appendToken (orText record.message (str "(no message)")) l
  | .token .thread => appendToken (clogU32toa record.tid) l
  | .token .pid => appendToken (clogU32toa record.pid) l
  | .token .file => appendToken (orText record.file (str "(unknown)")) l
  | .token .line => appendToken (clogI32toa record.line) l
  | .token .func => appendToken (orText record.func (str "(unknown)")) l
  | .token .module => appendToken (orText record.module (str "(unknown)")) l
  | .token .tag => appendToken (orText record.tag []) l
  | .token .newline =>
    -- The terminator is left to what comes next.
    if 1 < l.out.remaining then ⟨l.out.put [10], toInt (l.total + 1)⟩ else l
  | .token .traceId =>
    appendToken (if record.traceId ≠ 0 then Trace.hexBytes record.traceId else []) l
  | .token .spanId =>
    appendToken (if record.spanId ≠ 0 then Trace.hexBytes record.spanId else []) l

/-- One round of the loop over the opcodes. -/
def renderOp (libc : Libc) (leaves : Buf64 → Buf64) (fmt tf : Text) (record : Record φ)
    (s : TimeCache × Line) (op : FmtOp) : Option (TimeCache × Line) :=
  if op = .token .time then
    (formatSecCached libc leaves s.1 (record.timestamp / 1000000) (some tf) 64).map fun r =>
      (r.2, fmtCase fmt r.1 record s.2 op)
  else some (s.1, fmtCase fmt [] record s.2 op)

/-- The value of a pair. -/
def appendKvVal (l : Line) : KvVal φ → Line
  | .int i64 => appendToken (clogI64toa i64) l
  | .uint u64 => appendToken (clogU64toa u64) l
  | .float f64 => appendToken (snprintf6g f64) l
  | .str s => appendToken (orText s []) l
  | .bool b => appendToken (str (if b then "true" else "false")) l

/-- One round of the loop over the pairs. -/
def appendKv (l : Line) (kv : Kv φ) : Line :=
  match kv.key with
  | none => l
  | some key =>
    appendKvVal snprintf6g
      (appendToken (str "=") (appendToken key.val (appendToken (str " ") l))) kv.val

/-- The caches of a thread. -/
structure Caches where
  fmt : FmtCache
  time : TimeCache

/-- The caches of a new thread. -/
def Caches.empty : Caches := ⟨.empty, .empty⟩

variable (libc : Libc) (leaves : Buf64 → Buf64)

/-- `format_json_ex` from the caches of the thread. -/
def Caches.formatJsonEx (c : Caches) (record : Record φ) (buf : Text) (timeFormat : Option Text) :
    Option ((ℤ × Out) × Caches) :=
  (formatSecCached libc leaves c.time (record.timestamp / 1000000) timeFormat 64).map fun r =>
    (Formatter.formatJsonEx snprintf6g r.1 record buf, { c with time := r.2 })

/-- `format_otel_json` from the caches of the thread; `g_time_format_buf` is never changed. -/
def Caches.formatOtelJson (c : Caches) (record : Record φ) (buf : Text) :
    Option ((ℤ × Out) × Caches) :=
  (formatSecCached libc leaves c.time (record.timestamp / 1000000) (some isoFormat) 64).map fun r =>
    (Formatter.formatOtelJson snprintf6g r.1 record buf, { c with time := r.2 })

/-- `(time_format && time_format[0]) ? time_format : "%Y-%m-%d %H:%M:%S"`. -/
def orIso : Option Text → Text
  | none => isoFormat
  | some t => if t ≠ [] then t else isoFormat

/-- `fmt` is `json` or `JSON`. -/
def IsJson (fmt : Text) : Prop := fmt = str "json" ∨ fmt = str "JSON"

/-- `fmt` is one of the names of `format_otel_json`. -/
def IsOtel (fmt : Text) : Prop :=
  fmt = str "otlp" ∨ fmt = str "OTLP" ∨ fmt = str "otel" ∨ fmt = str "OTEL"

instance (fmt : Text) : Decidable (IsJson fmt) := inferInstanceAs (Decidable (_ ∨ _))

instance (fmt : Text) : Decidable (IsOtel fmt) := inferInstanceAs (Decidable (_ ∨ _))

/-- `format_impl` into the buffer `buf`: what it returns, the buffer, and the caches afterwards;
`none` is a read outside the array of the time cache. -/
def Caches.formatImpl (c : Caches) (record : Record φ) (buf fmt : Text)
    (timeFormat : Option Text) : Option ((ℤ × Out) × Caches) :=
  if IsJson fmt then c.formatJsonEx snprintf6g libc leaves record buf timeFormat
  else if IsOtel fmt then c.formatOtelJson snprintf6g libc leaves record buf
  else
    let cache := c.fmt.lookup fmt
    (cache.ops.foldlM (renderOp libc leaves cache.fmt (orIso timeFormat) record)
      (c.time, ⟨⟨[], buf⟩, 0⟩)).map fun s =>
        let l := record.kv.foldl (appendKv snprintf6g) s.2
        ((l.total, l.out.terminate), ⟨cache, s.1⟩)

end Interpreter

end Formatter
end Clogx
