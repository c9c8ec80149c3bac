/-
# The JSON renderers

`format_json_ex` and `append_json_kv` of `core/formatter_json.c`,
`format_otel_json` of `core/formatter_otel.c`, on the append helpers of
`Clogx.Formatter.Append`.

The time text (`format_sec_cached` into `time_buf`) and `snprintf` of a `double`
with `"%.6g"` are arguments.  `parse_traceparent` returns at once, as it does when
`TRACEPARENT` is not set.
-/

import Clogx.Formatter.Append

namespace Clogx
namespace Formatter

open CLib
open Trace (TraceId SpanId)

/-- The value of a key-value pair, by `clog_kv_type_t`. -/
inductive KvVal (φ : Type*)
  | int (i64 : ℤ)
  | uint (u64 : ℕ)
  | float (f64 : φ)
  | str (str : Option CString)
  | bool (b : Bool)

/-- `clog_kv_t`. -/
structure Kv (φ : Type*) where
  key : Option CString
  val : KvVal φ

/-- `log_record_t`, as far as the renderers read it; `kv` holds the first `kv_count` pairs. -/
structure Record (φ : Type*) where
  timestamp : ℕ
  file : Option CString
  func : Option CString
  module : Option CString
  tag : Option CString
  message : Option CString
  level : ℕ
  tid : ℕ
  pid : ℕ
  line : ℤ
  traceId : TraceId
  spanId : SpanId
  kv : List (Kv φ)

/-- `s ? s : ""`. -/
def orEmpty : Option CString → Text
  | none => []
  | some s => s.val

/-- `level_to_string`. -/
def levelToString : ℕ → Text
  | 0 => str "TRACE"
  | 1 => str "DEBUG"
  | 2 => str "INFO"
  | 3 => str "WARN"
  | 4 => str "ERROR"
  | 5 => str "FATAL"
  | _ => str "UNKNOWN"

/-- `otel_severity_number`. -/
def otelSeverityNumber : ℕ → ℤ
  | 0 => 1
  | 1 => 5
  | 2 => 9
  | 3 => 13
  | 4 => 17
  | 5 => 21
  | _ => 0

variable {φ : Type*} (snprintf6g : φ → Text)

/-- `append_json_kv`. -/
def appendJsonKv (kv : Kv φ) : StateM Out ℤ :=
  match kv.key with
  | none => pure 0
  | some key =>
    check (appendBufStr (str ",\"")) fail <|
    check (appendJsonEscapedString key) (pure 1) <|
    check (appendBufStr (str "\":")) fail <|
    match kv.val with
    | .int i64 => appendBufI64 i64
    | .uint u64 => appendBufU64 u64
    | .float f64 => appendBufStr (snprintf6g f64)
    | .str s =>
      check (appendBufStr (str "\"")) fail <|
      check (appendJsonEscapedString (orEmpty s)) (pure 1) <|
      appendBufStr (str "\"")
    | .bool b => appendBufStr (str (if b then "true" else "false"))

/-- The loop over the pairs, and what comes behind it. -/
def appendKvs (suffix : Text) (rest : StateM Out ℤ) : List (Kv φ) → StateM Out ℤ
  | [] => rest
  | kv :: kvs => fun o =>
    let r := appendJsonKv snprintf6g kv o
    if r.1 = 1 then jsonCloseObject suffix r.2
    else if r.1 ≠ 0 then (-1, r.2)
    else appendKvs suffix rest kvs r.2

/-- `if (cond) { part }`, and the rest of the function. -/
def optional (cond : Bool) (part : StateM Out ℤ → StateM Out ℤ) (rest : StateM Out ℤ) :
    StateM Out ℤ :=
  if cond then part rest else rest

/-- `format_json_ex` into the buffer `buf`: what it returns, and the buffer afterwards. -/
def formatJsonEx (timeBuf : Text) (record : Record φ) (buf : Text) : ℤ × Out :=
  let usec := record.timestamp % 1000000
  let closed := jsonCloseObject (str "\"\x7d")
  let run : StateM Out ℤ :=
    check (appendBufStr (str "\x7b\"timestamp\":\"")) fail <|
    check (appendBufStr timeBuf) fail <|
    check (appendBufStr (str ".")) fail <|
    check (appendBufU32Pad6 usec) fail <|
    check (appendBufStr (str "\",\"level\":\"")) fail <|
    check (appendBufStr (levelToString record.level)) fail <|
    check (appendBufStr (str "\",\"module\":\"")) fail <|
    check (appendJsonEscapedString (orEmpty record.module)) closed <|
    check (appendBufStr (str "\",\"file\":\"")) fail <|
    check (appendJsonEscapedString (orEmpty record.file)) closed <|
    check (appendBufStr (str "\",\"line\":")) fail <|
    check (appendBufI32 record.line) fail <|
    check (appendBufStr (str ",\"func\":\"")) fail <|
    check (appendJsonEscapedString (orEmpty record.func)) closed <|
    check (appendBufStr (str "\",\"thread\":")) fail <|
    check (appendBufU32 record.tid) fail <|
    check (appendBufStr (str ",\"pid\":")) fail <|
    check (appendBufU32 record.pid) fail <|
    check (appendBufStr (str ",\"tag\":\"")) fail <|
    check (appendJsonEscapedString (orEmpty record.tag)) closed <|
    optional (record.traceId ≠ 0) (fun rest =>
      check (appendBufStr (str "\",\"trace_id\":\"")) fail <|
      check (appendBufStr (Trace.hexBytes record.traceId)) fail rest) <|
    optional (record.spanId ≠ 0) (fun rest =>
      check (appendBufStr (str "\",\"span_id\":\"")) fail <|
      check (appendBufStr (Trace.hexBytes record.spanId)) fail rest) <|
    check (appendBufStr (str "\",\"message\":\"")) fail <|
    check (appendJsonEscapedString (orEmpty record.message)) closed <|
    check (appendBufStr (str "\"")) fail <|
    appendKvs snprintf6g (str "\"\x7d")
      (check (appendBufStr (str "\x7d")) fail finish) record.kv
  run ⟨[], buf⟩

/-- `format_otel_json` into the buffer `buf`: what it returns, and the buffer afterwards. -/
def formatOtelJson (timeBuf : Text) (record : Record φ) (buf : Text) : ℤ × Out :=
  let usec := record.timestamp % 1000000
  let closed := jsonCloseObject (str "\"\x7d\x7d")
  let run : StateM Out ℤ :=
    check (appendBufStr (str "\x7b\"timestamp\":\"")) fail <|
    check (appendBufStr timeBuf) fail <|
    check (appendBufStr (str ".")) fail <|
    check (appendBufU32Pad6 usec) fail <|
    check (appendBufStr (str "\",\"severity\":\"")) fail <|
    check (appendBufStr (levelToString record.level)) fail <|
    check (appendBufStr (str "\",\"severity_number\":")) fail <|
    check (appendBufI32 (otelSeverityNumber record.level)) fail <|
    optional (record.traceId ≠ 0) (fun rest =>
      check (appendBufStr (str ",\"trace_id\":\"")) fail <|
      check (appendBufStr (Trace.hexBytes record.traceId)) fail <|
      check (appendBufStr (str "\"")) fail rest) <|
    optional (record.spanId ≠ 0) (fun rest =>
      check (appendBufStr (str ",\"span_id\":\"")) fail <|
      check (appendBufStr (Trace.hexBytes record.spanId)) fail <|
      check (appendBufStr (str "\"")) fail rest) <|
    check (appendBufStr (str ",\"body\":\"")) fail <|
    check (appendJsonEscapedString (orEmpty record.message))
      (jsonCloseObject (str "\"\x7d")) <|
    check (appendBufStr (str "\"")) fail <|
    check (appendBufStr (str ",\"attributes\":\x7b")) fail <|
    check (appendBufStr (str "\"module\":\"")) fail <|
    check (appendJsonEscapedString (orEmpty record.module)) closed <|
    check (appendBufStr (str "\",\"file\":\"")) fail <|
    check (appendJsonEscapedString (orEmpty record.file)) closed <|
    check (appendBufStr (str "\",\"line\":")) fail <|
    check (appendBufI32 record.line) fail <|
    check (appendBufStr (str ",\"func\":\"")) fail <|
    check (appendJsonEscapedString (orEmpty record.func)) closed <|
    check (appendBufStr (str "\",\"thread\":")) fail <|
    check (appendBufU32 record.tid) fail <|
    check (appendBufStr (str ",\"pid\":")) fail <|
    check (appendBufU32 record.pid) fail <|
    check (appendBufStr (str ",\"tag\":\"")) fail <|
    check (appendJsonEscapedString (orEmpty record.tag)) closed <|
    check (appendBufStr (str "\"")) fail <|
    appendKvs snprintf6g (str "\"\x7d\x7d")
      (check (appendBufStr (str "\x7d\x7d")) fail finish) record.kv
  run ⟨[], buf⟩

end Formatter
end Clogx
