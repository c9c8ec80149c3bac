/-
# A line as a list of members

A line is a fixed head, a string, and members `,"name":value` up to the closing
braces.  Names are fixed, or given by the caller and escaped; values are texts
that are written whole, or strings.  Both formats have this shape
(`render_jsonPieces`, `render_otelPieces`), with one brace at the end or two.
-/

import Clogx.Formatter.Pieces

namespace Clogx
namespace Formatter

open CLib

/-- The name of a member: a text of the format, or a string of the caller. -/
inductive FieldKey
  | fixed (t : Text)
  | given (s : Text)

/-- The value of a member: a text that is not cut, or a string. -/
inductive FieldVal
  | raw (t : Text)
  | str (s : Text)

structure Field where
  key : FieldKey
  val : FieldVal

/-- The braces at the end of a line. -/
def closers (d : ℕ) : Text := List.replicate d 125

/-- What closes a string that was cut. -/
def suffix (d : ℕ) : Text := 34 :: closers d

def FieldKey.text : FieldKey → Text
  | .fixed t => t
  | .given s => escapeText s

def FieldVal.text : FieldVal → Text
  | .raw t => t
  | .str s => 34 :: (escapeText s ++ [34])

/-- The member in full, with its comma. -/
def Field.text (f : Field) : Text := 44 :: 34 :: (f.key.text ++ 34 :: 58 :: f.val.text)

def textOf (fs : List Field) : Text := fs.flatMap Field.text

def FieldKey.piece (d : ℕ) : FieldKey → Piece
  | .fixed t => .text t
  | .given s => .escaped s (suffix d)

def FieldVal.pieces (d : ℕ) : FieldVal → List Piece
  | .raw t => [.text t]
  | .str s => [.text [34], .escaped s (suffix d), .text [34]]

def Field.pieces (d : ℕ) (f : Field) : List Piece :=
  .text [44, 34] :: f.key.piece d :: .text [34, 58] :: f.val.pieces d

/-- The members `fs` and the end of the line, in room `r`. -/
def renderFields (d : ℕ) (fs : List Field) : ℕ → Option Text :=
  render (fs.flatMap (Field.pieces d) ++ [.text (closers d)])

/-- The string `s` behind its opening quote, the members `fs` and the end of the line. -/
def renderStr (d : ℕ) (s : Text) (fs : List Field) : ℕ → Option Text :=
  (Piece.escaped s (suffix d)).render ((Piece.text [34]).render (renderFields d fs))

theorem renderFields_append (d : ℕ) (fs gs : List Field) :
    renderFields d (fs ++ gs) = (fs.flatMap (Field.pieces d)).foldr Piece.render (renderFields d gs) := by
  rw [renderFields, List.flatMap_append, List.append_assoc, render_append]
  rfl

/-- Rendering consumes one field at a time. -/
theorem renderFields_cons (d : ℕ) (f : Field) (fs : List Field) :
    renderFields d (f :: fs) = (Piece.text [44, 34]).render ((f.key.piece d).render
      ((Piece.text [34, 58]).render ((f.val.pieces d).foldr Piece.render (renderFields d fs)))) := by
  rw [← List.singleton_append, renderFields_append]
  simp [Field.pieces]

/-! ### The two formats -/

section Formats

variable {φ : Type*} (snprintf6g : φ → Text)

def KvVal.field : KvVal φ → FieldVal
  | .str s => .str (orEmpty s)
  | v => .raw (v.raw snprintf6g)

/-- The member of a pair, if it has a key. -/
def Kv.field (kv : Kv φ) : Option Field :=
  kv.key.map fun key : CString => ⟨.given key, kv.val.field snprintf6g⟩

/-- The members `file` to `tag`. -/
def sourceFields (record : Record φ) : List Field :=
  [⟨.fixed (str "file"), .str (orEmpty record.file)⟩,
    ⟨.fixed (str "line"), .raw (clogI32toa record.line)⟩,
    ⟨.fixed (str "func"), .str (orEmpty record.func)⟩,
    ⟨.fixed (str "thread"), .raw (clogU32toa record.tid)⟩,
    ⟨.fixed (str "pid"), .raw (clogU32toa record.pid)⟩,
    ⟨.fixed (str "tag"), .str (orEmpty record.tag)⟩]

/-- A text between quotes. -/
def quoted (t : Text) : Text := 34 :: (t ++ [34])

/-- The members `trace_id` and `span_id`. -/
def traceFields (record : Record φ) : List Field :=
  (if record.traceId ≠ 0 then
    [⟨.fixed (str "trace_id"), .raw (quoted (Trace.hexBytes record.traceId))⟩] else []) ++
  if record.spanId ≠ 0 then
    [⟨.fixed (str "span_id"), .raw (quoted (Trace.hexBytes record.spanId))⟩] else []

/-- The members of the pairs. -/
def kvFields (record : Record φ) : List Field := record.kv.filterMap (Kv.field snprintf6g)

/-- The members of a line of `format_json_ex` behind `module`. -/
def jsonFields (record : Record φ) : List Field :=
  sourceFields record ++ (traceFields record ++
    ⟨.fixed (str "message"), .str (orEmpty record.message)⟩ :: kvFields snprintf6g record)

/-- The attributes of a line of `format_otel_json` behind `module`. -/
def otelFields (record : Record φ) : List Field :=
  sourceFields record ++ kvFields snprintf6g record

/-- The time with microseconds. -/
def timeText (timeBuf : Text) (record : Record φ) : Text :=
  timeBuf ++ 46 :: clogU32toaPad6 (record.timestamp % 1000000)

/-- A line of `format_json_ex` up to the text of `module`. -/
def jsonHead (timeBuf : Text) (record : Record φ) : Text :=
  str "\x7b\"timestamp\":\"" ++ timeText timeBuf record ++
    str "\",\"level\":\"" ++ levelToString record.level ++ str "\",\"module\":\""

/-- A line of `format_otel_json` up to the text of `body`. -/
def otelHead (timeBuf : Text) (record : Record φ) : Text :=
  str "\x7b\"timestamp\":\"" ++ timeText timeBuf record ++
    str "\",\"severity\":\"" ++ levelToString record.level ++
    str "\",\"severity_number\":" ++ clogI32toa (otelSeverityNumber record.level) ++
    textOf (traceFields record) ++ str ",\"body\":\""

theorem flatMap_pieces (d : ℕ) (kvs : List (Kv φ)) :
    kvs.flatMap (Kv.pieces snprintf6g (suffix d)) =
      (kvs.filterMap (Kv.field snprintf6g)).flatMap (Field.pieces d) := by
  induction kvs with
  | nil => rfl
  | cons kv kvs ih =>
    obtain ⟨key, val⟩ := kv
    cases key with
    | none => exact ih
    | some key =>
      rw [List.flatMap_cons, ih]
      cases val <;> rfl

/-- The pairs and the end of the line. -/
theorem render_kvPieces (d : ℕ) (record : Record φ) :
    render (kvPieces snprintf6g (suffix d) (closers d) record) =
      renderFields d (kvFields snprintf6g record) := by
  rw [kvPieces, flatMap_pieces]
  rfl

/-- From the text of `module` on. -/
theorem render_sourcePieces (d : ℕ) (record : Record φ) (fs : List Field) :
    (sourcePieces (suffix d) record).foldr Piece.render ((Piece.text [34]).render (renderFields d fs)) =
      renderStr d (orEmpty record.module) (sourceFields record ++ fs) := by
  rw [renderStr, renderFields_append]
  simp only [sourcePieces, sourceFields, List.flatMap_cons, List.flatMap_nil, List.append_nil,
    Field.pieces, FieldKey.piece, FieldVal.pieces, List.foldr_cons, List.foldr_nil,
    List.foldr_append, ← Piece.render_text_append]
  rfl

/-- A quoted text whose closing quote comes with the next member. -/
theorem render_quoted (d : ℕ) (n t : Text) (fs : List Field) :
    (Piece.text (34 :: 44 :: 34 :: (n ++ [34, 58, 34]))).render ((Piece.text t).render
      ((Piece.text [34]).render (renderFields d fs))) =
    (Piece.text [34]).render (renderFields d (⟨.fixed n, .raw (quoted t)⟩ :: fs)) := by
  simp only [renderFields_cons, FieldKey.piece, FieldVal.pieces, quoted, List.foldr_cons,
    List.foldr_nil, ← Piece.render_text_append]
  simp

/-- The same for a text that is written on a condition. -/
theorem render_optional (d : ℕ) (n t : Text) (fs : List Field) (p : Prop) [Decidable p] :
    (if p then [Piece.text (34 :: 44 :: 34 :: (n ++ [34, 58, 34])), .text t] else []).foldr
      Piece.render ((Piece.text [34]).render (renderFields d fs)) =
    (Piece.text [34]).render
      (renderFields d ((if p then [⟨.fixed n, .raw (quoted t)⟩] else []) ++ fs)) := by
  split_ifs
  · exact render_quoted d n t fs
  · rfl

/-- The `json` pieces are a head and a list of fields. -/
theorem render_jsonPieces (timeBuf : Text) (record : Record φ) :
    render (jsonPieces snprintf6g timeBuf record) =
      (Piece.text (jsonHead timeBuf record)).render
        (renderStr 1 (orEmpty record.module) (jsonFields snprintf6g record)) := by
  have hmessage : (Piece.text (str "\",\"message\":\"")).render
      ((Piece.escaped (orEmpty record.message) (suffix 1)).render ((Piece.text [34]).render
        (renderFields 1 (kvFields snprintf6g record)))) =
      (Piece.text [34]).render (renderFields 1
        (⟨.fixed (str "message"), .str (orEmpty record.message)⟩ ::
          kvFields snprintf6g record)) := by
    simp only [renderFields_cons, FieldKey.piece, FieldVal.pieces, List.foldr_cons,
      List.foldr_nil, ← Piece.render_text_append]
    rfl
  have hid : str "\",\"trace_id\":\"" = 34 :: 44 :: 34 :: (str "trace_id" ++ [34, 58, 34]) := rfl
  have hspan : str "\",\"span_id\":\"" = 34 :: 44 :: 34 :: (str "span_id" ++ [34, 58, 34]) := rfl
  simp only [jsonPieces, List.flatten_cons, List.flatten_nil, List.append_nil, render_append,
    List.foldr_cons, List.foldr_nil]
  rw [show str "\"\x7d" = suffix 1 from rfl, show str "\x7d" = closers 1 from rfl, render_kvPieces,
    show str "\"" = [34] from rfl, hmessage, hspan, render_optional, hid, render_optional,
    ← List.append_assoc, ← traceFields, render_sourcePieces]
  simp only [← Piece.render_text_append]
  simp [jsonHead, timeText, jsonFields, str]

/-- The `otel` pieces are a head, a message and attributes. -/
theorem render_otelPieces (timeBuf : Text) (record : Record φ) :
    render (otelPieces snprintf6g timeBuf record) =
      (Piece.text (otelHead timeBuf record)).render
        ((Piece.escaped (orEmpty record.message) (suffix 1)).render
          ((Piece.text (str "\",\"attributes\":\x7b\"module\":\"")).render
            (renderStr 2 (orEmpty record.module) (otelFields snprintf6g record)))) := by
  have hattributes : (Piece.text (str "\"")).render ((Piece.text (str ",\"attributes\":\x7b")).render
      ((Piece.text (str "\"module\":\"")).render
        (renderStr 2 (orEmpty record.module) (otelFields snprintf6g record)))) =
      (Piece.text (str "\",\"attributes\":\x7b\"module\":\"")).render
        (renderStr 2 (orEmpty record.module) (otelFields snprintf6g record)) := by
    simp only [← Piece.render_text_append]
    rfl
  simp only [otelPieces, List.flatten_cons, List.flatten_nil, List.append_nil, render_append,
    List.foldr_cons, List.foldr_nil]
  rw [show str "\"\x7d\x7d" = suffix 2 from rfl, show str "\x7d\x7d" = closers 2 from rfl,
    render_kvPieces, show (Piece.text (str "\"")).render (renderFields 2 (kvFields snprintf6g record))
      = (Piece.text [34]).render (renderFields 2 (kvFields snprintf6g record)) from rfl,
    render_sourcePieces, ← otelFields, hattributes, show str "\"\x7d" = suffix 1 from rfl]
  generalize (Piece.escaped (orEmpty record.message) (suffix 1)).render _ = k
  unfold otelHead traceFields
  split_ifs <;>
    simp only [← Piece.render_text_append, List.foldr_cons, List.foldr_nil] <;>
    simp [timeText, textOf, Field.text, FieldKey.text, FieldVal.text, quoted, str]

end Formats

end Formatter
end Clogx
