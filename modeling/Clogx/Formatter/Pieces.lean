/-
# A line as a sequence of pieces

Both renderers append texts that must fit whole and strings that may be cut and
closed by a suffix.  A line is the list of these pieces (`jsonPieces`,
`otelPieces`), and a renderer runs the list (`formatJsonEx_eq`,
`formatOtelJson_eq`).  What it writes depends on the room that is left and on
nothing else: `render` gives the text, or nothing where the renderer returns
`-1` (`runPieces_eq`).  Here a text may be split or joined at will
(`Piece.render_text_append`).
-/

import Clogx.Formatter.Json

namespace Clogx
namespace Formatter

open CLib

/-- A text that has to fit, or a string that is closed by `suffix` when it is cut. -/
inductive Piece
  | text (t : Text)
  | escaped (s suffix : Text)

/-- The piece is appended before the rest of the function. -/
def Piece.before : Piece → StateM Out ℤ → StateM Out ℤ
  | .text t, rest => check (appendBufStr t) fail rest
  | .escaped s suffix, rest => check (appendJsonEscapedString s) (jsonCloseObject suffix) rest

/-- The pieces are appended, and the function returns. -/
def runPieces (ps : List Piece) : StateM Out ℤ := ps.foldr Piece.before finish

theorem runPieces_text (t : Text) (ps : List Piece) :
    runPieces (.text t :: ps) = check (appendBufStr t) fail (runPieces ps) := rfl

theorem runPieces_escaped (s suffix : Text) (ps : List Piece) :
    runPieces (.escaped s suffix :: ps) =
      check (appendJsonEscapedString s) (jsonCloseObject suffix) (runPieces ps) := rfl

/-- Pieces run one after the other. -/
theorem runPieces_append (ps qs : List Piece) :
    runPieces (ps ++ qs) = ps.foldr Piece.before (runPieces qs) :=
  List.foldr_append

/-! ### The pieces of the two formats -/

section Formats

variable {φ : Type*} (snprintf6g : φ → Text)

/-- The text of a value that is not a string. -/
def KvVal.raw : KvVal φ → Text
  | .int i64 => clogI64toa i64
  | .uint u64 => clogU64toa u64
  | .float f64 => snprintf6g f64
  | .bool b => CLib.str (if b then "true" else "false")
  | .str _ => []

def KvVal.pieces (suffix : Text) : KvVal φ → List Piece
  | .str s => [.text (CLib.str "\""), .escaped (orEmpty s) suffix, .text (CLib.str "\"")]
  | v => [.text (v.raw snprintf6g)]

def Kv.pieces (suffix : Text) (kv : Kv φ) : List Piece :=
  match kv.key with
  | none => []
  | some key => .text (str ",\"") :: .escaped key suffix :: .text (str "\":") ::
      kv.val.pieces snprintf6g suffix

/-- From the text of `module` to the text of `tag`, as in both formats. -/
def sourcePieces (closed : Text) (record : Record φ) : List Piece :=
  [.escaped (orEmpty record.module) closed,
    .text (str "\",\"file\":\""), .escaped (orEmpty record.file) closed,
    .text (str "\",\"line\":"), .text (clogI32toa record.line),
    .text (str ",\"func\":\""), .escaped (orEmpty record.func) closed,
    .text (str "\",\"thread\":"), .text (clogU32toa record.tid),
    .text (str ",\"pid\":"), .text (clogU32toa record.pid),
    .text (str ",\"tag\":\""), .escaped (orEmpty record.tag) closed]

/-- The pairs, and the end of the line. -/
def kvPieces (closed closers : Text) (record : Record φ) : List Piece :=
  record.kv.flatMap (Kv.pieces snprintf6g closed) ++ [.text closers]

/-- The pieces of a line of `format_json_ex`. -/
def jsonPieces (timeBuf : Text) (record : Record φ) : List Piece := List.flatten [
  [.text (str "\x7b\"timestamp\":\""), .text timeBuf, .text (str "."),
    .text (clogU32toaPad6 (record.timestamp % 1000000)),
    .text (str "\",\"level\":\""), .text (levelToString record.level),
    .text (str "\",\"module\":\"")],
  sourcePieces (str "\"\x7d") record,
  if record.traceId ≠ 0 then
    [.text (str "\",\"trace_id\":\""), .text (Trace.hexBytes record.traceId)] else [],
  if record.spanId ≠ 0 then
    [.text (str "\",\"span_id\":\""), .text (Trace.hexBytes record.spanId)] else [],
  [.text (str "\",\"message\":\""), .escaped (orEmpty record.message) (str "\"\x7d"),
    .text (str "\"")],
  kvPieces snprintf6g (str "\"\x7d") (str "\x7d") record]

/-- The pieces of a line of `format_otel_json`. -/
def otelPieces (timeBuf : Text) (record : Record φ) : List Piece := List.flatten [
  [.text (str "\x7b\"timestamp\":\""), .text timeBuf, .text (str "."),
    .text (clogU32toaPad6 (record.timestamp % 1000000)),
    .text (str "\",\"severity\":\""), .text (levelToString record.level),
    .text (str "\",\"severity_number\":"),
    .text (clogI32toa (otelSeverityNumber record.level))],
  if record.traceId ≠ 0 then
    [.text (str ",\"trace_id\":\""), .text (Trace.hexBytes record.traceId), .text (str "\"")]
    else [],
  if record.spanId ≠ 0 then
    [.text (str ",\"span_id\":\""), .text (Trace.hexBytes record.spanId), .text (str "\"")]
    else [],
  [.text (str ",\"body\":\""), .escaped (orEmpty record.message) (str "\"\x7d"),
    .text (str "\""), .text (str ",\"attributes\":\x7b"), .text (str "\"module\":\"")],
  sourcePieces (str "\"\x7d\x7d") record, [.text (str "\"")],
  kvPieces snprintf6g (str "\"\x7d\x7d") (str "\x7d\x7d") record]

/-- What the loop over the pairs makes of the return value of `append_json_kv`. -/
def afterKv (suffix : Text) (call rest : StateM Out ℤ) : StateM Out ℤ := fun o =>
  let r := call o
  if r.1 = 1 then jsonCloseObject suffix r.2 else if r.1 ≠ 0 then (-1, r.2) else rest r.2

theorem appendBufStr_ret (t : Text) (o : Out) :
    (appendBufStr t o).1 = 0 ∨ (appendBufStr t o).1 = -1 := by
  unfold appendBufStr
  split_ifs <;> simp

theorem afterKv_text (suffix t : Text) (call rest : StateM Out ℤ) :
    afterKv suffix (check (appendBufStr t) fail call) rest =
      check (appendBufStr t) fail (afterKv suffix call rest) := by
  funext o
  rcases appendBufStr_ret t o with h | h <;> simp [afterKv, check, fail, h]

theorem afterKv_escaped (suffix s : Text) (call rest : StateM Out ℤ) :
    afterKv suffix (check (appendJsonEscapedString s) (pure 1) call) rest =
      check (appendJsonEscapedString s) (jsonCloseObject suffix) (afterKv suffix call rest) := by
  funext o
  have hone (o : Out) : (pure 1 : StateM Out ℤ) o = (1, o) := rfl
  by_cases h : (appendJsonEscapedString s o).1 = 0 <;> simp [afterKv, check, hone, h]

theorem afterKv_last (suffix t : Text) (rest : StateM Out ℤ) :
    afterKv suffix (appendBufStr t) rest = check (appendBufStr t) fail rest := by
  funext o
  rcases appendBufStr_ret t o with h | h <;> simp [afterKv, check, fail, h]

theorem afterKv_appendJsonKv (suffix : Text) (kv : Kv φ) (rest : StateM Out ℤ) :
    afterKv suffix (appendJsonKv snprintf6g kv) rest =
      (kv.pieces snprintf6g suffix).foldr Piece.before rest := by
  obtain ⟨key, val⟩ := kv
  cases key with
  | none => rfl
  | some key =>
    simp only [appendJsonKv, Kv.pieces, List.foldr_cons, afterKv_text, afterKv_escaped,
      Piece.before]
    cases val with
    | int | uint | float | bool =>
      simp only [appendBufI64, appendBufU64, KvVal.pieces, KvVal.raw, List.foldr_cons,
        List.foldr_nil, Piece.before, afterKv_last]
    | str s =>
      simp only [afterKv_text, afterKv_escaped, afterKv_last, KvVal.pieces, List.foldr_cons,
        List.foldr_nil, Piece.before]

/-- The loop over the pairs runs their pieces in order. -/
theorem appendKvs_eq (suffix : Text) (ps : List Piece) (kvs : List (Kv φ)) :
    appendKvs snprintf6g suffix (runPieces ps) kvs =
      runPieces (kvs.flatMap (Kv.pieces snprintf6g suffix) ++ ps) := by
  induction kvs with
  | nil => rfl
  | cons kv kvs ih =>
    have h := afterKv_appendJsonKv snprintf6g suffix kv
      (appendKvs snprintf6g suffix (runPieces ps) kvs)
    rw [ih] at h
    rw [List.flatMap_cons, List.append_assoc, runPieces_append, ← h, ← ih]
    rfl

theorem runPieces_optional (cond : Prop) [Decidable cond] (ps qs : List Piece) :
    runPieces ((if cond then ps else []) ++ qs) =
      optional cond (fun rest => ps.foldr Piece.before rest) (runPieces qs) := by
  by_cases hc : cond <;> simp [optional, hc, runPieces_append]

/-- **`format_json_ex` appends the pieces of its line.** -/
theorem formatJsonEx_eq (timeBuf : Text) (record : Record φ) (buf : Text) :
    formatJsonEx snprintf6g timeBuf record buf =
      runPieces (jsonPieces snprintf6g timeBuf record) ⟨[], buf⟩ := by
  simp only [jsonPieces, sourcePieces, kvPieces, List.flatten_cons, List.flatten_nil,
    List.append_nil, List.cons_append, List.nil_append, runPieces_text, runPieces_escaped,
    runPieces_optional, ← appendKvs_eq, List.foldr_cons, List.foldr_nil, Piece.before]
  rfl

/-- **`format_otel_json` appends the pieces of its line.** -/
theorem formatOtelJson_eq (timeBuf : Text) (record : Record φ) (buf : Text) :
    formatOtelJson snprintf6g timeBuf record buf =
      runPieces (otelPieces snprintf6g timeBuf record) ⟨[], buf⟩ := by
  simp only [otelPieces, sourcePieces, kvPieces, List.flatten_cons, List.flatten_nil,
    List.append_nil, List.cons_append, List.nil_append, runPieces_text, runPieces_escaped,
    runPieces_optional, ← appendKvs_eq, List.foldr_cons, List.foldr_nil, Piece.before]
  rfl

end Formats

/-! ### What is written -/

/-- A string with its characters escaped. -/
def escapeText (s : Text) : Text := s.flatMap jsonEscape

/-- What `append_json_escaped_string` leaves unread of a string in room `r`, and what it writes. -/
def escapeCut : Text → ℕ → Text × Text
  | [], _ => ([], [])
  | c :: s, r =>
    if r ≤ 1 then (c :: s, [])
    else if r ≤ (jsonEscape c).length then (s, [])
    else
      let p := escapeCut s (r - (jsonEscape c).length)
      (p.1, jsonEscape c ++ p.2)

/-- The text of a line from a piece on, in room `r`; `none` where the renderer returns `-1`. -/
def Piece.render : Piece → (ℕ → Option Text) → ℕ → Option Text
  | .text t, rest, r => if r ≤ t.length then none else (rest (r - t.length)).map (t ++ ·)
  | .escaped s suffix, rest, r =>
    let p := escapeCut s r
    if p.1 = [] then (rest (r - p.2.length)).map (p.2 ++ ·)
    else if r - p.2.length < suffix.length + 1 then none
    else some (p.2 ++ suffix)

/-- The text of a line, in room `r`. -/
def render (ps : List Piece) : ℕ → Option Text := ps.foldr Piece.render fun _ => some []

theorem Out.put_put (o : Out) (a b : Text) : (o.put a).put b = o.put (a ++ b) := by
  simp [put, List.drop_drop]

theorem Out.remaining_put (o : Out) (t : Text) :
    (o.put t).remaining = o.remaining - t.length := by
  simp [put, remaining]

/-- The escaping loop writes what `escapeCut` cuts. -/
theorem escapeLoop_eq (s : Text) (o : Out) :
    escapeLoop s o = ((escapeCut s o.remaining).1, o.put (escapeCut s o.remaining).2) := by
  induction s generalizing o with
  | nil => simp [escapeLoop, escapeCut, Out.put]
  | cons c s ih =>
    rw [escapeLoop, escapeCut]
    split_ifs
    · simp [Out.put]
    · simp [Out.put]
    · rw [ih, Out.remaining_put, Out.put_put]

/-- What a renderer does from a place on when the rest of the line is `t`. -/
def Wrote (o : Out) (result : ℤ × Out) : Option Text → Prop
  | none => result.1 = -1
  | some t => result.1 = toInt (o.done ++ t).length ∧ result.2.done = o.done ++ t

theorem Wrote.behind {o o' : Out} {t : Text} {result : ℤ × Out} {rest : Option Text}
    (hdone : o'.done = o.done ++ t) (h : Wrote o' result rest) :
    Wrote o result (rest.map (t ++ ·)) := by
  cases rest with
  | none => exact h
  | some u =>
    change result.1 = toInt (o.done ++ (t ++ u)).length ∧ result.2.done = o.done ++ (t ++ u)
    rw [← List.append_assoc, ← hdone]
    exact h

section Steps

variable {o : Out} {s t suffix : Text} (ps : List Piece)

theorem runPieces_text_of_le (h : o.remaining ≤ t.length) :
    runPieces (.text t :: ps) o = (-1, o) := by
  simp [runPieces_text, check, appendBufStr, h, fail]

theorem runPieces_text_of_lt (h : t.length < o.remaining) :
    runPieces (.text t :: ps) o = runPieces ps (o.put t).terminate := by
  simp [runPieces_text, check, appendBufStr, Nat.not_le.2 h]

theorem runPieces_escaped_of_read (h : (escapeCut s o.remaining).1 = []) :
    runPieces (.escaped s suffix :: ps) o =
      runPieces ps (o.put (escapeCut s o.remaining).2).terminate := by
  simp [runPieces_escaped, check, appendJsonEscapedString, escapeLoop_eq, h]

theorem runPieces_escaped_of_left (h : (escapeCut s o.remaining).1 ≠ []) :
    runPieces (.escaped s suffix :: ps) o =
      jsonCloseObject suffix (o.put (escapeCut s o.remaining).2).terminate := by
  simp [runPieces_escaped, check, appendJsonEscapedString, escapeLoop_eq, h]

theorem Out.remaining_put_terminate (o : Out) (t : Text) :
    (o.put t).terminate.remaining = o.remaining - t.length :=
  (Out.length_terminate _).trans (o.remaining_put t)

end Steps

/-- **A renderer writes what `render` says.** -/
theorem runPieces_eq (ps : List Piece) (o : Out) :
    Wrote o (runPieces ps o) (render ps o.remaining) := by
  induction ps generalizing o with
  | nil =>
    rw [show render [] o.remaining = some [] from rfl, show runPieces [] o = finish o from rfl]
    simp only [Wrote, finish, List.append_nil, and_self]
  | cons p ps ih =>
    cases p with
    | text t =>
      change Wrote o _ (if o.remaining ≤ t.length then none
        else (render ps (o.remaining - t.length)).map (t ++ ·))
      by_cases h : o.remaining ≤ t.length
      · rw [if_pos h, runPieces_text_of_le ps h]
        rfl
      · rw [if_neg h, runPieces_text_of_lt ps (by omega), ← o.remaining_put_terminate]
        exact (ih _).behind rfl
    | escaped s suffix =>
      change Wrote o _ (if (escapeCut s o.remaining).1 = [] then
          (render ps (o.remaining - (escapeCut s o.remaining).2.length)).map
            ((escapeCut s o.remaining).2 ++ ·)
        else if o.remaining - (escapeCut s o.remaining).2.length < suffix.length + 1 then none
        else some ((escapeCut s o.remaining).2 ++ suffix))
      by_cases hleft : (escapeCut s o.remaining).1 = []
      · rw [if_pos hleft, runPieces_escaped_of_read ps hleft, ← o.remaining_put_terminate]
        exact (ih _).behind rfl
      · rw [if_neg hleft, runPieces_escaped_of_left ps hleft, jsonCloseObject,
          o.remaining_put_terminate]
        set w := (escapeCut s o.remaining).2
        split_ifs with hroom
        · rfl
        · have hdone : (((o.put w).terminate.put suffix).terminate).done =
              o.done ++ (w ++ suffix) := by simp [Out.put]
          exact ⟨by rw [← hdone], hdone⟩

/-! ### Rules for `render` -/

theorem render_cons (p : Piece) (ps : List Piece) : render (p :: ps) = p.render (render ps) := rfl

theorem render_append (ps qs : List Piece) :
    render (ps ++ qs) = ps.foldr Piece.render (render qs) :=
  List.foldr_append

section Render

variable {k : ℕ → Option Text} {r : ℕ}

/-- A text may be split. -/
theorem Piece.render_text_append (a b : Text) (k : ℕ → Option Text) :
    (Piece.text (a ++ b)).render k = (Piece.text a).render ((Piece.text b).render k) := by
  funext r
  simp only [Piece.render, List.length_append]
  split_ifs with hab ha hb
  · rfl
  · rfl
  · omega
  · omega
  · omega
  · rw [Option.map_map, Nat.sub_add_eq]
    congr 1
    funext t
    simp

theorem Piece.render_text_of_le {t : Text} (h : r ≤ t.length) :
    (Piece.text t).render k r = none := if_pos h

theorem Piece.render_text_of_lt {t : Text} (h : t.length < r) :
    (Piece.text t).render k r = (k (r - t.length)).map (t ++ ·) := if_neg (by omega)

theorem length_jsonEscape (c : UInt8) :
    (jsonEscape c).length = 1 ∨ (jsonEscape c).length = 2 ∨ (jsonEscape c).length = 6 := by
  unfold jsonEscape
  split_ifs <;> simp [Trace.hexByte]

theorem escapeText_cons (c : UInt8) (s : Text) :
    escapeText (c :: s) = jsonEscape c ++ escapeText s := rfl

theorem escapeText_append (s t : Text) : escapeText (s ++ t) = escapeText s ++ escapeText t :=
  List.flatMap_append

theorem escapeCut_of_lt {s : Text} (h : (escapeText s).length < r) :
    escapeCut s r = ([], escapeText s) := by
  induction s generalizing r with
  | nil => rfl
  | cons c s ih =>
    rw [escapeText_cons, List.length_append] at h
    have hc := length_jsonEscape c
    rw [escapeCut, if_neg (by omega), if_neg (by omega), ih (by omega)]
    rfl

/-- **Where a string is cut:** before the first character whose escape has no room.  That character
is read, unless there is no room at all. -/
theorem escapeCut_of_le {s : Text} (h0 : 0 < r) (h : r ≤ (escapeText s).length) :
    ∃ a c b, s = a ++ c :: b ∧ (escapeText a).length < r ∧
      r ≤ (escapeText a).length + (jsonEscape c).length ∧
      escapeCut s r = (if r - (escapeText a).length ≤ 1 then c :: b else b, escapeText a) := by
  induction s generalizing r with
  | nil => exact absurd h (by simp [escapeText]; omega)
  | cons c s ih =>
    rw [escapeText_cons, List.length_append] at h
    have hc := length_jsonEscape c
    by_cases hfit : r ≤ (jsonEscape c).length
    · refine ⟨[], c, s, rfl, h0, by simpa [escapeText] using hfit, ?_⟩
      rw [escapeCut, if_pos hfit]
      simp only [escapeText, List.flatMap_nil, List.length_nil, Nat.sub_zero]
      split_ifs <;> rfl
    · obtain ⟨a, c', b, rfl, ha, hr, hcut⟩ := ih (by omega : 0 < r - (jsonEscape c).length)
        (by omega)
      refine ⟨c :: a, c', b, rfl, ?_, ?_, ?_⟩
      · rw [escapeText_cons, List.length_append]
        omega
      · rw [escapeText_cons, List.length_append]
        omega
      · rw [escapeCut, if_neg (by omega), if_neg hfit, hcut, escapeText_cons, List.length_append,
          Nat.sub_add_eq]

theorem Piece.render_escaped_of_lt {s suffix : Text} (h : (escapeText s).length < r) :
    (Piece.escaped s suffix).render k r =
      (k (r - (escapeText s).length)).map (escapeText s ++ ·) := by
  simp [Piece.render, escapeCut_of_lt h]

/-- A string that has no room is closed, or its last character is lost. -/
theorem Piece.render_escaped_of_le {s : Text} (h0 : 0 < r) (h : r ≤ (escapeText s).length)
    (suffix : Text) (k : ℕ → Option Text) :
    ∃ a c b l, s = a ++ c :: b ∧ r = (escapeText a).length + l ∧ 0 < l ∧
      l ≤ (jsonEscape c).length ∧ (Piece.escaped s suffix).render k r =
        if b = [] ∧ 2 ≤ l then (k l).map (escapeText a ++ ·)
        else if l ≤ suffix.length then none else some (escapeText a ++ suffix) := by
  obtain ⟨a, c, b, hs, ha, hr, hcut⟩ := escapeCut_of_le h0 h
  refine ⟨a, c, b, r - (escapeText a).length, hs, by omega, by omega, by omega, ?_⟩
  simp only [Piece.render, hcut]
  by_cases hl : r - (escapeText a).length ≤ 1
  · rw [if_pos hl, if_neg (by simp), if_neg (by omega : ¬ (b = [] ∧ _))]
    simp only [Nat.lt_succ_iff]
  · rw [if_neg hl]
    by_cases hb : b = []
    · rw [if_pos hb, if_pos ⟨hb, by omega⟩]
    · rw [if_neg hb, if_neg fun hc : b = [] ∧ 2 ≤ r - (escapeText a).length => hb hc.1]
      simp only [Nat.lt_succ_iff]

/-- The text of a piece that has room. -/
def Piece.full : Piece → Text
  | .text t => t
  | .escaped s _ => escapeText s

/-- The text of a line that is not cut. -/
def fullText (ps : List Piece) : Text := ps.flatMap Piece.full

/-- **A line that has room is written in full.** -/
theorem render_of_lt {ps : List Piece} (h : (fullText ps).length < r) :
    render ps r = some (fullText ps) := by
  induction ps generalizing r with
  | nil => rfl
  | cons p ps ih =>
    rw [fullText, List.flatMap_cons, List.length_append, ← fullText] at h
    have hrest := ih (r := r - p.full.length) (by omega)
    have hp : p.full.length < r := by omega
    rw [render_cons, fullText, List.flatMap_cons, ← fullText]
    cases p with
    | text t =>
      change render ps (r - t.length) = _ at hrest
      rw [Piece.render_text_of_lt (t := t) hp, hrest]
      rfl
    | escaped s suffix =>
      change render ps (r - (escapeText s).length) = _ at hrest
      rw [Piece.render_escaped_of_lt (s := s) hp, hrest]
      rfl

/-- A line leaves room for its terminator. -/
theorem length_lt_of_render {ps : List Piece} {t : Text} (h0 : 0 < r) (h : render ps r = some t) :
    t.length < r := by
  induction ps generalizing r t with
  | nil =>
    cases h
    exact h0
  | cons p ps ih =>
    -- what comes behind a text of `n` bytes
    have hbehind {w : Text} (hw : w.length < r)
        (h : (render ps (r - w.length)).map (w ++ ·) = some t) : t.length < r := by
      obtain ⟨u, hu, rfl⟩ := Option.map_eq_some_iff.1 h
      have := ih (by omega) hu
      rw [List.length_append]
      omega
    rw [render_cons] at h
    cases p with
    | text w =>
      rcases Nat.lt_or_ge w.length r with hw | hw
      · exact hbehind hw (Piece.render_text_of_lt hw ▸ h)
      · rw [Piece.render_text_of_le hw] at h
        cases h
    | escaped s suffix =>
      rcases Nat.lt_or_ge (escapeText s).length r with hs | hs
      · exact hbehind hs (Piece.render_escaped_of_lt hs ▸ h)
      · obtain ⟨a, c, b, l, -, rfl, hl, -, hrender⟩ :=
          Piece.render_escaped_of_le h0 hs suffix (render ps)
        rw [hrender] at h
        split_ifs at h with hb hroom
        · exact hbehind (w := escapeText a) (by omega) (by rwa [Nat.add_sub_cancel_left])
        · cases h
          rw [List.length_append]
          omega

/-- The terminator keeps its place behind what was written. -/
theorem length_escapeCut_lt (s : Text) (h0 : 0 < r) : (escapeCut s r).2.length < r := by
  rcases Nat.lt_or_ge (escapeText s).length r with hs | hs
  · rw [escapeCut_of_lt hs]
    exact hs
  · obtain ⟨a, c, b, -, ha, -, hcut⟩ := escapeCut_of_le h0 hs
    rw [hcut]
    exact ha

end Render

theorem Out.head_terminate {o : Out} (h : 0 < o.remaining) :
    o.terminate.rest.head? = some 0 := by
  obtain ⟨done, rest⟩ := o
  cases rest with
  | nil => exact absurd h (Nat.lt_irrefl 0)
  | cons => rfl

/-- **A line is terminated.** -/
theorem runPieces_terminated {ps : List Piece} {o : Out} {t : Text} (h0 : 0 < o.remaining)
    (hps : ps ≠ [] ∨ o.rest.head? = some 0) (h : render ps o.remaining = some t) :
    (runPieces ps o).2.rest.head? = some 0 := by
  induction ps generalizing o t with
  | nil => exact hps.resolve_left fun hne => hne rfl
  | cons p ps ih =>
    -- a text was appended, and the rest of the line has room
    have hnext {w : Text} (hw : w.length < o.remaining)
        (h : (render ps (o.remaining - w.length)).map (w ++ ·) = some t) :
        (runPieces ps (o.put w).terminate).2.rest.head? = some 0 := by
      obtain ⟨u, hu, -⟩ := Option.map_eq_some_iff.1 h
      rw [← o.remaining_put_terminate] at hu
      refine ih ?_ (.inr (Out.head_terminate ?_)) hu
      · rw [o.remaining_put_terminate]
        omega
      · rw [o.remaining_put]
        omega
    rw [render_cons] at h
    cases p with
    | text w =>
      rcases Nat.lt_or_ge w.length o.remaining with hw | hw
      · rw [runPieces_text_of_lt ps hw]
        exact hnext hw (Piece.render_text_of_lt hw ▸ h)
      · rw [Piece.render_text_of_le hw] at h
        cases h
    | escaped s suffix =>
      have hlt := length_escapeCut_lt s h0
      rw [Piece.render] at h
      split_ifs at h with hread hroom
      · rw [runPieces_escaped_of_read ps hread]
        exact hnext hlt h
      · rw [runPieces_escaped_of_left ps hread, jsonCloseObject, o.remaining_put_terminate,
          if_neg hroom]
        refine Out.head_terminate ?_
        rw [Out.remaining_put, o.remaining_put_terminate]
        omega

end Formatter
end Clogx
