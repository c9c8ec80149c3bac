/-
# The metrics and the answer to a scrape

`clog_prometheus_render_metrics` of `core/prometheus_exporter.c`, and what
`prometheus_worker_thread` sends to a client: a header with the length of the body,
and the body.

The text is written piece by piece, and the first piece that does not fit ends
the call with `-1`.  What it means is said by readers of the two formats, which know
nothing of the renderer: `readLine` of the exposition format, `readResponse` of the
answer.  Whatever the counters are, the array of the worker holds the whole text and
that of the answer the whole answer (`scrape_faithful`).
-/

import Clogx.CLib.Buffer
import Clogx.CLib.Numeral

namespace Clogx
namespace Prometheus

open CLib

/-! ### The code -/

/-- What the renderer reads: `g_prometheus_level_counts` and the fields of `log_stats_t`. -/
structure Metrics where
  levels : Fin 6 → UInt64
  dropped : UInt64
  suppressed : UInt64
  depth : UInt64

/-- `level_name`. -/
def levelName : ℕ → Text
  | 0 => str "trace"
  | 1 => str "debug"
  | 2 => str "info"
  | 3 => str "warn"
  | 4 => str "error"
  | 5 => str "fatal"
  | _ => str "unknown"

/-- The two lines about a metric. -/
inductive Word
  | help
  | type
deriving DecidableEq

def Word.text : Word → Text
  | .help => str "# HELP "
  | .type => str "# TYPE "

/-- `"# HELP <name> <doc>\n"` and `"# TYPE <name> <kind>\n"`. -/
def commentLine (w : Word) (name text : Text) : Text := w.text ++ (name ++ 32 :: text) ++ [10]

/-- `"<series> %llu\n"`. -/
def sampleLine (series : Text) (n : UInt64) : Text := (series ++ 32 :: decimal n.toNat) ++ [10]

/-- The names of the metrics, and what is said about each. -/
def eventsTotal : Text := str "clogx_log_events_total"

def eventsDoc : Text := str "Total number of log events emitted by level."

def droppedTotal : Text := str "clogx_log_dropped_events_total"

def droppedDoc : Text := str "Total log events dropped due to queue full."

def suppressedTotal : Text := str "clogx_log_suppressed_events_total"

def suppressedDoc : Text := str "Total log events suppressed by rate limiting."

def queueDepth : Text := str "clogx_async_queue_depth"

def queueDepthDoc : Text := str "Current pending records in async worker queue."

def counter : Text := str "counter"

def gauge : Text := str "gauge"

/-- `clogx_log_events_total{level="%s"}`. -/
def levelSeries (i : ℕ) : Text :=
  eventsTotal ++ (str "\x7blevel=\"" ++ (levelName i ++ str "\"\x7d"))

/-- What each `snprintf` of the renderer prints: the head of the events, a line for each level, and
the other metrics. -/
def pieces (m : Metrics) : List Text :=
  [List.flatten [commentLine .help eventsTotal eventsDoc, commentLine .type eventsTotal counter]] ++
  (List.finRange 6).map (fun i : Fin 6 => sampleLine (levelSeries i) (m.levels i)) ++
  [List.flatten [commentLine .help droppedTotal droppedDoc, commentLine .type droppedTotal counter,
    sampleLine droppedTotal m.dropped, commentLine .help suppressedTotal suppressedDoc,
    commentLine .type suppressedTotal counter, sampleLine suppressedTotal m.suppressed,
    commentLine .help queueDepth queueDepthDoc, commentLine .type queueDepth gauge,
    sampleLine queueDepth m.depth]]

/-- The calls of `snprintf` from place `out` on: what is returned, and the array. -/
def renderFrom (bufSize : ℕ) : List Text → Block → ℕ → Option (ℤ × Block)
  | [], buf, out => some (toInt out, buf)
  | piece :: rest, buf, out => do
    let remaining := bufSize - out
    let buf ← store buf out (cut remaining piece ++ [0])
    if piece.length ≤ 0 ∨ remaining ≤ piece.length then return (-1, buf)
    else renderFrom bufSize rest buf (out + piece.length)

/-- `clog_prometheus_render_metrics`. -/
def clogPrometheusRenderMetrics (m : Metrics) (buf : Block) (bufSize : ℕ) : Option (ℤ × Block) :=
  if bufSize = 0 then some (-1, buf) else renderFrom bufSize (pieces m) buf 0

/-- The lines of the header that are always the same. -/
def statusText : Text := str "HTTP/1.1 200 OK"

def typeText : Text := str "Content-Type: text/plain; version=0.0.4; charset=utf-8"

def closeText : Text := str "Connection: close"

/-- `"Content-Length: "`. -/
def lengthName : Text := str "Content-Length: "

/-- `"<text>\r\n"`. -/
def crlf (t : Text) : Text := t ++ [13, 10]

/-- The header of an answer with a body of `n` bytes. -/
def header (n : ℤ) : Text :=
  crlf statusText ++ crlf typeText ++ crlf (lengthName ++ signedDecimal n) ++ crlf closeText ++ crlf []

/-- What `prometheus_worker_thread` sends to a client, `body` and `response` being its arrays. -/
def respond (m : Metrics) (body response : Block) : Option Text := do
  let (len, body) ← clogPrometheusRenderMetrics m body 4096
  let len := if len < 0 then 0 else len
  let text := header len ++ (← strAt body 0)
  let response ← store response 0 (cut 8192 text ++ [0])
  -- `send` reads as many bytes as `snprintf` says
  if text.length ≤ response.length then return response.take text.length else none

/-! ### The readers -/

/-- A line of the exposition format. -/
inductive Line
  | comment (word : Word) (name text : Text)
  | sample (series : Text) (value : ℕ)
deriving DecidableEq

/-- A list up to the first `c`, and what is behind it. -/
def cutAt {α : Type} [DecidableEq α] (c : α) (t : List α) : List α × List α :=
  (t.takeWhile (· ≠ c), (t.dropWhile (· ≠ c)).tail)

def readWord (line : Text) : Option Word :=
  if Word.help.text.isPrefixOf line then some .help
  else if Word.type.text.isPrefixOf line then some .type
  else none

def readLine (line : Text) : Option Line :=
  match readWord line with
  | some w =>
    let r := cutAt 32 (line.drop 7)
    some (.comment w r.1 r.2)
  | none =>
    let r := cutAt 32 line
    if r.2 ≠ [] ∧ r.2.all isDigit then some (.sample r.1 (magnitude r.2)) else none

/-- The lines of a text, each with its newline. -/
def readMetrics (t : Text) : Option (List Line) :=
  if t.getLast? = some 10 then ((t.splitOn 10).dropLast).mapM readLine else none

/-- The value of `Content-Length` in a header line. -/
def contentLength (line : Text) : Option ℕ :=
  if lengthName.isPrefixOf line then
    let v := (line.drop 16).dropLast
    if line.getLast? = some 13 ∧ v ≠ [] ∧ v.all isDigit then some (magnitude v) else none
  else none

/-- The body of an answer, as long as the header says. -/
def readResponse (t : Text) : Option Text :=
  let r := cutAt [13] (t.splitOn 10)
  let body := [10].intercalate r.2
  if r.1.head? = some (statusText ++ [13]) ∧
    r.1.filterMap contentLength = [body.length] then some body else none

/-- What the metrics are to be read as. -/
def Metrics.lines (m : Metrics) : List Line :=
  [Line.comment .help eventsTotal eventsDoc, Line.comment .type eventsTotal counter] ++
  (List.finRange 6).map (fun i : Fin 6 => Line.sample (levelSeries i) (m.levels i).toNat) ++
  [Line.comment .help droppedTotal droppedDoc, Line.comment .type droppedTotal counter,
    Line.sample droppedTotal m.dropped.toNat, Line.comment .help suppressedTotal suppressedDoc,
    Line.comment .type suppressedTotal counter, Line.sample suppressedTotal m.suppressed.toNat,
    Line.comment .help queueDepth queueDepthDoc, Line.comment .type queueDepth gauge,
    Line.sample queueDepth m.depth.toNat]

/-! ### Reading back -/

/-- A line as it is printed. -/
def Line.text : Line → Text
  | .comment w name text => w.text ++ (name ++ 32 :: text)
  | .sample series value => series ++ 32 :: decimal value

/-- Neither a newline nor a terminator is in the text. -/
def Printable (t : Text) : Prop := 10 ∉ t ∧ 0 ∉ t

instance (t : Text) : Decidable (Printable t) := inferInstanceAs (Decidable (_ ∧ _))

theorem Printable.append {t u : Text} (ht : Printable t) (hu : Printable u) : Printable (t ++ u) := by
  simp only [Printable, List.mem_append, not_or]
  exact ⟨⟨ht.1, hu.1⟩, ht.2, hu.2⟩

theorem Printable.cons {c : UInt8} {t : Text} (hten : ¬ 10 = c) (hzero : ¬ 0 = c) (ht : Printable t) :
    Printable (c :: t) := by
  simp only [Printable, List.mem_cons, not_or]
  exact ⟨⟨hten, ht.1⟩, hzero, ht.2⟩

/-- The line can be told from the others, and its parts from each other. -/
def Line.Ok : Line → Prop
  | .comment _ name text => 32 ∉ name ∧ Printable name ∧ Printable text
  | .sample series _ => 32 ∉ series ∧ Printable series ∧ series.head? ≠ none ∧ series.head? ≠ some 35

theorem cutAt_append {α : Type} [DecidableEq α] {c : α} {t rest : List α} (h : c ∉ t) :
    cutAt c (t ++ c :: rest) = (t, rest) := by
  have ht : ∀ x ∈ t, decide (x ≠ c) = true := fun x hx => by
    rw [decide_eq_true_iff]
    rintro rfl
    exact h hx
  rw [cutAt, List.takeWhile_append_of_pos ht, List.dropWhile_append_of_pos ht]
  simp

theorem all_isDigit_decimal (n : ℕ) : (decimal n).all isDigit = true :=
  List.all_eq_true.2 fun _ hc => isDigit_of_mem_decimal hc

theorem Word.text_ok : ∀ w : Word, w.text.length = 7 ∧ Printable w.text
  | .help | .type => by simp [text, str, Printable]

theorem readWord_text (w : Word) (t : Text) : readWord (w.text ++ t) = some w := by
  cases w <;> simp [readWord, Word.text, str]

theorem readWord_of_head {c : UInt8} (hc : ¬ 35 = c) (t : Text) : readWord (c :: t) = none := by
  simp [readWord, Word.text, str, hc]

/-- **A line is read as what was printed.** -/
theorem readLine_text {l : Line} (h : l.Ok) : readLine l.text = some l := by
  rw [readLine]
  cases l with
  | comment w name text =>
    rw [Line.text, readWord_text]
    simp only [List.drop_left' w.text_ok.1, cutAt_append h.1]
  | sample series value =>
    obtain ⟨hspace, -, hne, hhash⟩ := h
    cases series with
    | nil => exact absurd rfl hne
    | cons c series =>
      have hc : ¬ 35 = c := fun heq => hhash (by rw [← heq]; rfl)
      have htext : (Line.sample (c :: series) value).text = c :: series ++ 32 :: decimal value :=
        rfl
      rw [htext, List.cons_append, readWord_of_head hc, ← List.cons_append, cutAt_append hspace]
      simp only [decimal_ne_nil, ne_eq, not_false_eq_true, all_isDigit_decimal, and_self,
        if_true, magnitude_decimal]

theorem printable_decimal (n : ℕ) : Printable (decimal n) := by
  refine ⟨fun h => ?_, fun h => ?_⟩
  · cases isDigit_of_mem_decimal h
  · cases isDigit_of_mem_decimal h

theorem printable_text {l : Line} (h : l.Ok) : Printable l.text := by
  cases l with
  | comment w name text =>
    exact w.text_ok.2.append (h.2.1.append (.cons (by decide) (by decide) h.2.2))
  | sample series value =>
    exact h.2.1.append (.cons (by decide) (by decide) (printable_decimal value))

/-- Texts as lines. -/
def unlines (ls : List Text) : Text := (ls.map (· ++ [10])).flatten

theorem splitOn_unlines {ls : List Text} (h : ∀ l ∈ ls, 10 ∉ l) (t : Text) :
    (unlines ls ++ t).splitOn 10 = ls ++ t.splitOn 10 := by
  induction ls with
  | nil => rfl
  | cons l ls ih =>
    have hsplit : unlines (l :: ls) ++ t = l ++ 10 :: (unlines ls ++ t) := by
      simp [unlines]
    rw [hsplit, List.splitOn_append_cons_self_of_not_mem (h l List.mem_cons_self),
      ih fun l hl => h l (List.mem_cons_of_mem _ hl), List.cons_append]

theorem mapM_readLine {ls : List Line} (h : ∀ l ∈ ls, l.Ok) :
    (ls.map Line.text).mapM readLine = some ls := by
  induction ls with
  | nil => rfl
  | cons l ls ih =>
    rw [List.map_cons, List.mapM_cons, readLine_text (h l List.mem_cons_self),
      ih fun l hl => h l (List.mem_cons_of_mem _ hl)]
    rfl

/-- **Printed lines are read as what they are.** -/
theorem readMetrics_unlines {ls : List Line} (hne : ls ≠ []) (h : ∀ l ∈ ls, l.Ok) :
    readMetrics (unlines (ls.map Line.text)) = some ls := by
  have hlast : (unlines (ls.map Line.text)).getLast? = some 10 := by
    obtain ⟨init, l, rfl⟩ := (List.eq_nil_or_concat ls).resolve_left hne
    simp [unlines]
  have hnewline : ∀ t ∈ ls.map Line.text, 10 ∉ t := by
    intro t ht
    obtain ⟨l, hl, rfl⟩ := List.mem_map.1 ht
    exact (printable_text (h l hl)).1
  have hsplit := splitOn_unlines hnewline []
  rw [List.append_nil] at hsplit
  rw [readMetrics, if_pos hlast, hsplit, List.splitOn_nil, List.dropLast_concat, mapM_readLine h]

/-- The name of a metric or of a series. -/
def IsName (t : Text) : Prop := 32 ∉ t ∧ Printable t ∧ t.head? = some 99 ∧ t.length ≤ 38

instance (t : Text) : Decidable (IsName t) := inferInstanceAs (Decidable (_ ∧ _))

/-- What is said about a metric, and its kind. -/
def IsDoc (t : Text) : Prop := Printable t ∧ t.length ≤ 46

instance (t : Text) : Decidable (IsDoc t) := inferInstanceAs (Decidable (_ ∧ _))

theorem isName_metrics : ∀ t ∈ [eventsTotal, droppedTotal, suppressedTotal, queueDepth],
    IsName t := by
  decide +kernel

theorem isName_levelSeries : ∀ i : Fin 6, IsName (levelSeries i) := by
  decide +kernel

theorem isDoc_docs : ∀ t ∈ [eventsDoc, droppedDoc, suppressedDoc, queueDepthDoc, counter, gauge],
    IsDoc t := by
  decide +kernel

/-- A line of the metrics: it can be read, and it is short. -/
structure Line.Good (l : Line) : Prop where
  ok : l.Ok
  short : l.text.length ≤ 92

theorem Line.good_comment (w : Word) {name text : Text} (hname : IsName name) (htext : IsDoc text) :
    (Line.comment w name text).Good where
  ok := ⟨hname.1, hname.2.1, htext.1⟩
  short := by
    have h := hname.2.2.2
    have h' := htext.2
    have hword := w.text_ok.1
    simp only [Line.text, List.length_append, List.length_cons]
    omega

theorem Line.good_sample {series : Text} (hseries : IsName series) (n : UInt64) :
    (Line.sample series n.toNat).Good where
  ok := by
    refine ⟨hseries.1, hseries.2.1, ?_, ?_⟩
    · rw [hseries.2.2.1]
      exact Option.some_ne_none _
    · rw [hseries.2.2.1]
      decide
  short := by
    have h := hseries.2.2.2
    have h' : (decimal n.toNat).length ≤ 20 :=
      length_decimal_le_of_lt (by omega) (lt_of_lt_of_le n.toNat_lt (by norm_num))
    rw [Line.text, List.length_append, List.length_cons]
    omega

/-- Every line of the exposition is well formed. -/
theorem good_lines (m : Metrics) : ∀ l ∈ m.lines, l.Good := by
  intro l hl
  simp only [Metrics.lines, List.mem_append, List.mem_cons, List.not_mem_nil, or_false,
    List.mem_map, List.mem_finRange, true_and] at hl
  rcases hl with ((rfl | rfl) | ⟨i, rfl⟩) | rfl | rfl | rfl | rfl | rfl | rfl | rfl | rfl | rfl
  case inl.inr => exact Line.good_sample (isName_levelSeries i) _
  all_goals first
    | exact Line.good_comment _ (isName_metrics _ (by simp)) (isDoc_docs _ (by simp))
    | exact Line.good_sample (isName_metrics _ (by simp)) _

/-- What the renderer prints are the lines of the metrics. -/
theorem flatten_pieces (m : Metrics) :
    (pieces m).flatten = unlines (m.lines.map Line.text) := by
  have hcomment : ∀ w name text, commentLine w name text = (Line.comment w name text).text ++ [10] :=
    fun _ _ _ => rfl
  have hsample : ∀ series (n : UInt64),
      sampleLine series n = (Line.sample series n.toNat).text ++ [10] := fun _ _ => rfl
  simp only [pieces, Metrics.lines, unlines, hcomment, hsample, List.map_append, List.map_cons,
    List.map_nil, List.map_map, Function.comp_def, List.flatten_append, List.flatten_cons,
    List.flatten_nil, List.append_nil]

/-! ### Room -/

/-- Pieces that fit are written one behind the other. -/
theorem renderFrom_fits {bufSize : ℕ} {ps : List Text} (hne : ∀ p ∈ ps, p ≠ []) :
    ∀ (x rest : Block) (c : UInt8), (x ++ c :: rest).length = bufSize → c = 0 ∨ ps ≠ [] →
      x.length + ps.flatten.length < bufSize →
      ∃ rest', renderFrom bufSize ps (x ++ c :: rest) x.length =
        some (toInt (x.length + ps.flatten.length : ℕ), x ++ ps.flatten ++ 0 :: rest') := by
  induction ps with
  | nil =>
    intro x rest c _ hc _
    obtain rfl := hc.resolve_right fun h => h rfl
    exact ⟨rest, by simp [renderFrom]⟩
  | cons p ps ih =>
    intro x rest c hsize _ hfits
    rw [List.flatten_cons, List.length_append] at hfits
    have hpos : 0 < p.length := List.length_pos_of_ne_nil (hne p List.mem_cons_self)
    have hroom : bufSize - x.length = (c :: rest).length := by
      rw [← hsize, List.length_append, Nat.add_sub_cancel_left]
    have hlt : p.length < bufSize - x.length := by omega
    have hstore : store (x ++ c :: rest) x.length (cut (bufSize - x.length) p ++ [0]) =
        some ((x ++ p) ++ 0 :: (c :: rest).drop (p.length + 1)) := by
      rw [cut_of_length_lt hlt, store_fits (by
        rw [List.length_append, List.length_singleton]
        omega)]
      simp
    have hsize' : ((x ++ p) ++ 0 :: (c :: rest).drop (p.length + 1)).length = bufSize := by
      rw [length_store hstore, hsize]
    obtain ⟨rest', hrun⟩ := ih (fun p hp => hne p (List.mem_cons_of_mem _ hp)) (x ++ p) _ 0 hsize'
      (.inl rfl) (by rw [List.length_append]; omega)
    refine ⟨rest', ?_⟩
    rw [renderFrom, hstore]
    simp only [Option.bind_eq_bind, Option.bind_some]
    rw [if_neg (by omega), ← List.length_append, hrun, List.flatten_cons]
    simp only [List.length_append, List.append_assoc, Nat.add_assoc]

/-- Pieces that do not fit end the call. -/
theorem renderFrom_short {bufSize : ℕ} {ps : List Text} :
    ∀ (buf : Block) (out : ℕ), buf.length = bufSize → out < bufSize →
      bufSize ≤ out + ps.flatten.length →
      ∃ buf', renderFrom bufSize ps buf out = some (-1, buf') := by
  induction ps with
  | nil =>
    intro buf out _ hlt hshort
    simp only [List.flatten_nil, List.length_nil] at hshort
    omega
  | cons p ps ih =>
    intro buf out hsize hlt hshort
    rw [List.flatten_cons, List.length_append] at hshort
    have hlen : out + (cut (bufSize - out) p ++ [0]).length ≤ buf.length := by
      have hcut := length_cut_lt (Nat.sub_pos_of_lt hlt) p
      rw [List.length_append, List.length_singleton]
      omega
    obtain ⟨buf', hstore⟩ : ∃ buf', store buf out (cut (bufSize - out) p ++ [0]) = some buf' :=
      ⟨_, if_pos hlen⟩
    rw [renderFrom, hstore]
    simp only [Option.bind_eq_bind, Option.bind_some]
    split_ifs with hbad
    · exact ⟨buf', rfl⟩
    · exact ih buf' _ ((length_store hstore).trans hsize) (by omega) (by omega)

theorem pieces_ne_nil (m : Metrics) : ∀ p ∈ pieces m, p ≠ [] := by
  intro p hp
  simp only [pieces, List.mem_append, List.mem_cons, List.not_mem_nil, or_false, List.mem_map,
    List.mem_finRange, true_and] at hp
  rcases hp with (rfl | ⟨i, rfl⟩) | rfl
  · simp [commentLine]
  · simp [sampleLine]
  · simp [commentLine]

/-- The text of the metrics. -/
def Metrics.text (m : Metrics) : Text := unlines (m.lines.map Line.text)

/-- Whatever the counters are, the text is short. -/
theorem length_text_lt (m : Metrics) : m.text.length < 1600 := by
  have hlines : m.lines.length = 17 := rfl
  have hsum : ((m.lines.map fun l => l.text ++ [10]).map List.length).sum ≤
      ((m.lines.map fun l => l.text ++ [10]).map List.length).length • 93 := by
    refine List.sum_le_card_nsmul _ 93 fun n hn => ?_
    rw [List.map_map] at hn
    obtain ⟨l, hl, rfl⟩ := List.mem_map.1 hn
    have hshort := (good_lines m l hl).short
    simp only [Function.comp, List.length_append, List.length_singleton]
    omega
  rw [List.length_map, List.length_map, hlines] at hsum
  rw [Metrics.text, unlines, List.map_map, List.length_flatten]
  exact Nat.lt_of_le_of_lt hsum (by norm_num)

/-- A large enough buffer receives the whole text. -/
theorem render_fits (m : Metrics) {n : ℕ} (buf : Chars n) (hfits : m.text.length < n) :
    ∃ rest, clogPrometheusRenderMetrics m buf n =
      some ((m.text.length : ℤ), m.text ++ 0 :: rest) := by
  obtain ⟨buf, rfl⟩ := buf
  obtain ⟨c, rest, rfl⟩ : ∃ c rest, buf = c :: rest :=
    List.exists_cons_of_length_pos (by omega)
  have hne : pieces m ≠ [] := by simp [pieces]
  have hfits' : ([] : Text).length + (pieces m).flatten.length < (c :: rest).length := by
    rwa [flatten_pieces, List.length_nil, Nat.zero_add]
  obtain ⟨rest', hrun⟩ :=
    renderFrom_fits (pieces_ne_nil m) [] rest c rfl (.inr hne) hfits'
  have hlen := length_text_lt m
  have hret : toInt (([] : Text).length + (pieces m).flatten.length : ℕ) = m.text.length := by
    rw [flatten_pieces, List.length_nil, Nat.zero_add, toInt]
    exact Int.bmod_eq_of_le (by omega) (by rw [Metrics.text] at hlen; omega)
  rw [hret, flatten_pieces] at hrun
  refine ⟨rest', ?_⟩
  rw [clogPrometheusRenderMetrics, if_neg (by simp)]
  exact hrun

theorem zero_notMem_text (m : Metrics) : 0 ∉ m.text := by
  intro h
  obtain ⟨t, ht, hzero⟩ := List.mem_flatten.1 h
  simp only [List.mem_map] at ht
  obtain ⟨t', ⟨l, hl, rfl⟩, rfl⟩ := ht
  rcases List.mem_append.1 hzero with hzero | hzero
  · exact (printable_text (good_lines m l hl).ok).2 hzero
  · cases List.mem_singleton.1 hzero

/-- The exposition reads back as its lines. -/
theorem readMetrics_text (m : Metrics) : readMetrics m.text = some m.lines :=
  readMetrics_unlines (by simp [Metrics.lines]) fun l hl => (good_lines m l hl).ok

/-- **The renderer writes all metrics or nothing that counts.**  In an array of any size it returns
the length of a text that reads back as the counters, or `-1` exactly if that text and its
terminator have no room. -/
theorem render_reads_back (m : Metrics) {n : ℕ} (buf : Chars n) :
    ∃ ret buf', clogPrometheusRenderMetrics m buf n = some (ret, buf') ∧
      (ret = -1 ↔ n ≤ m.text.length) ∧
      (ret ≠ -1 → ∃ t, strAt buf' 0 = some t ∧ ret = t.length ∧ readMetrics t = some m.lines) := by
  rcases Nat.lt_or_ge m.text.length n with hfits | hshort
  · obtain ⟨rest, hrun⟩ := render_fits m buf hfits
    refine ⟨_, _, hrun, iff_of_false (by omega) (by omega), fun _ => ⟨m.text, ?_, rfl, ?_⟩⟩
    · exact strAt_eq (zero_notMem_text m) rfl
    · exact readMetrics_text m
  · rcases Nat.eq_zero_or_pos n with rfl | hpos
    · exact ⟨-1, buf, rfl, iff_of_true rfl hshort, fun h => absurd rfl h⟩
    · have hshort' : n ≤ 0 + (pieces m).flatten.length := by
        rwa [flatten_pieces, Nat.zero_add]
      obtain ⟨buf', hrun⟩ := renderFrom_short buf.val 0 buf.property hpos hshort'
      refine ⟨-1, buf', ?_, iff_of_true rfl hshort, fun h => absurd rfl h⟩
      rw [clogPrometheusRenderMetrics, if_neg (by omega)]
      exact hrun

/-! ### The answer -/

/-- The lines of a header. -/
def headerLines (n : ℕ) : List Text :=
  [statusText ++ [13], typeText ++ [13], lengthName ++ (decimal n ++ [13]), closeText ++ [13]]

theorem header_eq (n : ℕ) : header n = unlines (headerLines n ++ [[13]]) := by
  rw [header, signedDecimal_natCast]
  simp only [crlf, unlines, headerLines, List.map_cons, List.map_nil, List.flatten_cons,
    List.flatten_nil, List.append_assoc, List.cons_append, List.nil_append, List.append_nil]

/-- The lines that are always the same have neither a newline nor the length. -/
theorem texts_ok : ∀ t ∈ [statusText, typeText, closeText],
    t ≠ [] ∧ 10 ∉ t ∧ t.length ≤ 54 ∧ contentLength (t ++ [13]) = none := by decide +kernel

theorem lengthName_eq : lengthName =
    [67, 111, 110, 116, 101, 110, 116, 45, 76, 101, 110, 103, 116, 104, 58, 32] := by
  simp [lengthName, str]

theorem headerLines_ok (n : ℕ) : ∀ l ∈ headerLines n, 10 ∉ l ∧ l ≠ [13] := by
  have hline : ∀ t : Text, t ≠ [] → 10 ∉ t → 10 ∉ t ++ [13] ∧ t ++ [13] ≠ [13] := by
    intro t hne hnewline
    simpa [hnewline] using hne
  intro l hl
  simp only [headerLines, List.mem_cons, List.not_mem_nil, or_false] at hl
  rcases hl with rfl | rfl | rfl | rfl
  case inr.inr.inl =>
    rw [← List.append_assoc]
    refine hline _ ?_ ?_
    · simp [decimal_ne_nil]
    · simp [lengthName_eq, (printable_decimal n).1]
  all_goals exact hline _ (texts_ok _ (by simp)).1 (texts_ok _ (by simp)).2.1

theorem contentLength_eq (n : ℕ) : contentLength (lengthName ++ (decimal n ++ [13])) = some n := by
  have hpre : lengthName.isPrefixOf (lengthName ++ (decimal n ++ [13])) = true :=
    List.isPrefixOf_iff_prefix.2 (List.prefix_append _ _)
  have hsixteen : lengthName.length = 16 := by rw [lengthName_eq]; rfl
  have hlast : (lengthName ++ (decimal n ++ [13])).getLast? = some 13 := by
    rw [← List.append_assoc, List.getLast?_concat]
  have hdrop : ((lengthName ++ (decimal n ++ [13])).drop 16).dropLast = decimal n := by
    rw [List.drop_left' hsixteen, List.dropLast_concat]
  rw [contentLength, if_pos hpre, hdrop, hlast,
    if_pos ⟨rfl, decimal_ne_nil n, all_isDigit_decimal n⟩, magnitude_decimal]

/-- **An answer is read as its body.** -/
theorem readResponse_header (body : Text) :
    readResponse (header body.length ++ body) = some body := by
  have hok := headerLines_ok body.length
  have hnewline : ∀ l ∈ headerLines body.length ++ [[13]], 10 ∉ l := by
    intro l hl
    rcases List.mem_append.1 hl with hl | hl
    · exact (hok l hl).1
    · rw [List.mem_singleton.1 hl]
      decide
  have hcut : cutAt [13] ((header body.length ++ body).splitOn 10) =
      (headerLines body.length, body.splitOn 10) := by
    rw [header_eq, splitOn_unlines hnewline, List.append_assoc]
    exact cutAt_append fun h => (hok _ h).2 rfl
  have hlength : (headerLines body.length).filterMap contentLength = [body.length] := by
    have hstatus := (texts_ok statusText (by simp)).2.2.2
    have htype := (texts_ok typeText (by simp)).2.2.2
    have hclose := (texts_ok closeText (by simp)).2.2.2
    simp only [headerLines, List.filterMap_cons, hstatus, htype, contentLength_eq, hclose,
      List.filterMap_nil]
  rw [readResponse, hcut]
  simp only [List.intercalate_splitOn, hlength]
  exact if_pos ⟨rfl, trivial⟩

theorem length_header_lt {n : ℕ} (hn : n < 10 ^ 20) : (header n).length < 250 := by
  have hdecimal : (decimal n).length ≤ 20 := length_decimal_le_of_lt (by omega) hn
  have hstatus := (texts_ok statusText (by simp)).2.2.1
  have htype := (texts_ok typeText (by simp)).2.2.1
  have hclose := (texts_ok closeText (by simp)).2.2.1
  rw [header, signedDecimal_natCast, lengthName_eq]
  simp only [crlf, List.length_append, List.length_cons, List.length_nil]
  omega

/-- **A scrape gets the metrics.**  Whatever the counters are, the answer is sent whole, its header
has the length of its body, and the body reads back as the counters. -/
theorem scrape_faithful (m : Metrics) (body : Chars 4096) (response : Chars 8192) :
    ∃ sent, respond m body response = some sent ∧
      (readResponse sent).bind readMetrics = some m.lines := by
  have hlen := length_text_lt m
  obtain ⟨rest, hrun⟩ := render_fits m body (by omega)
  have hbody : strAt (m.text ++ 0 :: rest) 0 = some m.text := strAt_eq (zero_notMem_text m) rfl
  have hheader := length_header_lt (show m.text.length < 10 ^ 20 by omega)
  have hshort : (header m.text.length ++ m.text).length < 8192 := by
    rw [List.length_append]
    omega
  obtain ⟨tail, hstore⟩ : ∃ tail, store response 0 (header m.text.length ++ m.text ++ [0]) =
      some (header m.text.length ++ m.text ++ 0 :: tail) := by
    have hfits : (header m.text.length ++ m.text ++ [0]).length ≤ response.val.length := by
      rw [response.property, List.length_append, List.length_singleton]
      exact hshort
    have h := store_fits (x := []) hfits
    rw [List.nil_append, List.nil_append, List.append_assoc _ [0]] at h
    exact ⟨_, h⟩
  refine ⟨header m.text.length ++ m.text, ?_, ?_⟩
  · rw [respond, hrun]
    simp only [Option.bind_eq_bind, Option.bind_some]
    rw [if_neg (by omega), hbody, Option.bind_some, cut_of_length_lt hshort, hstore,
      Option.bind_some, if_pos (List.prefix_append _ _).length_le, List.take_left]
    rfl
  · rw [readResponse_header, Option.bind_some, readMetrics_text]

end Prometheus
end Clogx
