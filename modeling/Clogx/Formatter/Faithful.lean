/-
# The lines of the JSON renderers

A line is faithful (`Faithful`) if it is written in full where it has room and
stands for the record, and if what is left of it where it has no room stands for a
part of the record.  `json_outcome` and `otel_outcome` put the end of a line
(`Clogx.Formatter.Cut`) and its meaning (`Clogx.Formatter.Meaning`) together: a
renderer returns a line that is not faithful exactly when it cuts a name.  Names
without control characters are never cut (`not_strCut_of_printable`).
-/

import Clogx.Formatter.Meaning

namespace Clogx
namespace Formatter

open CLib
open Json (Str Value Members Frame Spells Reads InObject Cuts)
open Machine (run run_append)

/-- What a renderer should do with a line that is `full` when it is not cut and stands for
`value`, in a buffer of `bufSize` bytes. -/
def Faithful (full : Text) (value : Value) (bufSize : ℕ) (result : ℤ × Out) : Prop :=
  (full.length < bufSize → result.1 = full.length ∧
    (∃ rest, result.2.done ++ result.2.rest = full ++ 0 :: rest) ∧
    Json.parse full = some value) ∧
  (bufSize ≤ full.length → result.1 = -1 ∨ ∃ n : ℕ, result.1 = n ∧
    StandsFor value ((result.2.done ++ result.2.rest).take n))

theorem toInt_natCast {n : ℕ} (h : n < 2 ^ 31) : toInt n = n := by
  rw [toInt]
  exact Int.bmod_eq_of_le (by omega) (by omega)

/-- A length beyond the range of `int` comes out negative, and is `-1` only for `2 ^ 32 - 1`. -/
theorem toInt_lt_neg_one {n : ℕ} (h : 2 ^ 31 ≤ n) (h' : n < 2 ^ 32 - 1) : toInt n < -1 := by
  rw [toInt, Int.bmod_def]
  omega

section Faithful

variable {ps : List Piece} {ms : Members} {cut : Prop} {buf : Text}

/-- A line that has room. -/
theorem faithful_iff_of_lt (hps : ps ≠ []) (h0 : 0 < buf.length)
    (hlt : (fullText ps).length < buf.length) (hint : (fullText ps).length < 2 ^ 32 - 1)
    (hfull : Json.parse (fullText ps) = some (.obj ms)) :
    Faithful (fullText ps) (.obj ms) buf.length (runPieces ps ⟨[], buf⟩) ↔
      (fullText ps).length < 2 ^ 31 := by
  have hrender := render_of_lt hlt
  obtain ⟨hret, hdone⟩ : Wrote ⟨[], buf⟩ (runPieces ps ⟨[], buf⟩) (some (fullText ps)) :=
    hrender ▸ runPieces_eq ps ⟨[], buf⟩
  rw [List.nil_append] at hret hdone
  have hz := runPieces_terminated (o := ⟨[], buf⟩) h0 (.inl hps) hrender
  obtain ⟨rest, hrest⟩ : ∃ rest, (runPieces ps ⟨[], buf⟩).2.rest = 0 :: rest := by
    cases h : (runPieces ps ⟨[], buf⟩).2.rest with
    | nil =>
      rw [h] at hz
      cases hz
    | cons c rest =>
      rw [h] at hz
      exact ⟨rest, by rw [Option.some.inj hz]⟩
  constructor
  · intro h
    by_contra hge
    have hneg := toInt_lt_neg_one (not_lt.1 hge) hint
    have hcount := (h.1 hlt).1
    rw [hret] at hcount
    omega
  · intro hsmall
    refine ⟨fun _ => ⟨?_, ⟨rest, ?_⟩, hfull⟩, fun h => by omega⟩
    · rw [hret, toInt_natCast hsmall]
    · rw [hdone, hrest]

/-- A line that is cut. -/
theorem faithful_iff_of_le (hle : buf.length ≤ (fullText ps).length) {t : Text}
    (hrender : render ps buf.length = some t) (hint : t.length < 2 ^ 32 - 1) :
    Faithful (fullText ps) (.obj ms) buf.length (runPieces ps ⟨[], buf⟩) ↔
      StandsFor (.obj ms) t ∧ t.length < 2 ^ 31 := by
  obtain ⟨hret, hdone⟩ : Wrote ⟨[], buf⟩ (runPieces ps ⟨[], buf⟩) (some t) :=
    hrender ▸ runPieces_eq ps ⟨[], buf⟩
  rw [List.nil_append] at hret hdone
  rw [Faithful, hret, hdone]
  rcases lt_or_ge t.length (2 ^ 31) with hlt | hge
  · rw [toInt_natCast hlt]
    refine ⟨fun h => ⟨?_, hlt⟩, fun h => ⟨fun hlt => by omega, fun _ => .inr ⟨t.length, rfl, ?_⟩⟩⟩
    · rcases h.2 hle with h | ⟨n, hn, h⟩
      · omega
      · rwa [← Int.ofNat_inj.1 hn, List.take_left] at h
    · rw [List.take_left]
      exact h.1
  · have hneg := toInt_lt_neg_one hge hint
    refine iff_of_false (fun h => ?_) fun h => absurd h.2 (not_lt.2 hge)
    rcases h.2 hle with h | ⟨n, hn, -⟩ <;> omega

/-- **A renderer is faithful exactly when its lines end well and their length is an `int`.** -/
theorem faithful_iff (hps : ps ≠ []) (h0 : 0 < buf.length)
    (hint : ∀ t ∈ render ps buf.length, t.length < 2 ^ 32 - 1)
    (hfull : Json.parse (fullText ps) = some (.obj ms))
    (hout : Outcome cut (StandsFor (.obj ms)) (¬ StandsFor (.obj ms) ·) (render ps buf.length)) :
    Faithful (fullText ps) (.obj ms) buf.length (runPieces ps ⟨[], buf⟩) ↔
      ¬ cut ∧ ∀ t ∈ render ps buf.length, t.length < 2 ^ 31 := by
  cases hrender : render ps buf.length with
  | none =>
    have hwrote : Wrote ⟨[], buf⟩ (runPieces ps ⟨[], buf⟩) none :=
      hrender ▸ runPieces_eq ps ⟨[], buf⟩
    rw [hrender] at hout
    refine iff_of_true ⟨fun h => ?_, fun _ => .inl hwrote⟩ ⟨hout, nofun⟩
    exact absurd ((render_of_lt h).symm.trans hrender) (Option.some_ne_none _)
  | some t =>
    rw [hrender] at hout hint
    have hsmall : (∀ u ∈ some t, u.length < 2 ^ 31) ↔ t.length < 2 ^ 31 :=
      ⟨fun h => h t rfl, fun h u hu => Option.some.inj hu ▸ h⟩
    have hgood : StandsFor (.obj ms) t ↔ ¬ cut := by
      rcases hout with ⟨hnot, hgood⟩ | ⟨hcut, hbad⟩
      · exact iff_of_true hgood hnot
      · exact iff_of_false hbad fun h => h hcut
    rw [hsmall, ← hgood]
    rcases lt_or_ge (fullText ps).length buf.length with hlt | hge
    · obtain rfl : fullText ps = t := Option.some.inj ((render_of_lt hlt).symm.trans hrender)
      rw [faithful_iff_of_lt hps h0 hlt (hint _ rfl) hfull]
      exact (and_iff_right ⟨_, hfull, .members (List.prefix_refl _)⟩).symm
    · exact faithful_iff_of_le hge hrender (hint t rfl)

end Faithful

/-! ### Lines in full -/

theorem fullText_fields (d : ℕ) (fs : List Field) :
    fullText (fs.flatMap (Field.pieces d)) = textOf fs := by
  induction fs with
  | nil => rfl
  | cons f fs ih =>
    obtain ⟨k, v⟩ := f
    rw [List.flatMap_cons, fullText, List.flatMap_append, ← fullText, ← fullText, ih]
    cases k <;> cases v <;> simp [fullText, Field.pieces, FieldKey.piece, FieldVal.pieces,
      Piece.full, Field.text, FieldKey.text, FieldVal.text, textOf]

theorem renderStr_of_lt {d : ℕ} {s : Text} {fs : List Field} {r : ℕ}
    (h : (escapeText s ++ 34 :: (textOf fs ++ closers d)).length < r) :
    renderStr d s fs r = some (escapeText s ++ 34 :: (textOf fs ++ closers d)) := by
  have hfull : fullText (.escaped s (suffix d) :: .text [34] ::
      (fs.flatMap (Field.pieces d) ++ [.text (closers d)])) =
      escapeText s ++ 34 :: (textOf fs ++ closers d) := by
    rw [← fullText_fields d fs]
    simp [fullText, Piece.full]
  rw [← hfull] at h ⊢
  exact render_of_lt h

/-- A line whose renderers agree has one text in full. -/
theorem fullText_eq {ps : List Piece} {t : Text}
    (h : ∀ r, t.length < r → render ps r = some t) : fullText ps = t := by
  have hboth := h ((fullText ps).length + t.length + 1) (by omega)
  rw [render_of_lt (by omega)] at hboth
  exact Option.some.inj hboth

/-! ### Names that are not cut -/

theorem not_nameCut_of_printable {d : ℕ} {f : Field} (fs : List Field) (r : ℕ)
    (h : ∀ s, f.key = .given s → ∀ c ∈ s, ¬ Control c) : ¬ NameCut d f fs r := by
  rintro ⟨a, c, b, hkey, hc, -⟩
  exact h _ hkey c (by simp) hc

/-- No name is cut behind a string if names are printable. -/
theorem not_shift_of_printable {d : ℕ} {s : Text} {fs : List Field} {r : ℕ}
    (h : ∀ f ∈ fs, ∀ s, f.key = .given s → ∀ c ∈ s, ¬ Control c) : ¬ Shift d s fs r := by
  rintro ⟨a, c, f, post, c', b, -, -, rfl, hkey, hc', -⟩
  exact h f (List.mem_cons_self ..) _ hkey c' (List.mem_cons_self ..) hc'

theorem not_keyCut_of_printable {d : ℕ} {fs : List Field}
    (h : ∀ f ∈ fs, ∀ s, f.key = .given s → ∀ c ∈ s, ¬ Control c) (r : ℕ) : ¬ KeyCut d fs r := by
  induction fs generalizing r with
  | nil => exact id
  | cons f fs ih =>
    have hfs : ∀ g ∈ fs, ∀ s, g.key = .given s → ∀ c ∈ s, ¬ Control c := fun g hg =>
      h g (List.mem_cons_of_mem _ hg)
    rintro (hname | ⟨s, -, hshift⟩ | hrest)
    · exact not_nameCut_of_printable fs _ (h f (List.mem_cons_self ..)) hname
    · exact not_shift_of_printable hfs hshift
    · exact ih hfs _ hrest

/-- **Names without control characters are not cut.** -/
theorem not_strCut_of_printable {d : ℕ} {s : Text} {fs : List Field} {r : ℕ}
    (h : ∀ f ∈ fs, ∀ s, f.key = .given s → ∀ c ∈ s, ¬ Control c) : ¬ StrCut d s fs r := by
  rintro (hshift | hkey)
  · exact not_shift_of_printable h hshift
  · exact not_keyCut_of_printable h _ hkey

/-- A record with the pair `key`, `7` and the message `m`. -/
def pairRecord (key : CString) : Record Unit where
  timestamp := 1500000
  file := some ⟨str "f", by decide⟩
  func := none
  module := none
  tag := none
  message := some ⟨str "m", by decide⟩
  level := 2
  tid := 1
  pid := 1
  line := -3
  traceId := 0
  spanId := 0
  kv := [⟨some key, .int 7⟩]

/-! ### The members of the two formats -/

section Formats

variable {φ : Type*} {snprintf6g : φ → Text} {timeBuf : Text} (record : Record φ)

def timeField (timeBuf : Text) (record : Record φ) : Field :=
  ⟨.fixed (str "timestamp"), .raw (quoted (timeText timeBuf record))⟩

def levelField (name : String) (record : Record φ) : Field :=
  ⟨.fixed (str name), .raw (quoted (levelToString record.level))⟩

def moduleField (record : Record φ) : Field :=
  ⟨.fixed (str "module"), .str (orEmpty record.module)⟩

def bodyField (record : Record φ) : Field :=
  ⟨.fixed (str "body"), .str (orEmpty record.message)⟩

/-- The members of a line of `format_otel_json` before its body. -/
def otelOuter (timeBuf : Text) (record : Record φ) : List Field :=
  timeField timeBuf record :: levelField "severity" record ::
    ⟨.fixed (str "severity_number"), .raw (clogI32toa (otelSeverityNumber record.level))⟩ ::
    traceFields record

theorem plain_hexd {n : ℕ} (h : n < 16) : Plain (Trace.hexd n) := by
  interval_cases n <;> decide

theorem plain_hexBytes {n : ℕ} (id : Fin n → UInt8) : ∀ c ∈ Trace.hexBytes id, Plain c := by
  intro c hc
  obtain ⟨b, -, hb⟩ := List.mem_flatMap.1 hc
  have hlt : b.toNat < 256 := b.toNat_lt
  rw [Trace.hexByte, List.mem_cons, List.mem_singleton] at hb
  rcases hb with rfl | rfl
  · exact plain_hexd (by omega)
  · exact plain_hexd (by omega)

theorem plain_levelToString (level : ℕ) : ∀ c ∈ levelToString level, Plain c := by
  unfold levelToString
  split <;> decide

theorem plain_digitPair {k : ℕ} (h : k < 100) : ∀ c ∈ digitPair k, Plain c := by
  have hdigit : ∀ d < 10, Plain (48 + d).toUInt8 := by decide
  intro c hc
  rw [digitPair, List.mem_cons, List.mem_singleton] at hc
  rcases hc with rfl | rfl
  · exact hdigit _ (by omega)
  · exact hdigit _ (by omega)

theorem plain_timeText (htime : ∀ c ∈ timeBuf, Plain c) : ∀ c ∈ timeText timeBuf record, Plain c := by
  have hlt : record.timestamp % 1000000 < 1000000 := Nat.mod_lt _ (by norm_num)
  intro c hc
  simp only [timeText, clogU32toaPad6, List.mem_append, List.mem_cons] at hc
  rcases hc with hc | rfl | (hc | hc) | hc
  · exact htime c hc
  · decide
  · exact plain_digitPair (by omega) c hc
  · exact plain_digitPair (by omega) c hc
  · exact plain_digitPair (by omega) c hc

theorem means_time (htime : ∀ c ∈ timeBuf, Plain c) :
    Means (timeField timeBuf record) (timeMember timeBuf record) := by
  have h := means_quoted (n := "timestamp") (by decide) (plain_timeText record htime)
  have htext : timeText timeBuf record =
      timeBuf ++ 46 :: (decimal (record.timestamp % 1000000)).leftpad 6 48 := by
    rw [timeText, clogU32toaPad6_eq (Nat.mod_lt _ (by norm_num))]
  rw [timeMember, ← htext]
  exact h

theorem means_level {name : String} (hname : ∀ c ∈ str name, Plain c) :
    Means (levelField name record) (strMember name (levelToString record.level)) :=
  means_quoted hname (plain_levelToString _)

theorem means_source : List.Forall₂ Means (sourceFields record) (sourceMembers record) :=
  .cons (means_str (by decide) _) <|
  .cons (means_raw (by decide) (reads_clogI32toa _)) <|
  .cons (means_str (by decide) _) <|
  .cons (means_raw (by decide) (reads_clogU32toa _)) <|
  .cons (means_raw (by decide) (reads_clogU32toa _)) <|
  .cons (means_str (by decide) _) .nil

theorem means_trace : List.Forall₂ Means (traceFields record) (traceMembers record) := by
  have hid := means_quoted (n := "trace_id") (by decide) (plain_hexBytes record.traceId)
  have hspan := means_quoted (n := "span_id") (by decide) (plain_hexBytes record.spanId)
  unfold traceFields traceMembers
  split_ifs
  · exact .cons hid (.cons hspan .nil)
  · exact .cons hid .nil
  · exact .cons hspan .nil
  · exact .nil

/-- The member of a pair. -/
theorem means_kv (hfloat : ∀ f, ∃ m e, Json.parse (snprintf6g f) = some (.num m e))
    (key : CString) (val : KvVal φ) :
    Means ⟨.given key, val.field snprintf6g⟩ (chars key, val.value snprintf6g) := by
  have hreads : Reads (val.field snprintf6g).text (val.value snprintf6g) := by
    cases val with
    | int i => exact reads_clogI64toa i
    | uint u => exact reads_clogU64toa u
    | float f =>
      obtain ⟨m, e, h⟩ := hfloat f
      rw [KvVal.value, h]
      exact Json.reads_of_parse h
    | str s => exact reads_escaped _
    | bool b => exact Json.reads_bool b
  refine ⟨spells_escapeText key, hreads, fun s h => FieldKey.given.inj h ▸ rfl, fun s h => ?_⟩
  cases val with
  | str t => exact FieldVal.str.inj h ▸ rfl
  | int | uint | float | bool => cases h

theorem means_kvs (hfloat : ∀ f, ∃ m e, Json.parse (snprintf6g f) = some (.num m e)) :
    List.Forall₂ Means (kvFields snprintf6g record) (kvMembers snprintf6g record) := by
  unfold kvFields kvMembers
  induction record.kv with
  | nil => exact .nil
  | cons kv kvs ih =>
    obtain ⟨key, val⟩ := kv
    cases key with
    | none => exact ih
    | some key => exact .cons (means_kv hfloat key val) ih

theorem forall₂_append {fs gs : List Field} {ms ns : Members} (h : List.Forall₂ Means fs ms)
    (h' : List.Forall₂ Means gs ns) : List.Forall₂ Means (fs ++ gs) (ms ++ ns) :=
  List.rel_append h h'

/-- Every field of the `json` layout spells its member. -/
theorem means_json (htime : ∀ c ∈ timeBuf, Plain c)
    (hfloat : ∀ f, ∃ m e, Json.parse (snprintf6g f) = some (.num m e)) :
    List.Forall₂ Means (timeField timeBuf record :: levelField "level" record ::
        moduleField record :: jsonFields snprintf6g record)
      (timeMember timeBuf record :: strMember "level" (levelToString record.level) ::
        moduleMember record :: (sourceMembers record ++ (traceMembers record ++
          strMember "message" (orEmpty record.message) :: kvMembers snprintf6g record))) :=
  .cons (means_time record htime) <| .cons (means_level record (by decide)) <|
    .cons (means_str (by decide) _) <| forall₂_append (means_source record) <|
      forall₂_append (means_trace record) <| .cons (means_str (by decide) _) (means_kvs record hfloat)

/-- Every outer field of the `otel` layout spells its member. -/
theorem means_otelOuter (htime : ∀ c ∈ timeBuf, Plain c) :
    List.Forall₂ Means (otelOuter timeBuf record ++ [bodyField record])
      (otelMembers timeBuf record) :=
  .cons (means_time record htime) <| .cons (means_level record (by decide)) <|
    .cons (means_raw (by decide) (reads_clogI32toa _)) <|
      forall₂_append (means_trace record) (.cons (means_str (by decide) _) .nil)

/-- Every attribute of the `otel` layout spells its member. -/
theorem means_otelAttributes
    (hfloat : ∀ f, ∃ m e, Json.parse (snprintf6g f) = some (.num m e)) :
    List.Forall₂ Means (moduleField record :: otelFields snprintf6g record)
      (otelAttributes snprintf6g record) :=
  .cons (means_str (by decide) _) (forall₂_append (means_source record) (means_kvs record hfloat))

/-! ### The texts of the two formats -/

/-- The head of a `json` line, read as fields. -/
theorem jsonHead_append (timeBuf u : Text) :
    jsonHead timeBuf record ++ u = 123 :: ((timeField timeBuf record).text ++
      ((levelField "level" record).text ++
        44 :: 34 :: (FieldKey.text (.fixed (str "module")) ++ 34 :: 58 :: 34 :: u))).tail := by
  simp [jsonHead, timeField, levelField, Field.text, FieldKey.text, FieldVal.text, quoted, str]

/-- The head of an `otel` line, read as fields. -/
theorem otelHead_append (timeBuf u : Text) :
    otelHead timeBuf record ++ u = 123 :: (textOf (otelOuter timeBuf record) ++
      44 :: 34 :: (FieldKey.text (.fixed (str "body")) ++ 34 :: 58 :: 34 :: u)).tail := by
  simp [otelHead, otelOuter, timeField, levelField, textOf, Field.text, FieldKey.text,
    FieldVal.text, quoted, str]

/-! ### The end of the two formats -/

/-- A name is cut in a line of `format_json_ex`. -/
def JsonCut (snprintf6g : φ → Text) (timeBuf : Text) (record : Record φ) (bufSize : ℕ) : Prop :=
  StrCut 1 (orEmpty record.module) (jsonFields snprintf6g record)
    (bufSize - (jsonHead timeBuf record).length)

/-- The text between the body and the text of `module`. -/
def otelMiddle : Text := str "\",\"attributes\":\x7b\"module\":\""

/-- A name is cut in a line of `format_otel_json`. -/
def OtelCut (snprintf6g : φ → Text) (timeBuf : Text) (record : Record φ) (bufSize : ℕ) : Prop :=
  StrCut 2 (orEmpty record.module) (otelFields snprintf6g record)
    (bufSize - (otelHead timeBuf record).length - (escapeText (orEmpty record.message)).length -
      otelMiddle.length)

theorem not_strCut_zero {d : ℕ} {s : Text} {fs : List Field} : ¬ StrCut d s fs 0 := fun h => by
  have := h.lt
  omega

theorem outcome_str {d : ℕ} (hd : 0 < d) {fs : List Field} {ms : Members}
    (hm : List.Forall₂ Means fs ms) (s : Text) (r : ℕ) (h0 : 0 < r) :
    Outcome (StrCut d s fs r) (EndsStr d s fs) (SpoilsStr d s fs) (renderStr d s fs r) :=
  outcome_renderStr hd (raw_ne_nil hm) (outcome_renderFields hd (raw_ne_nil hm)) s h0

theorem fixed_of_mem {f : Field} (h : f ∈ sourceFields record ∨ f ∈ traceFields record) (s : Text) :
    f.key ≠ .given s := by
  rcases h with h | h
  · simp only [sourceFields, List.mem_cons, List.not_mem_nil, or_false] at h
    rcases h with rfl | rfl | rfl | rfl | rfl | rfl <;> exact fun hk => by cases hk
  · unfold traceFields at h
    rcases List.mem_append.1 h with h | h <;> split_ifs at h <;>
      first
        | exact absurd h List.not_mem_nil
        | (obtain rfl := List.mem_singleton.1 h; exact fun hk => by cases hk)

/-- Only the pairs have names of the caller. -/
theorem printable_of_mem (h : ∀ kv ∈ record.kv, ∀ key ∈ kv.key, ∀ c ∈ key.val, ¬ Control c)
    {f : Field} (hf : f ∈ kvFields snprintf6g record) {s : Text} (hs : f.key = .given s) :
    ∀ c ∈ s, ¬ Control c := by
  obtain ⟨kv, hkv, hfield⟩ := List.mem_filterMap.1 hf
  obtain ⟨key, hkey, rfl⟩ := Option.map_eq_some_iff.1 hfield
  obtain rfl := FieldKey.given.inj hs
  exact h kv hkv _ hkey

/-- **Pairs whose keys have no control characters are not cut at a name**, in either format. -/
theorem not_cut_of_printable (timeBuf : Text) (bufSize : ℕ)
    (h : ∀ kv ∈ record.kv, ∀ key ∈ kv.key, ∀ c ∈ key.val, ¬ Control c) :
    ¬ JsonCut snprintf6g timeBuf record bufSize ∧ ¬ OtelCut snprintf6g timeBuf record bufSize := by
  refine ⟨not_strCut_of_printable fun f hf s hs => ?_, not_strCut_of_printable fun f hf s hs => ?_⟩
  · rcases List.mem_append.1 hf with hf | hf
    · exact absurd hs (fixed_of_mem record (.inl hf) s)
    rcases List.mem_append.1 hf with hf | hf
    · exact absurd hs (fixed_of_mem record (.inr hf) s)
    rcases List.mem_cons.1 hf with rfl | hf
    · cases hs
    · exact printable_of_mem record h hf hs
  · rcases List.mem_append.1 hf with hf | hf
    · exact absurd hs (fixed_of_mem record (.inl hf) s)
    · exact printable_of_mem record h hf hs

variable (htime : ∀ c ∈ timeBuf, Plain c)
  (hfloat : ∀ f, ∃ m e, Json.parse (snprintf6g f) = some (.num m e))

include htime hfloat in
/-- **A line of `format_json_ex` stands for a part of the record, unless a name is cut.** -/
theorem json_outcome (r : ℕ) :
    Outcome (JsonCut snprintf6g timeBuf record r) (StandsFor (jsonValue snprintf6g timeBuf record))
      (¬ StandsFor (jsonValue snprintf6g timeBuf record) ·)
      (render (jsonPieces snprintf6g timeBuf record) r) := by
  have hm := means_json record htime hfloat
  have hfields : List.Forall₂ Means (jsonFields snprintf6g record) _ :=
    (List.forall₂_cons.1 (List.forall₂_cons.1 (List.forall₂_cons.1 hm).2).2).2
  rw [render_jsonPieces]
  refine Outcome.text _ (outcome_str one_pos hfields _) not_strCut_zero (fun u hu => ?_)
    (fun u hu => ?_) r
  · rw [jsonHead_append]
    exact place_root.stands hm (((hu.cons (.fixed (str "module"))).cons _).cons _)
  · rw [jsonHead_append]
    exact place_root.not_stands hm (((hu.cons (.fixed (str "module"))).cons _).cons _)

theorem FieldsCut.behind (fs : List Field) (k : FieldKey) {a s : Text} (h : a <+: s) :
    FieldsCut (fs ++ [⟨k, .str a⟩]) (fs ++ [⟨k, .str s⟩]) := by
  induction fs with
  | nil => exact .last k [] h
  | cons f fs ih => exact ih.cons f

include htime in
/-- The place of the attributes. -/
theorem place_attributes :
    Place 2 (123 :: (textOf (otelOuter timeBuf record ++ [bodyField record])).tail ++
        44 :: 34 :: (str "attributes" ++ [34, 58]))
      [.obj (otelMembers timeBuf record) (chars (str "attributes"))]
      (fun inner => .obj (otelMembers timeBuf record ++ [member "attributes" (.obj inner)])) := by
  have hne : otelOuter timeBuf record ++ [bodyField record] ≠ [] :=
    List.append_ne_nil_of_right_ne_nil _ (List.cons_ne_nil _ _)
  obtain ⟨s, hrun, hs⟩ := read_object (means_otelOuter record htime) hne [] []
  refine place_member ?_
  have hname := hs.name (spells_of_plain (t := str "attributes") (by decide))
  rw [List.cons_append, run_open hne, run_append, hrun, Option.bind_some]
  exact hname

include htime in
/-- The body is cut. -/
theorem stands_of_body {a : Text} (ha : a <+: orEmpty record.message) (more : Members) :
    StandsFor (.obj (otelMembers timeBuf record ++ more))
      (otelHead timeBuf record ++ (escapeText a ++ suffix 1)) := by
  have hends : Ends 1 (otelOuter timeBuf record ++ [bodyField record])
      (textOf (otelOuter timeBuf record) ++ 44 :: 34 :: (FieldKey.text (.fixed (str "body")) ++
        34 :: 58 :: 34 :: (escapeText a ++ suffix 1))) :=
    ⟨_, FieldsCut.behind _ (.fixed (str "body")) ha, by
      simp [textOf, Field.text, FieldVal.text, suffix]⟩
  obtain ⟨v, hparse, hcut⟩ := place_root.stands (means_otelOuter record htime) hends
  rw [otelHead_append]
  exact ⟨v, hparse, hcut.more more⟩

theorem otelMiddle_append (timeBuf u : Text) :
    otelHead timeBuf record ++ (escapeText (orEmpty record.message) ++ (otelMiddle ++ u)) =
      (123 :: (textOf (otelOuter timeBuf record ++ [bodyField record])).tail ++
        44 :: 34 :: (str "attributes" ++ [34, 58])) ++
      123 :: (44 :: 34 :: (FieldKey.text (.fixed (str "module")) ++ 34 :: 58 :: 34 :: u)).tail := by
  rw [otelHead_append]
  simp [otelMiddle, otelOuter, timeField, bodyField, textOf, Field.text, FieldKey.text,
    FieldVal.text, str]

include htime hfloat in
/-- **A line of `format_otel_json` stands for a part of the record, unless a name is cut.** -/
theorem otel_outcome (r : ℕ) :
    Outcome (OtelCut snprintf6g timeBuf record r) (StandsFor (otelValue snprintf6g timeBuf record))
      (¬ StandsFor (otelValue snprintf6g timeBuf record) ·)
      (render (otelPieces snprintf6g timeBuf record) r) := by
  have hm := means_otelAttributes record hfloat
  have hfields : List.Forall₂ Means (otelFields snprintf6g record) _ := (List.forall₂_cons.1 hm).2
  have hplace := place_attributes record htime
  have hmiddle : ∀ r, Outcome
      (StrCut 2 (orEmpty record.module) (otelFields snprintf6g record) (r - otelMiddle.length))
      (fun t => StandsFor (otelValue snprintf6g timeBuf record)
        (otelHead timeBuf record ++ (escapeText (orEmpty record.message) ++ t)))
      (fun t => ¬ StandsFor (otelValue snprintf6g timeBuf record)
        (otelHead timeBuf record ++ (escapeText (orEmpty record.message) ++ t)))
      ((Piece.text otelMiddle).render
        (renderStr 2 (orEmpty record.module) (otelFields snprintf6g record)) r) := by
    refine Outcome.text _ (outcome_str two_pos hfields _) not_strCut_zero (fun u hu => ?_)
      fun u hu => ?_
    · rw [otelMiddle_append]
      exact hplace.stands hm (hu.cons (.fixed (str "module")))
    · rw [otelMiddle_append]
      exact hplace.not_stands hm (hu.cons (.fixed (str "module")))
  have hbody : ∀ r, 0 < r → Outcome
      (StrCut 2 (orEmpty record.module) (otelFields snprintf6g record)
        (r - (escapeText (orEmpty record.message)).length - otelMiddle.length))
      (fun t => StandsFor (otelValue snprintf6g timeBuf record) (otelHead timeBuf record ++ t))
      (fun t => ¬ StandsFor (otelValue snprintf6g timeBuf record) (otelHead timeBuf record ++ t))
      ((Piece.escaped (orEmpty record.message) (suffix 1)).render
        ((Piece.text otelMiddle).render
          (renderStr 2 (orEmpty record.module) (otelFields snprintf6g record))) r) := by
    intro r h0
    rcases Nat.lt_or_ge (escapeText (orEmpty record.message)).length r with hlt | hge
    · rw [Piece.render_escaped_of_lt hlt]
      exact (hmiddle _).behind _ Iff.rfl (fun _ h => h) fun _ h => h
    · have hnot : ¬ StrCut 2 (orEmpty record.module) (otelFields snprintf6g record)
          (r - (escapeText (orEmpty record.message)).length - otelMiddle.length) := by
        rw [Nat.sub_eq_zero_of_le hge, Nat.zero_sub]
        exact not_strCut_zero
      obtain ⟨a, c, b, l, hs, -, -, hl, hrender⟩ :=
        Piece.render_escaped_of_le h0 hge (suffix 1) ((Piece.text otelMiddle).render
          (renderStr 2 (orEmpty record.module) (otelFields snprintf6g record)))
      rw [hrender]
      split_ifs
      · -- the attributes have no room when the body has none
        have hc := length_jsonEscape c
        rw [Piece.render_text_of_le (by rw [show otelMiddle.length = 26 from rfl]; omega)]
        exact hnot
      · exact hnot
      · exact .inl ⟨hnot, stands_of_body record htime (hs ▸ List.prefix_append ..) _⟩
  rw [render_otelPieces, ← otelMiddle]
  refine Outcome.text _ hbody ?_ (fun _ h => h) (fun _ h => h) r
  rw [Nat.zero_sub, Nat.zero_sub]
  exact not_strCut_zero

include htime hfloat in
/-- A line of `format_json_ex` in full stands for the record. -/
theorem parse_json : Json.parse (fullText (jsonPieces snprintf6g timeBuf record)) =
    some (jsonValue snprintf6g timeBuf record) := by
  have hfull : fullText (jsonPieces snprintf6g timeBuf record) = jsonHead timeBuf record ++
      (escapeText (orEmpty record.module) ++
        34 :: (textOf (jsonFields snprintf6g record) ++ closers 1)) := by
    refine fullText_eq fun r hr => ?_
    rw [List.length_append] at hr
    rw [render_jsonPieces, Piece.render_text_of_lt (by omega), renderStr_of_lt (by omega)]
    rfl
  have hparse := place_root.parse (means_json record htime hfloat) (List.cons_ne_nil _ _)
  rw [hfull, jsonHead_append]
  simpa [jsonValue, moduleField, textOf, Field.text, FieldVal.text] using hparse

include htime hfloat in
/-- A line of `format_otel_json` in full stands for the record. -/
theorem parse_otel : Json.parse (fullText (otelPieces snprintf6g timeBuf record)) =
    some (otelValue snprintf6g timeBuf record) := by
  have hfull : fullText (otelPieces snprintf6g timeBuf record) = otelHead timeBuf record ++
      (escapeText (orEmpty record.message) ++ (otelMiddle ++ (escapeText (orEmpty record.module) ++
        34 :: (textOf (otelFields snprintf6g record) ++ closers 2)))) := by
    refine fullText_eq fun r hr => ?_
    simp only [List.length_append] at hr
    rw [render_otelPieces, ← otelMiddle, Piece.render_text_of_lt (by omega),
      Piece.render_escaped_of_lt (by omega), Piece.render_text_of_lt (by omega),
      renderStr_of_lt (by rw [List.length_append]; omega)]
    rfl
  have hparse := (place_attributes record htime).parse (means_otelAttributes record hfloat)
    (List.cons_ne_nil _ _)
  rw [hfull, otelMiddle_append]
  simpa [otelValue, moduleField, textOf, Field.text, FieldVal.text] using hparse

include htime hfloat in
/-- **The lines of both JSON renderers are faithful exactly if they cut no name and their length is
an `int`.**  A renderer that refuses returns no line.  Lines of `2 ^ 32 - 1` bytes and more are left
out: their length wraps around to `-1` or to that of a shorter line. -/
theorem lines_faithful_iff (buf : Text) (hbuf : 0 < buf.length) :
    ((∀ t ∈ render (jsonPieces snprintf6g timeBuf record) buf.length, t.length < 2 ^ 32 - 1) →
      (Faithful (fullText (jsonPieces snprintf6g timeBuf record))
        (jsonValue snprintf6g timeBuf record) buf.length
        (formatJsonEx snprintf6g timeBuf record buf) ↔
      ¬ JsonCut snprintf6g timeBuf record buf.length ∧
        ∀ t ∈ render (jsonPieces snprintf6g timeBuf record) buf.length, t.length < 2 ^ 31)) ∧
    ((∀ t ∈ render (otelPieces snprintf6g timeBuf record) buf.length, t.length < 2 ^ 32 - 1) →
      (Faithful (fullText (otelPieces snprintf6g timeBuf record))
        (otelValue snprintf6g timeBuf record) buf.length
        (formatOtelJson snprintf6g timeBuf record buf) ↔
      ¬ OtelCut snprintf6g timeBuf record buf.length ∧
        ∀ t ∈ render (otelPieces snprintf6g timeBuf record) buf.length, t.length < 2 ^ 31)) := by
  rw [formatJsonEx_eq, formatOtelJson_eq]
  exact ⟨fun hint => faithful_iff (List.cons_ne_nil _ _) hbuf hint (parse_json record htime hfloat)
      (json_outcome record htime hfloat _),
    fun hint => faithful_iff (List.cons_ne_nil _ _) hbuf hint (parse_otel record htime hfloat)
      (otel_outcome record htime hfloat _)⟩

/-- Both formats render a pair in full. -/
theorem lines_faithful_printable :
    let record := pairRecord ⟨str "k", by decide⟩
    let snprintf6g := fun _ => str "1.5"
    Faithful (fullText (jsonPieces snprintf6g (str "T") record))
        (jsonValue snprintf6g (str "T") record) 200
        (formatJsonEx snprintf6g (str "T") record (List.replicate 200 0)) ∧
      Faithful (fullText (otelPieces snprintf6g (str "T") record))
        (otelValue snprintf6g (str "T") record) 200
        (formatOtelJson snprintf6g (str "T") record (List.replicate 200 0)) := by
  intro record snprintf6g
  have hkeys : ∀ kv ∈ record.kv, ∀ key ∈ kv.key, ∀ c ∈ key.val, ¬ Control c := by
    intro kv hkv key hkey c hc
    obtain rfl := List.mem_singleton.1 hkv
    cases hkey
    obtain rfl := List.mem_singleton.1 hc
    exact of_decide_eq_false (p := (jsonEscape 107).length = 6) rfl
  have hnot : ¬ JsonCut snprintf6g (str "T") record 200 ∧ ¬ OtelCut snprintf6g (str "T") record 200 :=
    not_cut_of_printable record (str "T") 200 hkeys
  have htime : ∀ c ∈ str "T", Plain c := by decide
  have hfloat : ∀ f, ∃ m e, Json.parse (snprintf6g f) = some (.num m e) := fun _ => ⟨15, -1, rfl⟩
  have hsmall : ∀ {m}, 200 ≤ m → ∀ ps, ∀ t ∈ render ps 200, t.length < m := fun hm ps t ht =>
    (length_lt_of_render (by norm_num) ht).trans_le hm
  obtain ⟨hjson, hotel⟩ := lines_faithful_iff record htime hfloat (List.replicate 200 0)
    (by rw [List.length_replicate]; norm_num)
  rw [List.length_replicate] at hjson hotel
  exact ⟨(hjson (hsmall (by norm_num) _)).2 ⟨hnot.1, hsmall (by norm_num) _⟩,
    (hotel (hsmall (by norm_num) _)).2 ⟨hnot.2, hsmall (by norm_num) _⟩⟩

/-- **A key that is cut is closed as if it was a value**: the line ends in `,"a"` and a brace. -/
theorem line_refused_at_key :
    let record := pairRecord ⟨[97, 1, 98], by decide⟩
    let snprintf6g := fun _ => str "1.5"
    let result := formatJsonEx snprintf6g (str "T") record (List.replicate 130 0)
    result.1 = 128 ∧ Json.parse (result.2.done.take 128) = none ∧
      ¬ Faithful (fullText (jsonPieces snprintf6g (str "T") record))
        (jsonValue snprintf6g (str "T") record) 130 result := by
  intro record snprintf6g result
  have hret : result.1 = 128 := by decide +kernel
  have hdone : result.2.done.length = 128 := by decide +kernel
  have hparse : Json.parse (result.2.done.take 128) = none :=
    Option.isNone_iff_eq_none.1 (by decide +kernel)
  refine ⟨hret, hparse, fun h => ?_⟩
  rcases h.2 (by decide +kernel) with h | ⟨n, hn, v, hv, -⟩
  · rw [hret] at h
    cases h
  · obtain rfl : n = 128 := by omega
    rw [List.take_append_of_le_length hdone.ge, hparse] at hv
    cases hv

end Formats

end Formatter
end Clogx
