/-
# What a line stands for

The JSON value a record should be rendered to (`jsonValue`, `otelValue`), written
down from the record alone, and what a reader makes of the members of a line.

`Means f m` says that the text of a member is read as the name and the value `m`.
A line that ends well is read as an object whose members are those of the record
up to a string that is cut (`Ends.read`).  A spoiled line is refused, or its last
name is a wrong one (`Spoils.read`).
-/

import Clogx.Formatter.Cut
import Clogx.Json.Reader

namespace Clogx
namespace Formatter

open CLib
open Json (Str Value Members Frame Spells Reads InObject Cuts)
open Machine (run run_append)

/-- The characters of a text; a byte from 0x80 on counts as one. -/
def chars (t : Text) : Str := t.map UInt8.toNat

theorem chars_injective : Function.Injective chars :=
  List.map_injective_iff.2 fun _ _ h => UInt8.toNat_inj.1 h

/-! ### The value of a record -/

section Values

variable {φ : Type*} (snprintf6g : φ → Text)

def KvVal.value : KvVal φ → Value
  | .int i64 => .num i64 0
  | .uint u64 => .num u64 0
  | .float f64 => (Json.parse (snprintf6g f64)).getD .null
  | .str s => .str (chars (orEmpty s))
  | .bool b => .bool b

/-- The member of a pair; a pair without a key has none. -/
def Kv.member (kv : Kv φ) : Option (Str × Value) :=
  kv.key.map fun key : CString => (chars key, kv.val.value snprintf6g)

def kvMembers (record : Record φ) : Members := record.kv.filterMap (Kv.member snprintf6g)

/-- The member `name` with the value `v`. -/
def member (name : String) (v : Value) : Str × Value := (chars (str name), v)

/-- The member `name` with the string `t`. -/
def strMember (name : String) (t : Text) : Str × Value := member name (.str (chars t))

def sourceMembers (record : Record φ) : Members :=
  [strMember "file" (orEmpty record.file), member "line" (.num record.line 0),
    strMember "func" (orEmpty record.func), member "thread" (.num record.tid 0),
    member "pid" (.num record.pid 0), strMember "tag" (orEmpty record.tag)]

def moduleMember (record : Record φ) : Str × Value := strMember "module" (orEmpty record.module)

/-- The ids that are not zero, in hex digits. -/
def traceMembers (record : Record φ) : Members :=
  (if record.traceId ≠ 0 then [strMember "trace_id" (Trace.hexBytes record.traceId)] else []) ++
  if record.spanId ≠ 0 then [strMember "span_id" (Trace.hexBytes record.spanId)] else []

/-- The time text, and six digits of microseconds. -/
def timeMember (timeBuf : Text) (record : Record φ) : Str × Value :=
  strMember "timestamp" (timeBuf ++ 46 :: (decimal (record.timestamp % 1000000)).leftpad 6 48)

/-- The object a line of `format_json_ex` stands for. -/
def jsonValue (timeBuf : Text) (record : Record φ) : Value :=
  .obj (timeMember timeBuf record :: strMember "level" (levelToString record.level) ::
    moduleMember record :: (sourceMembers record ++ (traceMembers record ++
      strMember "message" (orEmpty record.message) :: kvMembers snprintf6g record)))

/-- The members of a line of `format_otel_json` before its attributes. -/
def otelMembers (timeBuf : Text) (record : Record φ) : Members :=
  timeMember timeBuf record :: strMember "severity" (levelToString record.level) ::
    member "severity_number" (.num (otelSeverityNumber record.level) 0) ::
    (traceMembers record ++ [strMember "body" (orEmpty record.message)])

def otelAttributes (record : Record φ) : Members :=
  moduleMember record :: (sourceMembers record ++ kvMembers snprintf6g record)

/-- The object a line of `format_otel_json` stands for. -/
def otelValue (timeBuf : Text) (record : Record φ) : Value :=
  .obj (otelMembers timeBuf record ++
    [member "attributes" (.obj (otelAttributes snprintf6g record))])

end Values

/-! ### Strings and numbers -/

/-- A byte that stands for itself in a JSON string. -/
def Plain (c : UInt8) : Prop := c ≠ 34 ∧ c ≠ 92 ∧ 32 ≤ c

instance : DecidablePred Plain := fun c =>
  inferInstanceAs (Decidable (c ≠ 34 ∧ c ≠ 92 ∧ 32 ≤ c))

theorem spells_of_plain {t : Text} (h : ∀ c ∈ t, Plain c) : Spells t (chars t) := by
  induction t with
  | nil => exact Json.spells_nil
  | cons c t ih =>
    obtain ⟨hq, hb, hlow⟩ := h c (List.mem_cons_self ..)
    exact (Json.spells_plain hq hb hlow).append (ih fun x hx => h x (List.mem_cons_of_mem _ hx))

theorem hexDigit_hexd {n : ℕ} (h : n < 16) : Json.hexDigit (Trace.hexd n) = some n := by
  interval_cases n <;> rfl

/-- An escape stands for its character. -/
theorem spells_jsonEscape (c : UInt8) : Spells (jsonEscape c) [c.toNat] := by
  unfold jsonEscape
  split_ifs with hq hb hbs hff hlf hcr htab hlow
  · subst hq
    exact Json.spells_escaped (by decide) rfl
  · subst hb
    exact Json.spells_escaped (by decide) rfl
  · subst hbs
    exact Json.spells_escaped (by decide) rfl
  · subst hff
    exact Json.spells_escaped (by decide) rfl
  · subst hlf
    exact Json.spells_escaped (by decide) rfl
  · subst hcr
    exact Json.spells_escaped (by decide) rfl
  · subst htab
    exact Json.spells_escaped (by decide) rfl
  · have hc : c.toNat < 256 := c.toNat_lt
    have hhex := Json.spells_hex (x := 0) (y := 0) (a := 48) (b := 48) rfl rfl
      (hexDigit_hexd (n := c.toNat / 16) (by omega)) (hexDigit_hexd (n := c.toNat % 16) (by omega))
    rwa [show 16 * (16 * (16 * 0 + 0) + c.toNat / 16) + c.toNat % 16 = c.toNat by omega] at hhex
  · exact Json.spells_plain hq hb (UInt8.not_lt.1 hlow)

/-- **An escaped string stands for its characters.** -/
theorem spells_escapeText (s : Text) : Spells (escapeText s) (chars s) := by
  induction s with
  | nil => exact Json.spells_nil
  | cons c s ih => exact (spells_jsonEscape c).append ih

theorem reads_clogU32toa (n : ℕ) : Reads (clogU32toa n) (.num n 0) :=
  clogU32toa_eq n ▸ (Json.reads_decimal n).1

theorem reads_clogU64toa (n : ℕ) : Reads (clogU64toa n) (.num n 0) :=
  clogU64toa_eq n ▸ (Json.reads_decimal n).1

/-- A sign and the digits of the absolute value. -/
theorem reads_signed (i : ℤ) :
    Reads (if i < 0 then 45 :: decimal i.natAbs else decimal i.toNat) (.num i 0) := by
  split_ifs with hi
  · have h := (Json.reads_decimal i.natAbs).2 (by omega)
    rwa [show -(i.natAbs : ℤ) = i by omega] at h
  · have h := (Json.reads_decimal i.toNat).1
    rwa [show (i.toNat : ℤ) = i by omega] at h

theorem reads_clogI32toa (i : ℤ) : Reads (clogI32toa i) (.num i 0) := by
  simpa only [clogI32toa, clogU32toa_eq] using reads_signed i

theorem reads_clogI64toa (i : ℤ) : Reads (clogI64toa i) (.num i 0) := by
  simpa only [clogI64toa, clogU64toa_eq] using reads_signed i

/-! ### Members -/

/-- The text of `f` is read as the name and the value `m`. -/
structure Means (f : Field) (m : Str × Value) : Prop where
  key : Spells f.key.text m.1
  val : Reads f.val.text m.2
  given : ∀ s, f.key = .given s → m.1 = chars s
  str : ∀ s, f.val = .str s → m.2 = .str (chars s)

/-- An escaped string reads back as itself. -/
theorem reads_escaped (s : Text) : Reads (FieldVal.str s).text (.str (chars s)) :=
  Json.reads_str (spells_escapeText s)

theorem means_str {n : String} (hname : ∀ c ∈ str n, Plain c) (s : Text) :
    Means ⟨.fixed (str n), .str s⟩ (strMember n s) :=
  ⟨spells_of_plain hname, reads_escaped s, nofun, fun _ h => FieldVal.str.inj h ▸ rfl⟩

theorem means_raw {n : String} (hname : ∀ c ∈ str n, Plain c) {t : Text} {v : Value}
    (h : Reads t v) : Means ⟨.fixed (str n), .raw t⟩ (member n v) :=
  ⟨spells_of_plain hname, h, nofun, nofun⟩

theorem means_quoted {n : String} (hname : ∀ c ∈ str n, Plain c) {t : Text}
    (h : ∀ c ∈ t, Plain c) : Means ⟨.fixed (str n), .raw (quoted t)⟩ (strMember n t) :=
  means_raw hname (Json.reads_str (spells_of_plain h))

/-- A string may be cut. -/
theorem Means.cut {k : FieldKey} {s : Text} {m : Str × Value} (h : Means ⟨k, .str s⟩ m)
    (a : Text) : Means ⟨k, .str a⟩ (m.1, .str (chars a)) :=
  ⟨h.key, reads_escaped a, h.given, fun _ ha => FieldVal.str.inj ha ▸ rfl⟩

theorem raw_ne_nil {fs : List Field} {ms : Members} (h : List.Forall₂ Means fs ms) :
    ∀ f ∈ fs, ∀ t, f.val = .raw t → t ≠ [] := by
  induction h with
  | nil => exact nofun
  | @cons f m fs ms hf _ ih =>
    intro g hg t ht
    rcases List.mem_cons.1 hg with rfl | hg
    · have := hf.val.ne_nil
      rwa [ht] at this
    · exact ih g hg t ht

theorem FieldsCut.means {gs fs : List Field} (h : FieldsCut gs fs) :
    ∀ {ms : Members}, List.Forall₂ Means fs ms → ∃ ms', List.Forall₂ Means gs ms' ∧
      ∀ before : Members, Cuts (.obj (before ++ ms')) (.obj (before ++ ms)) := by
  induction h with
  | refl fs => exact fun {ms} hm => ⟨ms, hm, fun _ => .members (List.prefix_refl _)⟩
  | last k fs hpre =>
    rintro _ (_ | @⟨_, ⟨name, v⟩, _, ms, hm, -⟩)
    obtain rfl : v = _ := hm.str _ rfl
    exact ⟨_, .cons (hm.cut _) .nil, fun _ => .last (.str (hpre.map _))⟩
  | cons f _ ih =>
    rintro _ (_ | @⟨_, m, _, ms, hm, hms⟩)
    obtain ⟨ms', hms', hcut⟩ := ih hms
    exact ⟨m :: ms', .cons hm hms', fun before => by simpa using hcut (before ++ [m])⟩

/-! ### Reading the members of a line -/

section Read

variable {d : ℕ} {fs : List Field} {ms : Members}

/-- One member, behind the comma or the brace. -/
theorem Means.read {f : Field} {m : Str × Value} (h : Means f m) (st : List Frame)
    (before : Members) :
    ∃ s, run Json.step ⟨st, .key before⟩ f.text.tail = some s ∧ InObject st (before ++ [m]) s :=
  Json.run_member h.key h.val st before

/-- The members behind a member. -/
theorem read_members (h : List.Forall₂ Means fs ms) {st : List Frame} {before : Members}
    {s : Json.State} (hs : InObject st before s) :
    ∃ s', run Json.step s (textOf fs) = some s' ∧ InObject st (before ++ ms) s' := by
  induction h generalizing before s with
  | nil => exact ⟨s, rfl, by simpa using hs⟩
  | @cons f m fs ms hf _ ih =>
    obtain ⟨s₁, hrun₁, hs₁⟩ := hs.member hf.key hf.val
    obtain ⟨s₂, hrun₂, hs₂⟩ := ih hs₁
    refine ⟨s₂, ?_, by simpa using hs₂⟩
    rw [textOf, List.flatMap_cons, run_append, Field.text, hrun₁]
    exact hrun₂

/-- The brace before the first member. -/
theorem run_open (hne : fs ≠ []) (st : List Frame) (rest : Text) :
    run Json.step ⟨st, .value⟩ (123 :: ((textOf fs).tail ++ rest)) =
      run Json.step ⟨st, .key []⟩ ((textOf fs).tail ++ rest) := by
  obtain ⟨f, fs, rfl⟩ := List.exists_cons_of_ne_nil hne
  rfl

/-- The members of an object, behind its brace. -/
theorem read_object (h : List.Forall₂ Means fs ms) (hne : fs ≠ []) (st : List Frame)
    (before : Members) :
    ∃ s, run Json.step ⟨st, .key before⟩ (textOf fs).tail = some s ∧
      InObject st (before ++ ms) s := by
  cases h with
  | nil => exact absurd rfl hne
  | @cons f m fs ms hf hms =>
    obtain ⟨s₁, hrun₁, hs₁⟩ := hf.read st before
    obtain ⟨s₂, hrun₂, hs₂⟩ := read_members hms hs₁
    refine ⟨s₂, ?_, by simpa using hs₂⟩
    change run Json.step _ (f.text.tail ++ textOf fs) = _
    rw [run_append, hrun₁]
    exact hrun₂

/-- What `Ends` leaves reads as cut members. -/
theorem Ends.read (hd : 0 < d) {w : Text} (h : Ends d fs (44 :: w))
    (hm : List.Forall₂ Means fs ms) (st : List Frame) (before : Members) :
    ∃ ms' s, run Json.step ⟨st, .key before⟩ w = run Json.step s (closers d) ∧
      InObject st (before ++ ms') s ∧
      ∀ before : Members, Cuts (.obj (before ++ ms')) (.obj (before ++ ms)) := by
  obtain ⟨gs, hcut, htext⟩ := h
  obtain ⟨ms', hms', hcuts⟩ := hcut.means hm
  have hne : gs ≠ [] := by
    rintro rfl
    obtain ⟨d, rfl⟩ := Nat.exists_eq_succ_of_ne_zero hd.ne'
    exact absurd (List.cons.inj htext).1 (by decide)
  obtain ⟨s, hrun, hs⟩ := read_object hms' hne st before
  refine ⟨ms', s, ?_, hs, hcuts⟩
  obtain ⟨g, gs, rfl⟩ := List.exists_cons_of_ne_nil hne
  obtain rfl : w = (textOf (g :: gs)).tail ++ closers d := (List.cons.inj htext).2
  rw [run_append, hrun]
  rfl

theorem Spoils.eq_cons {t : Text} (h : Spoils d fs t) : t = 44 :: t.tail := by
  cases h <;> rfl

/-- A spoilt text is refused, or ends with another key. -/
theorem Spoils.read (hd : 0 < d) {t : Text} (h : Spoils d fs t) (st : List Frame) :
    ∀ {ms : Members}, List.Forall₂ Means fs ms → ∀ before : Members,
      run Json.step ⟨st, .key before⟩ t.tail = none ∨
      ∃ pre k k' v v' post s, before ++ ms = pre ++ (k, v) :: post ∧ k' ≠ k ∧
        run Json.step ⟨st, .key before⟩ t.tail = run Json.step s (closers d) ∧
        InObject st (pre ++ [(k', v')]) s := by
  obtain ⟨d, rfl⟩ := Nat.exists_eq_succ_of_ne_zero hd.ne'
  induction h with
  | name fs e =>
    exact fun _ before => .inl (Json.not_nameless (spells_escapeText e) st before (closers d))
  | @lost k k' val val' fs hne hval =>
    rintro _ (_ | @⟨_, ⟨name, v⟩, _, ms, hm, -⟩) before
    obtain rfl : name = _ := hm.given k rfl
    obtain ⟨v', hv'⟩ : ∃ v', Reads val'.text v' := by
      rcases hval with rfl | ⟨e, rfl⟩
      · exact ⟨v, hm.val⟩
      · exact ⟨_, reads_escaped e⟩
    obtain ⟨s, hrun, hs⟩ := Json.run_member (spells_escapeText k') hv' st before
    refine .inr ⟨before, chars k, chars k', v, v', ms, s, rfl, chars_injective.ne hne, ?_, hs⟩
    change run Json.step ⟨st, .inKey before [] .plain⟩
      ((escapeText k' ++ 34 :: 58 :: val'.text) ++ closers (d + 1)) = _
    rw [run_append, hrun]
    rfl
  | @shift k a s fs e hpre =>
    rintro _ (_ | @⟨_, m, _, ms, hm, -⟩) before
    obtain ⟨s, hrun, hs⟩ := (hm.cut a).read st before
    refine .inl ?_
    change run Json.step _ ((Field.text ⟨k, .str a⟩).tail ++ 44 :: _) = _
    rw [run_append, hrun, Option.bind_some, run, hs.comma]
    exact Json.not_nameless (spells_escapeText e) st _ (closers d)
  | @cons f fs t ht ih =>
    rintro _ (_ | @⟨_, m, _, ms, hm, hms⟩) before
    obtain ⟨s, hrun, hs⟩ := hm.read st before
    have hnext : run Json.step ⟨st, .key before⟩ (f.text ++ t).tail =
        run Json.step ⟨st, .key (before ++ [m])⟩ t.tail := by
      change run Json.step _ (f.text.tail ++ t) = _
      rw [run_append, hrun, Option.bind_some, ht.eq_cons, run, hs.comma]
      rfl
    rw [hnext]
    simpa using ih hms (before ++ [m])

theorem Spoils.quote {t : Text} (h : Spoils d fs t) : ∃ w, t.tail = 34 :: w := by
  cases h <;> exact ⟨_, rfl⟩

theorem Ends.quote (hd : 0 < d) {w : Text} (h : Ends d fs (44 :: w)) : ∃ w', w = 34 :: w' := by
  obtain ⟨gs, -, htext⟩ := h
  cases gs with
  | nil =>
    obtain ⟨d, rfl⟩ := Nat.exists_eq_succ_of_ne_zero hd.ne'
    exact absurd (List.cons.inj htext).1 (by decide)
  | cons g gs => exact ⟨_, (List.cons.inj htext).2⟩

end Read

/-! ### Lines -/

/-- The text stands for a part of `value`. -/
def StandsFor (value : Value) (t : Text) : Prop :=
  ∃ v, Json.parse t = some v ∧ Cuts v value

/-- A place in a line where an object may stand: behind the text `before`, in `st`, with `d` braces
behind its members.  The line is `wrap ms` if the object has the members `ms`. -/
structure Place (d : ℕ) (before : Text) (st : List Frame) (wrap : Members → Value) : Prop where
  pos : 0 < d
  opens : run Json.step ⟨[], .value⟩ before = some ⟨st, .value⟩
  closes : ∀ {ms s}, InObject st ms s → run Json.step s (closers d) = some ⟨[], .done (wrap ms)⟩
  cuts : ∀ {ms ms'}, Cuts (wrap ms') (wrap ms) ↔ Cuts (.obj ms') (.obj ms)

/-- The object is the line. -/
theorem place_root : Place 1 [] [] .obj where
  pos := one_pos
  opens := rfl
  closes h := by rw [show closers 1 = [125] from rfl, run, h.brace]; rfl
  cuts := Iff.rfl

/-- The object is the last member of the line. -/
theorem place_member {before : Text} {ms : Members} {k : Str}
    (h : run Json.step ⟨[], .value⟩ before = some ⟨[.obj ms k], .value⟩) :
    Place 2 before [.obj ms k] (fun inner => .obj (ms ++ [(k, .obj inner)])) where
  pos := two_pos
  opens := h
  closes {inner s} hs := by
    have houter : InObject [] (ms ++ [(k, .obj inner)]) ⟨[.obj ms k], .done (.obj inner)⟩ :=
      ⟨ms, k, _, _, rfl, rfl, rfl⟩
    rw [show closers 2 = [125, 125] from rfl, run, hs.brace, Option.bind_some, run, houter.brace]
    rfl
  cuts := ⟨Cuts.inner, fun hcut => .last hcut⟩

section Place

variable {d : ℕ} {before : Text} {st : List Frame} {wrap : Members → Value} {fs : List Field}
  {ms : Members}

/-- **A line that ends well stands for a part of its value.** -/
theorem Place.stands (h : Place d before st wrap) (hm : List.Forall₂ Means fs ms) {w : Text}
    (hends : Ends d fs (44 :: w)) : StandsFor (wrap ms) (before ++ 123 :: w) := by
  obtain ⟨ms', s, hrun, hs, hcut⟩ := hends.read h.pos hm st []
  obtain ⟨w, rfl⟩ := hends.quote h.pos
  refine ⟨wrap ms', Json.parse_of_run ?_, h.cuts.2 (hcut [])⟩
  rw [run_append, h.opens, Option.bind_some, Json.run_brace, hrun]
  exact h.closes hs

/-- **A line in full stands for its value.** -/
theorem Place.parse (h : Place d before st wrap) (hm : List.Forall₂ Means fs ms) (hne : fs ≠ []) :
    Json.parse (before ++ 123 :: ((textOf fs).tail ++ closers d)) = some (wrap ms) := by
  obtain ⟨s, hrun, hs⟩ := read_object hm hne st []
  refine Json.parse_of_run ?_
  rw [run_append, h.opens, Option.bind_some, run_open hne, run_append, hrun]
  exact h.closes hs

/-- **A spoiled line does not.** -/
theorem Place.not_stands (h : Place d before st wrap) (hm : List.Forall₂ Means fs ms) {t : Text}
    (hspoils : Spoils d fs t) : ¬ StandsFor (wrap ms) (before ++ 123 :: t.tail) := by
  rintro ⟨v, hparse, hcut⟩
  have hrun : run Json.step ⟨[], .value⟩ (before ++ 123 :: t.tail) =
      run Json.step ⟨st, .key []⟩ t.tail := by
    obtain ⟨w, hw⟩ := hspoils.quote
    rw [run_append, h.opens, Option.bind_some, hw, Json.run_brace]
  rcases hspoils.read h.pos st hm [] with hnone | ⟨pre, k, k', v₁, v', post, s, hms, hne, hs, hin⟩
  · rw [Json.parse, hrun, hnone] at hparse
    cases hparse
  · rw [hs, h.closes hin] at hrun
    rw [Json.parse_of_run hrun] at hparse
    cases hparse
    rw [List.nil_append] at hms
    rw [h.cuts, hms] at hcut
    exact hne hcut.after.1

end Place

end Formatter
end Clogx
