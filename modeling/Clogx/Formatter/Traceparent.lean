/-
# The `TRACEPARENT` of the environment

`parse_traceparent` of `core/formatter_otel.c`, by which `format_otel_json` takes
the ids of a record from the environment, next to the header that
`clog_span_join` takes.  The one looks for the first dash and checks what follows
piece by piece, the other looks at fixed places.

Here is exactly when the two accept the same text, and exactly when the pair of
ids that a record has afterwards is a pair that was set together.
-/

import Clogx.Formatter.Json
import Clogx.Trace.Header

namespace Clogx
namespace Formatter

open CLib
open Trace (TraceId SpanId Thread parseHexByte parseHexId spanMaxDepth clogSpanJoin)

/-- `hex_nibble`. -/
def hexNibble : UInt8 → Option ℕ := Trace.parseHexNibble

/-- `hex_decode` with `k` bytes to go, from byte `i` on. -/
def hexDecodeFrom {n : ℕ} (hex : Text) : ℕ → ℕ → (Fin n → UInt8) → Bool × (Fin n → UInt8)
  | 0, _, out => (true, out)
  | k + 1, i, out =>
    match hexNibble (hex.getD (2 * i) 0), hexNibble (hex.getD (2 * i + 1) 0) with
    | some hi, some lo =>
      hexDecodeFrom hex k (i + 1) fun j => if j.val = i then (hi * 16 + lo).toUInt8 else out j
    | _, _ => (false, out)

/-- `hex_decode`: whether it succeeds, and the bytes afterwards. -/
def hexDecode {n : ℕ} (hex : Text) (out : Fin n → UInt8) : Bool × (Fin n → UInt8) :=
  hexDecodeFrom hex n 0 out

/-- Where `parse_traceparent` returns. -/
inductive Exit
  | unset
  | noDash
  | shortTrace
  | badTrace
  | noSecondDash
  | shortSpan
  | badSpan
  | parsed
deriving DecidableEq

/-- `parse_traceparent` with the value of `TRACEPARENT`: where it returns, and the ids afterwards. -/
def parseTraceparent (tp : Option CString) (traceId : TraceId) (spanId : SpanId) :
    Exit × TraceId × SpanId :=
  match tp with
  | none => (.unset, traceId, spanId)
  | some tp =>
    if tp.val = [] then (.unset, traceId, spanId)
    else
      let p := tp.val.dropWhile (· ≠ 45)
      if p = [] then (.noDash, traceId, spanId)
      else
        let p := p.drop 1
        if p.length < 32 then (.shortTrace, traceId, spanId)
        else
          let trace := hexDecode p traceId
          if trace.1 = false then (.badTrace, 0, spanId)
          else
            let p := p.drop 32
            if p.getD 0 0 ≠ 45 then (.noSecondDash, 0, spanId)
            else
              let p := p.drop 1
              if p.length < 16 then (.shortSpan, 0, spanId)
              else
                let span := hexDecode p spanId
                if span.1 = false then (.badSpan, 0, 0)
                else (.parsed, trace.2, span.2)

/-! ### What the decoder reads -/

/-- The loop of `hex_decode` reads the bytes that are still to go, or stops at one that is no hex. -/
theorem hexDecodeFrom_eq {n : ℕ} (hex : Text) : ∀ (k i : ℕ) (out : Fin n → UInt8), i + k = n →
    ((hexDecodeFrom hex k i out).1 = true ↔
      ∀ j : Fin n, i ≤ j.val → (parseHexByte hex (2 * j)).isSome) ∧
    ((hexDecodeFrom hex k i out).1 = true → ∀ j : Fin n, (hexDecodeFrom hex k i out).2 j =
      if i ≤ j.val then (parseHexByte hex (2 * j)).getD 0 else out j)
  | 0, i, out, hn => by
      refine ⟨⟨fun _ j hj => absurd j.isLt (by omega), fun _ => rfl⟩, fun _ j => ?_⟩
      rw [if_neg (by have := j.isLt; omega)]
      rfl
  | k + 1, i, out, hn => by
      have hbyte : parseHexByte hex (2 * i) =
          (hexNibble (hex.getD (2 * i) 0)).bind fun hi =>
            (hexNibble (hex.getD (2 * i + 1) 0)).map fun lo => (hi * 16 + lo).toUInt8 := by
        rw [parseHexByte, ← hexNibble]
        cases hexNibble (hex.getD (2 * i) 0) <;> cases hexNibble (hex.getD (2 * i + 1) 0) <;> rfl
      have hlt : i < n := by omega
      rw [hexDecodeFrom]
      split
      next hi lo hhi hlo =>
        rw [hhi, hlo] at hbyte
        obtain ⟨hok, hout⟩ := hexDecodeFrom_eq hex k (i + 1)
          (fun j => if j.val = i then (hi * 16 + lo).toUInt8 else out j) (by omega)
        refine ⟨hok.trans ⟨fun h j hj => ?_, fun h j hj => h j (by omega)⟩, fun hdone j => ?_⟩
        · rcases Nat.eq_or_lt_of_le hj with heq | hgt
          · rw [← heq, hbyte]
            rfl
          · exact h j hgt
        · rw [hout hdone j]
          rcases lt_trichotomy j.val i with hj | hj | hj
          · rw [if_neg (by omega), if_neg (by omega), if_neg (by omega)]
          · rw [if_neg (by omega), if_pos hj, if_pos (by omega), hj, hbyte]
            rfl
          · rw [if_pos (by omega), if_pos (by omega)]
      next hbad =>
        refine ⟨⟨fun h => (by cases h), fun h => ?_⟩, fun h => (by cases h)⟩
        have hsome := h ⟨i, hlt⟩ le_rfl
        rw [hbyte] at hsome
        obtain ⟨b, hb⟩ := Option.isSome_iff_exists.1 hsome
        obtain ⟨hi, hhi, hmap⟩ := Option.bind_eq_some_iff.1 hb
        obtain ⟨lo, hlo, -⟩ := Option.map_eq_some_iff.1 hmap
        exact (hbad hi lo hhi hlo).elim

/-- **`hex_decode` reads an id in hex** or fails. -/
theorem hexDecode_eq {n : ℕ} (hex : Text) (out : Fin n → UInt8) :
    ((hexDecode hex out).1 = false ∧ parseHexId n hex 0 = none) ∨
      ∃ id, hexDecode hex out = (true, id) ∧ parseHexId n hex 0 = some id := by
  obtain ⟨hok, hout⟩ := hexDecodeFrom_eq hex n 0 out (Nat.zero_add n)
  simp only [Nat.zero_le, forall_const, if_true] at hok hout
  cases hdone : (hexDecode hex out).1 with
  | false =>
    refine .inl ⟨rfl, if_neg fun h => ?_⟩
    simp only [Nat.zero_add] at h
    rw [hexDecode, hok.2 h] at hdone
    cases hdone
  | true =>
    refine .inr ⟨(hexDecode hex out).2, Prod.ext hdone rfl, ?_⟩
    refine (if_pos ?_).trans (congrArg some (funext fun j => ?_))
    · simpa only [Nat.zero_add] using hok.1 hdone
    · rw [Nat.zero_add]
      exact (hout hdone j).symm

/-- A byte is read inside the text only. -/
theorem lt_length_of_parseHexByte {t : Text} {i : ℕ} (h : (parseHexByte t i).isSome) :
    i + 1 < t.length := by
  by_contra hge
  obtain ⟨b, hb⟩ := Option.isSome_iff_exists.1 h
  obtain ⟨hi, -, hb⟩ := Option.bind_eq_some_iff.1 hb
  obtain ⟨lo, hlo, -⟩ := Option.bind_eq_some_iff.1 hb
  rw [List.getD_eq_getElem?_getD, List.getElem?_eq_none (by omega)] at hlo
  cases hlo

theorem le_length_of_parseHexId {n : ℕ} {t : Text} {i : ℕ} {id : Fin (n + 1) → UInt8}
    (h : parseHexId (n + 1) t i = some id) : i + 2 * (n + 1) ≤ t.length := by
  have hlast := Trace.parseHexId_eq_some_iff.1 h (Fin.last n)
  have hlt := lt_length_of_parseHexByte (Option.isSome_iff_exists.2 ⟨_, hlast⟩)
  rw [Fin.val_last] at hlt
  omega

theorem parseHexByte_drop (t : Text) (k i : ℕ) :
    parseHexByte (t.drop k) i = parseHexByte t (k + i) := by
  simp only [parseHexByte, List.getD_eq_getElem?_getD, List.getElem?_drop, Nat.add_assoc]

theorem parseHexId_drop (n : ℕ) (t : Text) (k i : ℕ) :
    parseHexId n (t.drop k) i = parseHexId n t (k + i) := by
  simp only [parseHexId, parseHexByte_drop, Nat.add_assoc]

/-- What follows the first dash. -/
def afterDash (t : Text) : Option Text :=
  match t.dropWhile (· ≠ 45) with
  | [] => none
  | _ :: p => some p

/-- The two ids from place `i` on: 32 hex digits, a dash and 16 hex digits. -/
def idFields (t : Text) (i : ℕ) : Option (TraceId × SpanId) := do
  let tid ← parseHexId 16 t i
  if t.getD (i + 32) 0 = 45 then
    let sid ← parseHexId 8 t (i + 33)
    return (tid, sid)
  else none

theorem idFields_eq_some_iff {t : Text} {i : ℕ} {ids : TraceId × SpanId} :
    idFields t i = some ids ↔ parseHexId 16 t i = some ids.1 ∧ t.getD (i + 32) 0 = 45 ∧
      parseHexId 8 t (i + 33) = some ids.2 := by
  rw [idFields]
  cases htid : parseHexId 16 t i with
  | none => exact ⟨fun h => (by cases h), fun h => (by cases h.1)⟩
  | some tid =>
    simp only [Option.bind_eq_bind, Option.bind_some]
    by_cases hdash : t.getD (i + 32) 0 = 45
    · rw [if_pos hdash]
      cases hsid : parseHexId 8 t (i + 33) with
      | none => exact ⟨fun h => (by cases h), fun h => (by cases h.2.2)⟩
      | some sid =>
        refine ⟨fun h => ?_, fun ⟨h1, _, h2⟩ => ?_⟩
        · cases h
          exact ⟨rfl, hdash, rfl⟩
        · rw [Option.some.inj h1, Option.some.inj h2]
          rfl
    · rw [if_neg hdash]
      exact ⟨fun h => (by cases h), fun h => absurd h.2.1 hdash⟩

/-- Without a dash `parse_traceparent` leaves the ids alone. -/
theorem parseTraceparent_of_no_dash {tp : CString} (h : afterDash tp.val = none) (traceId : TraceId)
    (spanId : SpanId) : ∃ e, e ≠ Exit.parsed ∧
      parseTraceparent (some tp) traceId spanId = (e, traceId, spanId) := by
  have hp : tp.val.dropWhile (· ≠ 45) = [] := by
    rw [afterDash] at h
    split at h
    next hnil => exact hnil
    next => cases h
  rw [parseTraceparent]
  split_ifs with hempty
  · exact ⟨.unset, by decide, rfl⟩
  · exact ⟨.noDash, by decide, by rw [hp]; rfl⟩

/-- **The exits behind the first dash,** by the text that follows it. -/
theorem parseTraceparent_of_dash {tp : CString} {p : Text} (h : afterDash tp.val = some p)
    (traceId : TraceId) (spanId : SpanId) :
    parseTraceparent (some tp) traceId spanId =
      if p.length < 32 then (.shortTrace, traceId, spanId)
      else
        match parseHexId 16 p 0 with
        | none => (.badTrace, 0, spanId)
        | some tid =>
          if p.getD 32 0 ≠ 45 then (.noSecondDash, 0, spanId)
          else if p.length < 49 then (.shortSpan, 0, spanId)
          else
            match parseHexId 8 p 33 with
            | none => (.badSpan, 0, 0)
            | some sid => (.parsed, tid, sid) := by
  obtain ⟨c, hp⟩ : ∃ c, tp.val.dropWhile (· ≠ 45) = c :: p := by
    rw [afterDash] at h
    split at h
    next => cases h
    next c q hq => exact ⟨c, by rw [hq, Option.some.inj h]⟩
  have hne : tp.val ≠ [] := by
    intro hnil
    rw [hnil] at hp
    cases hp
  have hdash : (p.drop 32).getD 0 0 = p.getD 32 0 := by
    rw [List.getD_eq_getElem?_getD, List.getElem?_drop, ← List.getD_eq_getElem?_getD]
  have hspan : ∀ (out : SpanId), hexDecode ((p.drop 32).drop 1) out = hexDecode (p.drop 33) out := by
    intro out
    rw [List.drop_drop]
  have hlen : ((p.drop 32).drop 1).length < 16 ↔ p.length < 49 := by
    rw [List.length_drop, List.length_drop]
    omega
  simp only [parseTraceparent, if_neg hne, hp, List.cons_ne_nil, if_false, List.drop_succ_cons,
    List.drop_zero, hdash, hspan, hlen]
  refine if_congr Iff.rfl rfl ?_
  rcases hexDecode_eq p traceId with ⟨hbad, hnone⟩ | ⟨tid, hok, hsome⟩
  · rw [hbad, hnone]
    rfl
  · rw [hok, hsome]
    simp only [Bool.true_eq_false, if_false]
    refine if_congr Iff.rfl rfl (if_congr Iff.rfl rfl ?_)
    have hplace : parseHexId 8 (p.drop 33) 0 = parseHexId 8 p 33 := parseHexId_drop 8 p 33 0
    rcases hexDecode_eq (p.drop 33) spanId with ⟨hbad, hnone⟩ | ⟨sid, hok, hsome⟩
    · rw [hbad, ← hplace, hnone]
      rfl
    · rw [hok, ← hplace, hsome]
      rfl

/-- **`parse_traceparent` reaches its end** exactly if two ids follow the first dash, and then they are
the ids it sets. -/
theorem parseTraceparent_parsed_iff (tp : CString) (traceId : TraceId) (spanId : SpanId)
    (ids : TraceId × SpanId) : parseTraceparent (some tp) traceId spanId = (.parsed, ids) ↔
      ∃ p, afterDash tp.val = some p ∧ idFields p 0 = some ids := by
  cases hafter : afterDash tp.val with
  | none =>
    obtain ⟨e, he, heq⟩ := parseTraceparent_of_no_dash hafter traceId spanId
    rw [heq]
    exact ⟨fun h => absurd (congrArg Prod.fst h) he, fun ⟨_, h, _⟩ => (by cases h)⟩
  | some p =>
    simp only [parseTraceparent_of_dash hafter, Option.some.injEq, exists_eq_left',
      idFields_eq_some_iff, Nat.zero_add]
    by_cases hshort : p.length < 32
    · rw [if_pos hshort]
      refine ⟨fun h => (by cases h), fun h => ?_⟩
      have := le_length_of_parseHexId h.1
      omega
    · rw [if_neg hshort]
      cases htid : parseHexId 16 p 0 with
      | none => exact ⟨fun h => (by cases h), fun h => (by cases h.1)⟩
      | some tid =>
        by_cases hdash : p.getD 32 0 = 45
        · dsimp only
          rw [if_neg (not_not.2 hdash)]
          by_cases hlen : p.length < 49
          · rw [if_pos hlen]
            refine ⟨fun h => (by cases h), fun h => ?_⟩
            have := le_length_of_parseHexId h.2.2
            omega
          · rw [if_neg hlen]
            cases hsid : parseHexId 8 p 33 with
            | none => exact ⟨fun h => (by cases h), fun h => (by cases h.2.2)⟩
            | some sid =>
              refine ⟨fun h => ?_, fun ⟨h1, _, h2⟩ => ?_⟩
              · cases h
                exact ⟨rfl, hdash, rfl⟩
              · rw [Option.some.inj h1, Option.some.inj h2]
        · dsimp only
          rw [if_pos hdash]
          exact ⟨fun h => (by cases h), fun h => absurd h.2.1 hdash⟩

/-! ### The two readers -/

/-- The header that `clog_span_join` takes: dashes at places 2, 35 and 52, the two ids between them,
and flags at the end. -/
def HeaderShape (t : Text) : Prop :=
  t.getD 2 0 = 45 ∧ (idFields t 3).isSome ∧ t.getD 52 0 = 45 ∧ (parseHexByte t 53).isSome

/-- A header is accepted exactly when it has the shape. -/
theorem joined_iff {t : Text} : (Trace.parseTraceparent t).isSome ↔ HeaderShape t := by
  constructor
  · intro h
    obtain ⟨r, hr⟩ := Option.isSome_iff_exists.1 h
    rw [Trace.parseTraceparent] at hr
    split_ifs at hr with hbad
    simp only [not_or, not_not] at hbad
    obtain ⟨tid, htid, hr⟩ := Option.bind_eq_some_iff.1 hr
    obtain ⟨sid, hsid, hr⟩ := Option.bind_eq_some_iff.1 hr
    obtain ⟨flags, hflags, -⟩ := Option.bind_eq_some_iff.1 hr
    exact ⟨hbad.2.1, Option.isSome_iff_exists.2
      ⟨(tid, sid), idFields_eq_some_iff.2 ⟨htid, hbad.2.2.1, hsid⟩⟩, hbad.2.2.2,
      Option.isSome_iff_exists.2 ⟨flags, hflags⟩⟩
  · rintro ⟨hdash, hids, hdash', hflags⟩
    have hlen := lt_length_of_parseHexByte hflags
    obtain ⟨ids, hids⟩ := Option.isSome_iff_exists.1 hids
    obtain ⟨flags, hflags⟩ := Option.isSome_iff_exists.1 hflags
    obtain ⟨htid, hdash35, hsid⟩ := idFields_eq_some_iff.1 hids
    have hok : ¬ (t.length < 55 ∨ t.getD 2 0 ≠ 45 ∨ t.getD 35 0 ≠ 45 ∨ t.getD 52 0 ≠ 45) := by
      simp only [not_or, not_not]
      exact ⟨by omega, hdash, hdash35, hdash'⟩
    rw [Trace.parseTraceparent, if_neg hok, htid, hsid, hflags]
    rfl

/-- The trace id of a header that is joined is the one at place 3. -/
theorem parseHexId_of_joined {t : Text} {r : TraceId × UInt8}
    (h : Trace.parseTraceparent t = some r) : parseHexId 16 t 3 = some r.1 := by
  rw [Trace.parseTraceparent] at h
  split_ifs at h
  obtain ⟨tid, htid, h⟩ := Option.bind_eq_some_iff.1 h
  obtain ⟨sid, -, h⟩ := Option.bind_eq_some_iff.1 h
  obtain ⟨flags, -, h⟩ := Option.bind_eq_some_iff.1 h
  cases h
  exact htid

/-- `clog_span_join` opens a span exactly for a text that is accepted, if the stack is not full. -/
theorem clogSpanJoin_ne_zero_iff {st : Thread} (hst : st.spanDepth < spanMaxDepth) (t : Text)
    (rs : SpanId) : (clogSpanJoin st (some t) rs).1 ≠ 0 ↔ HeaderShape t := by
  rw [← joined_iff, clogSpanJoin, Option.bind_some]
  cases Trace.parseTraceparent t with
  | none => exact ⟨fun h => absurd rfl h, fun h => (by cases h)⟩
  | some r =>
    dsimp only
    rw [if_neg (by omega)]
    exact ⟨fun _ => rfl, fun _ => Nat.succ_ne_zero _⟩

theorem clogSpanJoin_traceId {st : Thread} (hst : st.spanDepth < spanMaxDepth) {t : Text}
    (rs : SpanId) (h : HeaderShape t) :
    parseHexId 16 t 3 = some (clogSpanJoin st (some t) rs).2.top.traceId := by
  obtain ⟨r, hr⟩ := Option.isSome_iff_exists.1 (joined_iff.2 h)
  rw [clogSpanJoin, Option.bind_some, hr]
  dsimp only
  rw [if_neg (by omega), Trace.top_push hst]
  exact parseHexId_of_joined hr

/-- A text with a dash is a version without one, the dash, and the rest. -/
theorem afterDash_eq_some_iff {t p : Text} :
    afterDash t = some p ↔ ∃ v, t = v ++ 45 :: p ∧ 45 ∉ v := by
  constructor
  · intro h
    rw [afterDash] at h
    split at h
    next => cases h
    next c q hq =>
      cases h
      have hc : c = 45 := by
        have hhead := List.head?_dropWhile_not (· ≠ (45 : UInt8)) t
        rw [hq] at hhead
        simpa using hhead
      subst hc
      refine ⟨t.takeWhile (· ≠ 45), ?_, fun hmem => ?_⟩
      · rw [← hq, List.takeWhile_append_dropWhile]
      · simpa using List.mem_takeWhile_imp hmem
  · rintro ⟨v, rfl, hv⟩
    have hall : ∀ c ∈ v, decide (c ≠ 45) = true := by
      intro c hc
      exact decide_eq_true fun heq => hv (heq ▸ hc)
    rw [afterDash, List.dropWhile_append_of_pos hall]
    rfl

/-- **Where the readers agree.**  The first dash ends a version of two characters, and the two ids, if
they follow it, are followed by a dash and two hex digits; or the first dash is elsewhere, no ids
follow it, and the text has not the shape of a header at the fixed places either. -/
def ReadAlike (t : Text) : Prop :=
  ∀ v p, t = v ++ 45 :: p → 45 ∉ v →
    if v.length = 2 then (idFields p 0).isSome → p.getD 49 0 = 45 ∧ (parseHexByte p 50).isSome
    else idFields p 0 = none ∧ ¬ HeaderShape t

theorem getD_behind (v p : Text) (c : UInt8) (i : ℕ) :
    (v ++ c :: p).getD (v.length + 1 + i) 0 = p.getD i 0 := by
  rw [List.append_cons, ← List.length_singleton (a := c), ← List.length_append]
  exact Trace.getD_append_length_add (v ++ [c]) p i

/-- The identifiers are found behind any version text. -/
theorem idFields_behind (v p : Text) (c : UInt8) :
    idFields (v ++ c :: p) (v.length + 1) = idFields p 0 := by
  have hdrop : (v ++ c :: p).drop (v.length + 1) = p := by
    rw [← List.drop_drop, List.drop_left]
    rfl
  have hid : ∀ n i, parseHexId n (v ++ c :: p) (v.length + 1 + i) = parseHexId n p i := by
    intro n i
    rw [← parseHexId_drop, hdrop]
  have hid0 : parseHexId 16 (v ++ c :: p) (v.length + 1) = parseHexId 16 p 0 := hid 16 0
  rw [idFields, idFields, hid0, hid, getD_behind, Nat.zero_add, Nat.zero_add]

/-- A dash is no hex digit, so the ids cannot stand across one. -/
theorem dash_notMem_idFields {t : Text} {i k : ℕ} (h : (idFields t i).isSome) (hi : i ≤ k)
    (hk : k < i + 32) : t.getD k 0 ≠ 45 := by
  obtain ⟨ids, hids⟩ := Option.isSome_iff_exists.1 h
  have hall := Trace.parseHexId_eq_some_iff.1 (idFields_eq_some_iff.1 hids).1
  have hbyte := hall ⟨(k - i) / 2, by omega⟩
  obtain ⟨hi', hhi, hrest⟩ := Option.bind_eq_some_iff.1 hbyte
  obtain ⟨lo, hlo, -⟩ := Option.bind_eq_some_iff.1 hrest
  intro heq
  rcases Nat.even_or_odd' (k - i) with ⟨m, hm | hm⟩
  · rw [show i + 2 * ((k - i) / 2) = k from by omega, heq] at hhi
    cases hhi
  · rw [show i + 2 * ((k - i) / 2) + 1 = k from by omega, heq] at hlo
    cases hlo

theorem parsed_iff (tp : CString) (traceId : TraceId) (spanId : SpanId) :
    (parseTraceparent (some tp) traceId spanId).1 = .parsed ↔
      ∃ p, afterDash tp.val = some p ∧ (idFields p 0).isSome := by
  constructor
  · intro h
    obtain ⟨p, hp, hids⟩ := (parseTraceparent_parsed_iff tp traceId spanId _).1 (Prod.ext h rfl)
    exact ⟨p, hp, Option.isSome_iff_exists.2 ⟨_, hids⟩⟩
  · rintro ⟨p, hp, hids⟩
    obtain ⟨ids, hids⟩ := Option.isSome_iff_exists.1 hids
    rw [(parseTraceparent_parsed_iff tp traceId spanId ids).2 ⟨p, hp, hids⟩]

section Places

variable {v p : Text} (hv : 45 ∉ v)

/-- With a version of two characters the fixed places are those behind the first dash. -/
theorem headerShape_two (hlen : v.length = 2) : HeaderShape (v ++ 45 :: p) ↔
    (idFields p 0).isSome ∧ p.getD 49 0 = 45 ∧ (parseHexByte p 50).isSome := by
  have hids : idFields (v ++ 45 :: p) 3 = idFields p 0 := by
    rw [← idFields_behind v p 45, hlen]
  have hdash : (v ++ 45 :: p).getD 52 0 = p.getD 49 0 := by
    rw [← getD_behind v p 45, hlen]
  have hflags : parseHexByte (v ++ 45 :: p) 53 = parseHexByte p 50 := by
    rw [show 53 = (v ++ [45]).length + 50 from by simp [hlen], List.append_cons,
      Trace.parseHexByte_append]
  have hfirst : (v ++ 45 :: p).getD 2 0 = 45 := by
    rw [← hlen, List.getD_eq_getElem?_getD, List.getElem?_append_right le_rfl, Nat.sub_self]
    rfl
  rw [HeaderShape, hids, hdash, hflags]
  exact and_iff_right hfirst

include hv in
/-- With a version of another length no text is accepted by both. -/
theorem not_both (hlen : v.length ≠ 2) (hids : (idFields p 0).isSome)
    (hshape : HeaderShape (v ++ 45 :: p)) : False := by
  rcases Nat.lt_or_gt_of_ne hlen with hlt | hgt
  · rw [← idFields_behind v p 45] at hids
    exact dash_notMem_idFields hids (by omega) (by omega) hshape.1
  · have hmem : (v ++ 45 :: p).getD 2 0 ∈ v := by
      rw [List.getD_eq_getElem?_getD, List.getElem?_append_left hgt, List.getElem?_eq_getElem hgt]
      exact List.getElem_mem hgt
    exact hv (hshape.1 ▸ hmem)

include hv in
/-- The version and what follows it are determined by the text. -/
theorem readAlike_iff : ReadAlike (v ++ 45 :: p) ↔
    if v.length = 2 then (idFields p 0).isSome → p.getD 49 0 = 45 ∧ (parseHexByte p 50).isSome
    else idFields p 0 = none ∧ ¬ HeaderShape (v ++ 45 :: p) := by
  refine ⟨fun h => h v p rfl hv, fun h v' p' heq hv' => ?_⟩
  have hafter : afterDash (v ++ 45 :: p) = some p := afterDash_eq_some_iff.2 ⟨v, rfl, hv⟩
  rw [afterDash_eq_some_iff.2 ⟨v', heq, hv'⟩] at hafter
  cases hafter
  rwa [← List.append_cancel_right heq]

end Places

/-- **The trace id of both readers is the same,** behind a version of two characters. -/
theorem top_traceId_eq (tp : CString) {st : Thread} (hst : st.spanDepth < spanMaxDepth) (rs : SpanId)
    (traceId : TraceId) (spanId : SpanId) {v p : Text} (heq : tp.val = v ++ 45 :: p) (hv : 45 ∉ v)
    (hlen : v.length = 2) (hshape : HeaderShape tp.val) (hp : (idFields p 0).isSome) :
    (clogSpanJoin st (some tp.val) rs).2.top.traceId =
      (parseTraceparent (some tp) traceId spanId).2.1 := by
  obtain ⟨ids, hp⟩ := Option.isSome_iff_exists.1 hp
  have hafter := afterDash_eq_some_iff.2 ⟨v, heq, hv⟩
  rw [(parseTraceparent_parsed_iff tp traceId spanId ids).2 ⟨p, hafter, hp⟩]
  have hjoin := clogSpanJoin_traceId hst rs hshape
  have hplace : idFields tp.val 3 = some ids := by
    rw [heq, ← hp, ← idFields_behind v p 45, hlen]
  rw [(idFields_eq_some_iff.1 hplace).1] at hjoin
  exact (Option.some.inj hjoin).symm

theorem headerShape_dash {t : Text} (h : HeaderShape t) : ∃ p, afterDash t = some p := by
  have hmem : 45 ∈ t := by
    have hdash := h.1
    rw [List.getD_eq_getElem?_getD] at hdash
    cases hget : t[2]? with
    | none =>
      rw [hget] at hdash
      cases hdash
    | some c =>
      rw [hget] at hdash
      have hdash : c = 45 := hdash
      exact hdash ▸ List.mem_of_getElem? hget
  obtain ⟨v, p, rfl, hv⟩ := List.eq_append_cons_of_mem hmem
  exact ⟨p, afterDash_eq_some_iff.2 ⟨v, rfl, hv⟩⟩

/-- **The two readers of a `traceparent` agree on a text exactly if they read it alike:** whether it is
accepted, and the trace id. -/
theorem readers_agree_iff (tp : CString) {st : Thread} (hst : st.spanDepth < spanMaxDepth)
    (rs : SpanId) (traceId : TraceId) (spanId : SpanId) :
    (((clogSpanJoin st (some tp.val) rs).1 ≠ 0 ↔
        (parseTraceparent (some tp) traceId spanId).1 = .parsed) ∧
      ((clogSpanJoin st (some tp.val) rs).1 ≠ 0 →
        (parseTraceparent (some tp) traceId spanId).1 = .parsed →
        (clogSpanJoin st (some tp.val) rs).2.top.traceId =
          (parseTraceparent (some tp) traceId spanId).2.1)) ↔
      ReadAlike tp.val := by
  rw [clogSpanJoin_ne_zero_iff hst]
  have hparsed := parsed_iff tp traceId spanId
  cases hafter : afterDash tp.val with
  | none =>
    have hnone : ¬ HeaderShape tp.val := by
      intro h
      obtain ⟨p, hp⟩ := headerShape_dash h
      rw [hafter] at hp
      cases hp
    have hnot : ¬ (parseTraceparent (some tp) traceId spanId).1 = .parsed := by
      rw [hparsed, hafter]
      rintro ⟨p, hp, -⟩
      cases hp
    refine iff_of_true ⟨iff_of_false hnone hnot, fun h => absurd h hnone⟩ fun v p heq hv => ?_
    rw [afterDash_eq_some_iff.2 ⟨v, heq, hv⟩] at hafter
    cases hafter
  | some p =>
    obtain ⟨v, heq, hv⟩ := afterDash_eq_some_iff.1 hafter
    have hids :
        (parseTraceparent (some tp) traceId spanId).1 = .parsed ↔ (idFields p 0).isSome := by
      rw [hparsed, hafter]
      simp only [Option.some.injEq, exists_eq_left']
    have halike := readAlike_iff (p := p) hv
    rw [← heq] at halike
    rw [halike, hids]
    by_cases hlen : v.length = 2
    · have hshape := headerShape_two (p := p) hlen
      rw [← heq] at hshape
      rw [if_pos hlen]
      constructor
      · rintro ⟨h, -⟩ hp
        exact (hshape.1 (h.2 hp)).2
      · intro h
        exact ⟨⟨fun hs => (hshape.1 hs).1, fun hp => hshape.2 ⟨hp, h hp⟩⟩,
          top_traceId_eq tp hst rs traceId spanId heq hv hlen⟩
    · rw [if_neg hlen, ← Option.not_isSome_iff_eq_none]
      have hnot : (idFields p 0).isSome → ¬ HeaderShape tp.val :=
        fun hp hshape => not_both hv hlen hp (heq ▸ hshape)
      constructor
      · rintro ⟨h, -⟩
        exact ⟨fun hp => hnot hp (h.2 hp), fun hshape => hnot (h.1 hshape) hshape⟩
      · rintro ⟨hp, hshape⟩
        exact ⟨iff_of_false hshape hp, fun h => absurd h hshape⟩

/-- Both readers find the ids of a header that the library has written. -/
theorem readAlike_header : ReadAlike (Trace.traceparent 1 2 3) :=
  (readers_agree_iff ⟨Trace.traceparent 1 2 3, Trace.zero_notMem_traceparent 1 2 3⟩
    (by decide : ({} : Thread).spanDepth < spanMaxDepth) 0 0 0).1 (by decide +kernel)

/-- A header without flags. -/
def noFlags : CString :=
  ⟨str "00-11111111111111111111111111111111-2222222222222222", by decide⟩

/-- `parse_traceparent` takes a header without flags, and `clog_span_join` refuses it. -/
theorem noFlags_read_differently :
    (parseTraceparent (some noFlags) 0 0).1 = .parsed ∧
      (clogSpanJoin {} (some noFlags.val) 0).1 = 0 := by
  decide +kernel

/-! ### The pair of ids -/

/-- The pair of ids that the variable encodes. -/
def encodedPair (tp : CString) : Option (TraceId × SpanId) :=
  (afterDash tp.val).bind fun p => idFields p 0

/-- The ids are those that were there, or both zero, or the pair that the variable encodes. -/
def WholePair (tp : Option CString) (before after : TraceId × SpanId) : Prop :=
  after = before ∨ after = (0, 0) ∨ ∃ s, tp = some s ∧ encodedPair s = some after

/-- The text behind the first dash is long enough for a trace id, but does not begin with one, a dash
and 16 more characters. -/
def HalfRead (t : Text) : Prop :=
  ∃ p, afterDash t = some p ∧ 32 ≤ p.length ∧
    ¬ ((parseHexId 16 p 0).isSome ∧ p.getD 32 0 = 45 ∧ 49 ≤ p.length)

/-- A text that is read half-way clears the trace id only. -/
theorem parseTraceparent_of_halfRead {tp : CString} (h : HalfRead tp.val) (traceId : TraceId)
    (spanId : SpanId) : (parseTraceparent (some tp) traceId spanId).2 = (0, spanId) ∧
      encodedPair tp = none := by
  obtain ⟨p, hp, hlen, hbad⟩ := h
  have hnone : encodedPair tp = none := by
    rw [encodedPair, hp, Option.bind_some, ← Option.not_isSome_iff_eq_none]
    intro hids
    obtain ⟨ids, hids⟩ := Option.isSome_iff_exists.1 hids
    obtain ⟨htid, hdash, hsid⟩ := idFields_eq_some_iff.1 hids
    have hlong := le_length_of_parseHexId hsid
    exact hbad ⟨Option.isSome_iff_exists.2 ⟨_, htid⟩, hdash, by omega⟩
  refine ⟨?_, hnone⟩
  rw [parseTraceparent_of_dash hp, if_neg (by omega)]
  cases htid : parseHexId 16 p 0 with
  | none => rfl
  | some tid =>
    dsimp only
    by_cases hdash : p.getD 32 0 = 45
    · have hshort : p.length < 49 := by
        by_contra hge
        exact hbad ⟨by rw [htid]; rfl, hdash, by omega⟩
      rw [if_neg (not_not.2 hdash), if_pos hshort]
    · rw [if_pos hdash]

/-- A text that is not read half-way leaves a whole pair. -/
theorem wholePair_of_not_halfRead {tp : CString} (h : ¬ HalfRead tp.val) (traceId : TraceId)
    (spanId : SpanId) : WholePair (some tp) (traceId, spanId)
      (parseTraceparent (some tp) traceId spanId).2 := by
  cases hafter : afterDash tp.val with
  | none =>
    obtain ⟨e, -, heq⟩ := parseTraceparent_of_no_dash hafter traceId spanId
    exact .inl (by rw [heq])
  | some p =>
    by_cases hshort : p.length < 32
    · exact .inl (by rw [parseTraceparent_of_dash hafter, if_pos hshort])
    · have hgood : (parseHexId 16 p 0).isSome ∧ p.getD 32 0 = 45 ∧ 49 ≤ p.length := by
        by_contra hbad
        exact h ⟨p, hafter, by omega, hbad⟩
      obtain ⟨htid, hdash, hlen⟩ := hgood
      obtain ⟨tid, htid⟩ := Option.isSome_iff_exists.1 htid
      cases hsid : parseHexId 8 p 33 with
      | none =>
        refine .inr (.inl ?_)
        rw [parseTraceparent_of_dash hafter, if_neg hshort, htid]
        dsimp only
        rw [if_neg (not_not.2 hdash), if_neg (by omega), hsid]
      | some sid =>
        have hids : idFields p 0 = some (tid, sid) :=
          idFields_eq_some_iff.2 ⟨htid, hdash, hsid⟩
        have hparsed := (parseTraceparent_parsed_iff tp traceId spanId (tid, sid)).2
          ⟨p, hafter, hids⟩
        refine .inr (.inr ⟨tp, rfl, ?_⟩)
        rw [hparsed, encodedPair, hafter, Option.bind_some, hids]

section Records

variable {φ : Type*}

/-- A record with the ids that `parse_traceparent` leaves in it. -/
def withTraceparent (tp : Option CString) (record : Record φ) : Record φ :=
  let ids := (parseTraceparent tp record.traceId record.spanId).2
  { record with traceId := ids.1, spanId := ids.2 }

/-- `format_otel_json` with the value of `TRACEPARENT`. -/
def formatOtelJsonEnv (snprintf6g : φ → Text) (tp : Option CString) (timeBuf : Text)
    (record : Record φ) (buf : Text) : ℤ × Out :=
  formatOtelJson snprintf6g timeBuf (withTraceparent tp record) buf

/-- **A record that is rendered has a whole pair of ids** exactly if it had no pair before, or the
variable is not one that is read half-way. -/
theorem whole_pair_iff (tp : Option CString) (record : Record φ) :
    WholePair tp (record.traceId, record.spanId)
        ((withTraceparent tp record).traceId, (withTraceparent tp record).spanId) ↔
      record.traceId = 0 ∨ record.spanId = 0 ∨ ∀ s, tp = some s → ¬ HalfRead s.val := by
  cases tp with
  | none => exact iff_of_true (.inl rfl) (.inr (.inr fun s h => (by cases h)))
  | some tp =>
    by_cases hhalf : HalfRead tp.val
    · obtain ⟨heq, hnone⟩ := parseTraceparent_of_halfRead hhalf record.traceId record.spanId
      have hids : ((withTraceparent (some tp) record).traceId,
          (withTraceparent (some tp) record).spanId) = (0, record.spanId) := heq
      rw [hids]
      constructor
      · rintro (hsame | hzero | ⟨s, hs, henc⟩)
        · exact .inl (congrArg Prod.fst hsame).symm
        · exact .inr (.inl (congrArg Prod.snd hzero))
        · cases hs
          rw [hnone] at henc
          cases henc
      · rintro (htrace | hspan | hwhole)
        · exact .inl (by rw [htrace])
        · exact .inr (.inl (by rw [hspan]))
        · exact absurd hhalf (hwhole tp rfl)
    · exact iff_of_true (wholePair_of_not_halfRead hhalf _ _)
        (.inr (.inr fun s hs => Option.some.inj hs ▸ hhalf))

end Records

/-- A record of the trace of ones. -/
def ofTraceOne : Record Empty :=
  ⟨0, none, none, none, none, some ⟨str "ok", by decide⟩, 2, 0, 0, 0, 1, 1, []⟩

/-- A trace id that is no hex clears the trace id of the record and keeps its span id, which is then
rendered without a trace. -/
theorem span_id_without_trace :
    let tp : CString := ⟨str "00-xyxyxyxyxyxyxyxyxyxyxyxyxyxyxyxy-2222222222222222-01", by decide⟩
    (withTraceparent (some tp) ofTraceOne).traceId = 0 ∧
      (withTraceparent (some tp) ofTraceOne).spanId = 1 ∧
      ((formatOtelJsonEnv Empty.elim (some tp) (str "T") ofTraceOne
        (List.replicate 250 0)).2.done.drop 42).take 48 =
        str "\"severity_number\":9,\"span_id\":\"0101010101010101\"" := by
  decide +kernel

end Formatter
end Clogx
