/-
# The JSON text of a plugin's configuration

`parse_config_file` (`core/config.c`) writes the `config` mapping of a plugin
entry as a JSON object into `plugin_json`, an array of 4096 bytes: `{` at the
start of the mapping, `"key":"value"` behind a comma for each pair, `}` at its
end.  Here the array is a `Block`, and a write outside it is `none`.

The count of the space left keeps two bytes for the closing quote and the
terminator.  An escape that begins with three bytes left takes one of them, and
the brace at the end is not counted at all, so every write stays inside exactly
if each value that is begun ends with two more bytes free (`Room`).  A pair whose
key does not fit is left out.  Values have their quotes and backslashes escaped,
keys have not, and control characters are written as they are in both.

`Locals.appendJson` and `Locals.finishJson` are the same functions on texts;
`Clogx.Config.Plugins` shows that with room they leave the same object.
-/

import Clogx.CLib.Buffer
import Clogx.Config.Parser
import Clogx.Json.Length

namespace Clogx
namespace Config

open CLib

/-- `plugin_json` and `plugin_json_len`. -/
structure JsonBuf where
  block : Block
  len : ℕ

namespace JsonBuf

/-- `plugin_json[plugin_json_len++] = c`. -/
def put (b : JsonBuf) (c : UInt8) : Option JsonBuf :=
  (store b.block b.len [c]).map fun block => ⟨block, b.len + 1⟩

/-- `plugin_json[plugin_json_len] = '\0'`. -/
def terminate (b : JsonBuf) : Option JsonBuf :=
  (store b.block b.len [0]).map fun block => ⟨block, b.len⟩

/-- The escaping loop, with what is left of `rem`. -/
def escapeLoop : Text → ℕ → JsonBuf → Option (JsonBuf × ℕ)
  | [], rem, b => some (b, rem)
  | c :: v, rem, b =>
    if 2 < rem then
      if c = 34 ∨ c = 92 then
        (b.put 92).bind fun b => (b.put c).bind fun b => escapeLoop v (rem - 2) b
      else (b.put c).bind fun b => escapeLoop v (rem - 1) b
    else some (b, rem)

/-- `,"key":"`, the comma only behind another pair. -/
def header (len : ℕ) (key : Text) : Text :=
  (if 1 < len then str "," else []) ++ str "\"" ++ key ++ str "\":\""

/-- One pair: `snprintf` of the header, the escaped value, the closing quote. -/
def appendPair (b : JsonBuf) (key v : Text) : Option JsonBuf :=
  let rem := maxPluginConfigSize - b.len
  if 0 < rem ∧ 0 < b.len then
    let h := header b.len key
    (store b.block b.len (h.take (rem - 1) ++ [0])).bind fun block =>
      if h.length < rem then
        (escapeLoop v (rem - h.length) ⟨block, b.len + h.length⟩).bind fun r =>
          if 0 < r.2 then (r.1.put 34).bind terminate else some r.1
      else some ⟨block, b.len⟩
  else some b

/-- The start of the mapping. -/
def openObject (block : Block) : Option JsonBuf :=
  (store block 0 [123]).bind fun block => (store block 1 [0]).map fun block => ⟨block, 1⟩

/-- The end of the mapping. -/
def closeObject (b : JsonBuf) : Option Block :=
  if 0 < b.len ∧ b.block[b.len - 1]? = some 123 then
    (store b.block b.len [125]).bind fun block => store block (b.len + 1) [0]
  else ((b.put 125).bind terminate).map block

end JsonBuf

/-- The array after a mapping of scalar pairs, `none` if a write has left it.  Keys pass through
`plugin_cfg_key`, which has 128 bytes. -/
def buildJson (block : Block) (pairs : List (CString × CString)) : Option Block :=
  ((JsonBuf.openObject block).bind fun b =>
    pairs.foldlM (fun b p => b.appendPair (cut 128 p.1) p.2) b).bind JsonBuf.closeObject

/-! ### What the pairs should become -/

/-- A value with its quotes and backslashes escaped. -/
def escaped (v : Text) : Text := v.flatMap fun c => if c = 34 ∨ c = 92 then [92, c] else [c]

/-- `"key":"value"`. -/
def pairText (p : Text × Text) : Text := 34 :: p.1 ++ [34, 58, 34] ++ escaped p.2 ++ [34]

/-- One more pair in an object that is not closed. -/
def addPair (t : Text) (p : Text × Text) : Text :=
  t ++ (if 1 < t.length then [44] else []) ++ pairText p

/-- The object of some pairs, without its closing brace. -/
def openText (pairs : List (Text × Text)) : Text := pairs.foldl addPair [123]

theorem length_escaped_cons (c : UInt8) (v : Text) :
    (escaped (c :: v)).length = (if c = 34 ∨ c = 92 then 2 else 1) + (escaped v).length := by
  rw [escaped, List.flatMap_cons, List.length_append]
  split_ifs <;> rfl

/-- The loop writes the whole value if three bytes stay free. -/
theorem jsonEscape_of_room (v : Text) : ∀ {rem : ℕ}, (escaped v).length + 3 ≤ rem →
    jsonEscape v rem = (escaped v, rem - (escaped v).length) := by
  induction v with
  | nil => intro rem _; rfl
  | cons c v ih =>
    intro rem h
    rw [length_escaped_cons] at h ⊢
    rw [jsonEscape, if_pos (by omega), escaped, List.flatMap_cons, ← escaped]
    split_ifs at h ⊢
    · rw [ih (by omega)]
      exact Prod.ext rfl (by dsimp only; omega)
    · rw [ih (by omega)]
      exact Prod.ext rfl (by dsimp only; omega)

/-- Otherwise one or two bytes are left. -/
theorem jsonEscape_of_not_room (v : Text) : ∀ {rem : ℕ}, rem < (escaped v).length + 3 → 1 ≤ rem →
    1 ≤ (jsonEscape v rem).2 ∧ (jsonEscape v rem).2 ≤ 2 := by
  induction v with
  | nil =>
    intro rem h hpos
    exact ⟨hpos, Nat.le_of_lt_succ h⟩
  | cons c v ih =>
    intro rem h hpos
    rw [length_escaped_cons] at h
    rw [jsonEscape]
    by_cases hroom : 2 < rem
    · rw [if_pos hroom]
      split_ifs at h ⊢
      · exact ih (by omega) (by omega)
      · exact ih (by omega) (by omega)
    · rw [if_neg hroom]
      exact ⟨hpos, not_lt.1 hroom⟩

namespace JsonBuf

/-- The buffer holds a text. -/
structure Holds (b : JsonBuf) (t : Text) : Prop where
  size : b.block.length = maxPluginConfigSize
  len : b.len = t.length
  text : ∃ rest, b.block = t ++ rest

section Holds

variable {b : JsonBuf} {t : Text}

/-- A write behind the text, which fits or leaves the array. -/
theorem Holds.store (h : b.Holds t) (bs : List UInt8) :
    (t.length + bs.length ≤ maxPluginConfigSize →
        ∃ block rest, CLib.store b.block b.len bs = some block ∧ block = t ++ (bs ++ rest) ∧
          block.length = maxPluginConfigSize) ∧
      (maxPluginConfigSize < t.length + bs.length → CLib.store b.block b.len bs = none) := by
  obtain ⟨hsize, hlen, rest, hrest⟩ := h
  have hlength : t.length + rest.length = maxPluginConfigSize := by
    rw [← hsize, hrest, List.length_append]
  rw [hlen, hrest]
  refine ⟨fun hfits => ⟨_, _, store_fits (by omega), rfl, ?_⟩, fun hover => ?_⟩
  · simp only [List.length_append, List.length_drop]
    omega
  · rw [CLib.store, if_neg]
    rw [List.length_append]
    omega

/-- The next character. -/
theorem Holds.put (h : b.Holds t) (c : UInt8) :
    (t.length < maxPluginConfigSize → ∃ b', b.put c = some b' ∧ b'.Holds (t ++ [c])) ∧
      (maxPluginConfigSize ≤ t.length → b.put c = none) := by
  obtain ⟨hfits, hover⟩ := h.store [c]
  refine ⟨fun hlt => ?_, fun hle => ?_⟩
  · obtain ⟨block, rest, hstore, hblock, hsize⟩ := hfits hlt
    refine ⟨⟨block, b.len + 1⟩, by rw [JsonBuf.put, hstore]; rfl, hsize, ?_, rest, ?_⟩
    · rw [h.len, List.length_append]
      rfl
    · rw [hblock, List.append_assoc]
  · rw [JsonBuf.put, hover (by rw [List.length_singleton]; omega)]
    rfl

/-- The terminator fits exactly behind a shorter text. -/
theorem Holds.terminate (h : b.Holds t) :
    (t.length < maxPluginConfigSize → ∃ b' rest, b.terminate = some b' ∧ b'.Holds t ∧
        b'.block = t ++ 0 :: rest) ∧
      (maxPluginConfigSize ≤ t.length → b.terminate = none) := by
  obtain ⟨hfits, hover⟩ := h.store [0]
  refine ⟨fun hlt => ?_, fun hle => ?_⟩
  · obtain ⟨block, rest, hstore, hblock, hsize⟩ := hfits hlt
    exact ⟨⟨block, b.len⟩, rest, by rw [JsonBuf.terminate, hstore]; rfl, ⟨hsize, h.len, _, hblock⟩,
      hblock⟩
  · rw [JsonBuf.terminate, hover (by rw [List.length_singleton]; omega)]
    rfl

/-- **The escaping loop stays inside,** and writes what `jsonEscape` gives. -/
theorem Holds.escapeLoop (v : Text) : ∀ {b : JsonBuf} {t : Text} {rem : ℕ}, b.Holds t →
    t.length + rem = maxPluginConfigSize →
      ∃ b', JsonBuf.escapeLoop v rem b = some (b', (jsonEscape v rem).2) ∧
        b'.Holds (t ++ (jsonEscape v rem).1) ∧
        (jsonEscape v rem).1.length + (jsonEscape v rem).2 = rem := by
  induction v with
  | nil =>
    intro b t rem h _
    exact ⟨b, rfl, by rwa [jsonEscape, List.append_nil], by simp [jsonEscape]⟩
  | cons c v ih =>
    intro b t rem h hrem
    rw [JsonBuf.escapeLoop, jsonEscape]
    split_ifs with hroom hesc
    · obtain ⟨b₁, hb₁, h₁⟩ := (h.put 92).1 (by omega)
      have hrem₁ : (t ++ [92]).length + (rem - 1) = maxPluginConfigSize := by simp; omega
      have hrem₂ : (t ++ [92] ++ [c]).length + (rem - 2) = maxPluginConfigSize := by simp; omega
      obtain ⟨b₂, hb₂, h₂⟩ := (h₁.put c).1 (by omega)
      obtain ⟨b', hb', h', hlen⟩ := ih h₂ hrem₂
      refine ⟨b', by rw [hb₁, Option.bind_some, hb₂, Option.bind_some, hb'], ?_, ?_⟩
      · simpa using h'
      · simp only [List.length_cons]
        omega
    · obtain ⟨b₁, hb₁, h₁⟩ := (h.put c).1 (by omega)
      have hrem₁ : (t ++ [c]).length + (rem - 1) = maxPluginConfigSize := by simp; omega
      obtain ⟨b', hb', h', hlen⟩ := ih h₁ hrem₁
      refine ⟨b', by rw [hb₁, Option.bind_some, hb'], ?_, ?_⟩
      · simpa using h'
      · simp only [List.length_cons]
        omega
    · exact ⟨b, rfl, by rwa [List.append_nil], by simp⟩

end Holds

theorem header_append (len : ℕ) (p : Text × Text) :
    header len p.1 ++ escaped p.2 ++ [34] = (if 1 < len then [44] else []) ++ pairText p := by
  have hstr : str "," = [44] ∧ str "\"" = [34] ∧ str "\":\"" = [34, 58, 34] := by decide +kernel
  simp only [header, hstr, pairText]
  simp

theorem addPair_eq_header (t : Text) (p : Text × Text) :
    addPair t p = t ++ header t.length p.1 ++ escaped p.2 ++ [34] := by
  rw [addPair, List.append_assoc, ← header_append]
  simp only [List.append_assoc]

theorem length_addPair (t : Text) (p : Text × Text) :
    (addPair t p).length = t.length + (header t.length p.1).length + (escaped p.2).length + 1 := by
  rw [addPair_eq_header]
  simp only [List.length_append, List.length_singleton]

theorem length_header_pos (len : ℕ) (key : Text) : 1 ≤ (header len key).length := by
  have hstr : str "\"" = [34] := by decide +kernel
  simp only [header, hstr, List.length_append, List.length_singleton]
  omega

section Append

variable {b : JsonBuf} {t : Text} (h : b.Holds t) (hpos : 1 ≤ t.length) (p : Text × Text)

include h hpos

theorem Holds.appendPair_eq (hlt : t.length < maxPluginConfigSize) :
    b.appendPair p.1 p.2 =
      (CLib.store b.block b.len
        ((header t.length p.1).take (maxPluginConfigSize - t.length - 1) ++ [0])).bind fun block =>
          if (header t.length p.1).length < maxPluginConfigSize - t.length then
            (JsonBuf.escapeLoop p.2
                (maxPluginConfigSize - t.length - (header t.length p.1).length)
                ⟨block, t.length + (header t.length p.1).length⟩).bind fun r =>
              if 0 < r.2 then (r.1.put 34).bind JsonBuf.terminate else some r.1
          else some ⟨block, t.length⟩ := by
  have hlen := h.len
  rw [appendPair, if_pos (by omega)]
  simp only [hlen]

/-- A pair whose key does not fit is left out. -/
theorem Holds.appendPair_dropped (hlt : t.length < maxPluginConfigSize)
    (hkey : maxPluginConfigSize ≤ t.length + (header t.length p.1).length) :
    ∃ b', b.appendPair p.1 p.2 = some b' ∧ b'.Holds t := by
  obtain ⟨block, rest, hstore, hblock, hsize⟩ := (h.store
    ((header t.length p.1).take (maxPluginConfigSize - t.length - 1) ++ [0])).1 (by
      simp only [List.length_append, List.length_take, List.length_singleton]
      omega)
  refine ⟨⟨block, t.length⟩, ?_, hsize, rfl, _, hblock⟩
  rw [h.appendPair_eq hpos p hlt, hstore, Option.bind_some, if_neg (by omega)]

/-- What a pair whose key fits comes to, by what the escaping loop leaves. -/
theorem Holds.appendPair_begun
    (hkey : t.length + (header t.length p.1).length < maxPluginConfigSize) {w : Text} {left : ℕ}
    (hesc : jsonEscape p.2 (maxPluginConfigSize - t.length - (header t.length p.1).length) =
      (w, left)) :
    (t ++ header t.length p.1 ++ w).length + left = maxPluginConfigSize ∧
      (left = 1 → b.appendPair p.1 p.2 = none) ∧
      (2 ≤ left → ∃ b', b.appendPair p.1 p.2 = some b' ∧
        b'.Holds (t ++ header t.length p.1 ++ w ++ [34])) := by
  set hd := header t.length p.1 with hhd
  have htake : hd.take (maxPluginConfigSize - t.length - 1) = hd :=
    List.take_of_length_le (by omega)
  obtain ⟨block, rest, hstore, hblock, hsize⟩ := (h.store (hd ++ [0])).1 (by
    simp only [List.length_append, List.length_singleton]
    omega)
  have hheld : Holds ⟨block, t.length + hd.length⟩ (t ++ hd) :=
    ⟨hsize, by rw [List.length_append], 0 :: rest, by rw [hblock]; simp⟩
  have hrem : (t ++ hd).length + (maxPluginConfigSize - t.length - hd.length) =
      maxPluginConfigSize := by
    rw [List.length_append]
    omega
  obtain ⟨b₁, hb₁, h₁, hlen⟩ := Holds.escapeLoop p.2 hheld hrem
  rw [hesc] at hb₁ h₁ hlen
  dsimp only at hb₁ h₁ hlen
  have hlength : (t ++ hd ++ w).length + left = maxPluginConfigSize := by
    rw [List.length_append]
    omega
  have heq (hleft : 0 < left) : b.appendPair p.1 p.2 = (b₁.put 34).bind JsonBuf.terminate := by
    rw [h.appendPair_eq hpos p (by omega), ← hhd, htake, hstore, Option.bind_some,
      if_pos (by omega), hb₁, Option.bind_some, if_pos hleft]
  refine ⟨hlength, fun hleft => ?_, fun hleft => ?_⟩
  · obtain ⟨b₂, hb₂, h₂⟩ := (h₁.put 34).1 (by omega)
    rw [heq (by omega), hb₂, Option.bind_some]
    exact h₂.terminate.2 (by rw [List.length_append, List.length_singleton]; omega)
  · obtain ⟨b₂, hb₂, h₂⟩ := (h₁.put 34).1 (by omega)
    obtain ⟨b', -, hb', h', -⟩ := h₂.terminate.1 (by
      rw [List.length_append, List.length_singleton]
      omega)
    exact ⟨b', by rw [heq (by omega), hb₂, Option.bind_some, hb'], h'⟩

/-- A pair that fits with two bytes to spare is appended. -/
theorem Holds.appendPair_of_room (hroom : (addPair t p).length + 2 ≤ maxPluginConfigSize) :
    ∃ b', b.appendPair p.1 p.2 = some b' ∧ b'.Holds (addPair t p) := by
  rw [length_addPair] at hroom
  obtain ⟨-, -, hok⟩ := h.appendPair_begun hpos p (by omega) (jsonEscape_of_room p.2 (by omega))
  obtain ⟨b', hb', h'⟩ := hok (by omega)
  exact ⟨b', hb', by rwa [addPair_eq_header]⟩

/-- A pair that is begun without room for it leaves the array, or fills it up to one byte. -/
theorem Holds.appendPair_of_not_room
    (hkey : t.length + (header t.length p.1).length < maxPluginConfigSize)
    (hroom : maxPluginConfigSize < (addPair t p).length + 2) :
    b.appendPair p.1 p.2 = none ∨ ∃ b' t', b.appendPair p.1 p.2 = some b' ∧ b'.Holds t' ∧
      t'.length + 1 = maxPluginConfigSize := by
  rw [length_addPair] at hroom
  obtain ⟨hge, hle⟩ := jsonEscape_of_not_room p.2
    (show maxPluginConfigSize - t.length - (header t.length p.1).length < _ by omega) (by omega)
  obtain ⟨hlength, hnone, hok⟩ := h.appendPair_begun hpos p hkey (Prod.mk.eta ..).symm
  rcases hge.eq_or_lt with hone | htwo
  · exact .inl (hnone hone.symm)
  · obtain ⟨b', hb', h'⟩ := hok htwo
    refine .inr ⟨b', _, hb', h', ?_⟩
    rw [List.length_append, List.length_singleton]
    omega

omit hpos in
/-- The closing brace and the terminator need two bytes. -/
theorem Holds.closeObject :
    (t.length + 2 ≤ maxPluginConfigSize → ∃ block rest, b.closeObject = some block ∧
        block = t ++ 125 :: 0 :: rest) ∧
      (maxPluginConfigSize < t.length + 2 → b.closeObject = none) := by
  have hbrace : b.closeObject = ((b.put 125).bind JsonBuf.terminate).map block := by
    rw [JsonBuf.closeObject]
    split_ifs
    · rw [JsonBuf.put, Option.bind_map, Option.map_bind]
      refine congrArg _ (funext fun block => ?_)
      rw [Function.comp_apply, Function.comp_apply, JsonBuf.terminate, Option.map_map]
      exact Option.map_id'.symm
    · rfl
  rw [hbrace]
  refine ⟨fun hle => ?_, fun hlt => ?_⟩
  · obtain ⟨b₁, hb₁, h₁⟩ := (h.put 125).1 (by omega)
    obtain ⟨b₂, rest, hb₂, -, hblock⟩ := h₁.terminate.1 (by
      rw [List.length_append, List.length_singleton]
      omega)
    exact ⟨b₂.block, rest, by rw [hb₁, Option.bind_some, hb₂]; rfl, by rw [hblock]; simp⟩
  · rcases Nat.lt_or_ge t.length maxPluginConfigSize with hlt' | hge
    · obtain ⟨b₁, hb₁, h₁⟩ := (h.put 125).1 hlt'
      rw [hb₁, Option.bind_some, h₁.terminate.2 (by
        rw [List.length_append, List.length_singleton]
        omega)]
      rfl
    · rw [(h.put 125).2 hge]
      rfl

end Append

end JsonBuf

/-! ### Whole mappings -/

/-- The key of a pair fits behind the text. -/
def KeyFits (t : Text) (p : Text × Text) : Prop :=
  t.length + (JsonBuf.header t.length p.1).length < maxPluginConfigSize

instance (t : Text) (p : Text × Text) : Decidable (KeyFits t p) := inferInstanceAs (Decidable (_ < _))

/-- The pairs whose keys fit, behind the text `t`. -/
def kept (t : Text) : List (Text × Text) → List (Text × Text)
  | [] => []
  | p :: ps => if KeyFits t p then p :: kept (addPair t p) ps else kept t ps

/-- Every pair that is begun ends with two bytes to spare. -/
def Room (t : Text) : List (Text × Text) → Prop
  | [] => True
  | p :: ps =>
    if KeyFits t p then
      (addPair t p).length + 2 ≤ maxPluginConfigSize ∧ Room (addPair t p) ps
    else Room t ps

instance decidableRoom : ∀ (t : Text) (ps : List (Text × Text)), Decidable (Room t ps)
  | _, [] => .isTrue trivial
  | t, p :: ps =>
    have := decidableRoom (addPair t p) ps
    have := decidableRoom t ps
    show Decidable (if KeyFits t p then
      (addPair t p).length + 2 ≤ maxPluginConfigSize ∧ Room (addPair t p) ps else Room t ps)
    from inferInstance

theorem addPair_pos (t : Text) (p : Text × Text) : 1 ≤ (addPair t p).length := by
  rw [addPair, pairText]
  simp only [List.length_append, List.length_cons]
  omega

/-- The pairs of a mapping, then its end. -/
def finish (b : JsonBuf) (ps : List (Text × Text)) : Option Block :=
  (ps.foldlM (fun (b : JsonBuf) p => b.appendPair p.1 p.2) b).bind JsonBuf.closeObject

theorem finish_cons (b : JsonBuf) (p : Text × Text) (ps : List (Text × Text)) :
    finish b (p :: ps) = (b.appendPair p.1 p.2).bind fun b => finish b ps := by
  rw [finish, List.foldlM_cons]
  exact Option.bind_assoc ..

/-- A buffer with one byte left takes no more pairs, and cannot be closed. -/
theorem finish_full {t : Text} (hfull : t.length + 1 = maxPluginConfigSize)
    (ps : List (Text × Text)) : ∀ {b : JsonBuf}, b.Holds t → finish b ps = none := by
  have hpos : 1 ≤ t.length := by rw [maxPluginConfigSize] at hfull; omega
  induction ps with
  | nil => exact fun h => h.closeObject.2 (by omega)
  | cons p ps ih =>
    intro b h
    have hkey := JsonBuf.length_header_pos t.length p.1
    obtain ⟨b', hb', h'⟩ := h.appendPair_dropped hpos p (by omega) (by omega)
    rw [finish_cons, hb', Option.bind_some, ih h']

/-- **The writes stay inside the array exactly if there is room,** and then it holds the object of
the pairs that were kept. -/
theorem finish_spec (ps : List (Text × Text)) : ∀ {b : JsonBuf} {t : Text}, b.Holds t →
    1 ≤ t.length → t.length + 2 ≤ maxPluginConfigSize →
      (Room t ps → ∃ block rest, finish b ps = some block ∧
        block = (kept t ps).foldl addPair t ++ 125 :: 0 :: rest) ∧
      (¬ Room t ps → finish b ps = none) := by
  induction ps with
  | nil =>
    intro b t h _ hle
    exact ⟨fun _ => h.closeObject.1 hle, fun hno => absurd trivial hno⟩
  | cons p ps ih =>
    intro b t h hpos hle
    rw [finish_cons, Room, kept]
    by_cases hkey : KeyFits t p
    · rw [if_pos hkey, if_pos hkey, List.foldl_cons]
      by_cases hroom : (addPair t p).length + 2 ≤ maxPluginConfigSize
      · obtain ⟨b', hb', h'⟩ := h.appendPair_of_room hpos p hroom
        obtain ⟨hyes, hno⟩ := ih h' (addPair_pos t p) hroom
        rw [hb', Option.bind_some]
        exact ⟨fun hr => hyes hr.2, fun hr => hno fun hr' => hr ⟨hroom, hr'⟩⟩
      · refine ⟨fun hr => absurd hr.1 hroom, fun _ => ?_⟩
        rcases h.appendPair_of_not_room hpos p hkey (not_le.1 hroom) with
          hnone | ⟨b', t', hb', h', hfull⟩
        · rw [hnone, Option.bind_none]
        · rw [hb', Option.bind_some, finish_full hfull ps h']
    · rw [if_neg hkey, if_neg hkey]
      obtain ⟨b', hb', h'⟩ := h.appendPair_dropped hpos p (by omega) (not_lt.1 hkey)
      rw [hb', Option.bind_some]
      exact ih h' hpos hle

/-- The pairs as they are written: a key that does not fit `plugin_cfg_key` is cut. -/
def cutPairs (pairs : List (CString × CString)) : List (Text × Text) :=
  pairs.map fun p => (cut 128 p.1, p.2)

/-- The object of a mapping. -/
def objectText (pairs : List (CString × CString)) : Text :=
  openText (kept [123] (cutPairs pairs)) ++ [125]

/-- **A mapping stays inside the array exactly if there is room for it,** whatever the array held
before, and then leaves its object there. -/
theorem buildJson_spec {block : Block} (hsize : block.length = maxPluginConfigSize)
    (pairs : List (CString × CString)) :
    (Room [123] (cutPairs pairs) → ∃ block' rest, buildJson block pairs = some block' ∧
        block' = objectText pairs ++ 0 :: rest) ∧
      (¬ Room [123] (cutPairs pairs) → buildJson block pairs = none) := by
  have hopened : ∃ b, JsonBuf.openObject block = some b ∧ b.Holds [123] := by
    have hempty : JsonBuf.Holds ⟨block, 0⟩ [] := ⟨hsize, rfl, block, rfl⟩
    obtain ⟨b₁, hb₁, h₁⟩ := (hempty.put 123).1 (by norm_num [maxPluginConfigSize])
    obtain ⟨b₂, -, hb₂, h₂, -⟩ := h₁.terminate.1 (by norm_num [maxPluginConfigSize])
    have hopen : JsonBuf.openObject block =
        (JsonBuf.put ⟨block, 0⟩ 123).bind JsonBuf.terminate := by
      rw [JsonBuf.openObject, JsonBuf.put, Option.bind_map]
      rfl
    exact ⟨b₂, by rw [hopen, hb₁, Option.bind_some, hb₂], h₂⟩
  obtain ⟨b, hb, h⟩ := hopened
  have hbuild : buildJson block pairs = finish b (cutPairs pairs) := by
    rw [buildJson, hb, finish, cutPairs, List.foldlM_map]
    rfl
  obtain ⟨hyes, hno⟩ := finish_spec (cutPairs pairs) h le_rfl (by norm_num [maxPluginConfigSize])
  rw [hbuild]
  refine ⟨fun hr => ?_, hno⟩
  obtain ⟨block', rest, hblock', heq⟩ := hyes hr
  exact ⟨block', rest, hblock', by rw [heq, objectText, openText, List.append_assoc]; rfl⟩

/-! ### Reading it back -/

/-- The characters of a text. -/
def chars (t : Text) : Json.Str := t.map UInt8.toNat

/-- The members that pairs stand for. -/
def members (ps : List (Text × Text)) : Json.Members :=
  ps.map fun p => (chars p.1, .str (chars p.2))

/-- A pair that is written as JSON has it: nothing in the key needs an escape, and the value has no
control characters. -/
def Clean (p : Text × Text) : Prop :=
  (∀ c ∈ p.1, c ≠ 34 ∧ c ≠ 92 ∧ 32 ≤ c) ∧ ∀ c ∈ p.2, 32 ≤ c

instance (p : Text × Text) : Decidable (Clean p) := inferInstanceAs (Decidable (_ ∧ _))

theorem spells_key {k : Text} (h : ∀ c ∈ k, c ≠ 34 ∧ c ≠ 92 ∧ 32 ≤ c) :
    Json.Spells k (chars k) := by
  induction k with
  | nil => exact Json.spells_nil
  | cons c k ih =>
    obtain ⟨hq, hb, hlow⟩ := h c (List.mem_cons_self ..)
    exact (Json.spells_plain hq hb hlow).append (ih fun d hd => h d (List.mem_cons_of_mem _ hd))

theorem spells_escaped {v : Text} (h : ∀ c ∈ v, 32 ≤ c) : Json.Spells (escaped v) (chars v) := by
  induction v with
  | nil => exact Json.spells_nil
  | cons c v ih =>
    have hc : Json.Spells (if c = 34 ∨ c = 92 then [92, c] else [c]) [c.toNat] := by
      split_ifs with hesc
      · rcases hesc with rfl | rfl
        · exact Json.spells_escaped (by decide) rfl
        · exact Json.spells_escaped (by decide) rfl
      · obtain ⟨hq, hb⟩ := not_or.1 hesc
        exact Json.spells_plain hq hb (h c (List.mem_cons_self ..))
    exact hc.append (ih fun d hd => h d (List.mem_cons_of_mem _ hd))

/-- The reader stands behind the members `ms` of the object that `t` begins. -/
def ReadTo (t : Text) (ms : Json.Members) : Prop :=
  t = [123] ∧ ms = [] ∨
    1 < t.length ∧ ∃ s, Machine.run Json.step ⟨[], .value⟩ t = some s ∧ Json.InObject [] ms s

/-- A pair more keeps the text readable. -/
theorem ReadTo.addPair {t : Text} {ms : Json.Members} (h : ReadTo t ms) {p : Text × Text}
    (hp : Clean p) : ReadTo (addPair t p) (ms ++ [(chars p.1, .str (chars p.2))]) := by
  have hkey := spells_key hp.1
  have hvalue := Json.reads_str (spells_escaped hp.2)
  have hlen : 1 < (Config.addPair t p).length := by
    rw [Config.addPair, pairText]
    simp only [List.length_append, List.length_cons]
    omega
  rcases h with ⟨rfl, rfl⟩ | ⟨hlong, s, hrun, hs⟩
  · obtain ⟨s, hrun, hs⟩ := Json.run_member hkey hvalue [] []
    refine .inr ⟨hlen, s, ?_, hs⟩
    have hstart (w : Text) : Machine.run Json.step ⟨[], .value⟩ (123 :: 34 :: w) =
        Machine.run Json.step ⟨[], .inKey [] [] .plain⟩ w := rfl
    simp only [Config.addPair, pairText, List.length_singleton, lt_irrefl, if_false]
    simpa [hstart] using hrun
  · obtain ⟨s', hrun', hs'⟩ := hs.member hkey hvalue
    refine .inr ⟨hlen, s', ?_, hs'⟩
    rw [Config.addPair, if_pos hlong, List.append_assoc, Machine.run_append, hrun]
    simpa [pairText] using hrun'

/-- Readability over all the pairs. -/
theorem ReadTo.foldl {ps : List (Text × Text)} (hps : ∀ p ∈ ps, Clean p) :
    ∀ {t : Text} {ms : Json.Members}, ReadTo t ms →
      ReadTo (ps.foldl Config.addPair t) (ms ++ members ps) := by
  induction ps with
  | nil =>
    intro t ms h
    rwa [members, List.map_nil, List.append_nil]
  | cons p ps ih =>
    intro t ms h
    have hnext := ih (fun q hq => hps q (List.mem_cons_of_mem _ hq))
      (h.addPair (hps p (List.mem_cons_self ..)))
    rwa [List.append_assoc] at hnext

/-- **The object of clean pairs is read back as these pairs.** -/
theorem parse_openText {ps : List (Text × Text)} (h : ∀ p ∈ ps, Clean p) :
    Json.parse (openText ps ++ [125]) = some (.obj (members ps)) := by
  refine Json.parse_of_run ?_
  have hread := ReadTo.foldl h (.inl ⟨rfl, rfl⟩ : ReadTo [123] [])
  rw [List.nil_append] at hread
  rw [Machine.run_append]
  rcases hread with ⟨ht, hms⟩ | ⟨-, s, hrun, hs⟩
  · rw [openText, ht, hms]
    rfl
  · rw [openText, hrun, Option.bind_some, Machine.run, hs.brace]
    rfl

/-- The bytes that pairs take, each with a comma or the brace. -/
def pairsLength : List (Text × Text) → ℕ
  | [] => 0
  | p :: ps => p.1.length + (escaped p.2).length + 6 + pairsLength ps

theorem length_pairText (p : Text × Text) :
    (pairText p).length = p.1.length + (escaped p.2).length + 5 := by
  simp only [pairText, List.length_append, List.length_cons, List.length_nil]
  omega

theorem length_foldl_addPair (ps : List (Text × Text)) : ∀ {t : Text}, 1 < t.length →
    (ps.foldl addPair t).length = t.length + pairsLength ps := by
  induction ps with
  | nil => exact fun _ => rfl
  | cons p ps ih =>
    intro t ht
    have hadd : (addPair t p).length = t.length + p.1.length + (escaped p.2).length + 6 := by
      rw [addPair, if_pos ht, List.length_append, List.length_append, length_pairText]
      simp only [List.length_singleton]
      omega
    rw [List.foldl_cons, ih (by omega), hadd, pairsLength]
    omega

theorem length_openText {ps : List (Text × Text)} (hne : ps ≠ []) :
    (openText ps).length = pairsLength ps := by
  cases ps with
  | nil => exact absurd rfl hne
  | cons p ps =>
    have hadd : (addPair [123] p).length = p.1.length + (escaped p.2).length + 6 := by
      rw [addPair, if_neg (by simp), List.length_append, List.length_append, length_pairText]
      simp only [List.length_singleton, List.length_nil]
      omega
    rw [openText, List.foldl_cons, length_foldl_addPair ps (by omega), hadd, pairsLength]

theorem special_toNat (c : UInt8) : Json.special c.toNat = false ↔ c ≠ 34 ∧ c ≠ 92 ∧ 32 ≤ c :=
  forall_byte (P := fun c => Json.special c.toNat = false ↔ c ≠ 34 ∧ c ≠ 92 ∧ 32 ≤ c)
    (by decide +kernel) c

/-- A key takes no more bytes than its text, and as many only if nothing in it is special. -/
theorem strCost_key (k : Text) : k.length ≤ Json.strCost (chars k) ∧
    (Json.strCost (chars k) ≤ k.length → ∀ c ∈ k, c ≠ 34 ∧ c ≠ 92 ∧ 32 ≤ c) := by
  induction k with
  | nil => exact ⟨le_rfl, nofun⟩
  | cons c k ih =>
    simp only [chars, List.map_cons, Json.strCost, List.length_cons, List.forall_mem_cons,
      ← special_toNat] at ih ⊢
    cases hc : Json.special c.toNat
    · simp only [Bool.false_eq_true, if_false]
      exact ⟨by omega, fun h => ⟨trivial, ih.2 (by omega)⟩⟩
    · simp only [if_true]
      exact ⟨by omega, fun h => absurd h (by omega)⟩

/-- A value takes no more bytes than its escaped text, and as many only without control
characters. -/
theorem strCost_value (v : Text) : (escaped v).length ≤ Json.strCost (chars v) ∧
    (Json.strCost (chars v) ≤ (escaped v).length → ∀ c ∈ v, 32 ≤ c) := by
  induction v with
  | nil => exact ⟨le_rfl, nofun⟩
  | cons c v ih =>
    have hspecial := special_toNat c
    simp only [chars, List.map_cons, Json.strCost, List.forall_mem_cons,
      length_escaped_cons] at ih ⊢
    by_cases hesc : c = 34 ∨ c = 92
    · have hc : Json.special c.toNat = true := by rcases hesc with rfl | rfl <;> rfl
      have hlow : 32 ≤ c := by rcases hesc with rfl | rfl <;> decide
      simp only [hc, if_pos hesc, if_true]
      exact ⟨by omega, fun h => ⟨hlow, ih.2 (by omega)⟩⟩
    · rw [if_neg hesc]
      cases hc : Json.special c.toNat
      · simp only [Bool.false_eq_true, if_false]
        exact ⟨by omega, fun h => ⟨(hspecial.1 hc).2.2, ih.2 (by omega)⟩⟩
      · simp only [if_true]
        exact ⟨by omega, fun h => absurd h (by omega)⟩

theorem membersCost_members (ps : List (Text × Text)) :
    pairsLength ps ≤ Json.membersCost (members ps) ∧
      (Json.membersCost (members ps) ≤ pairsLength ps → ∀ p ∈ ps, Clean p) := by
  induction ps with
  | nil => exact ⟨le_rfl, nofun⟩
  | cons p ps ih =>
    have hkey := strCost_key p.1
    have hvalue := strCost_value p.2
    simp only [members, List.map_cons, Json.membersCost, Json.Value.leafCost, pairsLength,
      List.forall_mem_cons] at ih ⊢
    exact ⟨by omega, fun h => ⟨⟨hkey.2 (by omega), hvalue.2 (by omega)⟩, ih.2 (by omega)⟩⟩

/-- **Only clean pairs are read back:** a text of this length has no room for an escape. -/
theorem clean_of_parse {ps : List (Text × Text)}
    (h : Json.parse (openText ps ++ [125]) = some (.obj (members ps))) : ∀ p ∈ ps, Clean p := by
  rcases eq_or_ne ps [] with rfl | hne
  · exact nofun
  · have hcost := Json.cost_le_length h
    rw [Json.Value.cost_obj, List.length_append, length_openText hne,
      List.length_singleton] at hcost
    exact (membersCost_members ps).2 (by omega)

/-! ### The builder -/

/-- The pairs of a mapping. -/
def rawPairs (pairs : List (CString × CString)) : List (Text × Text) :=
  pairs.map fun p => (p.1.val, p.2.val)

/-- Everything fits: the keys into `plugin_cfg_key`, the object and its terminator into the
array. -/
def FitsAll (pairs : List (CString × CString)) : Prop :=
  (∀ p ∈ pairs, p.1.val.length < 128) ∧
    (openText (rawPairs pairs) ++ [125]).length < maxPluginConfigSize

/-- **The builder is in bounds and faithful on a mapping:** no write leaves the array, the string
in it is a JSON object, and when everything fits the object has the given pairs in order. -/
def BuildsFaithfully (pairs : List (CString × CString)) : Prop :=
  ∀ block : Block, block.length = maxPluginConfigSize →
    ∃ block' text ms, buildJson block pairs = some block' ∧ strAt block' 0 = some text ∧
      Json.parse text = some (.obj ms) ∧ (FitsAll pairs → ms = members (rawPairs pairs))

theorem kept_of_length (ps : List (Text × Text)) : ∀ {t : Text},
    (ps.foldl addPair t).length + 2 ≤ maxPluginConfigSize → Room t ps ∧ kept t ps = ps := by
  have hgrows (ps : List (Text × Text)) : ∀ t : Text, t.length ≤ (ps.foldl addPair t).length := by
    induction ps with
    | nil => exact fun _ => le_rfl
    | cons p ps ih =>
      intro t
      refine le_trans ?_ (ih (addPair t p))
      rw [JsonBuf.length_addPair]
      omega
  induction ps with
  | nil => exact fun _ => ⟨trivial, rfl⟩
  | cons p ps ih =>
    intro t h
    have hadd := (hgrows ps (addPair t p)).trans (Nat.le_sub_of_add_le h)
    have hlen := JsonBuf.length_addPair t p
    have hkey : KeyFits t p := by
      rw [KeyFits]
      omega
    obtain ⟨hroom, hkept⟩ := ih h
    rw [Room, kept, if_pos hkey, if_pos hkey, hkept]
    exact ⟨⟨by omega, hroom⟩, rfl⟩

theorem FitsAll.kept {pairs : List (CString × CString)} (h : FitsAll pairs) :
    Room [123] (cutPairs pairs) ∧ Config.kept [123] (cutPairs pairs) = rawPairs pairs := by
  have hcut : cutPairs pairs = rawPairs pairs :=
    List.map_congr_left fun p hp => by rw [cut_of_length_lt (h.1 p hp)]
  have hlen := h.2
  rw [List.length_append, List.length_singleton] at hlen
  rw [hcut]
  exact kept_of_length (rawPairs pairs) hlen

theorem mem_of_mem_kept {p : Text × Text} (ps : List (Text × Text)) :
    ∀ {t : Text}, p ∈ kept t ps → p ∈ ps := by
  induction ps with
  | nil => exact fun h => h
  | cons q ps ih =>
    intro t h
    rw [kept] at h
    split_ifs at h
    · rcases List.mem_cons.1 h with rfl | h
      · exact List.mem_cons_self ..
      · exact List.mem_cons_of_mem _ (ih h)
    · exact List.mem_cons_of_mem _ (ih h)

theorem zero_notMem_foldl {ps : List (Text × Text)} (hps : ∀ p ∈ ps, 0 ∉ p.1 ∧ 0 ∉ p.2) :
    ∀ {t : Text}, 0 ∉ t → 0 ∉ ps.foldl addPair t := by
  induction ps with
  | nil => exact fun h => h
  | cons p ps ih =>
    intro t ht
    obtain ⟨hkey, hvalue⟩ := hps p (List.mem_cons_self ..)
    have hesc : 0 ∉ escaped p.2 := by
      simp only [escaped, List.mem_flatMap, not_exists, not_and]
      intro c hc hmem
      have hzero : c ≠ 0 := fun h => hvalue (h ▸ hc)
      split_ifs at hmem <;> simp [hzero.symm] at hmem
    refine ih (fun q hq => hps q (List.mem_cons_of_mem _ hq)) ?_
    rw [addPair, pairText]
    split_ifs <;> simp [ht, hkey, hesc]

/-- The object has no zero byte. -/
theorem zero_notMem_objectText (pairs : List (CString × CString)) : 0 ∉ objectText pairs := by
  have hpairs : ∀ p ∈ kept [123] (cutPairs pairs), 0 ∉ p.1 ∧ 0 ∉ p.2 := by
    intro p hp
    obtain ⟨q, -, rfl⟩ := List.mem_map.1 (mem_of_mem_kept _ hp)
    exact ⟨fun h => q.1.2 (List.mem_of_mem_take h), q.2.2⟩
  rw [objectText, openText, List.mem_append, not_or]
  exact ⟨zero_notMem_foldl hpairs (by decide), by decide⟩

/-- **The JSON builder, on every mapping.**  It stays inside the array exactly if there is room.
If there is room and the pairs that are written are clean, it is faithful.  Where everything fits
it is faithful exactly if all pairs are clean. -/
theorem builder_faithful (pairs : List (CString × CString)) :
    ((∀ block : Block, block.length = maxPluginConfigSize → (buildJson block pairs).isSome) ↔
        Room [123] (cutPairs pairs)) ∧
      (Room [123] (cutPairs pairs) → (∀ p ∈ kept [123] (cutPairs pairs), Clean p) →
        BuildsFaithfully pairs) ∧
      (FitsAll pairs → (BuildsFaithfully pairs ↔ ∀ p ∈ rawPairs pairs, Clean p)) := by
  have hblock : (List.replicate maxPluginConfigSize (0 : UInt8)).length = maxPluginConfigSize :=
    List.length_replicate ..
  have hsufficient (hroom : Room [123] (cutPairs pairs))
      (hclean : ∀ p ∈ kept [123] (cutPairs pairs), Clean p) : BuildsFaithfully pairs := by
    intro block hsize
    obtain ⟨block', rest, hbuild, heq⟩ := (buildJson_spec hsize pairs).1 hroom
    refine ⟨block', _, _, hbuild, strAt_eq (zero_notMem_objectText pairs) heq,
      parse_openText hclean, fun hfits => by rw [hfits.kept.2]⟩
  refine ⟨⟨fun h => ?_, fun hroom block hsize => ?_⟩, hsufficient, fun hfits => ⟨fun h => ?_, ?_⟩⟩
  · by_contra hroom
    have hsome := h _ hblock
    rw [(buildJson_spec hblock pairs).2 hroom] at hsome
    cases hsome
  · obtain ⟨block', rest, hbuild, -⟩ := (buildJson_spec hsize pairs).1 hroom
    rw [hbuild]
    rfl
  · obtain ⟨hroom, hkept⟩ := hfits.kept
    obtain ⟨block', text, ms, hbuild, htext, hparse, hms⟩ := h _ hblock
    obtain ⟨block₁, rest, hbuild₁, heq⟩ := (buildJson_spec hblock pairs).1 hroom
    rw [hbuild] at hbuild₁
    cases hbuild₁
    rw [strAt_eq (zero_notMem_objectText pairs)
      (show block'.drop 0 = objectText pairs ++ 0 :: rest from heq)] at htext
    cases htext
    rw [hms hfits, objectText, hkept] at hparse
    exact clean_of_parse hparse
  · intro hclean
    obtain ⟨hroom, hkept⟩ := hfits.kept
    exact hsufficient hroom (by rwa [hkept])

/-- **The builder goes wrong** on a value that fills the array, whose brace or terminator is written
behind it, also where only an escape reaches the end, and on a key with a quote, whose object is not
JSON. -/
theorem builder_goes_wrong :
    buildJson (List.replicate 4096 0)
        [(⟨str "k", by decide⟩, ⟨List.replicate 4088 97, by decide +kernel⟩)] = none ∧
      buildJson (List.replicate 4096 0)
        [(⟨str "k", by decide⟩,
          ⟨List.replicate 4087 97 ++ [34], by decide +kernel⟩)] = none ∧
      (buildJson (List.replicate 4096 0)
          [(⟨str "a\"b", by decide⟩, ⟨str "c", by decide⟩)]).bind (strAt · 0) =
        some [123, 34, 97, 34, 98, 34, 58, 34, 99, 34, 125] ∧
      (Json.parse [123, 34, 97, 34, 98, 34, 58, 34, 99, 34, 125]).isNone := by
  have hsize : (List.replicate 4096 (0 : UInt8)).length = maxPluginConfigSize :=
    List.length_replicate ..
  refine ⟨(buildJson_spec hsize _).2 (by decide +kernel),
    (buildJson_spec hsize _).2 (by decide +kernel), by decide +kernel, by decide +kernel⟩

end Config
end Clogx
