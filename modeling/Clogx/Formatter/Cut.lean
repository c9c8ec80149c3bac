/-
# Where a line is cut

What a renderer leaves behind when the room ends.  It gives up, or it closes a
string that was cut, or it goes on because the character it lost was the last of
its string.  So a line ends well (`Ends`): behind all members, or behind a string
value that was cut.  Or it is spoiled (`Spoils`): a name was closed as if it was a
value, or a name has lost its last character.

`append_json_escaped_string` reads a character before it tests for its room, and
it reports a cut only if something is left to read.  A name can be cut and the
line still be closed only at a character whose escape takes six bytes; with
shorter escapes too little room is left for any suffix.  `KeyCut` says exactly
when that happens, and `outcome_renderFields` that nothing else does.
-/

import Clogx.Formatter.Fields

namespace Clogx
namespace Formatter

open CLib

/-- A character that is written with `\u` and four digits. -/
def Control (c : UInt8) : Prop := (jsonEscape c).length = 6

/-- A name has lost its last character with `l` bytes left, and the line is completed: the value
`val` is followed by the members `fs`. -/
def Completes (d : ℕ) (val : FieldVal) (fs : List Field) (l : ℕ) : Prop :=
  match val with
  | .raw t => fs = [] ∧ t.length + d + 3 ≤ l
  | .str v => d + 5 ≤ l ∧
      (v = [] ∧ fs = [] ∨ ∃ c b, v = c :: b ∧ Control c ∧ (b = [] → fs = []))

/-- The name of `f`, with `r` bytes left for it, is cut at a character `c` and the line is closed
all the same. -/
def NameCut (d : ℕ) (f : Field) (fs : List Field) (r : ℕ) : Prop :=
  ∃ a c b, f.key = .given (a ++ c :: b) ∧ Control c ∧ r ≤ (escapeText a).length + 6 ∧
    (b ≠ [] ∧ (escapeText a).length + d + 2 ≤ r ∨
      b = [] ∧ Completes d f.val fs (r - (escapeText a).length))

/-- The string `s`, with `r` bytes left for it, loses its last character, and the name behind it
is cut at its first. -/
def Shift (d : ℕ) (s : Text) (fs : List Field) (r : ℕ) : Prop :=
  ∃ a c f post c' b, s = a ++ [c] ∧ Control c ∧ fs = f :: post ∧ f.key = .given (c' :: b) ∧
    Control c' ∧ b ≠ [] ∧ (escapeText a).length + d + 5 ≤ r ∧ r ≤ (escapeText a).length + 6

/-- The name of one of the members `fs`, with `r` bytes left for all of them, is cut and the line
is returned all the same. -/
def KeyCut (d : ℕ) : List Field → ℕ → Prop
  | [], _ => False
  | f :: fs, r =>
    NameCut d f fs (r - 2) ∨
    (∃ s, f.val = .str s ∧ Shift d s fs (r - (f.key.text.length + 5))) ∨
    KeyCut d fs (r - f.text.length)

/-- The same behind the opening quote of a string `s`. -/
def StrCut (d : ℕ) (s : Text) (fs : List Field) (r : ℕ) : Prop :=
  Shift d s fs r ∨ KeyCut d fs (r - ((escapeText s).length + 1))

/-! ### How a line ends -/

/-- The members `gs` are the members `fs` up to a string that may be cut. -/
inductive FieldsCut : List Field → List Field → Prop
  | refl (fs : List Field) : FieldsCut fs fs
  | last (k : FieldKey) {a s : Text} (fs : List Field) (h : a <+: s) :
      FieldsCut [⟨k, .str a⟩] (⟨k, .str s⟩ :: fs)
  | cons (f : Field) {gs fs : List Field} : FieldsCut gs fs → FieldsCut (f :: gs) (f :: fs)

/-- The line ends behind members that are written in full, or behind a string that was cut. -/
def Ends (d : ℕ) (fs : List Field) (t : Text) : Prop :=
  ∃ gs, FieldsCut gs fs ∧ t = textOf gs ++ closers d

/-- The line has a name that is cut. -/
inductive Spoils (d : ℕ) : List Field → Text → Prop
  | name (fs : List Field) (e : Text) : Spoils d fs (44 :: 34 :: (escapeText e ++ suffix d))
  | lost {k k' : Text} {val val' : FieldVal} (fs : List Field) (hne : k' ≠ k)
      (hval : val' = val ∨ ∃ e, val' = .str e) :
      Spoils d (⟨.given k, val⟩ :: fs) (Field.text ⟨.given k', val'⟩ ++ closers d)
  | shift (k : FieldKey) {a s : Text} (fs : List Field) (e : Text) (h : a <+: s) :
      Spoils d (⟨k, .str s⟩ :: fs)
        (Field.text ⟨k, .str a⟩ ++ 44 :: 34 :: (escapeText e ++ suffix d))
  | cons (f : Field) {fs : List Field} {t : Text} : Spoils d fs t → Spoils d (f :: fs) (f.text ++ t)

/-- A renderer gives up or ends well, unless `cut`; then the line is spoiled. -/
def Outcome (cut : Prop) (ends spoils : Text → Prop) : Option Text → Prop
  | none => ¬ cut
  | some t => ¬ cut ∧ ends t ∨ cut ∧ spoils t

theorem Outcome.behind {cut cut' : Prop} {ends ends' spoils spoils' : Text → Prop}
    {o : Option Text} (p : Text) (h : Outcome cut ends spoils o) (hcut : cut' ↔ cut)
    (hends : ∀ t, ends t → ends' (p ++ t)) (hspoils : ∀ t, spoils t → spoils' (p ++ t)) :
    Outcome cut' ends' spoils' (o.map (p ++ ·)) := by
  cases o with
  | none => exact fun hc => h (hcut.1 hc)
  | some t =>
    rcases h with ⟨hc, ht⟩ | ⟨hc, ht⟩
    · exact .inl ⟨fun hc' => hc (hcut.1 hc'), hends t ht⟩
    · exact .inr ⟨hcut.2 hc, hspoils t ht⟩

/-- A text that has to fit before the rest of the line. -/
theorem Outcome.text {cut : ℕ → Prop} {ends ends' spoils spoils' : Text → Prop}
    {k : ℕ → Option Text} (p : Text) (h : ∀ r, 0 < r → Outcome (cut r) ends spoils (k r))
    (h0 : ¬ cut 0) (hends : ∀ t, ends t → ends' (p ++ t))
    (hspoils : ∀ t, spoils t → spoils' (p ++ t)) (r : ℕ) :
    Outcome (cut (r - p.length)) ends' spoils' ((Piece.text p).render k r) := by
  rcases Nat.lt_or_ge p.length r with hlt | hge
  · rw [Piece.render_text_of_lt hlt]
    exact (h _ (by omega)).behind p Iff.rfl hends hspoils
  · rw [Piece.render_text_of_le hge, Nat.sub_eq_zero_of_le hge]
    exact h0

/-! ### Escapes -/

theorem jsonEscape_pos (c : UInt8) : 0 < (jsonEscape c).length := by
  have := length_jsonEscape c
  omega

theorem control_of_lt {c : UInt8} (h : 2 < (jsonEscape c).length) : Control c := by
  have := length_jsonEscape c
  rw [Control]
  omega

theorem eq_nil_of_length {a : Text} (h : (escapeText a).length = 0) : a = [] := by
  cases a with
  | nil => rfl
  | cons c a =>
    rw [escapeText_cons, List.length_append] at h
    have := jsonEscape_pos c
    omega

/-- A string is cut at one place. -/
theorem cut_unique {r : ℕ} : ∀ {a a' : Text} {c c' : UInt8} {b b' : Text},
    a ++ c :: b = a' ++ c' :: b' → (escapeText a).length < r →
    r ≤ (escapeText a).length + (jsonEscape c).length → (escapeText a').length < r →
    r ≤ (escapeText a').length + (jsonEscape c').length → a = a' ∧ c = c' ∧ b = b'
  | [], [], c, c', b, b', h, _, _, _, _ => by
      obtain ⟨rfl, rfl⟩ := List.cons.inj h
      exact ⟨rfl, rfl, rfl⟩
  | [], x :: a', c, c', b, b', h, _, hr, ha', _ => by
      obtain ⟨rfl, -⟩ := List.cons.inj h
      rw [escapeText_cons, List.length_append] at ha'
      simp only [escapeText, List.flatMap_nil, List.length_nil] at hr
      omega
  | x :: a, [], c, c', b, b', h, ha, _, _, hr' => by
      obtain ⟨rfl, -⟩ := List.cons.inj h
      rw [escapeText_cons, List.length_append] at ha
      simp only [escapeText, List.flatMap_nil, List.length_nil] at hr'
      omega
  | x :: a, y :: a', c, c', b, b', h, ha, hr, ha', hr' => by
      obtain ⟨rfl, htail⟩ := List.cons.inj h
      simp only [escapeText_cons, List.length_append] at ha hr ha' hr'
      obtain ⟨rfl, rfl, rfl⟩ := cut_unique (r := r - (jsonEscape x).length) htail (by omega)
        (by omega) (by omega) (by omega)
      exact ⟨rfl, rfl, rfl⟩

theorem length_suffix (d : ℕ) : (suffix d).length = d + 1 := by simp [suffix, closers]

theorem Field.length_text (f : Field) :
    f.text.length = f.key.text.length + 4 + f.val.text.length := by
  simp [Field.text]
  omega

theorem FieldVal.length_str (s : Text) :
    (FieldVal.str s).text.length = (escapeText s).length + 2 := by
  simp [FieldVal.text]

/-! ### Bounds on the room -/

section

variable {d r : ℕ} {f : Field} {fs : List Field} {s : Text}

theorem Completes.lt {val : FieldVal} {l : ℕ} (h : Completes d val fs l) : d + 3 ≤ l := by
  cases val with
  | raw t =>
    have := h.2
    omega
  | str v =>
    have := h.1
    omega

theorem NameCut.lt (h : NameCut d f fs r) : d + 2 ≤ r := by
  obtain ⟨a, c, b, -, -, -, ⟨-, h⟩ | ⟨-, h⟩⟩ := h
  · omega
  · have := h.lt
    omega

theorem Shift.lt (h : Shift d s fs r) : d + 5 ≤ r := by
  obtain ⟨a, c, f, post, c', b, -, -, -, -, -, -, h, -⟩ := h
  omega

theorem KeyCut.lt (h : KeyCut d fs r) : d + 4 ≤ r := by
  induction fs generalizing r with
  | nil => exact h.elim
  | cons f fs ih =>
    rcases h with h | ⟨s, -, h⟩ | h
    · have := h.lt
      omega
    · have := h.lt
      omega
    · have := ih h
      omega

theorem StrCut.lt (h : StrCut d s fs r) : d + 4 ≤ r := by
  rcases h with h | h
  · have := h.lt
    omega
  · have := h.lt
    omega

/-- A name that is written in full is not cut. -/
theorem not_nameCut_of_lt (h : f.key.text.length < r) : ¬ NameCut d f fs r := by
  rintro ⟨a, c, b, hkey, hc, hr, -⟩
  rw [hkey, FieldKey.text, escapeText_append, escapeText_cons, List.length_append,
    List.length_append, hc] at h
  omega

end

/-! ### Little room -/

section Small

variable {d : ℕ}

/-- Behind a name there is no room for a value. -/
theorem value_small {val : FieldVal} (hval : ∀ t, val = .raw t → t ≠ []) (k : ℕ → Option Text)
    {r : ℕ} (h : r ≤ 3) :
    (Piece.text [34, 58]).render ((val.pieces d).foldr Piece.render k) r = none := by
  by_cases hr : r ≤ 2
  · exact Piece.render_text_of_le hr
  · obtain rfl : r = 3 := by omega
    rw [Piece.render_text_of_lt (by simp)]
    cases val with
    | raw t =>
      have ht := List.length_pos_of_ne_nil (hval t rfl)
      exact Option.map_eq_none_iff.2 (Piece.render_text_of_le (by simp; omega))
    | str s => exact Option.map_eq_none_iff.2 (Piece.render_text_of_le (by simp))

/-- There is room for the end of the line only. -/
theorem renderFields_small {r : ℕ} (h : r ≤ 3) (f : Field) (fs : List Field) :
    renderFields d (f :: fs) r = none := by
  rw [renderFields_cons]
  by_cases hr : r ≤ 2
  · exact Piece.render_text_of_le hr
  · obtain rfl : r = 3 := by omega
    rw [Piece.render_text_of_lt (by simp)]
    refine Option.map_eq_none_iff.2 ?_
    simp only [List.length_cons, List.length_nil]
    generalize (f.val.pieces d).foldr Piece.render (renderFields d fs) = k
    have hend : ∀ x ≤ 1, (Piece.text [34, 58]).render k x = none := fun x hx =>
      Piece.render_text_of_le (by simp; omega)
    cases f.key with
    | fixed t =>
      by_cases ht : 1 ≤ t.length
      · exact Piece.render_text_of_le ht
      · rw [FieldKey.piece, Piece.render_text_of_lt (by omega), hend _ (by omega)]
        rfl
    | given s =>
      cases s with
      | nil =>
        rw [FieldKey.piece, Piece.render_escaped_of_lt (by simp [escapeText]), hend _ (by omega)]
        rfl
      | cons c s =>
        simp [FieldKey.piece, Piece.render, escapeCut, length_suffix]

/-- With at most five bytes left, the next member is cut at the first character of its name, or
there is no room. -/
theorem renderFields_five (hd : 0 < d) {r : ℕ} (h : r ≤ 5) (f : Field) (fs : List Field)
    (hval : ∀ t, f.val = .raw t → t ≠ []) :
    (∃ c b, f.key = .given (c :: b) ∧ Control c ∧ b ≠ [] ∧ d + 4 ≤ r) ∧
        renderFields d (f :: fs) r = some (44 :: 34 :: suffix d) ∨
      (¬ ∃ c b, f.key = .given (c :: b) ∧ Control c ∧ b ≠ [] ∧ d + 4 ≤ r) ∧
        renderFields d (f :: fs) r = none := by
  by_cases hr : r ≤ 3
  · refine .inr ⟨?_, renderFields_small hr f fs⟩
    rintro ⟨c, b, -, -, -, h⟩
    omega
  rw [renderFields_cons, Piece.render_text_of_lt (by simp; omega)]
  simp only [List.length_cons, List.length_nil]
  have hend : ∀ {x : ℕ}, x ≤ 3 → (Piece.text [34, 58]).render
      ((f.val.pieces d).foldr Piece.render (renderFields d fs)) x = none :=
    value_small hval (renderFields d fs)
  generalize (Piece.text [34, 58]).render _ = k at hend ⊢
  cases hkey : f.key with
  | fixed t =>
    refine .inr ⟨by simp, Option.map_eq_none_iff.2 ?_⟩
    by_cases ht : r - 2 ≤ t.length
    · exact Piece.render_text_of_le ht
    · rw [FieldKey.piece, Piece.render_text_of_lt (by omega), hend (by omega)]
      rfl
  | given s =>
    rw [FieldKey.piece]
    -- the first character is not written
    have hfirst : ∀ {c : UInt8} {b : Text}, s = c :: b → Control c → ∀ {a : Text} {c' : UInt8}
        {b' : Text}, s = a ++ c' :: b' → (escapeText a).length < r → a = [] := by
      rintro c b rfl hc a c' b' heq ha
      cases a with
      | nil => rfl
      | cons x a =>
        obtain ⟨rfl, -⟩ := List.cons.inj heq
        rw [escapeText_cons, List.length_append, hc] at ha
        omega
    rcases Nat.lt_or_ge (escapeText s).length (r - 2) with hlt | hge
    · refine .inr ⟨?_, Option.map_eq_none_iff.2 ?_⟩
      · rintro ⟨c, b, hs, hc, -, -⟩
        obtain rfl := FieldKey.given.inj hs
        rw [escapeText_cons, List.length_append, hc] at hlt
        omega
      · rw [Piece.render_escaped_of_lt hlt, hend (by omega)]
        rfl
    · obtain ⟨a, c, b, l, hs, hl, hpos, hle, hrender⟩ :=
        Piece.render_escaped_of_le (by omega) hge (suffix d) k
      rw [hrender, length_suffix]
      split_ifs with hb hroom
      · refine .inr ⟨?_, by rw [hend (by omega)]; rfl⟩
        rintro ⟨c₁, b₁, hs₁, hc₁, hb₁, -⟩
        obtain rfl := hfirst (FieldKey.given.inj hs₁) hc₁ hs (by omega)
        rw [FieldKey.given.inj hs₁] at hs
        obtain ⟨-, rfl⟩ := List.cons.inj hs
        exact hb₁ hb.1
      · refine .inr ⟨?_, rfl⟩
        rintro ⟨c₁, b₁, hs₁, hc₁, -, hroom₁⟩
        obtain rfl := hfirst (FieldKey.given.inj hs₁) hc₁ hs (by omega)
        simp only [escapeText, List.flatMap_nil, List.length_nil] at hl
        omega
      · obtain rfl := eq_nil_of_length (a := a) (by omega)
        simp only [escapeText, List.flatMap_nil, List.length_nil, Nat.zero_add] at hl
        refine .inl ⟨⟨c, b, by rw [hs]; rfl, control_of_lt (by omega), fun hnil => ?_, by omega⟩,
          rfl⟩
        exact hb ⟨hnil, by omega⟩

/-- With at most three bytes left behind the opening quote of a string, the string is left empty
and the line is closed, or there is no room. -/
theorem renderStr_small (hd : 0 < d) {l : ℕ} (hpos : 0 < l) (h : l ≤ 3) (v : Text)
    (fs : List Field) :
    (d + 2 ≤ l ∧ (v = [] ∧ fs = [] ∨ ∃ c b, v = c :: b ∧ Control c ∧ (b = [] → fs = []))) ∧
        renderStr d v fs l = some (34 :: closers d) ∨
      (¬ (d + 2 ≤ l ∧ (v = [] ∧ fs = [] ∨ ∃ c b, v = c :: b ∧ Control c ∧ (b = [] → fs = [])))) ∧
        renderStr d v fs l = none := by
  -- the closing quote and the end of the line
  have hend : ∀ x ≤ 3, (Piece.text [34]).render (renderFields d fs) x =
      if fs = [] ∧ d + 2 ≤ x then some (34 :: closers d) else none := by
    intro x hx
    by_cases hx1 : x ≤ 1
    · rw [if_neg (by omega), Piece.render_text_of_le (by simpa using hx1)]
    rw [Piece.render_text_of_lt (by simp; omega)]
    cases fs with
    | cons f fs =>
      rw [renderFields_small (by simp; omega), if_neg (by simp)]
      rfl
    | nil =>
      change Option.map _ ((Piece.text (closers d)).render (fun _ => some []) (x - 1)) = _
      by_cases hroom : d + 2 ≤ x
      · rw [Piece.render_text_of_lt (by simp [closers]; omega), if_pos ⟨rfl, hroom⟩]
        simp
      · rw [Piece.render_text_of_le (by simp [closers]; omega), if_neg (by omega)]
        rfl
  rw [renderStr]
  rcases Nat.lt_or_ge (escapeText v).length l with hlt | hge
  · rw [Piece.render_escaped_of_lt hlt, hend _ (by omega)]
    split_ifs with hfs
    · obtain rfl := eq_nil_of_length (a := v) (by omega)
      exact .inl ⟨⟨by omega, .inl ⟨rfl, hfs.1⟩⟩, rfl⟩
    · refine .inr ⟨?_, rfl⟩
      rintro ⟨hroom, ⟨rfl, hnil⟩ | ⟨c, b, rfl, hc, -⟩⟩
      · exact hfs ⟨hnil, by simpa [escapeText] using hroom⟩
      · rw [escapeText_cons, List.length_append, hc] at hlt
        omega
  · obtain ⟨a, c, b, m, rfl, hl, hm, hle, hrender⟩ :=
      Piece.render_escaped_of_le hpos hge (suffix d)
        ((Piece.text [34]).render (renderFields d fs))
    have hfirst : ∀ {c' : UInt8} {b' : Text}, a ++ c :: b = c' :: b' → Control c' →
        a = [] ∧ c = c' ∧ b = b' := by
      intro c' b' heq hc'
      cases a with
      | nil =>
        obtain ⟨rfl, rfl⟩ := List.cons.inj heq
        exact ⟨rfl, rfl, rfl⟩
      | cons x a =>
        obtain ⟨rfl, -⟩ := List.cons.inj heq
        rw [escapeText_cons, List.length_append, hc'] at hl
        omega
    rw [hrender, length_suffix]
    split_ifs with hb hroom
    · rw [hend _ (by omega)]
      split_ifs with hfs
      · obtain rfl := eq_nil_of_length (a := a) (by omega)
        refine .inl ⟨⟨by omega, .inr ⟨c, b, rfl, control_of_lt (by omega), fun _ => hfs.1⟩⟩, rfl⟩
      · refine .inr ⟨?_, rfl⟩
        rintro ⟨hroom, ⟨hnil, -⟩ | ⟨c', b', heq, hc', himp⟩⟩
        · simp at hnil
        · obtain ⟨rfl, rfl, rfl⟩ := hfirst heq hc'
          simp only [escapeText, List.flatMap_nil, List.length_nil] at hl
          exact hfs ⟨himp hb.1, by omega⟩
    · refine .inr ⟨?_, rfl⟩
      rintro ⟨hroom', ⟨hnil, -⟩ | ⟨c', b', heq, hc', -⟩⟩
      · simp at hnil
      · obtain ⟨rfl, rfl, rfl⟩ := hfirst heq hc'
        simp only [escapeText, List.flatMap_nil, List.length_nil] at hl
        omega
    · obtain rfl := eq_nil_of_length (a := a) (by omega)
      refine .inl ⟨⟨by omega, .inr ⟨c, b, rfl, control_of_lt (by omega), fun hnil => ?_⟩⟩, rfl⟩
      exact absurd ⟨hnil, by omega⟩ hb

end Small

/-! ### The end of a line -/

section Outcomes

variable {d : ℕ}

theorem renderFields_nil_of_lt {r : ℕ} (h : d < r) : renderFields d [] r = some (closers d) := by
  change (Piece.text (closers d)).render (fun _ => some []) r = _
  rw [Piece.render_text_of_lt (by simpa [closers] using h), Option.map_some, List.append_nil]

theorem renderFields_nil_of_le {r : ℕ} (h : r ≤ d) : renderFields d [] r = none :=
  Piece.render_text_of_le (by simpa [closers] using h)

/-- Behind a name that has lost its last character: the value is the last one, or there is no
room. -/
theorem completes_or_none (hd : 0 < d) {val : FieldVal} (hval : ∀ t, val = .raw t → t ≠ [])
    (fs : List Field) {l : ℕ} (hl : l ≤ 6) :
    (Completes d val fs l ∧ ∃ val', (val' = val ∨ ∃ e, val' = .str e) ∧
        (Piece.text [34, 58]).render ((val.pieces d).foldr Piece.render (renderFields d fs)) l =
          some ([34, 58] ++ (val'.text ++ closers d))) ∨
      ¬ Completes d val fs l ∧
        (Piece.text [34, 58]).render ((val.pieces d).foldr Piece.render (renderFields d fs)) l =
          none := by
  by_cases hsmall : l ≤ 3
  · refine .inr ⟨fun hc => ?_, value_small hval _ hsmall⟩
    have := hc.lt
    omega
  rw [Piece.render_text_of_lt (by simp; omega)]
  simp only [List.length_cons, List.length_nil, Nat.zero_add, Nat.reduceAdd]
  cases val with
  | raw t =>
    simp only [FieldVal.pieces, List.foldr_cons, List.foldr_nil, Completes]
    have ht := List.length_pos_of_ne_nil (hval t rfl)
    by_cases hfit : l - 2 ≤ t.length
    · rw [Piece.render_text_of_le hfit]
      exact .inr ⟨by omega, rfl⟩
    rw [Piece.render_text_of_lt (by omega)]
    cases fs with
    | cons f fs =>
      rw [renderFields_small (by omega)]
      exact .inr ⟨by simp, rfl⟩
    | nil =>
      by_cases hroom : t.length + d + 3 ≤ l
      · rw [renderFields_nil_of_lt (by omega)]
        exact .inl ⟨⟨rfl, hroom⟩, .raw t, .inl rfl, rfl⟩
      · rw [renderFields_nil_of_le (by omega)]
        exact .inr ⟨by omega, rfl⟩
  | str v =>
    simp only [FieldVal.pieces, List.foldr_cons, List.foldr_nil, Completes]
    rw [Piece.render_text_of_lt (by simp; omega), ← renderStr, List.length_singleton]
    rcases renderStr_small hd (by omega : 0 < l - 2 - 1) (by omega) v fs with ⟨hc, h⟩ | ⟨hc, h⟩
    · rw [h]
      exact .inl ⟨⟨by omega, hc.2⟩, .str [], .inr ⟨[], rfl⟩, rfl⟩
    · rw [h]
      exact .inr ⟨fun hc' => hc ⟨by omega, hc'.2⟩, rfl⟩

/-- How the line ends behind the opening quote of a string `s`. -/
def EndsStr (d : ℕ) (s : Text) (fs : List Field) (t : Text) : Prop :=
  ∃ a gs, t = escapeText a ++ 34 :: (textOf gs ++ closers d) ∧
    (a = s ∧ FieldsCut gs fs ∨ a <+: s ∧ gs = [])

/-- The line has a name that is cut, behind the string `s`. -/
def SpoilsStr (d : ℕ) (s : Text) (fs : List Field) (t : Text) : Prop :=
  (∃ u, t = escapeText s ++ 34 :: u ∧ Spoils d fs u) ∨
    ∃ a e, a <+: s ∧ t = escapeText a ++ 34 :: 44 :: 34 :: (escapeText e ++ suffix d)

theorem Ends.cons {fs : List Field} {t : Text} (f : Field) (h : Ends d fs t) :
    Ends d (f :: fs) (f.text ++ t) := by
  obtain ⟨gs, hcut, rfl⟩ := h
  exact ⟨f :: gs, hcut.cons f, by simp [textOf]⟩

theorem EndsStr.cons {fs : List Field} {s t : Text} (k : FieldKey) (h : EndsStr d s fs t) :
    Ends d (⟨k, .str s⟩ :: fs) (44 :: 34 :: (k.text ++ 34 :: 58 :: 34 :: t)) := by
  obtain ⟨a, gs, rfl, ⟨rfl, hcut⟩ | ⟨hpre, rfl⟩⟩ := h
  · exact ⟨_, hcut.cons _, by simp [textOf, Field.text, FieldVal.text]⟩
  · exact ⟨_, .last k fs hpre, by simp [textOf, Field.text, FieldVal.text]⟩

theorem SpoilsStr.cons {fs : List Field} {s t : Text} (k : FieldKey) (h : SpoilsStr d s fs t) :
    Spoils d (⟨k, .str s⟩ :: fs) (44 :: 34 :: (k.text ++ 34 :: 58 :: 34 :: t)) := by
  rcases h with ⟨u, rfl, hu⟩ | ⟨a, e, hpre, rfl⟩
  · simpa [Field.text, FieldVal.text] using hu.cons ⟨k, .str s⟩
  · simpa [Field.text, FieldVal.text] using Spoils.shift k fs e hpre (d := d)

/-- A string that is written in full is not cut. -/
theorem not_shift_of_lt {s : Text} {fs : List Field} {r : ℕ} (h : (escapeText s).length < r) :
    ¬ Shift d s fs r := by
  rintro ⟨a, c, f, post, c', b, rfl, hc, -, -, -, -, -, hr⟩
  rw [escapeText_append, List.length_append, escapeText_cons, List.length_append, hc] at h
  omega

/-- **The end of a line behind the opening quote of a string**, from the end of a line behind
it. -/
theorem outcome_renderStr (hd : 0 < d) {fs : List Field}
    (hraw : ∀ f ∈ fs, ∀ t, f.val = .raw t → t ≠ [])
    (hrest : ∀ r, Outcome (KeyCut d fs r) (Ends d fs) (Spoils d fs) (renderFields d fs r))
    (s : Text) {r : ℕ} (h0 : 0 < r) :
    Outcome (StrCut d s fs r) (EndsStr d s fs) (SpoilsStr d s fs) (renderStr d s fs r) := by
  rw [renderStr]
  rcases Nat.lt_or_ge (escapeText s).length r with hlt | hge
  · have hcut : StrCut d s fs r ↔ KeyCut d fs (r - (escapeText s).length - 1) := by
      rw [StrCut, or_iff_right (not_shift_of_lt hlt), Nat.sub_add_eq]
    rw [Piece.render_escaped_of_lt hlt]
    by_cases hquote : r - (escapeText s).length ≤ 1
    · rw [Piece.render_text_of_le (by simpa using hquote)]
      intro hc
      have := (hcut.1 hc).lt
      omega
    · rw [Piece.render_text_of_lt (by simp; omega), Option.map_map]
      have hmap : (escapeText s ++ ·) ∘ ([34] ++ ·) = ((escapeText s ++ [34]) ++ ·) := by
        funext t
        simp
      rw [hmap]
      refine (hrest _).behind _ hcut (fun t ht => ?_) fun t ht => ?_
      · obtain ⟨gs, hgs, rfl⟩ := ht
        exact ⟨s, gs, by simp, .inl ⟨rfl, hgs⟩⟩
      · exact .inl ⟨t, by simp, ht⟩
  · obtain ⟨a, c, b, l, rfl, rfl, hpos, hle, hrender⟩ := Piece.render_escaped_of_le h0 hge
      (suffix d) ((Piece.text [34]).render (renderFields d fs))
    rw [hrender, length_suffix]
    have hpre : a <+: a ++ c :: b := List.prefix_append ..
    -- only the last character of the string can be lost
    have hshift : StrCut d (a ++ c :: b) fs ((escapeText a).length + l) → b = [] ∧ d + 5 ≤ l ∧
        ∃ f post c' b', fs = f :: post ∧ f.key = .given (c' :: b') ∧ Control c' ∧ b' ≠ [] := by
      rintro (⟨a', c₁, f, post, c', b', heq, hc₁, hfs, hkey, hc', hb', hlow, hhigh⟩ | hc)
      · obtain ⟨rfl, rfl, rfl⟩ := cut_unique (r := (escapeText a).length + l) heq (by omega)
          (by omega) (by omega) (by rw [hc₁]; exact hhigh)
        exact ⟨rfl, by omega, f, post, c', b', hfs, hkey, hc', hb'⟩
      · have := hc.lt
        omega
    split_ifs with hb hroom
    · obtain ⟨rfl, hl⟩ := hb
      rw [Piece.render_text_of_lt (by simp; omega), List.length_singleton]
      have hc6 := length_jsonEscape c
      cases fs with
      | nil =>
        have hnot : ¬ StrCut d (a ++ [c]) [] ((escapeText a).length + l) := fun hc => by
          obtain ⟨-, -, f, post, c', b', hfs, -⟩ := hshift hc
          cases hfs
        by_cases hend : d < l - 1
        · rw [renderFields_nil_of_lt hend]
          exact .inl ⟨hnot, a, [], rfl, .inr ⟨hpre, rfl⟩⟩
        · rw [renderFields_nil_of_le (by omega)]
          exact hnot
      | cons f fs =>
        rcases renderFields_five hd (by omega : l - 1 ≤ 5) f fs (hraw f (List.mem_cons_self ..))
          with ⟨⟨c', b', hkey, hc', hb', hroom⟩, h⟩ | ⟨hnot, h⟩
        · rw [h]
          refine .inr ⟨.inl ⟨a, c, f, fs, c', b', rfl, control_of_lt (by omega), rfl, hkey, hc',
            hb', by omega, by omega⟩, .inr ⟨a, [], hpre, rfl⟩⟩
        · rw [h]
          intro hc
          obtain ⟨-, hl5, f', post, c', b', hfs, hkey, hc', hb'⟩ := hshift hc
          obtain ⟨rfl, rfl⟩ := List.cons.inj hfs
          exact hnot ⟨c', b', hkey, hc', hb', by omega⟩
    · intro hc
      obtain ⟨hnil, hl5, -⟩ := hshift hc
      omega
    · refine .inl ⟨fun hc => ?_, a, [], rfl, .inr ⟨hpre, rfl⟩⟩
      obtain ⟨hnil, hl5, -⟩ := hshift hc
      exact hb ⟨hnil, by omega⟩

/-- A member up to its value. -/
def FieldKey.lead (k : FieldKey) : Text := 44 :: 34 :: (k.text ++ [34, 58])

/-- **The end of a line behind the name of a member**, from the end of a line behind it. -/
theorem outcome_value (hd : 0 < d) {fs : List Field}
    (hraw : ∀ f ∈ fs, ∀ t, f.val = .raw t → t ≠ [])
    (hrest : ∀ r, Outcome (KeyCut d fs r) (Ends d fs) (Spoils d fs) (renderFields d fs r))
    (f : Field) (x : ℕ) :
    Outcome ((∃ s, f.val = .str s ∧ Shift d s fs (x - 1)) ∨ KeyCut d fs (x - f.val.text.length))
      (fun t => Ends d (f :: fs) (f.key.lead ++ t)) (fun t => Spoils d (f :: fs) (f.key.lead ++ t))
      ((f.val.pieces d).foldr Piece.render (renderFields d fs) x) := by
  obtain ⟨k, val⟩ := f
  cases val with
  | raw t =>
    simp only [FieldVal.pieces, List.foldr_cons, List.foldr_nil, FieldVal.text, reduceCtorEq,
      false_and, exists_false, false_or]
    by_cases hfit : x ≤ t.length
    · rw [Piece.render_text_of_le hfit]
      intro hc
      have := hc.lt
      omega
    · rw [Piece.render_text_of_lt (by omega)]
      refine (hrest _).behind _ Iff.rfl (fun u hu => ?_) fun u hu => ?_
      · simpa [FieldKey.lead, Field.text, FieldVal.text] using hu.cons ⟨k, .raw t⟩
      · simpa [FieldKey.lead, Field.text, FieldVal.text] using hu.cons ⟨k, .raw t⟩
  | str s =>
    have hcut : ((∃ s', FieldVal.str s = .str s' ∧ Shift d s' fs (x - 1)) ∨
        KeyCut d fs (x - (FieldVal.str s).text.length)) ↔ StrCut d s fs (x - 1) := by
      rw [StrCut, FieldVal.length_str,
        show x - ((escapeText s).length + 2) = x - 1 - ((escapeText s).length + 1) by omega]
      simp
    simp only [FieldVal.pieces, List.foldr_cons, List.foldr_nil]
    rw [← renderStr]
    by_cases hfit : x ≤ 1
    · rw [Piece.render_text_of_le hfit]
      intro hc
      have := (hcut.1 hc).lt
      omega
    · rw [Piece.render_text_of_lt (by simp; omega)]
      refine (outcome_renderStr hd hraw hrest s (by simp; omega)).behind _ hcut
        (fun t ht => ?_) fun t ht => ?_
      · simpa [FieldKey.lead] using ht.cons k
      · simpa [FieldKey.lead] using ht.cons k

/-- The name of a member has no room: the cases of `NameCut`. -/
theorem outcome_name (hd : 0 < d) {f : Field} (hval : ∀ t, f.val = .raw t → t ≠ [])
    (fs : List Field) {r : ℕ} (h0 : 0 < r) (hge : r ≤ f.key.text.length) :
    Outcome (NameCut d f fs r) (fun t => Ends d (f :: fs) (44 :: 34 :: t))
      (fun t => Spoils d (f :: fs) (44 :: 34 :: t))
      ((f.key.piece d).render ((Piece.text [34, 58]).render
        ((f.val.pieces d).foldr Piece.render (renderFields d fs))) r) := by
  obtain ⟨k, val⟩ := f
  cases k with
  | fixed t =>
    rw [FieldKey.piece, Piece.render_text_of_le (t := t) hge]
    rintro ⟨a, c, b, hkey, -⟩
    cases hkey
  | given s =>
    obtain ⟨a, c, b, l, rfl, rfl, hpos, hle, hrender⟩ := Piece.render_escaped_of_le h0 hge
      (suffix d) ((Piece.text [34, 58]).render
        ((val.pieces d).foldr Piece.render (renderFields d fs)))
    have hc6 := length_jsonEscape c
    have hname : NameCut d ⟨.given (a ++ c :: b), val⟩ fs ((escapeText a).length + l) ↔
        b ≠ [] ∧ d + 2 ≤ l ∨ b = [] ∧ Completes d val fs l := by
      constructor
      · rintro ⟨a', c', b', heq, hc', hr, hcase⟩
        have hlow : (escapeText a').length < (escapeText a).length + l := by
          rcases hcase with ⟨-, h⟩ | ⟨-, h⟩
          · omega
          · have := h.lt
            omega
        obtain ⟨rfl, rfl, rfl⟩ := cut_unique (FieldKey.given.inj heq) (by omega) (by omega) hlow
          (by rw [hc']; exact hr)
        rw [Nat.add_sub_cancel_left] at hcase
        exact hcase.imp (And.imp_right fun h => by omega) id
      · intro hcase
        have hl : 2 < l := by
          rcases hcase with ⟨-, h⟩ | ⟨-, h⟩
          · omega
          · have := h.lt
            omega
        refine ⟨a, c, b, rfl, control_of_lt (by omega), by omega, ?_⟩
        rw [Nat.add_sub_cancel_left]
        exact hcase.imp (And.imp_right fun h => by omega) id
    rw [FieldKey.piece, hrender, length_suffix]
    split_ifs with hb hroom
    · obtain ⟨rfl, hl⟩ := hb
      simp only [ne_eq, not_true_eq_false, false_and, true_and, false_or] at hname
      rcases completes_or_none hd hval fs (by omega : l ≤ 6) with ⟨hc, val', hv, h⟩ | ⟨hc, h⟩
      · rw [h]
        refine .inr ⟨hname.2 hc, ?_⟩
        simpa [Field.text, FieldKey.text] using
          Spoils.lost fs (by simp : a ≠ a ++ [c]) hv (d := d)
      · rw [h]
        exact fun hcut => hc (hname.1 hcut)
    · intro hcut
      rcases hname.1 hcut with ⟨-, h⟩ | ⟨hnil, h⟩
      · omega
      · have := h.lt
        exact hb ⟨hnil, by omega⟩
    · exact .inr ⟨hname.2 (.inl ⟨fun hnil => hb ⟨hnil, by omega⟩, by omega⟩), .name _ a⟩

/-- A name that has room is written, and the line goes on. -/
theorem FieldKey.render_of_lt (k : FieldKey) {r : ℕ} (h : k.text.length < r)
    (rest : ℕ → Option Text) :
    (k.piece d).render rest r = (rest (r - k.text.length)).map (k.text ++ ·) := by
  cases k with
  | fixed t => exact Piece.render_text_of_lt h
  | given s => exact Piece.render_escaped_of_lt h

/-- **A renderer gives up or ends the line well, unless it cuts a name.** -/
theorem outcome_renderFields (hd : 0 < d) {fs : List Field}
    (hraw : ∀ f ∈ fs, ∀ t, f.val = .raw t → t ≠ []) (r : ℕ) :
    Outcome (KeyCut d fs r) (Ends d fs) (Spoils d fs) (renderFields d fs r) := by
  induction fs generalizing r with
  | nil =>
    by_cases h : d < r
    · rw [renderFields_nil_of_lt h]
      exact .inl ⟨id, [], .refl [], rfl⟩
    · rw [renderFields_nil_of_le (by omega)]
      exact id
  | cons f fs ih =>
    have hraw' : ∀ g ∈ fs, ∀ t, g.val = .raw t → t ≠ [] := fun g hg =>
      hraw g (List.mem_cons_of_mem _ hg)
    have hlen := f.length_text
    rw [renderFields_cons]
    by_cases h2 : r ≤ 2
    · rw [Piece.render_text_of_le (by simpa using h2)]
      intro hc
      have := hc.lt
      omega
    rw [Piece.render_text_of_lt (by simp; omega)]
    simp only [List.length_cons, List.length_nil, Nat.zero_add, Nat.reduceAdd]
    rcases Nat.lt_or_ge f.key.text.length (r - 2) with hlt | hge
    · have hcut : KeyCut d (f :: fs) r ↔
          (∃ s, f.val = .str s ∧ Shift d s fs (r - 2 - f.key.text.length - 2 - 1)) ∨
            KeyCut d fs (r - 2 - f.key.text.length - 2 - f.val.text.length) := by
        rw [KeyCut, or_iff_right (not_nameCut_of_lt hlt), hlen,
          show r - (f.key.text.length + 5) = r - 2 - f.key.text.length - 2 - 1 by omega,
          show r - (f.key.text.length + 4 + f.val.text.length) =
            r - 2 - f.key.text.length - 2 - f.val.text.length by omega]
      rw [FieldKey.render_of_lt _ hlt]
      by_cases hcolon : r - 2 - f.key.text.length ≤ 2
      · rw [Piece.render_text_of_le (by simpa using hcolon)]
        intro hc
        rcases hcut.1 hc with ⟨s, -, h⟩ | h
        · have := h.lt
          omega
        · have := h.lt
          omega
      · rw [Piece.render_text_of_lt (by simp; omega), Option.map_map, Option.map_map]
        have hmap : (([44, 34] ++ ·) ∘ (f.key.text ++ ·)) ∘ ([34, 58] ++ ·) =
            (f.key.lead ++ · : Text → Text) := by
          funext t
          simp [FieldKey.lead]
        rw [hmap]
        exact (outcome_value hd hraw' (ih hraw') f _).behind _ hcut (fun _ h => h) fun _ h => h
    · -- the name has no room, and so nothing behind it has
      have hcut : KeyCut d (f :: fs) r ↔ NameCut d f fs (r - 2) := by
        refine ⟨?_, .inl⟩
        rintro (h | ⟨s, -, h⟩ | h)
        · exact h
        · have := h.lt
          omega
        · have := h.lt
          omega
      exact (outcome_name hd (hraw f (List.mem_cons_self ..)) fs (by omega) hge).behind _ hcut
        (fun _ h => h) fun _ h => h

end Outcomes

end Formatter
end Clogx
