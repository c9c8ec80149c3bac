/-
# Reading JSON texts

RFC 8259 as a machine that reads a text byte by byte: the stack holds the arrays
and objects that are still open, the mode says what may come next.  A reader of
this kind needs no lookahead and composes along concatenation
(`Machine.run_append`), so a text is shown to be read, or to be refused, piece by
piece.

A string is the list of its characters' codes; a byte that is not part of an
escape is the character of that code, also from 0x80 on.  A number is the pair
`m`, `e` that stands for `m · 10 ^ e`.  Members of an object are kept in the order
of the text, with repeated names.

`Spells t s` says that the bytes `t` between quotes stand for the characters `s`,
and `Reads t v` that the text `t` stands for the value `v` wherever a value may
stand.  `InObject` is a reader that has just read a member; `Cuts` compares the
value of a text that was cut short with the value of the whole.
-/

import Clogx.CLib.Text
import Clogx.Machine.Run

namespace Clogx
namespace Json

open Machine (run run_append)

/-- The characters of a string. -/
abbrev Str := List ℕ

/-- A JSON value. -/
inductive Value
  | null
  | bool (b : Bool)
  | num (mantissa exponent : ℤ)
  | str (s : Str)
  | arr (vs : List Value)
  | obj (ms : List (Str × Value))

/-- The members of an object. -/
abbrev Members := List (Str × Value)

/-- Where a reader stands between two quotes. -/
inductive Chars
  | plain
  | backslash
  | hex (left code : ℕ)
deriving DecidableEq

/-- The last part of a number that was read. -/
inductive Phase
  | minus
  | zero
  | int
  | point
  | frac
  | e
  | esign
  | exp
deriving DecidableEq

/-- A number in the course of reading: `scale` digits of `mant` stand behind the point. -/
structure Number where
  phase : Phase
  neg : Bool := false
  mant : ℕ := 0
  scale : ℕ := 0
  expNeg : Bool := false
  exp : ℕ := 0

/-- An array or object that is still open; the object waits for the value of `key`. -/
inductive Frame
  | arr (vs : List Value)
  | obj (ms : Members) (key : Str)

/-- What has just been read. -/
inductive Mode
  | value
  | valueOrEnd
  | keyOrEnd
  | key (ms : Members)
  | inKey (ms : Members) (acc : Str) (at' : Chars)
  | colon (ms : Members) (key : Str)
  | inStr (acc : Str) (at' : Chars)
  | inNum (n : Number)
  | inLit (left : List UInt8) (v : Value)
  | done (v : Value)

structure State where
  stack : List Frame
  mode : Mode

/-- Space, tab, line feed, carriage return. -/
def isWs (c : UInt8) : Bool := c == 32 || c == 9 || c == 10 || c == 13

def digit (c : UInt8) : Option ℕ := if 48 ≤ c ∧ c ≤ 57 then some (c.toNat - 48) else none

def hexDigit (c : UInt8) : Option ℕ :=
  if 48 ≤ c ∧ c ≤ 57 then some (c.toNat - 48)
  else if 97 ≤ c ∧ c ≤ 102 then some (c.toNat - 87)
  else if 65 ≤ c ∧ c ≤ 70 then some (c.toNat - 55)
  else none

/-- The character behind a backslash. -/
def escaped (c : UInt8) : Option ℕ :=
  if c = 34 ∨ c = 92 ∨ c = 47 then some c.toNat
  else if c = 98 then some 8
  else if c = 102 then some 12
  else if c = 110 then some 10
  else if c = 114 then some 13
  else if c = 116 then some 9
  else none

/-- One byte of a string that has read `acc`; no place is left behind the closing quote. -/
def stepChars (acc : Str) : Chars → UInt8 → Option (Str × Option Chars)
  | .plain, c =>
    if c = 34 then some (acc, none)
    else if c = 92 then some (acc, some .backslash)
    else if c < 32 then none
    else some (acc ++ [c.toNat], some .plain)
  | .backslash, c =>
    if c = 117 then some (acc, some (.hex 4 0))
    else (escaped c).map fun code => (acc ++ [code], some .plain)
  | .hex left code, c =>
    (hexDigit c).map fun d =>
      if left ≤ 1 then (acc ++ [16 * code + d], some .plain)
      else (acc, some (.hex (left - 1) (16 * code + d)))

/-- One more byte of a number, if it is one. -/
def Number.step (n : Number) (c : UInt8) : Option Number :=
  let more (p : Phase) (d : ℕ) : Number := { n with phase := p, mant := 10 * n.mant + d }
  let expo (d : ℕ) : Number := { n with phase := .exp, exp := 10 * n.exp + d }
  let isE : Bool := c == 101 || c == 69
  match n.phase with
  | .minus => (digit c).map fun d => more (if d = 0 then .zero else .int) d
  | .zero =>
    if c = 46 then some { n with phase := .point }
    else if isE then some { n with phase := .e } else none
  | .int =>
    if c = 46 then some { n with phase := .point }
    else if isE then some { n with phase := .e } else (digit c).map (more .int)
  | .point => (digit c).map fun d => { more .frac d with scale := n.scale + 1 }
  | .frac =>
    if isE then some { n with phase := .e }
    else (digit c).map fun d => { more .frac d with scale := n.scale + 1 }
  | .e =>
    if c = 43 then some { n with phase := .esign }
    else if c = 45 then some { n with phase := .esign, expNeg := true }
    else (digit c).map expo
  | .esign | .exp => (digit c).map expo

/-- The value of a number that may end here. -/
def Number.value (n : Number) : Option Value :=
  match n.phase with
  | .minus | .point | .e | .esign => none
  | .zero | .int | .frac | .exp =>
    some (.num (if n.neg then -n.mant else n.mant)
      ((if n.expNeg then -(n.exp : ℤ) else n.exp) - n.scale))

/-- The first byte of a value. -/
def start (st : List Frame) (c : UInt8) : Option State :=
  if c = 34 then some ⟨st, .inStr [] .plain⟩
  else if c = 123 then some ⟨st, .keyOrEnd⟩
  else if c = 91 then some ⟨st, .valueOrEnd⟩
  else if c = 116 then some ⟨st, .inLit [114, 117, 101] (.bool true)⟩
  else if c = 102 then some ⟨st, .inLit [97, 108, 115, 101] (.bool false)⟩
  else if c = 110 then some ⟨st, .inLit [117, 108, 108] .null⟩
  else if c = 45 then some ⟨st, .inNum { phase := .minus, neg := true }⟩
  else (digit c).map fun d =>
    ⟨st, .inNum { phase := if d = 0 then .zero else .int, mant := d }⟩

/-- The byte behind a complete value. -/
def close (st : List Frame) (v : Value) (c : UInt8) : Option State :=
  if isWs c then some ⟨st, .done v⟩
  else
    match st with
    | [] => none
    | .arr vs :: st =>
      if c = 44 then some ⟨.arr (vs ++ [v]) :: st, .value⟩
      else if c = 93 then some ⟨st, .done (.arr (vs ++ [v]))⟩ else none
    | .obj ms k :: st =>
      if c = 44 then some ⟨st, .key (ms ++ [(k, v)])⟩
      else if c = 125 then some ⟨st, .done (.obj (ms ++ [(k, v)]))⟩ else none

/-- One byte. -/
def step : State → UInt8 → Option State
  | ⟨st, .value⟩, c => if isWs c then some ⟨st, .value⟩ else start st c
  | ⟨st, .valueOrEnd⟩, c =>
    if isWs c then some ⟨st, .valueOrEnd⟩
    else if c = 93 then some ⟨st, .done (.arr [])⟩ else start (.arr [] :: st) c
  | ⟨st, .keyOrEnd⟩, c =>
    if isWs c then some ⟨st, .keyOrEnd⟩
    else if c = 34 then some ⟨st, .inKey [] [] .plain⟩
    else if c = 125 then some ⟨st, .done (.obj [])⟩ else none
  | ⟨st, .key ms⟩, c =>
    if isWs c then some ⟨st, .key ms⟩
    else if c = 34 then some ⟨st, .inKey ms [] .plain⟩ else none
  | ⟨st, .inKey ms acc p⟩, c =>
    match stepChars acc p c with
    | none => none
    | some (acc, some p) => some ⟨st, .inKey ms acc p⟩
    | some (acc, none) => some ⟨st, .colon ms acc⟩
  | ⟨st, .colon ms k⟩, c =>
    if isWs c then some ⟨st, .colon ms k⟩
    else if c = 58 then some ⟨.obj ms k :: st, .value⟩ else none
  | ⟨st, .inStr acc p⟩, c =>
    match stepChars acc p c with
    | none => none
    | some (acc, some p) => some ⟨st, .inStr acc p⟩
    | some (acc, none) => some ⟨st, .done (.str acc)⟩
  | ⟨st, .inNum n⟩, c =>
    match n.step c with
    | some n => some ⟨st, .inNum n⟩
    | none => n.value.bind fun v => close st v c
  | ⟨st, .inLit left v⟩, c =>
    match left with
    | [] => none
    | l :: left =>
      if c = l then some ⟨st, if left = [] then .done v else .inLit left v⟩ else none
  | ⟨st, .done v⟩, c => close st v c

/-- The value that has been read, if the text may end here. -/
def Mode.ended : Mode → Option Value
  | .done v => some v
  | .inNum n => n.value
  | _ => none

/-- The value a text stands for. -/
def parse (t : List UInt8) : Option Value :=
  (run step ⟨[], .value⟩ t).bind fun s => if s.stack.isEmpty then s.mode.ended else none

/-! ### Values in their place -/

/-- The text `t` stands for `v` wherever a value may stand. -/
def Reads (t : List UInt8) (v : Value) : Prop :=
  ∀ st, ∃ m, run step ⟨st, .value⟩ t = some ⟨st, m⟩ ∧ m.ended = some v

theorem Reads.ne_nil {t : List UInt8} {v : Value} (h : Reads t v) : t ≠ [] := by
  rintro rfl
  obtain ⟨m, hrun, hm⟩ := h []
  obtain rfl := (State.mk.inj (Option.some.inj hrun)).2
  cases hm

/-- The first byte of a value decides about the mode; the containers stay as they are. -/
theorem start_eq (st : List Frame) (c : UInt8) :
    start st c = (start [] c).map fun s => ⟨st, s.mode⟩ := by
  simp only [start, apply_ite (Option.map _), Option.map_some, Option.map_map, Function.comp_def]

theorem start_frame {st ext : List Frame} {c : UInt8} {s : State} (h : start st c = some s) :
    start (st ++ ext) c = some ⟨s.stack ++ ext, s.mode⟩ := by
  rw [start_eq] at h ⊢
  obtain ⟨s₀, hs₀, rfl⟩ := Option.map_eq_some_iff.1 h
  rw [hs₀]
  rfl

theorem close_frame {st ext : List Frame} {v : Value} {c : UInt8} {s : State}
    (h : close st v c = some s) : close (st ++ ext) v c = some ⟨s.stack ++ ext, s.mode⟩ := by
  match st with
  | [] =>
    simp only [close] at h
    split_ifs at h with hws
    cases h
    unfold close
    rw [if_pos hws]
  | .arr vs :: st | .obj ms k :: st =>
    simp only [close, List.cons_append] at h ⊢
    split_ifs at h ⊢ <;> cases h <;> rfl

/-- The reader does not look below the containers it has opened. -/
theorem step_frame {s s' : State} {c : UInt8} (ext : List Frame) (h : step s c = some s') :
    step ⟨s.stack ++ ext, s.mode⟩ c = some ⟨s'.stack ++ ext, s'.mode⟩ := by
  obtain ⟨st, m⟩ := s
  cases m with
  | value | valueOrEnd =>
    simp only [step] at h ⊢
    split_ifs at h ⊢ <;> first
      | (cases h; rfl)
      | exact start_frame h
  | keyOrEnd | key | colon =>
    simp only [step] at h ⊢
    split_ifs at h ⊢ <;> cases h <;> rfl
  | inKey ms acc p | inStr acc p =>
    simp only [step] at h ⊢
    split at h
    · cases h
    all_goals
      cases h
      rfl
  | inNum n =>
    simp only [step] at h ⊢
    split at h
    · cases h
      rfl
    · obtain ⟨v, hv, hc⟩ := Option.bind_eq_some_iff.1 h
      rw [hv]
      exact close_frame hc
  | inLit left v =>
    simp only [step] at h ⊢
    split at h
    · cases h
    · split_ifs at h ⊢ <;> cases h <;> rfl
  | done v => exact close_frame h

/-- A run does not look at the frames below. -/
theorem run_frame {s s' : State} {t : List UInt8} (ext : List Frame)
    (h : run step s t = some s') :
    run step ⟨s.stack ++ ext, s.mode⟩ t = some ⟨s'.stack ++ ext, s'.mode⟩ := by
  induction t generalizing s with
  | nil =>
    cases h
    rfl
  | cons c t ih =>
    obtain ⟨s₁, hs₁, hrun⟩ := Option.bind_eq_some_iff.1 h
    rw [run, step_frame ext hs₁]
    exact ih hrun

/-- **A text that stands for a value by itself does so everywhere.** -/
theorem reads_of_parse {t : List UInt8} {v : Value} (h : parse t = some v) : Reads t v := by
  obtain ⟨s, hrun, hs⟩ := Option.bind_eq_some_iff.1 h
  split_ifs at hs with hst
  intro st
  refine ⟨s.mode, ?_, hs⟩
  rw [List.isEmpty_iff] at hst
  simpa [hst] using run_frame st hrun

/-! ### Strings -/

/-- Bytes between quotes, none of which closes the string. -/
def runChars (acc : Str) (p : Chars) : List UInt8 → Option (Str × Chars)
  | [] => some (acc, p)
  | c :: t =>
    match stepChars acc p c with
    | some (acc, some p) => runChars acc p t
    | _ => none

/-- The bytes `t` between quotes stand for the characters `s`. -/
def Spells (t : List UInt8) (s : Str) : Prop :=
  ∀ acc, runChars acc .plain t = some (acc ++ s, .plain)

theorem runChars_append (acc : Str) (p : Chars) (t u : List UInt8) :
    runChars acc p (t ++ u) = (runChars acc p t).bind fun r => runChars r.1 r.2 u := by
  induction t generalizing acc p with
  | nil => rfl
  | cons c t ih =>
    simp only [List.cons_append, runChars]
    split
    · exact ih ..
    · rfl

theorem spells_nil : Spells [] [] := fun acc => by rw [List.append_nil]; rfl

theorem Spells.append {t u : List UInt8} {s r : Str} (ht : Spells t s) (hu : Spells u r) :
    Spells (t ++ u) (s ++ r) := by
  intro acc
  rw [runChars_append, ht acc, Option.bind_some, hu, List.append_assoc]

/-- A byte that stands for itself. -/
theorem spells_plain {c : UInt8} (hq : c ≠ 34) (hb : c ≠ 92) (hlow : 32 ≤ c) :
    Spells [c] [c.toNat] := by
  intro acc
  simp only [runChars, stepChars, if_neg hq, if_neg hb, if_neg (UInt8.not_lt.2 hlow)]

/-- A backslash and one byte. -/
theorem spells_escaped {c : UInt8} {code : ℕ} (hu : c ≠ 117) (h : escaped c = some code) :
    Spells [92, c] [code] := by
  intro acc
  simp [runChars, stepChars, hu, h]

/-- A backslash, `u` and four hex digits. -/
theorem spells_hex {a b c d : UInt8} {x y z w : ℕ} (ha : hexDigit a = some x)
    (hb : hexDigit b = some y) (hc : hexDigit c = some z) (hd : hexDigit d = some w) :
    Spells [92, 117, a, b, c, d] [16 * (16 * (16 * x + y) + z) + w] := by
  intro acc
  simp [runChars, stepChars, ha, hb, hc, hd]

theorem run_inStr {acc acc' : Str} {p p' : Chars} {t : List UInt8}
    (h : runChars acc p t = some (acc', p')) (st : List Frame) :
    run step ⟨st, .inStr acc p⟩ t = some ⟨st, .inStr acc' p'⟩ := by
  induction t generalizing acc p with
  | nil =>
    obtain ⟨rfl, rfl⟩ := Prod.mk.inj (Option.some.inj h)
    rfl
  | cons c t ih =>
    simp only [runChars] at h
    split at h
    case h_1 acc₁ p₁ heq =>
      rw [run, step, heq]
      exact ih h
    case h_2 => cases h

theorem run_inKey {acc acc' : Str} {p p' : Chars} {t : List UInt8}
    (h : runChars acc p t = some (acc', p')) (st : List Frame) (ms : Members) :
    run step ⟨st, .inKey ms acc p⟩ t = some ⟨st, .inKey ms acc' p'⟩ := by
  induction t generalizing acc p with
  | nil =>
    obtain ⟨rfl, rfl⟩ := Prod.mk.inj (Option.some.inj h)
    rfl
  | cons c t ih =>
    simp only [runChars] at h
    split at h
    case h_1 acc₁ p₁ heq =>
      rw [run, step, heq]
      exact ih h
    case h_2 => cases h

/-- **A quoted string is read.** -/
theorem reads_str {t : List UInt8} {s : Str} (h : Spells t s) : Reads (34 :: t ++ [34]) (.str s) := by
  intro st
  refine ⟨.done (.str s), ?_, rfl⟩
  rw [List.cons_append, run, show step ⟨st, .value⟩ 34 = some ⟨st, .inStr [] .plain⟩ from rfl,
    Option.bind_some, run_append, run_inStr (h []) st]
  rfl

theorem reads_bool (b : Bool) : Reads (CLib.str (if b then "true" else "false")) (.bool b) :=
  reads_of_parse (by cases b <;> rfl)

/-! ### Integers -/

theorem digit_ofNat {d : ℕ} (hd : d < 10) : digit (48 + d).toUInt8 = some d := by
  interval_cases d <;> rfl

theorem run_digits {n : Number} (hn : n.phase = .int) {ds : List ℕ} (hds : ∀ d ∈ ds, d < 10)
    (st : List Frame) :
    run step ⟨st, .inNum n⟩ (ds.map fun d => (48 + d).toUInt8) =
      some ⟨st, .inNum { n with mant := ds.foldl (fun m d => 10 * m + d) n.mant }⟩ := by
  induction ds generalizing n with
  | nil => rfl
  | cons d ds ih =>
    have hd : d < 10 := hds d (List.mem_cons_self ..)
    have hstep : n.step (48 + d).toUInt8 =
        some { n with phase := .int, mant := 10 * n.mant + d } := by
      simp only [Number.step, hn, digit_ofNat hd]
      interval_cases d <;> rfl
    rw [List.map_cons, run, step, hstep, Option.bind_some,
      ih rfl fun x hx => hds x (List.mem_cons_of_mem _ hx)]
    simp only [List.foldl_cons, hn]

/-- **Digits are read**, behind a minus sign or not, when the first is not `0`. -/
theorem reads_digits {d : ℕ} {ds : List ℕ} (h0 : d ≠ 0) (hds : ∀ x ∈ d :: ds, x < 10) :
    Reads ((d :: ds).map fun d => (48 + d).toUInt8)
        (.num ((d :: ds).foldl (fun m d => 10 * m + d) 0 : ℕ) 0) ∧
      Reads (45 :: (d :: ds).map fun d => (48 + d).toUInt8)
        (.num (-((d :: ds).foldl (fun m d => 10 * m + d) 0 : ℕ)) 0) := by
  have hd : d < 10 := hds d (List.mem_cons_self ..)
  have hrest : ∀ x ∈ ds, x < 10 := fun x hx => hds x (List.mem_cons_of_mem _ hx)
  have hfirst (st : List Frame) : step ⟨st, .value⟩ (48 + d).toUInt8 =
      some ⟨st, .inNum { phase := .int, mant := d }⟩ := by
    interval_cases d <;> first | exact absurd rfl h0 | rfl
  have hminus : Number.step { phase := .minus, neg := true } (48 + d).toUInt8 =
      some { phase := .int, neg := true, mant := d } := by
    interval_cases d <;> first | exact absurd rfl h0 | rfl
  refine ⟨fun st => ?_, fun st => ?_⟩
  · refine ⟨_, by rw [List.map_cons, run, hfirst, Option.bind_some, run_digits rfl hrest], ?_⟩
    simp [Mode.ended, Number.value]
  · refine ⟨_, by
      rw [List.map_cons, run, show step ⟨st, .value⟩ 45 =
        some ⟨st, .inNum { phase := .minus, neg := true }⟩ from rfl, Option.bind_some, run, step,
        hminus, Option.bind_some, run_digits rfl hrest], ?_⟩
    simp [Mode.ended, Number.value]

/-- **Decimal numbers are read.** -/
theorem reads_decimal (n : ℕ) :
    Reads (CLib.decimal n) (.num n 0) ∧ (n ≠ 0 → Reads (45 :: CLib.decimal n) (.num (-n) 0)) := by
  rw [CLib.decimal]
  split_ifs with hn
  · subst hn
    exact ⟨reads_of_parse rfl, fun h => absurd rfl h⟩
  · have hdigits : (Nat.digits 10 n).reverse.foldl (fun m d => 10 * m + d) 0 = n := by
      rw [List.foldl_reverse]
      conv_rhs => rw [← Nat.ofDigits_digits 10 n, Nat.ofDigits_eq_foldr]
      simp only [Nat.cast_id, add_comm]
    have hlt : ∀ x ∈ (Nat.digits 10 n).reverse, x < 10 := fun x hx =>
      Nat.digits_lt_base (by norm_num) (List.mem_reverse.1 hx)
    have hne : Nat.digits 10 n ≠ [] := Nat.digits_ne_nil_iff_ne_zero.2 hn
    obtain ⟨d, ds, hds⟩ := List.exists_cons_of_ne_nil (mt List.reverse_eq_nil_iff.1 hne)
    have hd : d ≠ 0 := by
      have hlast := congrArg List.head? hds
      rw [List.head?_reverse, List.getLast?_eq_some_getLast hne] at hlast
      exact Option.some.inj hlast ▸ Nat.getLast_digit_ne_zero 10 hn
    rw [hds] at hlt hdigits ⊢
    obtain ⟨hpos, hneg⟩ := reads_digits hd hlt
    rw [hdigits] at hpos hneg
    exact ⟨hpos, fun _ => hneg⟩

/-! ### Objects -/

/-- The reader has read the members `ms` of an object that stands in `st`. -/
def InObject (st : List Frame) (ms : Members) (s : State) : Prop :=
  ∃ ms₀ k m v, s = ⟨.obj ms₀ k :: st, m⟩ ∧ m.ended = some v ∧ ms = ms₀ ++ [(k, v)]

theorem Number.step_closer (n : Number) {c : UInt8} (hc : c = 44 ∨ c = 125) : n.step c = none := by
  unfold Number.step
  rcases hc with rfl | rfl <;> cases n.phase <;> rfl

theorem step_ended {m : Mode} {v : Value} (h : m.ended = some v) (st : List Frame) {c : UInt8}
    (hc : c = 44 ∨ c = 125) : step ⟨st, m⟩ c = close st v c := by
  cases m with
  | done w =>
    cases h
    rfl
  | inNum n =>
    change n.value = some v at h
    rw [step, n.step_closer hc, h, Option.bind_some]
  | value | valueOrEnd | keyOrEnd | key | inKey | colon | inStr | inLit => cases h

section Objects

variable {st : List Frame} {ms : Members} {s : State}

theorem InObject.comma (h : InObject st ms s) : step s 44 = some ⟨st, .key ms⟩ := by
  obtain ⟨ms₀, k, m, v, rfl, hm, rfl⟩ := h
  rw [step_ended hm _ (.inl rfl)]
  rfl

theorem InObject.brace (h : InObject st ms s) : step s 125 = some ⟨st, .done (.obj ms)⟩ := by
  obtain ⟨ms₀, k, m, v, rfl, hm, rfl⟩ := h
  rw [step_ended hm _ (.inr rfl)]
  rfl

variable {kt vt : List UInt8} {k : Str} {v : Value}

/-- **A member is read**, behind the quote that opens its name. -/
theorem run_member (hk : Spells kt k) (hv : Reads vt v) (st : List Frame) (ms : Members) :
    ∃ s, run step ⟨st, .inKey ms [] .plain⟩ (kt ++ 34 :: 58 :: vt) = some s ∧
      InObject st (ms ++ [(k, v)]) s := by
  obtain ⟨m, hrun, hm⟩ := hv (.obj ms k :: st)
  refine ⟨_, ?_, ms, k, m, v, rfl, hm, rfl⟩
  rw [run_append, run_inKey (hk []) st ms, Option.bind_some]
  exact hrun

/-- **One more member is read.** -/
theorem InObject.member (h : InObject st ms s) (hk : Spells kt k) (hv : Reads vt v) :
    ∃ s', run step s (44 :: 34 :: (kt ++ 34 :: 58 :: vt)) = some s' ∧
      InObject st (ms ++ [(k, v)]) s' := by
  obtain ⟨s', hrun, hs'⟩ := run_member hk hv st ms
  refine ⟨s', ?_, hs'⟩
  rw [run, h.comma]
  exact hrun

/-- A name is read, up to the place of its value. -/
theorem InObject.name (h : InObject st ms s) (hk : Spells kt k) :
    run step s (44 :: 34 :: (kt ++ [34, 58])) = some ⟨.obj ms k :: st, .value⟩ := by
  rw [run, h.comma, Option.bind_some, run,
    show step ⟨st, .key ms⟩ 34 = some ⟨st, .inKey ms [] .plain⟩ from rfl, Option.bind_some,
    run_append, run_inKey (hk []) st ms]
  rfl

/-- A name without a value is refused. -/
theorem not_nameless (hk : Spells kt k) (st : List Frame) (ms : Members) (rest : List UInt8) :
    run step ⟨st, .key ms⟩ (34 :: (kt ++ 34 :: 125 :: rest)) = none := by
  rw [run, show step ⟨st, .key ms⟩ 34 = some ⟨st, .inKey ms [] .plain⟩ from rfl, Option.bind_some,
    run_append, run_inKey (hk []) st ms]
  rfl

/-- The first member of an object is read as those behind a comma. -/
theorem run_brace (st : List Frame) (t : List UInt8) :
    run step ⟨st, .value⟩ (123 :: 34 :: t) = run step ⟨st, .key []⟩ (34 :: t) := rfl

theorem parse_of_run {t : List UInt8} {v : Value}
    (h : run step ⟨[], .value⟩ t = some ⟨[], .done v⟩) : parse t = some v := by
  rw [parse, h]
  rfl

end Objects

/-! ### Values cut short -/

/-- The first value is the second with its last string cut to a beginning, or with the last
members left out, possibly inside the last member. -/
inductive Cuts : Value → Value → Prop
  | str {s s' : Str} : s' <+: s → Cuts (.str s') (.str s)
  | members {ms ms' : Members} : ms' <+: ms → Cuts (.obj ms') (.obj ms)
  | last {ms post : Members} {k : Str} {v v' : Value} :
      Cuts v' v → Cuts (.obj (ms ++ [(k, v')])) (.obj (ms ++ (k, v) :: post))

section Cuts

variable {ms post : Members} {k k' : Str} {v v' : Value}

/-- What follows the members that agree. -/
theorem Cuts.after (h : Cuts (.obj (ms ++ [(k', v')])) (.obj (ms ++ (k, v) :: post))) :
    k' = k ∧ (v' = v ∨ Cuts v' v) := by
  generalize hw' : Value.obj (ms ++ [(k', v')]) = w' at h
  generalize hw : Value.obj (ms ++ (k, v) :: post) = w at h
  cases h with
  | str => cases hw
  | members hpre =>
    obtain rfl := Value.obj.inj hw'
    obtain rfl := Value.obj.inj hw
    rw [List.prefix_append_right_inj, List.cons_prefix_cons] at hpre
    obtain ⟨rfl, rfl⟩ := Prod.mk.inj hpre.1
    exact ⟨rfl, .inl rfl⟩
  | @last ms₂ post₂ k₂ v₂ v₂' hcut =>
    obtain ⟨rfl, hlast⟩ := List.append_inj' (Value.obj.inj hw') rfl
    obtain ⟨rfl, rfl⟩ := Prod.mk.inj (List.cons.inj hlast).1
    obtain ⟨rfl, rfl⟩ := Prod.mk.inj
      (List.cons.inj (List.append_cancel_left (Value.obj.inj hw))).1
    exact ⟨rfl, .inr hcut⟩

/-- Cutting goes on inside the last member. -/
theorem Cuts.inner {ms' : Members}
    (h : Cuts (.obj (ms ++ [(k, .obj ms')])) (.obj (ms ++ (k, .obj post) :: []))) :
    Cuts (.obj ms') (.obj post) := by
  rcases h.after.2 with heq | hcut
  · rw [Value.obj.inj heq]
    exact .members (List.prefix_refl _)
  · exact hcut

/-- Members that were left out altogether. -/
theorem Cuts.more (h : Cuts v (.obj ms)) (more : Members) : Cuts v (.obj (ms ++ more)) := by
  generalize hw : Value.obj ms = w at h
  cases h with
  | str => cases hw
  | members hpre =>
    obtain rfl := Value.obj.inj hw
    exact .members (hpre.trans (List.prefix_append ..))
  | last hcut =>
    obtain rfl := Value.obj.inj hw
    rw [List.append_assoc]
    exact .last hcut

end Cuts

end Json
end Clogx
