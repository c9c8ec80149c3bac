/-
# What a text line says

The line of `format_impl` (`core/formatter_fmt.c`) against a reference expansion
of its format, which knows no opcodes and no buffer: `Expands` replaces, from left
to right, a `%` with the name of a token and no letter behind it by the text of
the field, and keeps every other byte.

No name of a token begins with another (`Token.name_inj`), so the order in which
the compiler tries them does not matter and the expansion is unique.  A line
`Holds` the first bytes of its reference through every append, cut where the
buffer ends.  The count is kept in an `int`: it is right as long as it fits.
-/

import Clogx.Formatter.Caches

namespace Clogx
namespace Formatter

open CLib

/-! ### The reference -/

/-- The name of a token begins the text, and no letter follows it. -/
def Token.StandsAt (t : Token) (fmt : Text) : Prop :=
  ∃ rest, fmt = t.name ++ rest ∧ ∀ c ∈ rest.head?, isalpha c = false

/-- **The reference expansion** of a format. -/
inductive Expands (field : Token → Text) : Text → Text → Prop
  | nil : Expands field [] []
  | token {t : Token} {rest out : Text} : (∀ c ∈ rest.head?, isalpha c = false) →
      Expands field rest out → Expands field (37 :: (t.name ++ rest)) (field t ++ out)
  | byte {c : UInt8} {rest out : Text} : (c = 37 → ∀ t : Token, ¬ t.StandsAt rest) →
      Expands field rest out → Expands field (c :: rest) (c :: out)

theorem Token.mem_all (t : Token) : t ∈ Token.all := by cases t <;> decide

/-- No name of a token begins with another. -/
theorem Token.name_inj {t t' : Token} {rest rest' : Text} (h : t.name ++ rest = t'.name ++ rest') :
    t = t' := by
  have hnames : ∀ t ∈ Token.all, ∀ t' ∈ Token.all, t.name.isPrefixOf t'.name = true → t = t' := by
    decide +kernel
  rcases List.append_eq_append_iff.1 h with ⟨s, hs, -⟩ | ⟨s, hs, -⟩
  · refine hnames t t.mem_all t' t'.mem_all (List.isPrefixOf_iff_prefix.2 ⟨s, hs.symm⟩)
  · exact (hnames t' t'.mem_all t t.mem_all (List.isPrefixOf_iff_prefix.2 ⟨s, hs.symm⟩)).symm

/-- **A format has one expansion.** -/
theorem Expands.unique {field : Token → Text} {fmt out out' : Text} (h : Expands field fmt out)
    (h' : Expands field fmt out') : out = out' := by
  induction h generalizing out' with
  | nil =>
    cases h'
    rfl
  | @token t rest out hend _ ih =>
    generalize hfmt : 37 :: (t.name ++ rest) = fmt at h'
    cases h' with
    | nil => cases hfmt
    | @token t' rest' out' hend' hrest =>
      obtain ⟨-, happ⟩ := List.cons.inj hfmt
      obtain rfl := Token.name_inj happ
      rw [ih (List.append_cancel_left happ ▸ hrest)]
    | byte hno hrest =>
      obtain ⟨rfl, rfl⟩ := List.cons.inj hfmt
      exact absurd ⟨rest, rfl, hend⟩ (hno rfl t)
  | @byte c rest out hno _ ih =>
    generalize hfmt : c :: rest = fmt at h'
    cases h' with
    | nil => cases hfmt
    | @token t' rest' out' hend' hrest =>
      obtain ⟨rfl, rfl⟩ := List.cons.inj hfmt
      exact absurd ⟨rest', rfl, hend'⟩ (hno rfl t')
    | byte hno' hrest =>
      obtain ⟨rfl, rfl⟩ := List.cons.inj hfmt
      rw [ih hrest]

/-- A format that is a single token. -/
theorem expands_token {field : Token → Text} (t : Token) :
    Expands field (37 :: t.name) (field t) := by
  have hone : Expands field (37 :: (t.name ++ [])) (field t ++ []) := .token (by simp) .nil
  rwa [List.append_nil, List.append_nil] at hone

section Reference

variable {φ : Type*} (snprintf6g : φ → Text)

/-- The text of a field of the record. -/
def fieldText (time : Text) (record : Record φ) : Token → Text
  | .time => time
  | .level => levelToString record.level
  | .msg => orText record.message (str "(no message)")
  | .thread => decimal record.tid
  | .pid => decimal record.pid
  | .file => orText record.file (str "(unknown)")
  | .line => signedDecimal record.line
  | .func => orText record.func (str "(unknown)")
  | .module => orText record.module (str "(unknown)")
  | .tag => orText record.tag []
  | .newline => [10]
  | .traceId => if record.traceId ≠ 0 then Trace.hexBytes record.traceId else []
  | .spanId => if record.spanId ≠ 0 then Trace.hexBytes record.spanId else []

/-- The value of a pair. -/
def valueText : KvVal φ → Text
  | .int i64 => signedDecimal i64
  | .uint u64 => decimal u64
  | .float f64 => snprintf6g f64
  | .str s => orText s []
  | .bool b => Clogx.CLib.str (if b then "true" else "false")

/-- ` key=value`, if there is a key. -/
def pairSuffix (kv : Kv φ) : Text :=
  kv.key.elim [] fun key => str " " ++ key.val ++ str "=" ++ valueText snprintf6g kv.val

/-- The reference text of a line. -/
def IsReference (time : Text) (record : Record φ) (fmt text : Text) : Prop :=
  ∃ out, Expands (fieldText time record) fmt out ∧
    text = out ++ record.kv.flatMap (pairSuffix snprintf6g)

end Reference

/-! ### The compiled format -/

/-- `token_match` decides `StandsAt`. -/
theorem tokenMatch_iff {fmt : Text} {t : Token} : tokenMatch fmt t.name = true ↔ t.StandsAt fmt := by
  rw [tokenMatch, Bool.and_eq_true_iff, List.isPrefixOf_iff_prefix]
  constructor
  · rintro ⟨⟨rest, rfl⟩, hend⟩
    rw [List.drop_left] at hend
    exact ⟨rest, rfl, by simpa [Option.all_eq_true] using hend⟩
  · rintro ⟨rest, rfl, hend⟩
    rw [List.drop_left]
    exact ⟨⟨rest, rfl⟩, by simpa [Option.all_eq_true] using hend⟩

theorem standsAt_of_tokenAt {fmt : Text} {t : Token} (h : tokenAt fmt = some t) :
    t.StandsAt fmt := by
  have hmatch := List.find?_some h
  exact tokenMatch_iff.1 hmatch

theorem not_standsAt_of_tokenAt {fmt : Text} (h : tokenAt fmt = none) (t : Token) :
    ¬ t.StandsAt fmt := by
  have hno := List.find?_eq_none.1 h t t.mem_all
  exact fun hst => hno (tokenMatch_iff.2 hst)

theorem Expands.literal {field : Token → Text} {run rest out : Text} (hrun : ∀ c ∈ run, c ≠ 37)
    (h : Expands field rest out) : Expands field (run ++ rest) (run ++ out) := by
  induction run with
  | nil => exact h
  | cons c run ih =>
    obtain ⟨hc, hrun⟩ := List.forall_mem_cons.1 hrun
    exact .byte (fun heq => absurd heq hc) (ih hrun)

/-- The text of an opcode; a literal points into the copy `fmt`. -/
def opText (field : Token → Text) (fmt : Text) : FmtOp → Text
  | .literal start len => (fmt.drop start).take len
  | .token t => field t

/-- **One round of the compiler is one piece of the expansion.** -/
theorem expands_nextOp {field : Token → Text} {fmt rest out : Text} {pos : ℕ}
    (hpos : fmt.drop pos = rest) (hne : rest ≠ [])
    (h : Expands field (rest.drop (nextOp pos rest).2) out) :
    Expands field rest (opText field fmt (nextOp pos rest).1 ++ out) := by
  rw [nextOp] at h ⊢
  split_ifs at h ⊢ with hhead
  · dsimp only at h ⊢
    rw [opText, hpos]
    have htake : rest.take (rest.takeWhile (· ≠ 37)).length = rest.takeWhile (· ≠ 37) :=
      (List.prefix_iff_eq_take.1 (List.takeWhile_prefix _)).symm
    have hsplit : rest.takeWhile (· ≠ 37) ++ rest.drop (rest.takeWhile (· ≠ 37)).length = rest := by
      conv_rhs => rw [← List.take_append_drop (rest.takeWhile (· ≠ 37)).length rest, htake]
    rw [htake]
    conv_lhs => rw [← hsplit]
    exact .literal (fun c hc => by simpa using List.mem_takeWhile_imp hc) h
  · obtain ⟨c, tail, rfl⟩ := List.exists_cons_of_ne_nil hne
    obtain rfl : c = 37 := by simpa using hhead
    cases htok : tokenAt tail with
    | some t =>
      obtain ⟨rest, rfl, hend⟩ := standsAt_of_tokenAt htok
      simp only [List.tail_cons, htok] at h ⊢
      rw [Nat.add_comm, List.drop_succ_cons, List.drop_left] at h
      exact .token hend h
    | none =>
      simp only [List.tail_cons, htok, opText, hpos] at h ⊢
      exact .byte (fun _ => not_standsAt_of_tokenAt htok) h

theorem nextOp_pos (pos : ℕ) (c : UInt8) (fmt : Text) : 1 ≤ (nextOp pos (c :: fmt)).2 := by
  rw [nextOp]
  split_ifs with hhead
  · have hc : c ≠ 37 := by simpa using hhead
    dsimp only
    rw [List.takeWhile_cons_of_pos (by simpa using hc)]
    exact Nat.le_add_left ..
  · split
    · exact Nat.le_add_right ..
    · exact le_rfl

/-- **A program with room for the whole format is its expansion.** -/
theorem expands_compileLoop (field : Token → Text) (fmt : Text) (room : ℕ) :
    ∀ {pos : ℕ} {rest : Text}, fmt.drop pos = rest → rest.length ≤ room →
      Expands field rest ((compileLoop room pos rest).flatMap (opText field fmt)) := by
  induction room with
  | zero =>
    intro pos rest _ hroom
    obtain rfl := List.length_eq_zero_iff.1 (Nat.le_zero.1 hroom)
    exact .nil
  | succ room ih =>
    intro pos rest hpos hroom
    cases rest with
    | nil => exact .nil
    | cons c rest =>
      have hlen := nextOp_pos pos c rest
      rw [compileLoop, List.flatMap_cons]
      refine expands_nextOp hpos (List.cons_ne_nil _ _) (ih ?_ ?_)
      · rw [← List.drop_drop, hpos]
      · rw [List.length_drop]
        omega

/-- A smaller room keeps the first opcodes. -/
theorem compileLoop_take (room : ℕ) : ∀ {fuel pos : ℕ} {rest : Text}, rest.length ≤ fuel →
    compileLoop room pos rest = (compileLoop fuel pos rest).take room := by
  induction room with
  | zero => exact fun _ => rfl
  | succ room ih =>
    intro fuel pos rest hfuel
    cases rest with
    | nil => cases fuel <;> rfl
    | cons c rest =>
      obtain ⟨fuel, rfl⟩ := Nat.exists_eq_succ_of_ne_zero (by simp at hfuel; omega : fuel ≠ 0)
      have hlen := nextOp_pos pos c rest
      rw [compileLoop, compileLoop, List.take_succ_cons]
      refine congrArg _ (ih ?_)
      rw [List.length_drop]
      omega

/-- The program of a format without a limit. -/
def segments (fmt : Text) : List FmtOp := compileLoop fmt.length 0 fmt

/-- **The program of a format with few enough segments is its expansion.** -/
theorem expands_fmtCompile {field : Token → Text} {fmt : Text}
    (h : (segments fmt).length ≤ fmtMaxOps - 1) :
    Expands field fmt ((fmtCompile fmt).flatMap (opText field fmt)) := by
  rw [fmtCompile, compileLoop_take _ le_rfl, ← segments, List.take_of_length_le h]
  exact expands_compileLoop field fmt _ List.drop_zero le_rfl

example : segments (str "%level: %msg") = [.token .level, .literal 6 2, .token .msg] := by
  decide

/-! ### The buffer -/

/-- A line in a buffer of `n` bytes: it holds the first bytes of the text, up to the last place but
one, and `total` counts them. -/
structure Line.Holds (n : ℕ) (text : Text) (l : Line) : Prop where
  done : l.out.done = text.take (n - 1)
  size : l.out.done.length + l.out.rest.length = n
  total : l.total = toInt l.out.done.length

theorem toInt_add (a b : ℤ) : toInt (toInt a + toInt b) = toInt (a + b) := by
  rw [toInt, toInt, toInt, toInt, Int.bmod_add_bmod, Int.add_bmod_bmod]

section Holds

variable {n : ℕ} {text : Text} {l : Line} (hn : 1 ≤ n)

include hn

/-- Some bytes behind the line, as many as there is room for. -/
theorem Line.Holds.put (h : l.Holds n text) {token : Text} {out : Out} {total : ℤ}
    (hdone : out.done = l.out.done ++ token.take (l.out.remaining - 1))
    (hrest : out.rest.length = l.out.rest.length - (token.take (l.out.remaining - 1)).length)
    (htotal : total = toInt (l.total + toInt (token.take (l.out.remaining - 1)).length)) :
    Line.Holds n (text ++ token) ⟨out, total⟩ := by
  obtain ⟨hd, hs, ht⟩ := h
  have hdlen := congrArg List.length hd
  rw [List.length_take] at hdlen
  have hrem : l.out.remaining = l.out.rest.length := rfl
  refine ⟨?_, ?_, ?_⟩
  · dsimp only
    rw [hdone, hd, List.take_append, hrem,
      show l.out.rest.length - 1 = n - 1 - text.length by omega]
  · dsimp only
    rw [hdone, hrest, List.length_append, List.length_take, hrem]
    omega
  · dsimp only
    rw [htotal, ht, toInt_add, hdone, List.length_append, Nat.cast_add]

/-- **`append_token` appends what there is room for.** -/
theorem Line.Holds.appendToken (h : l.Holds n text) (token : Text) :
    (appendToken token l).Holds n (text ++ token) := by
  obtain ⟨k, hk⟩ : ∃ k, k = if l.out.remaining ≤ token.length then l.out.remaining - 1
    else token.length := ⟨_, rfl⟩
  have htake : token.take (l.out.remaining - 1) = token.take k ∧
      (token.take (l.out.remaining - 1)).length = k := by
    rw [List.length_take]
    split_ifs at hk with hle
    · exact ⟨by rw [hk], by omega⟩
    · refine ⟨?_, by omega⟩
      rw [List.take_of_length_le (by omega), List.take_of_length_le (by omega)]
  rw [Formatter.appendToken, ← hk]
  refine h.put hn ?_ ?_ (by rw [htake.2])
  · rw [htake.1]
    split_ifs with hpos
    · rfl
    · rw [Nat.eq_zero_of_not_pos hpos, List.take_zero, List.append_nil]
  · rw [htake.2]
    split_ifs with hpos
    · rw [Out.length_terminate, Out.put, List.length_drop, ← htake.1, htake.2]
    · rw [Nat.eq_zero_of_not_pos hpos, Nat.sub_zero]

/-- The case of `%newline`, which tests the room by itself. -/
theorem Line.Holds.newline (h : l.Holds n text) :
    (if 1 < l.out.remaining then ⟨l.out.put [10], toInt (l.total + 1)⟩ else l : Line).Holds n
      (text ++ [10]) := by
  have hrem : 1 ≤ l.out.remaining := by
    have hdlen := congrArg List.length h.done
    have hsize := h.size
    rw [List.length_take] at hdlen
    rw [Out.remaining]
    omega
  split_ifs with hroom
  · have htake : ([10] : Text).take (l.out.remaining - 1) = [10] :=
      List.take_of_length_le (by rw [List.length_singleton]; omega)
    exact h.put hn (by rw [htake]; rfl) (by rw [htake]; exact List.length_drop ..)
      (by rw [htake]; rfl)
  · have hone : l.out.remaining - 1 = 0 := by omega
    refine h.put hn (by rw [hone]; simp) (by rw [hone]; simp) ?_
    rw [hone, h.total, List.take_zero, List.length_nil, toInt_add, Nat.cast_zero, add_zero]

section Program

variable {φ : Type*} (record : Record φ)

/-- One opcode. -/
theorem Line.Holds.fmtCase (h : l.Holds n text) (fmt time : Text) (op : FmtOp) :
    (fmtCase fmt time record l op).Holds n (text ++ opText (fieldText time record) fmt op) := by
  cases op with
  | literal start len => exact h.appendToken hn _
  | token t =>
    cases t with
    | newline => exact h.newline hn
    | thread | pid =>
      rw [opText, fieldText, ← clogU32toa_eq]
      exact h.appendToken hn _
    | line =>
      rw [opText, fieldText, ← clogI32toa_eq]
      exact h.appendToken hn _
    | time | level | msg | file | func | module | tag | traceId | spanId =>
      exact h.appendToken hn _

/-- The whole program. -/
theorem Line.Holds.program (fmt time : Text) (ops : List FmtOp) : ∀ {text : Text} {l : Line},
    l.Holds n text → (ops.foldl (Formatter.fmtCase fmt time record) l).Holds n
      (text ++ ops.flatMap (opText (fieldText time record) fmt)) := by
  induction ops with
  | nil =>
    intro text l h
    rwa [List.flatMap_nil, List.append_nil]
  | cons op ops ih =>
    intro text l h
    rw [List.foldl_cons, List.flatMap_cons, ← List.append_assoc]
    exact ih (h.fmtCase hn record fmt time op)

/-- One pair. -/
theorem Line.Holds.appendKv (snprintf6g : φ → Text) (h : l.Holds n text) (kv : Kv φ) :
    (appendKv snprintf6g l kv).Holds n (text ++ pairSuffix snprintf6g kv) := by
  obtain ⟨key, val⟩ := kv
  cases key with
  | none =>
    rw [pairSuffix, Option.elim_none, List.append_nil]
    exact h
  | some key =>
    rw [pairSuffix, Option.elim_some, ← List.append_assoc, ← List.append_assoc,
      ← List.append_assoc]
    have hkey := ((h.appendToken hn (str " ")).appendToken hn key.val).appendToken hn (str "=")
    cases val with
    | int i64 =>
      rw [valueText, ← clogI64toa_eq]
      exact hkey.appendToken hn _
    | uint u64 =>
      rw [valueText, ← clogU64toa_eq]
      exact hkey.appendToken hn _
    | float _ | str _ | bool _ => exact hkey.appendToken hn _

/-- All pairs. -/
theorem Line.Holds.pairs (snprintf6g : φ → Text) (kvs : List (Kv φ)) :
    ∀ {text : Text} {l : Line}, l.Holds n text →
      (kvs.foldl (Formatter.appendKv snprintf6g) l).Holds n
        (text ++ kvs.flatMap (pairSuffix snprintf6g)) := by
  induction kvs with
  | nil =>
    intro text l h
    rwa [List.flatMap_nil, List.append_nil]
  | cons kv kvs ih =>
    intro text l h
    rw [List.foldl_cons, List.flatMap_cons, ← List.append_assoc]
    exact ih (h.appendKv hn snprintf6g kv)

end Program

end Holds

/-! ### Whole lines -/

/-- A format that `format_impl` compiles: it fits the cache, it is not the name of another renderer,
and its program has room. -/
structure IsTemplate (fmt : Text) : Prop where
  size : fmt.length < maxFormatSize
  json : ¬ IsJson fmt
  otel : ¬ IsOtel fmt
  segments : (segments fmt).length ≤ fmtMaxOps - 1

section Whole

variable {φ : Type*} (snprintf6g : φ → Text) (libc : Libc)

/-- **A line is the reference text, cut at the buffer,** and the count is kept modulo the range of
`int`. -/
theorem formatImpl_eq {c : Caches} (hfmt : c.fmt.Coherent) (htime : c.time.Coherent libc)
    (leaves : Buf64 → Buf64) {fmt : Text} (htemplate : IsTemplate fmt) (tf : Option Text)
    (record : Record φ)
    (hfits : .token .time ∈ segments fmt → SecFits libc (record.timestamp / 1000000) (orIso tf))
    (buf : Text) (hbuf : 1 ≤ buf.length) {text : Text}
    (htext : IsReference snprintf6g (secText libc (record.timestamp / 1000000) (orIso tf)) record
      fmt text) :
    ∃ out c', c.formatImpl snprintf6g libc leaves record buf fmt tf =
        some ((toInt (text.take (buf.length - 1)).length, out), c') ∧
      out.done = text.take (buf.length - 1) ∧ ∃ rest, out.rest = 0 :: rest := by
  have hops : fmtCompile fmt = segments fmt := by
    rw [fmtCompile, compileLoop_take _ le_rfl, ← segments,
      List.take_of_length_le htemplate.segments]
  obtain ⟨out, hexpands, rfl⟩ := htext
  obtain ⟨time, hloop⟩ := renderOps_of_fits leaves fmt record (fmtCompile fmt)
    (by rwa [hops]) ⟨⟨[], buf⟩, 0⟩ fun _ => htime
  have hempty : Line.Holds buf.length [] ⟨⟨[], buf⟩, 0⟩ :=
    ⟨List.take_nil.symm, Nat.zero_add _, by simp [toInt]⟩
  have hprogram := hempty.program hbuf record fmt
    (secText libc (record.timestamp / 1000000) (orIso tf)) (fmtCompile fmt)
  rw [List.nil_append, (expands_fmtCompile htemplate.segments).unique hexpands] at hprogram
  have hline := hprogram.pairs hbuf snprintf6g record.kv
  set l := record.kv.foldl (appendKv snprintf6g) _ with hl
  obtain ⟨hdone, hsize, htotal⟩ := hline
  refine ⟨l.out.terminate, ⟨⟨fmt, fmtCompile fmt⟩, time⟩, ?_, hdone, ?_⟩
  · rw [Caches.formatImpl, if_neg htemplate.json, if_neg htemplate.otel, hfmt.lookup_eq,
      cut_of_length_lt htemplate.size]
    dsimp only
    rw [hloop, Option.map_some]
    dsimp only
    rw [← hl, htotal, hdone]
  · have hle : l.out.done.length ≤ buf.length - 1 := by
      rw [hdone, List.length_take]
      exact Nat.min_le_left ..
    obtain ⟨b, rest, hrest⟩ : ∃ b rest, l.out.rest = b :: rest :=
      List.exists_cons_of_ne_nil (List.ne_nil_of_length_pos (by omega))
    exact ⟨rest, by rw [Out.terminate, hrest]⟩

/-- Every format has one reference text. -/
theorem existsUnique_reference (time : Text) (record : Record φ) (fmt : Text) :
    ∃! text, IsReference snprintf6g time record fmt text := by
  have hexists := expands_compileLoop (fieldText time record) fmt _ List.drop_zero le_rfl
  refine ⟨_, ⟨_, hexists, rfl⟩, ?_⟩
  rintro text ⟨out, hexpands, rfl⟩
  rw [hexpands.unique hexists]

/-- **After any history a line is the reference text, cut at the buffer,** followed by the
terminator, and its length is returned if that is in the range of `int`. -/
theorem formatImpl_renders (history : List (Call φ)) (answers : ℕ → Buf64 → Buf64) {c : Caches}
    (hrun : runHistory snprintf6g libc answers .empty history = some c)
    (leaves : Buf64 → Buf64) {fmt : Text} (htemplate : IsTemplate fmt) (tf : Option Text)
    (record : Record φ)
    (hfits : .token .time ∈ segments fmt → SecFits libc (record.timestamp / 1000000) (orIso tf))
    (buf : Text) (hbuf : 1 ≤ buf.length) {text : Text}
    (htext : IsReference snprintf6g (secText libc (record.timestamp / 1000000) (orIso tf)) record
      fmt text) :
    ∃ ret out c', c.formatImpl snprintf6g libc leaves record buf fmt tf = some ((ret, out), c') ∧
      out.done = text.take (min text.length (buf.length - 1)) ∧ (∃ rest, out.rest = 0 :: rest) ∧
      (min text.length (buf.length - 1) < 2 ^ 31 →
        ret = (min text.length (buf.length - 1) : ℕ)) := by
  obtain ⟨hfmt, htime⟩ := runHistory_coherent snprintf6g libc history FmtCache.coherent_empty
    (TimeCache.coherent_empty libc) hrun
  obtain ⟨out, c', heq, hdone, hrest⟩ :=
    formatImpl_eq snprintf6g libc hfmt htime leaves htemplate tf record hfits buf hbuf htext
  have hmin : (text.take (buf.length - 1)).length = min text.length (buf.length - 1) := by
    rw [List.length_take, Nat.min_comm]
  refine ⟨_, out, c', heq, ?_, hrest, fun hint => ?_⟩
  · rw [hdone, List.take_eq_take_min, Nat.min_comm]
  · rw [hmin, toInt, Int.bmod_eq_of_le (by omega) (by omega)]

end Whole

/-- A record with the level `INFO` and a message. -/
def infoRecord (message : CString) : Record Empty :=
  ⟨0, none, none, none, none, some message, 2, 0, 0, 0, 0, 0, []⟩

/-- `%level %msg` of `hi` in six bytes is `INFO ` and the terminator. -/
theorem formatImpl_renders_info : ∃ out c',
    Caches.empty.formatImpl Empty.elim wednesday id (infoRecord ⟨str "hi", by decide +kernel⟩)
      (List.replicate 6 1) (str "%level %msg") none = some ((5, out), c') ∧
      out.done = (str "INFO hi").take 5 ∧ ∃ rest, out.rest = 0 :: rest := by
  have htemplate : IsTemplate (str "%level %msg") :=
    ⟨by decide +kernel, by decide +kernel, by decide +kernel, by decide +kernel⟩
  have htext : IsReference Empty.elim (secText wednesday 0 isoFormat)
      (infoRecord ⟨str "hi", by decide +kernel⟩) (str "%level %msg") (str "INFO hi") :=
    ⟨_, .token (t := .level) (by rintro c ⟨⟩; decide)
      (.byte (fun heq => absurd heq (by decide)) (expands_token .msg)), by decide +kernel⟩
  obtain ⟨ret, out, c', heq, hdone, hrest, hret⟩ :=
    formatImpl_renders Empty.elim wednesday [] (fun _ => id) rfl id htemplate none _
      (fun hmem => absurd hmem (by decide +kernel)) (List.replicate 6 1) (by decide) htext
  obtain rfl : ret = 5 := hret (by decide +kernel)
  exact ⟨out, c', heq, hdone, hrest⟩

/-- A message of `2 ^ 31` bytes in a buffer of one byte more: the count that is returned is
negative. -/
theorem count_wraps : ∃ (record : Record Empty) (buf text : Text),
    IsReference Empty.elim (secText wednesday 0 isoFormat) record (str "%msg") text ∧
      min text.length (buf.length - 1) = 2 ^ 31 ∧
      (Caches.empty.formatImpl Empty.elim wednesday id record buf (str "%msg") none).map
        (fun r => r.1.1) = some (-2 ^ 31) := by
  have hall (k : ℕ) : ∃ (record : Record Empty) (buf text : Text),
      IsReference Empty.elim (secText wednesday 0 isoFormat) record (str "%msg") text ∧
        min text.length (buf.length - 1) = k ∧
        (Caches.empty.formatImpl Empty.elim wednesday id record buf (str "%msg") none).map
          (fun r => r.1.1) = some (toInt k) := by
    have hmsg : str "%msg" = 37 :: Token.msg.name := by decide +kernel
    have htext : IsReference Empty.elim (secText wednesday 0 isoFormat)
        (infoRecord ⟨List.replicate k 97, by simp⟩) (str "%msg") (List.replicate k 97) :=
      ⟨_, hmsg ▸ expands_token .msg, (List.append_nil _).symm⟩
    have htemplate : IsTemplate (str "%msg") :=
      ⟨by decide +kernel, by decide +kernel, by decide +kernel, by decide +kernel⟩
    obtain ⟨out, c', heq, -, -⟩ := formatImpl_eq Empty.elim wednesday (c := .empty)
      FmtCache.coherent_empty (TimeCache.coherent_empty wednesday) id htemplate none _
      (fun hmem => absurd hmem (by decide +kernel)) (List.replicate (k + 1) 0) (by simp) htext
    refine ⟨_, List.replicate (k + 1) 0, _, htext, by simp, ?_⟩
    rw [heq]
    simp
  obtain ⟨record, buf, text, htext, hmin, hret⟩ := hall (2 ^ 31)
  exact ⟨record, buf, text, htext, hmin, hret.trans (congrArg some (by decide +kernel))⟩

end Formatter
end Clogx
