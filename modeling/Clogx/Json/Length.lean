/-
# The length of a JSON text

A lower bound for the length of a text from the value it stands for: a string
takes its quotes and two bytes for every character that has to be escaped, a
member of an object takes its name, the colon, the value and a comma or the
closing brace.  The bound is a weight on the states of the reader that one byte
raises by at most one (`step_weight`).  Only strings and the members of an object
are counted; other values count nothing.
-/

import Clogx.Json.Reader

namespace Clogx
namespace Json

open Machine (run)

/-- The characters that cannot stand for themselves. -/
def special (c : ℕ) : Bool := c == 34 || c == 92 || decide (c < 32)

/-- The bytes of a string, without its quotes. -/
def strCost : Str → ℕ
  | [] => 0
  | c :: s => (if special c then 2 else 1) + strCost s

theorem strCost_append (s r : Str) : strCost (s ++ r) = strCost s + strCost r := by
  induction s with
  | nil => simp [strCost]
  | cons c s ih => rw [List.cons_append, strCost, strCost, ih, add_assoc]

/-- The bytes of a value that is a string. -/
def Value.leafCost : Value → ℕ
  | .str s => strCost s + 2
  | _ => 0

/-- The bytes of members, each with the comma or the brace behind it. -/
def membersCost : Members → ℕ
  | [] => 0
  | (k, v) :: ms => strCost k + 4 + v.leafCost + membersCost ms

theorem membersCost_append (ms ns : Members) :
    membersCost (ms ++ ns) = membersCost ms + membersCost ns := by
  induction ms with
  | nil => simp [membersCost]
  | cons m ms ih =>
    rw [List.cons_append, membersCost, membersCost, ih]
    omega

/-- The bytes of a string, or of an object of strings. -/
def Value.cost : Value → ℕ
  | .obj ms => 1 + membersCost ms
  | v => v.leafCost

theorem Value.cost_obj (ms : Members) : (Value.obj ms).cost = 1 + membersCost ms := rfl

theorem Value.cost_arr (vs : List Value) : (Value.arr vs).cost = 0 := rfl

theorem Value.cost_str (s : Str) : (Value.str s).cost = strCost s + 2 := rfl

theorem Value.leafCost_le (v : Value) : v.leafCost ≤ v.cost := by
  cases v <;> simp [leafCost, cost]

/-- The bytes of an escape that is not complete. -/
def Chars.weight : Chars → ℕ
  | .plain => 0
  | .backslash | .hex .. => 1

def Frame.weight : Frame → ℕ
  | .arr _ => 0
  | .obj ms k => 1 + membersCost ms + strCost k + 3

def Mode.weight : Mode → ℕ
  | .value | .valueOrEnd | .inNum _ => 0
  | .inLit _ v => v.cost
  | .keyOrEnd => 1
  | .key ms => 1 + membersCost ms
  | .inKey ms acc p => 1 + membersCost ms + strCost acc + p.weight + 1
  | .colon ms k => 1 + membersCost ms + strCost k + 2
  | .inStr acc p => strCost acc + p.weight + 1
  | .done v => v.cost

/-- The bytes that a reader in this state has read, at least. -/
def State.weight (s : State) : ℕ := (s.stack.map Frame.weight).sum + s.mode.weight

theorem strCost_singleton_le (c : ℕ) : strCost [c] ≤ 2 := by
  simp only [strCost]
  split_ifs <;> omega

/-- A byte of a string; the closing quote counts. -/
theorem stepChars_weight {acc acc' : Str} {p : Chars} {c : UInt8} {p' : Option Chars}
    (h : stepChars acc p c = some (acc', p')) :
    strCost acc' + (p'.elim 1 Chars.weight) ≤ strCost acc + p.weight + 1 := by
  cases p with
  | plain =>
    simp only [stepChars] at h
    split_ifs at h with hq hb hlow
    · obtain ⟨rfl, rfl⟩ := Prod.mk.inj (Option.some.inj h)
      simp [Chars.weight]
    · obtain ⟨rfl, rfl⟩ := Prod.mk.inj (Option.some.inj h)
      simp [Chars.weight]
    · obtain ⟨rfl, rfl⟩ := Prod.mk.inj (Option.some.inj h)
      have hplain : special c.toNat = false := by
        simp only [special, Bool.or_eq_false_iff, beq_eq_false_iff_ne, decide_eq_false_iff_not]
        refine ⟨⟨fun heq => hq ?_, fun heq => hb ?_⟩, fun hlt => hlow hlt⟩ <;>
          exact UInt8.toNat_inj.1 heq
      rw [strCost_append]
      simp [strCost, hplain, Chars.weight]
  | backslash =>
    simp only [stepChars] at h
    split_ifs at h
    · obtain ⟨rfl, rfl⟩ := Prod.mk.inj (Option.some.inj h)
      simp [Chars.weight]
    · obtain ⟨code, -, heq⟩ := Option.map_eq_some_iff.1 h
      obtain ⟨rfl, rfl⟩ := Prod.mk.inj heq
      have := strCost_singleton_le code
      rw [strCost_append]
      simp only [Option.elim, Chars.weight]
      omega
  | hex left code =>
    simp only [stepChars] at h
    obtain ⟨d, -, heq⟩ := Option.map_eq_some_iff.1 h
    split_ifs at heq
    · obtain ⟨rfl, rfl⟩ := Prod.mk.inj heq
      have := strCost_singleton_le (16 * code + d)
      rw [strCost_append]
      simp only [Option.elim, Chars.weight]
      omega
    · obtain ⟨rfl, rfl⟩ := Prod.mk.inj heq
      simp [Chars.weight]

theorem start_weight {st : List Frame} {c : UInt8} {s : State} (h : start st c = some s) :
    s.weight ≤ (st.map Frame.weight).sum + 1 := by
  unfold start at h
  split_ifs at h <;> first
    | (cases h
       simp [State.weight, Mode.weight, strCost, Chars.weight, Value.cost, Value.leafCost])
    | skip
  obtain ⟨d, -, rfl⟩ := Option.map_eq_some_iff.1 h
  simp [State.weight, Mode.weight]

theorem close_weight {st : List Frame} {v : Value} {c : UInt8} {s : State}
    (h : close st v c = some s) : s.weight ≤ (st.map Frame.weight).sum + v.cost + 1 := by
  have hleaf := v.leafCost_le
  match st with
  | [] =>
    simp only [close] at h
    split_ifs at h
    cases h
    simp [State.weight, Mode.weight]
  | .arr vs :: st =>
    simp only [close] at h
    split_ifs at h <;> cases h <;>
      simp only [State.weight, Mode.weight, List.map_cons, List.sum_cons, Frame.weight,
        Value.cost_arr] <;> omega
  | .obj ms k :: st =>
    simp only [close] at h
    split_ifs at h <;> cases h <;>
      simp only [State.weight, Mode.weight, List.map_cons, List.sum_cons, Frame.weight,
        Value.cost_obj, membersCost_append, membersCost] <;> omega

theorem Number.cost_value {n : Number} {v : Value} (h : n.value = some v) : v.cost = 0 := by
  unfold Number.value at h
  split at h <;> first | (cases h; rfl) | cases h

/-- **One byte raises the weight by at most one.** -/
theorem step_weight {s s' : State} {c : UInt8} (h : step s c = some s') :
    s'.weight ≤ s.weight + 1 := by
  obtain ⟨st, m⟩ := s
  cases m with
  | value | valueOrEnd =>
    simp only [step] at h
    split_ifs at h <;> first
      | (cases h
         simp [State.weight, Mode.weight, Value.cost, Value.leafCost])
      | (have hstart := start_weight h
         simp only [State.weight, Mode.weight, List.map_cons, List.sum_cons, Frame.weight] at *
         omega)
  | keyOrEnd | key | colon =>
    simp only [step] at h
    split_ifs at h <;> cases h <;>
      simp only [State.weight, Mode.weight, List.map_cons, List.sum_cons, Frame.weight,
        Value.cost_obj, membersCost, strCost, Chars.weight] <;> omega
  | inKey ms acc p =>
    simp only [step] at h
    split at h
    · cases h
    all_goals
      rename_i heq
      have := stepChars_weight heq
      cases h
      simp only [State.weight, Mode.weight, Option.elim] at *
      omega
  | inStr acc p =>
    simp only [step] at h
    split at h
    · cases h
    all_goals
      rename_i heq
      have := stepChars_weight heq
      cases h
      simp only [State.weight, Mode.weight, Option.elim, Value.cost_str] at *
      omega
  | inNum n =>
    simp only [step] at h
    split at h
    · cases h
      simp [State.weight, Mode.weight]
    · obtain ⟨v, hv, hc⟩ := Option.bind_eq_some_iff.1 h
      have := close_weight hc
      have hzero := Number.cost_value hv
      simp only [State.weight, Mode.weight] at *
      omega
  | inLit left v =>
    cases left with
    | nil => cases h
    | cons l left =>
      simp only [step] at h
      split_ifs at h <;> cases h <;>
        simp only [State.weight, Mode.weight] <;> omega
  | done v =>
    have := close_weight h
    simp only [State.weight, Mode.weight] at *
    omega

/-- A run weighs no more than the bytes it reads. -/
theorem run_weight {s s' : State} {t : List UInt8} (h : run step s t = some s') :
    s'.weight ≤ s.weight + t.length := by
  induction t generalizing s with
  | nil =>
    cases h
    exact le_rfl
  | cons c t ih =>
    obtain ⟨s₁, hs₁, hrun⟩ := Option.bind_eq_some_iff.1 h
    have hstep := step_weight hs₁
    have hrest := ih hrun
    rw [List.length_cons]
    omega

/-- **A text is at least as long as the strings it stands for.** -/
theorem cost_le_length {t : List UInt8} {v : Value} (h : parse t = some v) : v.cost ≤ t.length := by
  obtain ⟨s, hrun, hs⟩ := Option.bind_eq_some_iff.1 h
  split_ifs at hs with hst
  have hweight := run_weight hrun
  have hvalue : v.cost ≤ s.mode.weight := by
    obtain ⟨st, m⟩ := s
    cases m with
    | done w => exact le_of_eq (congrArg Value.cost (Option.some.inj hs).symm)
    | inNum n => exact le_of_eq (Number.cost_value hs)
    | value | valueOrEnd | keyOrEnd | key | inKey | colon | inStr | inLit => cases hs
  rw [show (⟨[], .value⟩ : State).weight = 0 from rfl, State.weight] at hweight
  omega

end Json
end Clogx
