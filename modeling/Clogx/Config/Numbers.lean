/-
# The numbers of the configuration file

The eleven numeric settings of `parse_config_file` (`core/config.c`).  Each
handler reads its text with `strtol`, `strtoul` or `strtoull`, tests a range, and
stores the result with a conversion to the type of its field.

The number a text denotes is an integer without bounds (`denoted`), for
`max_size` times a unit (`DenotesSize`).  `Numeric.read` is what the handler
leaves in the field; it is that number unless the text is one the handler takes
for another (`Numeric.Misread`): the conversion to `int` or `uint32_t` comes after
a range test in 64 bits, and `strtoul` takes a minus sign.
-/

import Clogx.Config.Parser

namespace Clogx
namespace Config

open CLib Yaml

/-- The numeric settings. -/
inductive Numeric
  | queueSize
  | backups
  | port
  | prometheusPort
  | rateLimitMaxPerSec
  | rateLimitBurst
  | socketRingCapacity
  | socketBackoffMinMs
  | socketBackoffMaxMs
  | socketConnectTimeoutMs
  | maxSize
deriving DecidableEq

namespace Numeric

def key : Numeric → Text
  | queueSize => str "queue_size"
  | backups => str "backups"
  | port => str "port"
  | prometheusPort => str "prometheus_port"
  | rateLimitMaxPerSec => str "rate_limit_max_per_sec"
  | rateLimitBurst => str "rate_limit_burst"
  | socketRingCapacity => str "socket_ring_capacity"
  | socketBackoffMinMs => str "socket_backoff_min_ms"
  | socketBackoffMaxMs => str "socket_backoff_max_ms"
  | socketConnectTimeoutMs => str "socket_connect_timeout_ms"
  | maxSize => str "max_size"

def handler : Numeric → Handler
  | queueSize => .queueSize
  | backups => .backup
  | port => .port
  | prometheusPort => .prometheusPort
  | rateLimitMaxPerSec => .rateLimitMaxPerSec
  | rateLimitBurst => .rateLimitBurst
  | socketRingCapacity => .socketRingCapacity
  | socketBackoffMinMs => .socketBackoffMinMs
  | socketBackoffMaxMs => .socketBackoffMaxMs
  | socketConnectTimeoutMs => .socketConnectTimeoutMs
  | maxSize => .maxSize

/-- The field of a setting, as an integer. -/
def field (c : LogConfig) : Numeric → ℤ
  | queueSize => c.queueSize
  | backups => c.fileBackups
  | port => c.socketPort
  | prometheusPort => c.prometheusPort
  | rateLimitMaxPerSec => c.rateLimitMaxPerSec
  | rateLimitBurst => c.rateLimitBurst
  | socketRingCapacity => c.socketRingCapacity
  | socketBackoffMinMs => c.socketBackoffMinMs
  | socketBackoffMaxMs => c.socketBackoffMaxMs
  | socketConnectTimeoutMs => c.socketConnectTimeoutMs
  | maxSize => c.fileMaxSize

/-- What the handler of a setting leaves in the field, `none` for a text it rejects. -/
def read (v : Text) : Numeric → Option ℤ
  | queueSize | rateLimitMaxPerSec | rateLimitBurst => intIn 1 longMax v
  | backups => intIn 0 longMax v
  | port | prometheusPort => intIn 1 65535 v
  | socketRingCapacity => (strtoul v).map fun n : ℕ => (n : ℤ)
  | socketBackoffMinMs | socketBackoffMaxMs | socketConnectTimeoutMs =>
    (strtoul v).map fun n : ℕ => ((n % 2 ^ 32 : ℕ) : ℤ)
  | maxSize => (maxSizeOf v).map fun n : ℕ => (n : ℤ)

/-- A handler that sets one field with what it reads. -/
theorem apply_of_write {α : Type*} (m : Numeric) (v : Text) {o : Option α} {r : Option ℤ}
    {set : α → Target → Target} (val : α → ℤ) (hr : o.map val = r)
    (hw : m.handler.write v = o.map set) (hset : ∀ n t, m.field (set n t).cfg = val n)
    (p : Parsed) :
    m.field (Setting.apply p (.value m.handler v)).target.cfg = r.getD (m.field p.target.cfg) ∧
      Setting.rejected (.value m.handler v) = r.isNone := by
  rw [Setting.apply, Setting.rejected, hw, ← hr]
  cases o with
  | none => exact ⟨rfl, rfl⟩
  | some n => exact ⟨hset n p.target, rfl⟩

/-- **A numeric setting writes its field with what it reads,** or is rejected and leaves it. -/
theorem apply_value (m : Numeric) (v : Text) (p : Parsed) :
    m.field (Setting.apply p (.value m.handler v)).target.cfg =
        (m.read v).getD (m.field p.target.cfg) ∧
      Setting.rejected (.value m.handler v) = (m.read v).isNone := by
  cases m with
  | queueSize | backups | port | prometheusPort | rateLimitMaxPerSec | rateLimitBurst =>
    exact apply_of_write _ v (fun n => n) Option.map_id' rfl (fun _ _ => rfl) p
  | socketBackoffMinMs | socketBackoffMaxMs | socketConnectTimeoutMs =>
    exact apply_of_write _ v (fun n => ((n % 2 ^ 32 : ℕ) : ℤ)) rfl rfl (fun _ _ => rfl) p
  | socketRingCapacity =>
    exact apply_of_write socketRingCapacity v (fun n : ℕ => (n : ℤ)) rfl rfl (fun _ _ => rfl) p
  | maxSize => exact apply_of_write maxSize v (fun n : ℕ => (n : ℤ)) rfl rfl (fun _ _ => rfl) p

/-- Other settings leave the field alone. -/
theorem field_apply_of_ne (m : Numeric) {s : Setting} (hs : ∀ v, s ≠ .value m.handler v)
    (p : Parsed) : m.field (s.apply p).target.cfg = m.field p.target.cfg := by
  cases s with
  | plugin i path json => cases m <;> rfl
  | value h v =>
    have hne : h ≠ m.handler := fun heq => hs v (by rw [heq])
    rw [Setting.apply]
    cases hw : h.write v with
    | none => rfl
    | some f =>
      dsimp only
      cases h <;>
        simp only [Handler.write, Option.some.injEq, Option.map_eq_some_iff] at hw <;>
        first
        | (subst hw; cases m <;> rfl)
        | (obtain ⟨n, -, rfl⟩ := hw; cases m <;> first | rfl | exact absurd rfl hne)

theorem field_foldl_of_ne (m : Numeric) {ss : List Setting}
    (hs : ∀ v, .value m.handler v ∉ ss) :
    ∀ p : Parsed, m.field (ss.foldl Setting.apply p).target.cfg = m.field p.target.cfg := by
  induction ss with
  | nil => exact fun _ => rfl
  | cons s ss ih =>
    intro p
    rw [List.foldl_cons, ih fun v hv => hs v (List.mem_cons_of_mem _ hv),
      m.field_apply_of_ne fun v hv => hs v (hv ▸ List.mem_cons_self ..)]

end Numeric

/-! ### Sizes -/

/-- The suffixes of a size, and what they stand for. -/
def sizeSuffixes : List (Text × ℕ) :=
  [([], 1), (str "K", 1024), (str "KB", 1024), (str "M", 1024 ^ 2), (str "MB", 1024 ^ 2),
    (str "G", 1024 ^ 3), (str "GB", 1024 ^ 3)]

/-- `toupper`, in the C locale. -/
def upper (c : UInt8) : UInt8 := if 97 ≤ c ∧ c ≤ 122 then c - 32 else c

/-- The text is the number `k` with a suffix for `mult`, in upper or lower case. -/
def DenotesSize (v : Text) (k : ℤ) (mult : ℕ) : Prop :=
  ∃ w s, v = w ++ s ∧ denoted w = some k ∧
    ∃ e ∈ sizeSuffixes, s.map upper = e.1 ∧ e.2 = mult

theorem unitOf_digit (d : UInt8) : isDigit d = true → unitOf d = 1 ∧ isLetter 66 98 d = false :=
  forall_byte (P := fun d => isDigit d = true → unitOf d = 1 ∧ isLetter 66 98 d = false)
    (by decide +kernel) d

/-- The unit letters, by their upper case. -/
theorem unitOf_cases (c : UInt8) :
    unitOf c = 1 ∨ isLetter 66 98 c = false ∧
      (upper c = 75 ∧ unitOf c = 1024 ∨ upper c = 77 ∧ unitOf c = 1024 ^ 2 ∨
        upper c = 71 ∧ unitOf c = 1024 ^ 3) :=
  forall_byte (P := fun c => unitOf c = 1 ∨ isLetter 66 98 c = false ∧
      (upper c = 75 ∧ unitOf c = 1024 ∨ upper c = 77 ∧ unitOf c = 1024 ^ 2 ∨
        upper c = 71 ∧ unitOf c = 1024 ^ 3)) (by decide +kernel) c

theorem unitOf_of_upper (c : UInt8) :
    (upper c = 66 ↔ isLetter 66 98 c = true) ∧ (upper c = 75 → unitOf c = 1024) ∧
      (upper c = 77 → unitOf c = 1024 ^ 2) ∧ (upper c = 71 → unitOf c = 1024 ^ 3) :=
  forall_byte (P := fun c => (upper c = 66 ↔ isLetter 66 98 c = true) ∧
      (upper c = 75 → unitOf c = 1024) ∧ (upper c = 77 → unitOf c = 1024 ^ 2) ∧
      (upper c = 71 → unitOf c = 1024 ^ 3)) (by decide +kernel) c

theorem sizeUnit_two {a b : UInt8} (hb : isLetter 66 98 b = true) (ha : unitOf a ≠ 1) (r : Text) :
    sizeUnit (b :: a :: r) = (unitOf a, 2) := by
  rw [sizeUnit, if_pos ⟨hb, ha⟩]

theorem sizeUnit_one {c : UInt8} (hb : isLetter 66 98 c = false) (hc : unitOf c ≠ 1) (r : Text) :
    sizeUnit (c :: r) = (unitOf c, 1) := by
  cases r with
  | nil => rw [sizeUnit, if_pos hc]
  | cons a r => rw [sizeUnit, if_neg (by simp [hb]), if_pos hc]

theorem sizeUnit_digit {d : UInt8} (hd : isDigit d = true) (r : Text) :
    sizeUnit (d :: r) = (1, 0) := by
  obtain ⟨hunit, hb⟩ := unitOf_digit d hd
  cases r with
  | nil => rw [sizeUnit, if_neg (by simp [hunit])]
  | cons a r => rw [sizeUnit, if_neg (by simp [hb]), if_neg (by simp [hunit])]

/-- A suffix is nothing, a unit letter, or a unit letter and a `B`. -/
theorem suffix_cases {s : Text} {mult : ℕ} :
    (∃ e ∈ sizeSuffixes, s.map upper = e.1 ∧ e.2 = mult) ↔
      s = [] ∧ mult = 1 ∨
        ∃ a, unitOf a = mult ∧ mult ≠ 1 ∧ (s = [a] ∨ ∃ b, s = [a, b] ∧ isLetter 66 98 b = true) := by
  have hstr : str "K" = [75] ∧ str "KB" = [75, 66] ∧ str "M" = [77] ∧ str "MB" = [77, 66] ∧
      str "G" = [71] ∧ str "GB" = [71, 66] := by decide +kernel
  obtain ⟨hK, hKB, hM, hMB, hG, hGB⟩ := hstr
  simp only [sizeSuffixes, hK, hKB, hM, hMB, hG, hGB, List.mem_cons, List.not_mem_nil, or_false]
  constructor
  · rintro ⟨e, he, hs, rfl⟩
    rcases he with rfl | rfl | rfl | rfl | rfl | rfl | rfl <;>
      rcases s with - | ⟨a, - | ⟨b, - | ⟨c, s⟩⟩⟩ <;>
      simp only [List.map_nil, List.map_cons, List.cons.injEq, reduceCtorEq, and_false,
        and_true] at hs
    · exact .inl ⟨rfl, rfl⟩
    · exact .inr ⟨a, (unitOf_of_upper a).2.1 hs, by norm_num, .inl rfl⟩
    · exact .inr ⟨a, (unitOf_of_upper a).2.1 hs.1, by norm_num,
        .inr ⟨b, rfl, (unitOf_of_upper b).1.1 hs.2⟩⟩
    · exact .inr ⟨a, (unitOf_of_upper a).2.2.1 hs, by norm_num, .inl rfl⟩
    · exact .inr ⟨a, (unitOf_of_upper a).2.2.1 hs.1, by norm_num,
        .inr ⟨b, rfl, (unitOf_of_upper b).1.1 hs.2⟩⟩
    · exact .inr ⟨a, (unitOf_of_upper a).2.2.2 hs, by norm_num, .inl rfl⟩
    · exact .inr ⟨a, (unitOf_of_upper a).2.2.2 hs.1, by norm_num,
        .inr ⟨b, rfl, (unitOf_of_upper b).1.1 hs.2⟩⟩
  · rintro (⟨rfl, rfl⟩ | ⟨a, rfl, hne, hs⟩)
    · exact ⟨([], 1), .inl rfl, rfl, rfl⟩
    · rcases unitOf_cases a with h | ⟨-, ⟨ha, hunit⟩ | ⟨ha, hunit⟩ | ⟨ha, hunit⟩⟩
      · exact absurd h hne
      all_goals
        rcases hs with rfl | ⟨b, rfl, hb⟩
        · refine ⟨([upper a], unitOf a), ?_, rfl, rfl⟩
          simp [ha, hunit]
        · refine ⟨([upper a, upper b], unitOf a), ?_, rfl, rfl⟩
          simp [ha, hunit, (unitOf_of_upper b).1.2 hb]

/-- **The search for a suffix finds the one behind the number.** -/
theorem denotesSize_iff {v : Text} {k : ℤ} {mult : ℕ} :
    DenotesSize v k mult ↔ (sizeUnit v.reverse).1 = mult ∧
      denoted (v.take (v.length - (sizeUnit v.reverse).2)) = some k := by
  have htake (w s : Text) : (w ++ s).take ((w ++ s).length - s.length) = w := by
    rw [List.length_append, Nat.add_sub_cancel, List.take_left]
  constructor
  · rintro ⟨w, s, rfl, hw, hs⟩
    obtain ⟨u, d, rfl, hd⟩ := exists_digit_of_denoted hw
    have hunit : sizeUnit (u ++ [d] ++ s).reverse = (mult, s.length) := by
      rw [List.reverse_append]
      rcases suffix_cases.1 hs with ⟨rfl, rfl⟩ | ⟨a, rfl, hne, rfl | ⟨b, rfl, hb⟩⟩
      · rw [List.reverse_append]
        exact sizeUnit_digit hd _
      · have hb := (unitOf_cases a).resolve_left hne
        exact sizeUnit_one hb.1 hne _
      · exact sizeUnit_two hb hne _
    rw [hunit]
    exact ⟨rfl, by rw [htake, hw]⟩
  · rintro ⟨hmult, hk⟩
    have hsplit : ∃ w s, v = w ++ s ∧ (sizeUnit v.reverse).2 = s.length ∧
        ∃ e ∈ sizeSuffixes, s.map upper = e.1 ∧ e.2 = mult := by
      obtain ⟨r, rfl⟩ : ∃ r : Text, v = r.reverse := ⟨v.reverse, (List.reverse_reverse v).symm⟩
      rw [List.reverse_reverse] at hmult ⊢
      subst hmult
      simp only [suffix_cases]
      fun_cases sizeUnit r with
      | case1 u1 u0 r h =>
        exact ⟨r.reverse, [u0, u1], by simp, rfl, .inr ⟨u0, rfl, h.2, .inr ⟨u1, rfl, h.1⟩⟩⟩
      | case2 u1 u0 r _ h =>
        exact ⟨(u0 :: r).reverse, [u1], by simp, rfl, .inr ⟨u1, rfl, h, .inl rfl⟩⟩
      | case3 u1 u0 r => exact ⟨(u1 :: u0 :: r).reverse, [], by simp, rfl, .inl ⟨rfl, rfl⟩⟩
      | case4 u1 h => exact ⟨[], [u1], by simp, rfl, .inr ⟨u1, rfl, h, .inl rfl⟩⟩
      | case5 u1 => exact ⟨[u1], [], by simp, rfl, .inl ⟨rfl, rfl⟩⟩
      | case6 => exact ⟨[], [], by simp, rfl, .inl ⟨rfl, rfl⟩⟩
    obtain ⟨w, s, rfl, hlen, hs⟩ := hsplit
    rw [hlen, htake] at hk
    exact ⟨w, s, rfl, hk, hs⟩

/-! ### Numbers that are taken for others -/

/-- A reader that accepts some numbers `k` and stores `f k`, for texts that stand for `g k`: it
stores the number or rejects the text, unless it accepts one that it changes. -/
theorem exact_bind_iff {o : Option ℤ} {p : ℤ → Prop} [DecidablePred p] {f g : ℤ → ℤ} :
    ((o.bind fun k => if p k then some (f k) else none) = none ∨
        ∃ n, (∃ k, o = some k ∧ g k = n) ∧ 0 ≤ n ∧
          (o.bind fun k => if p k then some (f k) else none) = some n) ↔
      ¬∃ k, o = some k ∧ p k ∧ ¬(0 ≤ g k ∧ f k = g k) := by
  cases o with
  | none => simp
  | some k =>
    by_cases hp : p k
    · simp [hp]
    · simp [hp]

/-- A bounded integer is what the text denotes, if in range. -/
theorem intIn_eq {lo hi : ℤ} (hlo : 0 ≤ lo) (hhi : hi ≤ longMax) (v : Text) :
    intIn lo hi v =
      (denoted v).bind fun n => if lo ≤ n ∧ n ≤ hi then some (toInt n) else none := by
  rw [intIn, strtol_eq, Option.bind_assoc]
  congr 1
  funext n
  rw [longMax] at hhi
  by_cases h : lo ≤ n ∧ n ≤ hi
  · rw [if_pos (by omega), Option.bind_some]
  · by_cases h' : -2 ^ 63 ≤ n ∧ n < 2 ^ 63
    · rw [if_pos h', Option.bind_some]
    · rw [if_neg h', if_neg h, Option.bind_none]

theorem toInt_eq_iff {n : ℤ} (h : 0 ≤ n) : toInt n = n ↔ n < 2 ^ 31 := by
  rw [toInt, Int.bmod_def]
  constructor
  · intro heq
    split_ifs at heq <;> omega
  · intro hlt
    rw [if_pos (by omega)]
    omega

namespace Numeric

/-- The number that the text of a setting denotes. -/
def Denotes (v : Text) (n : ℤ) : Numeric → Prop
  | maxSize => ∃ k mult, DenotesSize v k mult ∧ k * mult = n
  | _ => denoted v = some n

/-- The texts that a setting takes for another number: those in a range that the parser function
accepts and the field does not hold, and negative numbers that wrap. -/
def Misread (v : Text) : Numeric → Prop
  | queueSize | backups | rateLimitMaxPerSec | rateLimitBurst =>
    ∃ n, denoted v = some n ∧ 2 ^ 31 ≤ n ∧ n < 2 ^ 63
  | port | prometheusPort => False
  | socketRingCapacity => ∃ n, denoted v = some n ∧ -2 ^ 64 < n ∧ n < 0
  | socketBackoffMinMs | socketBackoffMaxMs | socketConnectTimeoutMs =>
    ∃ n, denoted v = some n ∧ -2 ^ 64 < n ∧ n < 2 ^ 64 ∧ (n < 0 ∨ 2 ^ 32 ≤ n)
  | maxSize =>
    ∃ k mult, DenotesSize v k mult ∧ v.length < 64 ∧ -2 ^ 64 < k ∧ k < 0 ∧
      (1 < mult → 2 ^ 64 + k ≤ ((2 ^ 64 - 1) / mult : ℕ))

/-- What a setting reads is the number or nothing. -/
def Exact (v : Text) (m : Numeric) : Prop :=
  m.read v = none ∨ ∃ n, m.Denotes v n ∧ 0 ≤ n ∧ m.read v = some n

theorem exact_signed_iff {lo hi : ℤ} (hlo : 0 ≤ lo) (hhi : hi ≤ longMax) (v : Text) :
    (intIn lo hi v = none ∨ ∃ n, denoted v = some n ∧ 0 ≤ n ∧ intIn lo hi v = some n) ↔
      ¬∃ n, denoted v = some n ∧ (lo ≤ n ∧ n ≤ hi) ∧ 2 ^ 31 ≤ n := by
  have h := exact_bind_iff (o := denoted v) (p := fun n => lo ≤ n ∧ n ≤ hi) (f := toInt)
    (g := fun n => n)
  simp only [exists_eq_right] at h
  rw [intIn_eq hlo hhi, h]
  refine not_congr (exists_congr fun n => and_congr_right fun _ => and_congr_right fun hn => ?_)
  have hpos : 0 ≤ n := hlo.trans hn.1
  rw [toInt_eq_iff hpos]
  omega

/-- What `strtoul` reads, as it is stored. -/
theorem map_strtoul (v : Text) (f : ℕ → ℤ) :
    (strtoul v).map f = (denoted v).bind fun n =>
      if -(2 ^ 64 : ℕ) < n ∧ n < (2 ^ 64 : ℕ) then some (f (n % (2 ^ 64 : ℕ)).toNat) else none := by
  rw [strtoul_eq, Option.map_bind]
  congr 1
  funext n
  rw [Function.comp_apply]
  split_ifs
  · rfl
  · rfl

theorem exact_unsigned_iff (f : ℕ → ℤ) (v : Text) :
    ((strtoul v).map f = none ∨ ∃ n, denoted v = some n ∧ 0 ≤ n ∧ (strtoul v).map f = some n) ↔
      ¬∃ n, denoted v = some n ∧ (-(2 ^ 64 : ℕ) < n ∧ n < (2 ^ 64 : ℕ)) ∧
        ¬(0 ≤ n ∧ f (n % (2 ^ 64 : ℕ)).toNat = n) := by
  have h := exact_bind_iff (o := denoted v)
    (p := fun n => -(2 ^ 64 : ℕ) < n ∧ n < (2 ^ 64 : ℕ))
    (f := fun n => f (n % (2 ^ 64 : ℕ)).toNat) (g := fun n => n)
  simp only [exists_eq_right] at h
  rw [map_strtoul, h]

/-- What `max_size` stores, by the number `k` before the suffix. -/
theorem map_maxSizeOf {v : Text} (hlen : ¬(v.length = 0 ∨ 64 ≤ v.length)) :
    ((maxSizeOf v).map fun n : ℕ => (n : ℤ)) =
      (denoted (v.take (v.length - (sizeUnit v.reverse).2))).bind fun k =>
        if (-(2 ^ 64 : ℕ) < k ∧ k < (2 ^ 64 : ℕ)) ∧ ¬(1 < (sizeUnit v.reverse).1 ∧
            (2 ^ 64 - 1) / (sizeUnit v.reverse).1 < (k % (2 ^ 64 : ℕ)).toNat) then
          some (((k % (2 ^ 64 : ℕ)).toNat : ℤ) * ((sizeUnit v.reverse).1 : ℤ))
        else none := by
  rw [maxSizeOf, if_neg hlen]
  obtain ⟨mult, suffix⟩ := sizeUnit v.reverse
  dsimp only
  rw [strtoul_eq, Option.bind_assoc, Option.map_bind]
  refine congrArg _ (funext fun k => ?_)
  rw [Function.comp_apply]
  by_cases hk : -(2 ^ 64 : ℕ) < k ∧ k < (2 ^ 64 : ℕ)
  · rw [if_pos hk, Option.bind_some]
    by_cases hover : 1 < mult ∧ (2 ^ 64 - 1) / mult < (k % (2 ^ 64 : ℕ)).toNat
    · rw [if_pos hover, if_neg fun h => h.2 hover, Option.map_none]
    · rw [if_neg hover, if_pos ⟨hk, hover⟩, Option.map_some, Nat.cast_mul]
  · rw [if_neg hk, if_neg fun h => hk h.1, Option.bind_none, Option.map_none]

theorem sizeUnit_pos (r : Text) : 0 < (sizeUnit r).1 := by
  have hunit (c : UInt8) : 0 < unitOf c := by
    rw [unitOf]
    split_ifs <;> norm_num
  fun_cases sizeUnit r <;> first | exact hunit _ | exact Nat.one_pos

/-- `max_size` is read exactly unless misread. -/
theorem exact_size_iff (v : Text) : Exact v maxSize ↔ ¬ Misread v maxSize := by
  rw [Exact]
  simp only [read, Denotes, Misread, denotesSize_iff]
  by_cases hlen : v.length = 0 ∨ 64 ≤ v.length
  · rw [maxSizeOf, if_pos hlen]
    refine iff_of_true (.inl rfl) ?_
    rintro ⟨k, mult, ⟨-, hk⟩, hlt, -⟩
    obtain rfl : v = [] := List.eq_nil_of_length_eq_zero (by omega)
    cases hk
  · have hpos := sizeUnit_pos v.reverse
    have h := exact_bind_iff (o := denoted (v.take (v.length - (sizeUnit v.reverse).2)))
      (p := fun k => (-(2 ^ 64 : ℕ) < k ∧ k < (2 ^ 64 : ℕ)) ∧ ¬(1 < (sizeUnit v.reverse).1 ∧
        (2 ^ 64 - 1) / (sizeUnit v.reverse).1 < (k % (2 ^ 64 : ℕ)).toNat))
      (f := fun k => ((k % (2 ^ 64 : ℕ)).toNat : ℤ) * ((sizeUnit v.reverse).1 : ℤ))
      (g := fun k => k * ((sizeUnit v.reverse).1 : ℤ))
    rw [map_maxSizeOf hlen]
    generalize (sizeUnit v.reverse).1 = mult at h hpos ⊢
    generalize denoted (v.take (v.length - (sizeUnit v.reverse).2)) = o at h ⊢
    have hdenotes (n : ℤ) : (∃ k mult', (mult = mult' ∧ o = some k) ∧ k * (mult' : ℤ) = n) ↔
        ∃ k, o = some k ∧ k * (mult : ℤ) = n :=
      exists_congr fun k => ⟨fun ⟨_, ⟨rfl, hk⟩, hn⟩ => ⟨hk, hn⟩, fun ⟨hk, hn⟩ => ⟨_, ⟨rfl, hk⟩, hn⟩⟩
    simp only [hdenotes, h]
    refine not_congr (exists_congr fun k => ?_)
    generalize hq : (2 ^ 64 - 1) / mult = q
    constructor
    · rintro ⟨hk, ⟨hrange, hover⟩, hbad⟩
      have hneg : k < 0 := by
        by_contra hpos'
        have hval : ((k % (2 ^ 64 : ℕ)).toNat : ℤ) = k := by omega
        exact hbad ⟨mul_nonneg (by omega) (by omega), by rw [hval]⟩
      exact ⟨mult, ⟨rfl, hk⟩, by omega, by omega, hneg, fun hmult => by omega⟩
    · rintro ⟨_, ⟨rfl, hk⟩, hlt, hlo, hneg, hover⟩
      rw [hq] at hover
      refine ⟨hk, ⟨by omega, fun h => ?_⟩, fun h => absurd h.1 ?_⟩
      · have := hover h.1
        omega
      · exact not_le.2 (mul_neg_of_neg_of_pos hneg (by omega))

/-- **A setting reads the number of its text or rejects it, unless it takes it for another.** -/
theorem exact_iff (v : Text) (m : Numeric) : m.Exact v ↔ ¬ m.Misread v := by
  cases m with
  | queueSize | rateLimitMaxPerSec | rateLimitBurst | backups =>
    refine (exact_signed_iff (by norm_num) le_rfl v).trans
      (not_congr (exists_congr fun n => and_congr_right fun _ => ?_))
    rw [longMax]
    omega
  | port | prometheusPort =>
    refine (exact_signed_iff (by norm_num) (by norm_num [longMax]) v).trans (not_congr ?_)
    simp only [Misread, iff_false]
    rintro ⟨n, -, hn, h⟩
    omega
  | socketRingCapacity | socketBackoffMinMs | socketBackoffMaxMs | socketConnectTimeoutMs =>
    refine (exact_unsigned_iff _ v).trans
      (not_congr (exists_congr fun n => and_congr_right fun _ => ?_))
    omega
  | maxSize => exact exact_size_iff v

/-! ### Through the parser -/

/-- **A numeric setting of a file is stored exactly or rejected:** wherever the file gives the text
to the key, for the last time, `parse_config_file` returns `-1` and the field is what it was before,
or the field is the number that the text denotes, which is not negative. -/
def Stored (v : Text) (m : Numeric) : Prop :=
  ∀ es t us ws, ({} : Locals).settings (beforeEnd es) = us ++ .value m.handler v :: ws →
    (∀ w, .value m.handler w ∉ ws) →
      ((parseConfigFile (.events es) t).ret = -1 ∧
          m.field (parseConfigFile (.events es) t).target.cfg =
            m.field (us.foldl Setting.apply ⟨t, false⟩).target.cfg) ∨
        ∃ n, m.Denotes v n ∧ 0 ≤ n ∧ m.field (parseConfigFile (.events es) t).target.cfg = n

/-- The field after the last setting of its key. -/
theorem field_parse (m : Numeric) {v : Text} {es : List Event} {us ws : List Setting}
    (hes : ({} : Locals).settings (beforeEnd es) = us ++ .value m.handler v :: ws)
    (hws : ∀ w, .value m.handler w ∉ ws) (t : Target) :
    m.field (parseConfigFile (.events es) t).target.cfg =
        (m.read v).getD (m.field (us.foldl Setting.apply ⟨t, false⟩).target.cfg) ∧
      (m.read v = none → (parseConfigFile (.events es) t).ret = -1) := by
  obtain ⟨htarget, herr⟩ := parseConfigFile_events es t
  rw [htarget, hes, List.foldl_append, List.foldl_cons, m.field_foldl_of_ne hws]
  refine ⟨(m.apply_value v _).1, fun hnone => ?_⟩
  have hrej : Setting.rejected (.value m.handler v) = true := by
    rw [(m.apply_value v ⟨t, false⟩).2, hnone]
    rfl
  rw [Parsed.ret, herr, rejects, hes, if_pos]
  simp [hrej]

/-- The events of a file with one setting. -/
def oneSetting (m : Numeric) (v : Text) : List Event :=
  documentEvents (.map [(.scalar (str "log"), .map [(.scalar m.key, .scalar v)])])

theorem settings_oneSetting (m : Numeric) (v : Text) :
    ({} : Locals).settings (beforeEnd (oneSetting m v)) = [] ++ .value m.handler v :: [] := by
  cases m <;> rfl

/-- Such a file is accepted if its setting is. -/
theorem ret_oneSetting (m : Numeric) {v : Text} {n : ℤ} (h : m.read v = some n) (t : Target) :
    (parseConfigFile (.events (oneSetting m v)) t).ret = 0 := by
  have hend : Event.streamEnd ∈ oneSetting m v := by simp [oneSetting, documentEvents]
  rw [Parsed.ret, (parseConfigFile_events _ t).2, rejects, settings_oneSetting]
  simp [hend, (m.apply_value v ⟨t, false⟩).2, h]

/-- **Every numeric setting is stored exactly or rejected, except the texts that it misreads.** -/
theorem stored_iff (v : Text) (m : Numeric) : m.Stored v ↔ ¬ m.Misread v := by
  rw [← exact_iff]
  constructor
  · intro h
    have hlast (w : Text) : Setting.value m.handler w ∉ [] := List.not_mem_nil
    obtain ⟨hfield, -⟩ := m.field_parse (settings_oneSetting m v) hlast (pole true)
    cases hread : m.read v with
    | none => exact .inl hread
    | some r =>
      rcases h _ (pole true) _ _ (settings_oneSetting m v) hlast with ⟨hret, -⟩ | ⟨n, hn, hpos, heq⟩
      · rw [ret_oneSetting m hread] at hret
        cases hret
      · rw [hread, Option.getD_some, heq] at hfield
        exact .inr ⟨n, hn, hpos, by rw [hread, hfield]⟩
  · rintro h es t us ws hes hws
    obtain ⟨hfield, hret⟩ := m.field_parse hes hws t
    rcases h with hnone | ⟨n, hn, hpos, hread⟩
    · rw [hnone, Option.getD_none] at hfield
      exact .inl ⟨hret hnone, hfield⟩
    · rw [hread, Option.getD_some] at hfield
      exact .inr ⟨n, hn, hpos, hfield⟩

/-- **Texts taken for another number:** `4294967297` for a queue size of one, `-1` for the largest
ring and the longest backoff, and a size of minus one. -/
theorem misread_examples :
    let load := fun m v => parseConfigFile (.events (oneSetting m (str v))) (pole false)
    ((load queueSize "4294967297").ret = 0 ∧
        (load queueSize "4294967297").target.cfg.queueSize = 1) ∧
      ((load socketRingCapacity "-1").ret = 0 ∧
        (load socketRingCapacity "-1").target.cfg.socketRingCapacity = 2 ^ 64 - 1) ∧
      ((load socketBackoffMaxMs "-1").ret = 0 ∧
        (load socketBackoffMaxMs "-1").target.cfg.socketBackoffMaxMs = 2 ^ 32 - 1) ∧
      (load maxSize "-1").ret = 0 ∧ (load maxSize "-1").target.cfg.fileMaxSize = 2 ^ 64 - 1 := by
  decide +kernel

end Numeric
end Config
end Clogx
