/-
# The delay between two attempts to connect

`backoff_next` (`core/socket_transport.c`) doubles the delay up to the configured
maximum and moves the result by at most a tenth, at random.  Its arithmetic is that
of `uint32_t`, and two of its steps may leave that range: the doubling, and the
addition of the jitter.  Either makes the delay collapse, to as little as 100 ms.
`Fits` says for which delays neither does any harm, and `backoffNext_near_iff` that
it is exactly what keeps the delay near its target.

The writer thread calls the function after each failed attempt
(`backoffMs_of_failure`), so a run of consecutive failures grows its delay within the
same bounds.
-/

import Clogx.Socket.Writer

namespace Clogx
namespace Writer

open Machine (Reach Reachable)

/-- What the next delay aims at: twice the last one, up to the maximum. -/
def target (currentMs maxMs : ℕ) : ℕ := min (2 * currentMs) maxMs

/-- The delay `d` is the target moved by at most a tenth, but at least 100 ms. -/
def Near (currentMs maxMs d : ℕ) : Prop :=
  ∃ r, target currentMs maxMs - target currentMs maxMs / 10 ≤ r ∧
    r ≤ target currentMs maxMs + target currentMs maxMs / 10 ∧ d = max 100 r

/-- The 32-bit arithmetic does no harm: the maximum is so short that 100 ms are near it, or the
doubling does not wrap below the maximum and the jitter does not wrap. -/
def Fits (currentMs maxMs : ℕ) : Prop :=
  maxMs ≤ 111 ∨ (2 * currentMs < 2 ^ 32 ∨ maxMs + 2 ^ 32 ≤ 2 * currentMs) ∧
    target currentMs maxMs + target currentMs maxMs / 10 < 2 ^ 32

instance (currentMs maxMs : ℕ) : Decidable (Fits currentMs maxMs) :=
  inferInstanceAs (Decidable (_ ∨ _))

/-! ### One call -/

/-- `next` before the jitter. -/
def doubled (currentMs maxMs : ℕ) : ℕ := min (currentMs * 2 % 2 ^ 32) maxMs

/-- The two branches of the jitter are one sum in 32 bits. -/
theorem backoffNext_eq {currentMs maxMs : ℕ} (hm : maxMs < 2 ^ 32) (seed : ℕ) :
    backoffNext currentMs maxMs seed =
      max 100 ((doubled currentMs maxMs - doubled currentMs maxMs / 10 +
        seed % 2 ^ 32 % (2 * (doubled currentMs maxMs / 10) + 1)) % 2 ^ 32) := by
  have hnext : (if maxMs < currentMs * 2 % 2 ^ 32 then maxMs else currentMs * 2 % 2 ^ 32) =
      doubled currentMs maxMs := by
    rw [doubled, min_def]
    split_ifs <;> omega
  have hle : doubled currentMs maxMs ≤ maxMs := min_le_right ..
  simp only [backoffNext, hnext]
  generalize doubled currentMs maxMs = next at hle ⊢
  generalize seed % 2 ^ 32 % (2 * (next / 10) + 1) = delta
  have hmoved : (if next / 10 < delta then (next + (delta - next / 10)) % 2 ^ 32
      else next - (next / 10 - delta)) = (next - next / 10 + delta) % 2 ^ 32 := by
    split_ifs <;> omega
  rw [hmoved, max_def]
  split_ifs <;> omega

/-- Every shift within the jitter is drawn by some clock. -/
theorem forall_seed_iff {currentMs maxMs : ℕ} (hm : maxMs < 2 ^ 32) (P : ℕ → Prop) :
    (∀ seed, P (backoffNext currentMs maxMs seed)) ↔
      ∀ delta ≤ 2 * (doubled currentMs maxMs / 10),
        P (max 100 ((doubled currentMs maxMs - doubled currentMs maxMs / 10 + delta) % 2 ^ 32)) := by
  have hle : doubled currentMs maxMs ≤ maxMs := min_le_right ..
  constructor
  · intro h delta hdelta
    have hdraw : delta % 2 ^ 32 % (2 * (doubled currentMs maxMs / 10) + 1) = delta := by
      rw [Nat.mod_eq_of_lt (by omega : delta < 2 ^ 32), Nat.mod_eq_of_lt (by omega)]
    have hseed := h delta
    rwa [backoffNext_eq hm, hdraw] at hseed
  · intro h seed
    rw [backoffNext_eq hm]
    exact h _ (Nat.lt_succ_iff.1 (Nat.mod_lt _ (by omega)))

/-- **The delay is near its target for every clock exactly if the arithmetic fits.** -/
theorem backoffNext_near_iff {currentMs maxMs : ℕ} (hc : currentMs < 2 ^ 32) (hm : maxMs < 2 ^ 32) :
    (∀ seed, Near currentMs maxMs (backoffNext currentMs maxMs seed)) ↔ Fits currentMs maxMs := by
  rw [forall_seed_iff hm (Near currentMs maxMs)]
  have hnext : doubled currentMs maxMs = min (currentMs * 2 % 2 ^ 32) maxMs := rfl
  have haim : target currentMs maxMs = min (2 * currentMs) maxMs := rfl
  simp only [Near, Fits]
  generalize doubled currentMs maxMs = next at hnext ⊢
  generalize target currentMs maxMs = aim at haim ⊢
  constructor
  · intro h
    -- the shortest delay bounds the target
    have hlow : aim - aim / 10 ≤ max 100 (next - next / 10) := by
      obtain ⟨r, hr, -, heq⟩ := h 0 (Nat.zero_le _)
      rw [Nat.add_zero, Nat.mod_eq_of_lt (by omega)] at heq
      exact heq ▸ hr.trans (le_max_right 100 r)
    -- a jitter that wraps would leave 100 ms
    have hnowrap : next + next / 10 < 2 ^ 32 := by
      by_contra hwrap
      obtain ⟨r, hr, -, heq⟩ := h (2 ^ 32 - (next - next / 10)) (by omega)
      rw [Nat.add_sub_cancel' (by omega), Nat.mod_self] at heq
      omega
    omega
  · intro h delta hdelta
    have hle : next ≤ aim := by omega
    have hsame : aim ≤ 111 ∨ next = aim := by omega
    have hnowrap : next - next / 10 + delta < 2 ^ 32 := by omega
    rw [Nat.mod_eq_of_lt hnowrap]
    clear hnext haim h
    refine ⟨max (next - next / 10 + delta) (aim - aim / 10), le_max_right .., ?_, ?_⟩
    · exact max_le (by omega) (by omega)
    · rcases hsame with hshort | rfl
      · rw [max_left_comm, max_eq_left (by omega : aim - aim / 10 ≤ 100), max_comm]
      · rw [max_eq_left (Nat.le_add_right ..)]

example : backoffNext 800 1000 0 = 900 := by decide

/-! ### The delays of the writer -/

/-- The attempt has failed: the thread is back at the top of its loop, without a connection. -/
def Failure (s s' : State) : Prop := s.pc ≠ .getBatch ∧ s'.pc = .getBatch ∧ s'.conn = none

/-- The thread is sending a batch of its loop, so it has a connection. -/
def Pc.sendsBatch : Pc → Bool
  | .lines false _ | .sending false .. => true
  | _ => false

/-- What holds of the writer between two steps. -/
def Attached (s : State) : Prop := s.pc.sendsBatch = true → s.conn.isSome = true

/-- What a step may do to the delay: nothing, set it back, or go on to the next one. -/
def Paces (cfg : Config) (d d' : ℕ) : Prop :=
  d' = d ∨ d' = cfg.sane.backoffMinMs ∨ ∃ seed, d' = backoffNext d cfg.sane.backoffMaxMs seed

/-- A step from a state with delay `d`: back at the top of the loop without a connection, the
delay is the next one. -/
structure Moves (cfg : Config) (d : ℕ) (s' : State) : Prop where
  attached : Attached s'
  paces : Paces cfg d s'.backoffMs
  failed : s'.pc = .getBatch → s'.conn = none →
    ∃ seed, s'.backoffMs = backoffNext d cfg.sane.backoffMaxMs seed

variable {cfg : Config} {s s' : State} {seed d : ℕ} {final : Bool} {ls : List (List UInt8)}

theorem Attached.idle (hpc : s.pc.sendsBatch = false) : Attached s :=
  fun h => absurd (hpc.symm.trans h) Bool.false_ne_true

/-- A step that stays away from the top of the loop. -/
theorem Moves.of_pc (ha : Attached s') (hp : Paces cfg d s'.backoffMs) (hpc : s'.pc ≠ .getBatch) :
    Moves cfg d s' :=
  ⟨ha, hp, fun h => absurd h hpc⟩

/-- **After a line:** the next line, or the end of the connection with the next delay. -/
theorem Moves.afterSend {rc : ℤ} (hc : final = false → s.conn.isSome = true) :
    Moves cfg s.backoffMs (s.afterSend cfg seed final rc ls) := by
  unfold State.afterSend
  split_ifs with hfin hrc
  · exact .of_pc (.idle rfl) (.inl rfl) Pc.noConfusion
  · exact ⟨.idle rfl, .inr (.inr ⟨seed, rfl⟩), fun _ _ => ⟨seed, rfl⟩⟩
  · exact .of_pc (fun _ => hc (Bool.eq_false_iff.2 hfin)) (.inl rfl) Pc.noConfusion

theorem Moves.socketWriterSend {l buf : List UInt8} (hc : final = false → s.conn.isSome = true) :
    Moves cfg s.backoffMs (s.socketWriterSend cfg seed final l buf ls) := by
  unfold State.socketWriterSend
  split
  case h_1 => exact .afterSend hc
  case h_2 c _ => exact .of_pc (fun _ => rfl) (.inl rfl) Pc.noConfusion

theorem Moves.socketSendNonblocking {buf : List UInt8} {total : ℕ}
    (hc : final = false → s.conn.isSome = true) (r : Sent) :
    Moves cfg s.backoffMs (s.socketSendNonblocking cfg seed final buf total ls r) := by
  cases r with
  | again => exact .afterSend hc
  | hard => exact .afterSend hc
  | accept k =>
    have hacc (bs : List UInt8) : final = false → (s.accept bs).conn.isSome = true := fun h => by
      rw [State.accept, Option.isSome_map]
      exact hc h
    simp only [State.socketSendNonblocking]
    split_ifs
    · exact .afterSend hc
    · refine .of_pc (fun h => hacc _ ?_) (.inl rfl) Pc.noConfusion
      cases final with
      | false => rfl
      | true => cases h
    · exact .afterSend (s := s.accept _) (hacc _)

/-- **What a step does to the delay.**  At the top of the loop it is kept; from any other place
only a failure leads back there without a connection, and it takes the next delay. -/
theorem step_moves {a : Act} (h : Attached s) (hs : step cfg s a = some s') :
    (s.pc = .getBatch ∧ Attached s' ∧ s'.backoffMs = s.backoffMs) ∨ Moves cfg s.backoffMs s' := by
  unfold step at hs
  split at hs
  case h_1 ls hpc =>
    refine .inl ⟨hpc, ?_⟩
    split_ifs at hs with hnil hlen hconn <;> cases hs
    · exact ⟨h, rfl⟩
    · exact ⟨fun _ => hconn, rfl⟩
    · exact ⟨.idle rfl, rfl⟩
  case h_2 hpc =>
    cases hs
    refine .inl ⟨hpc, .idle ?_, rfl⟩
    dsimp only
    split_ifs <;> rfl
  case h_3 ls ok seed hpc =>
    split_ifs at hs <;> cases hs
    · exact .inr (.of_pc (fun _ => rfl) (.inr (.inl rfl)) Pc.noConfusion)
    · exact .inr ⟨.idle rfl, .inr (.inr ⟨seed, rfl⟩), fun _ _ => ⟨seed, rfl⟩⟩
  case h_4 ok seed hpc =>
    split_ifs at hs <;> cases hs
    · exact .inr (.of_pc (.idle rfl) (.inr (.inl rfl)) Pc.noConfusion)
    · exact .inr (.of_pc (.idle rfl) (.inl rfl) Pc.noConfusion)
  case h_5 ls hpc =>
    split_ifs at hs <;> cases hs
    · exact .inr (.of_pc (.idle rfl) (.inl rfl) Pc.noConfusion)
    · exact .inr (.of_pc (.idle rfl) (.inl rfl) Pc.noConfusion)
  case h_6 hpc =>
    cases hs
    exact .inr (.of_pc (.idle rfl) (.inl rfl) Pc.noConfusion)
  case h_7 final _ _ hpc =>
    split_ifs at hs with hfin <;> cases hs
    · exact .inr (.of_pc (.idle rfl) (.inl rfl) Pc.noConfusion)
    · -- the end of a batch: the connection is still there
      have hconn : s.conn.isSome = true := h (by rw [hpc, Bool.eq_false_iff.2 hfin]; rfl)
      refine .inr ⟨.idle rfl, .inr (.inl rfl), fun _ hnone => ?_⟩
      rw [show s.conn = none from hnone] at hconn
      cases hconn
  case h_8 final l ls mallocOk seed hpc =>
    have hc (hfin : final = false) : s.conn.isSome = true := h (by rw [hpc, hfin]; rfl)
    refine .inr ?_
    split_ifs at hs with hnil hend hroom <;> cases hs
    · refine .of_pc (fun hl => hc ?_) (.inl rfl) Pc.noConfusion
      cases final with
      | false => rfl
      | true => cases hl
    · exact .socketWriterSend hc
    · exact .socketWriterSend hc
    · exact .afterSend hc
  case h_9 final buf total ls r seed hpc =>
    have hc (hfin : final = false) : s.conn.isSome = true := h (by rw [hpc, hfin]; rfl)
    cases hs
    exact .inr (.socketSendNonblocking hc r)
  case h_10 => cases hs

/-- **In every run the writer is attached, and its delay has every property that the configured
minimum has and `backoff_next` keeps.** -/
theorem delay_of_reachable {P : ℕ → Prop} (hmin : P cfg.sane.backoffMinMs)
    (hnext : ∀ d seed, P d → P (backoffNext d cfg.sane.backoffMaxMs seed))
    (h : Reachable (step cfg) (socketWriterStart cfg) s) : Attached s ∧ P s.backoffMs := by
  refine h.invariant (I := fun s => Attached s ∧ P s.backoffMs) ⟨.idle rfl, hmin⟩ ?_
  rintro s a s' ⟨ha, hP⟩ - hs
  rcases step_moves ha hs with ⟨-, ha', hkept⟩ | hmoves
  · exact ⟨ha', hkept ▸ hP⟩
  · refine ⟨hmoves.attached, ?_⟩
    rcases hmoves.paces with hkept | hreset | ⟨seed, hgrown⟩
    · exact hkept ▸ hP
    · exact hreset ▸ hmin
    · exact hgrown ▸ hnext _ seed hP

/-- A failure takes the next delay. -/
theorem backoffMs_of_failure {a : Act} (h : Attached s) (hs : step cfg s a = some s')
    (hf : Failure s s') :
    ∃ seed, s'.backoffMs = backoffNext s.backoffMs cfg.sane.backoffMaxMs seed := by
  obtain ⟨hpc, htop, hnone⟩ := hf
  rcases step_moves h hs with ⟨hget, -⟩ | hmoves
  · exact absurd hget hpc
  · exact hmoves.failed htop hnone

theorem backoffNext_lt {currentMs maxMs : ℕ} (hm : maxMs < 2 ^ 32) (seed : ℕ) :
    backoffNext currentMs maxMs seed < 2 ^ 32 := by
  rw [backoffNext_eq hm]
  exact max_lt (by norm_num) (Nat.mod_lt _ (by norm_num))

theorem Config.sane_lt (h : cfg.backoffMinMs < 2 ^ 32 ∧ cfg.backoffMaxMs < 2 ^ 32) :
    cfg.sane.backoffMinMs < 2 ^ 32 ∧ cfg.sane.backoffMaxMs < 2 ^ 32 := by
  simp only [Config.sane]
  constructor <;> split_ifs <;> omega

/-- A delay near its target is within the bounds of the run. -/
theorem Near.bounds {currentMs maxMs d : ℕ} (h : Near currentMs maxMs d) :
    9 * min (2 * currentMs) maxMs ≤ 10 * d ∧ d ≤ max 100 (maxMs + maxMs / 10) := by
  obtain ⟨r, hlow, hhigh, rfl⟩ := h
  have haim : target currentMs maxMs ≤ maxMs := min_le_right ..
  change 9 * target currentMs maxMs ≤ _ ∧ _
  generalize target currentMs maxMs = aim at hlow hhigh haim ⊢
  refine ⟨?_, max_le_max le_rfl (by omega)⟩
  have hr : r ≤ max 100 r := le_max_right ..
  omega

/-- **The delay stays near its target exactly where the 32-bit arithmetic fits,** and in every run
of the writer each failure from a delay that fits keeps the bounds: the delay is at least nine
tenths of twice the last one or of the maximum, and at most a tenth above the maximum. -/
theorem backoff_iff {currentMs maxMs : ℕ} (hc : currentMs < 2 ^ 32) (hm : maxMs < 2 ^ 32) :
    ((∀ seed, Near currentMs maxMs (backoffNext currentMs maxMs seed)) ↔ Fits currentMs maxMs) ∧
    ∀ cfg : Config, cfg.backoffMinMs < 2 ^ 32 ∧ cfg.backoffMaxMs < 2 ^ 32 → ∀ s,
      Reachable (step cfg) (socketWriterStart cfg) s → Fits s.backoffMs cfg.sane.backoffMaxMs →
      ∀ a s', step cfg s a = some s' → Failure s s' →
        9 * min (2 * s.backoffMs) cfg.sane.backoffMaxMs ≤ 10 * s'.backoffMs ∧
        s'.backoffMs ≤ max 100 (cfg.sane.backoffMaxMs + cfg.sane.backoffMaxMs / 10) := by
  refine ⟨backoffNext_near_iff hc hm, ?_⟩
  intro cfg hcfg s hr hfits a s' hs hf
  obtain ⟨hmin, hmax⟩ := Config.sane_lt hcfg
  obtain ⟨hattached, hdelay⟩ := delay_of_reachable (P := (· < 2 ^ 32)) hmin
    (fun _ seed _ => backoffNext_lt hmax seed) hr
  obtain ⟨seed, hseed⟩ := backoffMs_of_failure hattached hs hf
  rw [hseed]
  exact ((backoffNext_near_iff hdelay hmax).2 hfits seed).bounds

/-- The default delays, and a connect that fails on the first batch. -/
theorem backoff_default : (∀ seed, Near 1000 60000 (backoffNext 1000 60000 seed)) ∧
    ∃ s s', Reachable (step ⟨0, 0⟩) (socketWriterStart ⟨0, 0⟩) s ∧
      step ⟨0, 0⟩ s (.connect false 0) = some s' ∧ Failure s s' ∧ s'.backoffMs = 1800 ∧
      9 * min (2 * s.backoffMs) 60000 ≤ 10 * s'.backoffMs ∧
      s'.backoffMs ≤ max 100 (60000 + 60000 / 10) := by
  have h := @backoff_iff 1000 60000 (by decide) (by decide)
  have hr : Reachable (step ⟨0, 0⟩) (socketWriterStart ⟨0, 0⟩) ⟨.connecting [[97]], none, [], 1000⟩ :=
    Machine.reach_of_run [.batch [[97]]] rfl
  have hf : Failure ⟨.connecting [[97]], none, [], 1000⟩ ⟨.getBatch, none, [], 1800⟩ :=
    ⟨Pc.noConfusion, rfl, rfl⟩
  have hs : step ⟨0, 0⟩ ⟨.connecting [[97]], none, [], 1000⟩ (.connect false 0) =
      some ⟨.getBatch, none, [], 1800⟩ := rfl
  exact ⟨h.1.2 (by decide), _, _, hr, hs, hf, rfl,
    h.2 ⟨0, 0⟩ (by decide) _ hr (by decide) _ _ hs hf⟩

/-- **Two delays that collapse:** twice `2 ^ 31` ms is zero in 32 bits, and a jitter of two on
`2 ^ 32 - 2` ms wraps.  Both become 100 ms, where the target is over a month. -/
theorem backoff_collapses :
    (backoffNext (2 ^ 31) (2 ^ 32 - 1) 0 = 100 ∧ ¬ Near (2 ^ 31) (2 ^ 32 - 1) 100) ∧
    (backoffNext (2 ^ 31 - 1) (2 ^ 32 - 1) 429496731 = 100 ∧
      ¬ Near (2 ^ 31 - 1) (2 ^ 32 - 1) 100) := by
  refine ⟨⟨by decide, ?_⟩, by decide, ?_⟩
  · rintro ⟨r, hlow, -, heq⟩
    rw [show target (2 ^ 31) (2 ^ 32 - 1) = 2 ^ 32 - 1 from rfl] at hlow
    omega
  · rintro ⟨r, hlow, -, heq⟩
    rw [show target (2 ^ 31 - 1) (2 ^ 32 - 1) = 2 ^ 32 - 2 from rfl] at hlow
    omega

/-- **Delays that are configured below `2 ^ 30` ms always fit,** so every run keeps the bounds. -/
theorem fits_of_reachable (hmin : cfg.backoffMinMs < 2 ^ 30) (hmax : cfg.backoffMaxMs < 2 ^ 30)
    (h : Reachable (step cfg) (socketWriterStart cfg) s) :
    Fits s.backoffMs cfg.sane.backoffMaxMs := by
  have hsane : cfg.sane.backoffMinMs < 2 ^ 30 ∧ cfg.sane.backoffMaxMs < 2 ^ 30 := by
    simp only [Config.sane]
    constructor <;> split_ifs <;> omega
  have hfits (d : ℕ) (hd : d < 2 ^ 31) : Fits d cfg.sane.backoffMaxMs := by
    have haim : target d cfg.sane.backoffMaxMs ≤ cfg.sane.backoffMaxMs := min_le_right ..
    exact .inr ⟨.inl (by omega), by omega⟩
  refine hfits _ (delay_of_reachable (P := (· < 2 ^ 31)) (by omega) (fun d seed hd => ?_) h).2
  have hbounds := ((backoffNext_near_iff (by omega) (by omega)).2 (hfits d hd) seed).bounds.2
  exact hbounds.trans_lt (max_lt (by norm_num) (by omega))

end Writer
end Clogx
