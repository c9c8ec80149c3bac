/-
# The rate limiter

`log_rate_limit_init_for` and `log_rate_limit_allow_for` of `core/rate_limit.c`,
with `rl_tokens`, `rl_max_tokens` and `rl_fill_rate` as exact rationals.  Both
functions run under `rl_mutex`, so the calls on a logger are a sequence, and each
call reads the clock once.

An enabled limiter is a token bucket (`bucket_allowFor`), with `burst` tokens and
`max_per_sec / 1000` of them in a millisecond.
-/

import Clogx.TokenBucket.Law

namespace Clogx
namespace RateLimit

open TokenBucket (Bucket Level take serve granted)

/-- The fields `rl_…` of a logger. -/
structure Limiter where
  rlEnabled : Bool
  rlTokens : ℚ
  rlMaxTokens : ℚ
  rlFillRate : ℚ
  rlLastUpdateMs : ℕ
  rlSuppressedCount : ℕ
  rlTotalSuppressed : ℕ

/-- `log_rate_limit_init_for`, at the clock reading `nowMs`. -/
def initFor (r : Limiter) (enable : Bool) (maxPerSec burst : ℤ) (nowMs : ℕ) : Limiter :=
  if enable ∧ 0 < maxPerSec ∧ 0 < burst then
    { r with
      rlEnabled := enable
      rlMaxTokens := burst
      rlTokens := burst
      rlFillRate := maxPerSec / 1000
      rlLastUpdateMs := nowMs
      rlSuppressedCount := 0 }
  else { r with rlEnabled := false }

/-- The lazy refill of `log_rate_limit_allow_for`. -/
def Limiter.refill (r : Limiter) (nowMs : ℕ) : Limiter :=
  if r.rlLastUpdateMs < nowMs then
    let tokens := r.rlTokens + (nowMs - r.rlLastUpdateMs : ℕ) * r.rlFillRate
    { r with
      rlTokens := if r.rlMaxTokens < tokens then r.rlMaxTokens else tokens
      rlLastUpdateMs := nowMs }
  else r

/-- `log_rate_limit_reset_for`. -/
def resetFor : Limiter := ⟨false, 0, 0, 0, 0, 0, 0⟩

/-- `log_rate_limit_allow_for`, at the clock reading `nowMs`: what it returns,
`*out_suppressed_count`, and the limiter afterwards. -/
def allowFor (r : Limiter) (nowMs : ℕ) : Bool × ℕ × Limiter :=
  if r.rlEnabled = false then (true, 0, r)
  else
    let r := r.refill nowMs
    if 1 ≤ r.rlTokens then
      (true, r.rlSuppressedCount, { r with rlTokens := r.rlTokens - 1, rlSuppressedCount := 0 })
    else
      (false, 0,
        { r with
          rlSuppressedCount := (r.rlSuppressedCount + 1) % 2 ^ 64
          rlTotalSuppressed := (r.rlTotalSuppressed + 1) % 2 ^ 64 })

/-- The readings of a sequence of calls, with what the calls return. -/
def answers : Limiter → List ℕ → List (ℕ × Bool)
  | _, [] => []
  | r, t :: ts => (t, (allowFor r t).1) :: answers (allowFor r t).2.2 ts

/-- The limiter after a sequence of calls. -/
def after : Limiter → List ℕ → Limiter
  | r, [] => r
  | r, t :: ts => after (allowFor r t).2.2 ts

/-- The limiter as a bucket. -/
def Limiter.bucket (r : Limiter) : Bucket ℚ := ⟨r.rlTokens, r.rlLastUpdateMs⟩

/-- The parameters that no call of `log_rate_limit_allow_for` changes. -/
structure Limiter.Has (r : Limiter) (cap rate : ℚ) : Prop where
  enabled : r.rlEnabled = true
  cap : r.rlMaxTokens = cap
  rate : r.rlFillRate = rate

theorem bucket_refill (r : Limiter) (nowMs : ℕ) :
    (r.refill nowMs).bucket = TokenBucket.refill r.rlMaxTokens r.rlFillRate r.bucket nowMs := by
  rw [Limiter.refill, TokenBucket.refill, show r.bucket.last = r.rlLastUpdateMs from rfl,
    show r.bucket.tokens = r.rlTokens from rfl]
  by_cases hlast : r.rlLastUpdateMs < nowMs
  · rw [if_pos hlast, if_pos hlast, min_def]
    rcases lt_trichotomy r.rlMaxTokens
      (r.rlTokens + (nowMs - r.rlLastUpdateMs : ℕ) * r.rlFillRate) with hlt | heq | hgt
    · simp only [Limiter.bucket, if_pos hlt, if_pos hlt.le]
    · simp only [Limiter.bucket, ← heq, lt_irrefl, le_refl, if_true, if_false]
    · simp only [Limiter.bucket, if_neg hgt.le.not_gt, if_neg hgt.not_ge]
  · rw [if_neg hlast, if_neg hlast]

/-- **A call takes a token from the bucket.** -/
theorem bucket_allowFor {r : Limiter} {cap rate : ℚ} (h : r.Has cap rate) (nowMs : ℕ) :
    (allowFor r nowMs).1 = (take cap rate r.bucket nowMs).1 ∧
      (allowFor r nowMs).2.2.bucket = (take cap rate r.bucket nowMs).2 ∧
      (allowFor r nowMs).2.2.Has cap rate := by
  obtain ⟨hen, rfl, rfl⟩ := h
  have hkeep : (r.refill nowMs).rlEnabled = true ∧
      (r.refill nowMs).rlMaxTokens = r.rlMaxTokens ∧
      (r.refill nowMs).rlFillRate = r.rlFillRate := by
    rw [Limiter.refill]
    split_ifs <;> exact ⟨hen, rfl, rfl⟩
  have htokens : (TokenBucket.refill r.rlMaxTokens r.rlFillRate r.bucket nowMs).tokens =
      (r.refill nowMs).rlTokens := by rw [← bucket_refill]; rfl
  have hbucket := bucket_refill r nowMs
  rw [allowFor, if_neg (by simp [hen]), take]
  simp only [htokens]
  rw [← hbucket]
  by_cases htok : 1 ≤ (r.refill nowMs).rlTokens
  · rw [if_pos htok, if_pos htok]
    exact ⟨rfl, rfl, hkeep.1, hkeep.2.1, hkeep.2.2⟩
  · rw [if_neg htok, if_neg htok]
    exact ⟨rfl, rfl, hkeep.1, hkeep.2.1, hkeep.2.2⟩

theorem answers_eq {r : Limiter} {cap rate : ℚ} (h : r.Has cap rate) (ts : List ℕ) :
    answers r ts = serve cap rate r.bucket ts := by
  induction ts generalizing r with
  | nil => rfl
  | cons t ts ih =>
    obtain ⟨hret, hbucket, hhas⟩ := bucket_allowFor h t
    rw [answers, serve, hret, ih hhas, hbucket]

theorem bucket_after {r : Limiter} {cap rate : ℚ} (h : r.Has cap rate) (ts : List ℕ) :
    (after r ts).Has cap rate ∧
      (after r ts).bucket = TokenBucket.after cap rate r.bucket ts := by
  induction ts generalizing r with
  | nil => exact ⟨h, rfl⟩
  | cons t ts ih =>
    obtain ⟨-, hbucket, hhas⟩ := bucket_allowFor h t
    obtain ⟨hhas', heq⟩ := ih hhas
    exact ⟨hhas', heq.trans (by rw [hbucket]; rfl)⟩

section Init

variable {maxPerSec burst : ℤ} (hmax : 0 < maxPerSec) (hburst : 0 < burst)

include hmax hburst in
/-- The limiter after `log_rate_limit_init_for` is a full bucket. -/
theorem has_initFor (r : Limiter) (start : ℕ) :
    (initFor r true maxPerSec burst start).Has burst (maxPerSec / 1000) ∧
      (initFor r true maxPerSec burst start).bucket = ⟨burst, start⟩ := by
  rw [initFor, if_pos ⟨rfl, hmax, hburst⟩]
  exact ⟨⟨rfl, rfl, rfl⟩, rfl⟩

include hmax hburst in
/-- **The bounds of the limiter,** for calls at the readings `ts` after one
`log_rate_limit_init_for` at the reading `start`.  In every window of `T` milliseconds at most
`burst + T · max_per_sec / 1000` calls return true.  A call that is `1000 / max_per_sec`
milliseconds after the one before it returns true.  The tokens stay between `0` and `burst`. -/
theorem limiter_bounds (r : Limiter) (start : ℕ) (ts : List ℕ)
    (hclock : (start :: ts).Pairwise (· ≤ ·)) :
    (∀ a T : ℕ, (((answers (initFor r true maxPerSec burst start) ts).countP fun p =>
        p.2 && decide (a ≤ p.1 ∧ p.1 ≤ a + T) : ℕ) : ℚ) ≤ burst + T * maxPerSec / 1000) ∧
      (∀ us (t t' : ℕ) vs, ts = us ++ t :: t' :: vs → (1000 / maxPerSec : ℚ) ≤ t' - t →
        (allowFor (after (initFor r true maxPerSec burst start) (us ++ [t])) t').1 = true) ∧
      ∀ us vs, ts = us ++ vs →
        0 ≤ (after (initFor r true maxPerSec burst start) us).rlTokens ∧
          (after (initFor r true maxPerSec burst start) us).rlTokens ≤ burst := by
  have hmaxQ : (0 : ℚ) < maxPerSec := by exact_mod_cast hmax
  have hrate : (0 : ℚ) ≤ maxPerSec / 1000 := by positivity
  have hburstQ : (1 : ℚ) ≤ burst := by exact_mod_cast hburst
  obtain ⟨hhas, hbucket⟩ := has_initFor hmax hburst r start
  have hlevel : Level (burst : ℚ) (initFor r true maxPerSec burst start).bucket := by
    rw [hbucket]
    exact ⟨zero_le_one.trans hburstQ, le_rfl⟩
  have hsorted : ((initFor r true maxPerSec burst start).bucket.last :: ts).Pairwise (· ≤ ·) := by
    rw [hbucket]
    exact hclock
  have htokens (us : List ℕ) :
      Level (burst : ℚ) (after (initFor r true maxPerSec burst start) us).bucket := by
    rw [(bucket_after hhas us).2]
    exact hlevel.after hrate us
  refine ⟨fun a T => ?_, fun us t t' vs hts hgap => ?_, fun us vs _ => htokens us⟩
  · have hwindow := TokenBucket.granted_within_le hrate a T hsorted hlevel
    rw [← answers_eq hhas, mul_div_assoc'] at hwindow
    exact hwindow
  · -- the call before this one has left its reading in `rl_last_update_ms`
    obtain ⟨hhas', heq⟩ := bucket_after hhas (us ++ [t])
    have hlast : (after (initFor r true maxPerSec burst start) (us ++ [t])).bucket.last = t := by
      rw [heq]
      refine TokenBucket.last_after (hsorted.sublist ?_)
      rw [hts]
      simp
    have hpos : (0 : ℚ) < t' - t := (div_pos (by norm_num) hmaxQ).trans_le hgap
    have hlt : t < t' := by exact_mod_cast sub_pos.1 hpos
    rw [(bucket_allowFor hhas' t').1]
    refine TokenBucket.take_of_gap hburstQ (htokens _).1 (by rwa [hlast]) ?_
    rw [hlast, Nat.cast_sub hlt.le, mul_div_assoc', le_div_iff₀ (by norm_num), one_mul]
    rwa [div_le_iff₀ hmaxQ] at hgap

end Init

/-- Ten a second with a burst of two: three calls in a tenth of a second are the most, and the
call at its end is one of them. -/
theorem limiter_bounds_tenPerSecond :
    (((answers (initFor resetFor true 10 2 5) [5, 5, 5, 105]).countP fun p =>
        p.2 && decide (5 ≤ p.1 ∧ p.1 ≤ 5 + 100) : ℕ) : ℚ) ≤ (2 : ℤ) + (100 : ℕ) * (10 : ℤ) / 1000 ∧
      (allowFor (after (initFor resetFor true 10 2 5) [5, 5, 5]) 105).1 = true := by
  obtain ⟨hwindow, hgap, -⟩ := limiter_bounds (by norm_num : (0 : ℤ) < 10)
    (by norm_num : (0 : ℤ) < 2) resetFor 5 [5, 5, 5, 105] (by decide)
  exact ⟨hwindow 5 100, hgap [5, 5] 5 105 [] rfl (by norm_num)⟩

end RateLimit
end Clogx
