/-
# Token buckets

A bucket holds at most `cap` tokens and gains `rate` of them in every unit of
time; a request takes one token if there is one.  The tokens are counted lazily:
a request first adds what was gained since the last one.

The law of the bucket is about every stretch of time.  What is granted from now
on until `e` is at most what is in the bucket and what will be gained by then
(`granted_until_le`), so in a window of length `T` it is at most `cap + T · rate`
(`granted_within_le`).  Requests that are one token apart are all granted
(`take_of_gap`).
-/

import Mathlib.Tactic

namespace Clogx
namespace TokenBucket

variable {K : Type*} [Field K] [LinearOrder K]

/-- The tokens, and when they were counted. -/
structure Bucket (K : Type*) where
  tokens : K
  last : ℕ

variable (cap rate : K)

/-- The tokens gained up to `now` are added. -/
def refill (b : Bucket K) (now : ℕ) : Bucket K :=
  if b.last < now then ⟨min cap (b.tokens + (now - b.last : ℕ) * rate), now⟩ else b

/-- A request at `now`: whether it is granted. -/
def take (b : Bucket K) (now : ℕ) : Bool × Bucket K :=
  let b := refill cap rate b now
  if 1 ≤ b.tokens then (true, { b with tokens := b.tokens - 1 }) else (false, b)

/-- The answers to requests at the times `ts`. -/
def serve : Bucket K → List ℕ → List (ℕ × Bool)
  | _, [] => []
  | b, t :: ts => (t, (take cap rate b t).1) :: serve (take cap rate b t).2 ts

/-- The bucket after requests at the times `ts`. -/
def after : Bucket K → List ℕ → Bucket K
  | b, [] => b
  | b, t :: ts => after (take cap rate b t).2 ts

/-- The requests of the list that were granted at a time in `w`. -/
def granted (w : ℕ → Bool) (answers : List (ℕ × Bool)) : ℕ :=
  answers.countP fun p => p.2 && w p.1

variable {cap rate}

/-- The bucket is neither overdrawn nor too full. -/
def Level (cap : K) (b : Bucket K) : Prop := 0 ≤ b.tokens ∧ b.tokens ≤ cap

section Refill

variable {b : Bucket K} {now : ℕ}

theorem last_refill (h : b.last ≤ now) : (refill cap rate b now).last = now := by
  rw [refill]
  split_ifs
  · rfl
  · omega

theorem refill_refill (h : b.last ≤ now) :
    refill cap rate (refill cap rate b now) now = refill cap rate b now := by
  rw [refill, last_refill h, if_neg (lt_irrefl _)]

/-- A request sees the bucket as it is after the gain. -/
theorem take_refill (h : b.last ≤ now) :
    take cap rate (refill cap rate b now) now = take cap rate b now := by
  rw [take, take, refill_refill h]

/-- What a request leaves. -/
theorem take_cases (cap rate : K) (b : Bucket K) (now : ℕ) :
    (take cap rate b now).1 = true ∧ 1 ≤ (refill cap rate b now).tokens ∧
        (take cap rate b now).2 =
          { refill cap rate b now with tokens := (refill cap rate b now).tokens - 1 } ∨
      (take cap rate b now).1 = false ∧ (take cap rate b now).2 = refill cap rate b now := by
  rw [take]
  split_ifs with h
  · exact .inl ⟨rfl, h, rfl⟩
  · exact .inr ⟨rfl, rfl⟩

theorem last_take (cap rate : K) (h : b.last ≤ now) :
    (take cap rate b now).2.last = now := by
  rcases take_cases cap rate b now with ⟨-, -, heq⟩ | ⟨-, heq⟩
  · rw [heq]
    exact last_refill h
  · rw [heq, last_refill h]

variable [IsStrictOrderedRing K]

/-- At most what was gained is added. -/
theorem tokens_refill_le (cap rate : K) (h : b.last ≤ now) :
    (refill cap rate b now).tokens ≤ b.tokens + (now - b.last : ℕ) * rate := by
  rw [refill]
  split_ifs with hlt
  · exact min_le_right _ _
  · rw [show now - b.last = 0 by omega]
    simp

theorem Level.refill (hrate : 0 ≤ rate) (h : Level cap b) (now : ℕ) :
    Level cap (TokenBucket.refill cap rate b now) := by
  rw [TokenBucket.refill]
  split_ifs
  · refine ⟨le_min (h.1.trans h.2) ?_, min_le_left _ _⟩
    have := mul_nonneg (Nat.cast_nonneg (α := K) (now - b.last)) hrate
    linarith [h.1]
  · exact h

theorem Level.take (hrate : 0 ≤ rate) (h : Level cap b) :
    Level cap (TokenBucket.take cap rate b now).2 := by
  have hfull := h.refill hrate now
  rcases take_cases cap rate b now with ⟨-, hone, heq⟩ | ⟨-, heq⟩
  · rw [heq]
    exact ⟨by simpa using hone, by simpa using hfull.2.trans (le_add_of_nonneg_right zero_le_one)⟩
  · rw [heq]
    exact hfull

/-- **A request one token after the last one is granted.** -/
theorem take_of_gap (hcap : 1 ≤ cap) (h : 0 ≤ b.tokens) (hlast : b.last < now)
    (hgap : 1 ≤ (now - b.last : ℕ) * rate) : (TokenBucket.take cap rate b now).1 = true := by
  have htokens : 1 ≤ (refill cap rate b now).tokens := by
    rw [refill, if_pos hlast]
    exact le_min hcap (by linarith)
  rw [take, if_pos htokens]

end Refill

/-! ### Windows -/

/-- After a request, its time is the last one. -/
theorem last_after {b : Bucket K} {ts : List ℕ} {t : ℕ}
    (hsorted : (b.last :: (ts ++ [t])).Pairwise (· ≤ ·)) :
    (after cap rate b (ts ++ [t])).last = t := by
  induction ts generalizing b with
  | nil => exact last_take cap rate (by simpa using hsorted)
  | cons u ts ih =>
    obtain ⟨hu, hts⟩ := List.pairwise_cons.1 hsorted
    refine ih ?_
    rw [last_take cap rate (hu u (List.mem_cons_self ..))]
    exact hts

theorem granted_eq_zero {w : ℕ → Bool} {b : Bucket K} {ts : List ℕ} (h : ∀ t ∈ ts, w t = false) :
    granted w (serve cap rate b ts) = 0 := by
  induction ts generalizing b with
  | nil => rfl
  | cons t ts ih =>
    rw [serve, granted, List.countP_cons_of_neg (by simp [h t (List.mem_cons_self ..)])]
    exact ih fun x hx => h x (List.mem_cons_of_mem _ hx)

theorem granted_cons (w : ℕ → Bool) (b : Bucket K) (t : ℕ) (ts : List ℕ) :
    granted w (serve cap rate b (t :: ts)) =
      granted w (serve cap rate (take cap rate b t).2 ts) +
        if (take cap rate b t).1 = true ∧ w t = true then 1 else 0 := by
  rw [serve, granted, List.countP_cons, granted]
  simp

variable [IsStrictOrderedRing K]

theorem Level.after (hrate : 0 ≤ rate) {b : Bucket K} (h : Level cap b) (ts : List ℕ) :
    Level cap (TokenBucket.after cap rate b ts) := by
  induction ts generalizing b with
  | nil => exact h
  | cons t ts ih => exact ih (h.take hrate)

/-- **What is granted until `e`** is at most what is in the bucket and what is gained by then. -/
theorem granted_until_le (hrate : 0 ≤ rate) {b : Bucket K} {ts : List ℕ} {e : ℕ}
    (hsorted : (b.last :: ts).Pairwise (· ≤ ·)) (h0 : 0 ≤ b.tokens) (hcap : 0 ≤ cap)
    (he : b.last ≤ e) :
    (granted (fun t => decide (t ≤ e)) (serve cap rate b ts) : K) ≤
      b.tokens + (e - b.last : ℕ) * rate := by
  induction ts generalizing b with
  | nil => simpa [serve, granted] using add_nonneg h0 (mul_nonneg (Nat.cast_nonneg _) hrate)
  | cons t ts ih =>
    obtain ⟨ht, hts⟩ := List.pairwise_cons.1 hsorted
    have hle : b.last ≤ t := ht t (List.mem_cons_self ..)
    rcases Nat.lt_or_ge e t with hlt | hge
    · -- the request, and all that follow, come too late
      rw [granted_eq_zero fun x hx => ?_]
      · simpa using add_nonneg h0 (mul_nonneg (Nat.cast_nonneg _) hrate)
      · rcases List.mem_cons.1 hx with rfl | hx
        · simpa using hlt
        · have := (List.pairwise_cons.1 hts).1 x hx
          simp
          omega
    · have hlast := last_take cap rate hle
      have hgain := tokens_refill_le cap rate hle
      have hsplit : ((e - b.last : ℕ) : K) = (e - t : ℕ) + (t - b.last : ℕ) := by
        rw [← Nat.cast_add]
        congr 1
        omega
      rw [granted_cons, hsplit, add_mul]
      rcases take_cases cap rate b t with ⟨hok, hone, heq⟩ | ⟨hno, heq⟩
      · have hrest := ih (b := (take cap rate b t).2) (by rwa [hlast])
          (by rw [heq]; simpa using hone) (hlast.le.trans hge)
        rw [hlast, heq] at hrest
        rw [if_pos ⟨hok, by simpa using hge⟩]
        push_cast
        rw [heq]
        linarith
      · have hnonneg : 0 ≤ (refill cap rate b t).tokens := by
          rw [refill]
          split_ifs
          · exact le_min hcap (add_nonneg h0 (mul_nonneg (Nat.cast_nonneg _) hrate))
          · exact h0
        have hrest := ih (b := (take cap rate b t).2) (by rwa [hlast]) (heq ▸ hnonneg)
          (hlast.le.trans hge)
        rw [hlast, heq] at hrest
        rw [if_neg (by simp [hno]), heq]
        push_cast
        linarith

/-- **What is granted in a window** of length `T` is at most a full bucket and what is gained. -/
theorem granted_within_le (hrate : 0 ≤ rate) {b : Bucket K} {ts : List ℕ} (a T : ℕ)
    (hsorted : (b.last :: ts).Pairwise (· ≤ ·)) (h : Level cap b) :
    (granted (fun t => decide (a ≤ t ∧ t ≤ a + T)) (serve cap rate b ts) : K) ≤ cap + T * rate := by
  have hcap : 0 ≤ cap := h.1.trans h.2
  have hbound : 0 ≤ cap + (T : K) * rate := add_nonneg hcap (mul_nonneg (Nat.cast_nonneg _) hrate)
  induction ts generalizing b with
  | nil => simpa [serve, granted] using hbound
  | cons t ts ih =>
    obtain ⟨ht, hts⟩ := List.pairwise_cons.1 hsorted
    have hle : b.last ≤ t := ht t (List.mem_cons_self ..)
    have hlast := last_take cap rate hle
    rcases Nat.lt_or_ge t a with hlt | hge
    · rw [granted_cons, if_neg (by simp; omega), Nat.add_zero]
      exact ih (by rwa [hlast]) (h.take hrate)
    · rcases Nat.lt_or_ge (a + T) t with hlate | hin
      · rw [granted_eq_zero fun x hx => ?_]
        · simpa using hbound
        · rcases List.mem_cons.1 hx with rfl | hx
          · simp
            omega
          · have := (List.pairwise_cons.1 hts).1 x hx
            simp
            omega
      · -- the first request in the window finds a bucket that is not over-full
        have hfull := h.refill hrate t
        have hserve : serve cap rate b (t :: ts) =
            serve cap rate (refill cap rate b t) (t :: ts) := by
          rw [serve, serve, take_refill hle]
        have hsorted' : ((refill cap rate b t).last :: t :: ts).Pairwise (· ≤ ·) := by
          rw [last_refill hle]
          refine List.pairwise_cons.2 ⟨fun x hx => ?_, hts⟩
          rcases List.mem_cons.1 hx with rfl | hx
          · exact le_rfl
          · exact (List.pairwise_cons.1 hts).1 x hx
        have hlast' : (refill cap rate b t).last = t := last_refill hle
        have huntil := granted_until_le hrate hsorted' hfull.1 hcap (hlast'.le.trans hin)
        rw [hlast'] at huntil
        have hmono : granted (fun t => decide (a ≤ t ∧ t ≤ a + T)) (serve cap rate b (t :: ts)) ≤
            granted (fun t => decide (t ≤ a + T)) (serve cap rate b (t :: ts)) :=
          List.countP_mono_left fun p _ hp => by
            simp only [Bool.and_eq_true, decide_eq_true_eq] at hp ⊢
            exact ⟨hp.1, hp.2.2⟩
        have hwidth : ((a + T - t : ℕ) : K) * rate ≤ T * rate :=
          mul_le_mul_of_nonneg_right (by exact_mod_cast (by omega : a + T - t ≤ T)) hrate
        calc (granted (fun t => decide (a ≤ t ∧ t ≤ a + T)) (serve cap rate b (t :: ts)) : K)
            ≤ granted (fun t => decide (t ≤ a + T)) (serve cap rate b (t :: ts)) := by
              exact_mod_cast hmono
          _ ≤ (refill cap rate b t).tokens + (a + T - t : ℕ) * rate := by
              rw [hserve]
              exact huntil
          _ ≤ cap + T * rate := add_le_add hfull.2 hwidth

end TokenBucket
end Clogx
