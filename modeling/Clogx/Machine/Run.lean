/-
# Runs of a step function

A machine is a partial step function `step : σ → α → Option σ`: the action `α`
says which party moves and how it resolves its choices, `none` says that the
move is not enabled.  `run` executes a list of actions and is what a concrete
trace evaluates; `Reach` is the reachability it induces, with a condition `ok`
on each step taken.  A safety property is proved once per step
(`Reach.invariant`) and refuted by a trace (`reach_of_run`).
-/

import Mathlib.Tactic

namespace Clogx
namespace Machine

/-! A numeral of `Fin n` holds a proof that `n` is not zero.  For the small types that fixed runs
number their parties with, that proof is a constant. -/

instance neZero_one : NeZero 1 := ⟨Nat.succ_ne_zero 0⟩

instance neZero_two : NeZero 2 := ⟨Nat.succ_ne_zero 1⟩

instance neZero_three : NeZero 3 := ⟨Nat.succ_ne_zero 2⟩

variable {σ τ α β : Type*}

/-- The state after the actions `as`, `none` once one of them is not enabled. -/
def run (step : σ → α → Option σ) : σ → List α → Option σ
  | s, [] => some s
  | s, a :: as => (step s a).bind fun s' => run step s' as

/-- A run in two parts. -/
theorem run_append (step : σ → α → Option σ) (s : σ) (as bs : List α) :
    run step s (as ++ bs) = (run step s as).bind fun s' => run step s' bs := by
  induction as generalizing s with
  | nil => rfl
  | cons a as ih =>
    rw [List.cons_append, run, run, Option.bind_assoc]
    exact congrArg _ (funext fun s' => ih s')

/-- `s` is reached from `s₀` by steps that all meet `ok`, the condition on the
state before the step and on its action. -/
inductive Reach (step : σ → α → Option σ) (ok : σ → α → Prop) (s₀ : σ) : σ → Prop
  | refl : Reach step ok s₀ s₀
  | tail {s s' : σ} {a : α} :
      Reach step ok s₀ s → ok s a → step s a = some s' → Reach step ok s₀ s'

/-- No condition on the steps. -/
def anyStep (_ : σ) (_ : α) : Prop := True

/-- `s` is reached from `s₀` by any interleaving. -/
abbrev Reachable (step : σ → α → Option σ) (s₀ s : σ) : Prop := Reach step anyStep s₀ s

variable {step : σ → α → Option σ} {ok ok' : σ → α → Prop} {s₀ s₁ s s' : σ}

/-- **What every step preserves, every run preserves.** -/
theorem Reach.invariant {I : σ → Prop} (h₀ : I s₀)
    (hstep : ∀ s a s', I s → ok s a → step s a = some s' → I s')
    (h : Reach step ok s₀ s) : I s := by
  induction h with
  | refl => exact h₀
  | tail _ hok hs ih => exact hstep _ _ _ ih hok hs

/-- Weaker conditions reach more. -/
theorem Reach.mono (hok : ∀ s a, ok s a → ok' s a) (h : Reach step ok s₀ s) :
    Reach step ok' s₀ s := by
  induction h with
  | refl => exact .refl
  | tail _ ha hs ih => exact .tail ih (hok _ _ ha) hs

/-- Without the condition. -/
theorem Reach.any (h : Reach step ok s₀ s) : Reachable step s₀ s :=
  h.mono fun _ _ _ => trivial

/-- Runs compose. -/
theorem Reach.trans (h₁ : Reach step ok s₀ s₁) (h₂ : Reach step ok s₁ s) :
    Reach step ok s₀ s := by
  induction h₂ with
  | refl => exact h₁
  | tail _ ha hs ih => exact .tail ih ha hs

/-- One step is a run. -/
theorem Reach.single {a : α} (ha : ok s a) (hs : step s a = some s') : Reach step ok s s' :=
  .tail .refl ha hs

/-- **What a measure drives down is reached.**  If from every state of `I` where the
goal is not met some run stays in `I` and lowers `μ`, the goal is met at the end
of a run. -/
theorem Reach.exists_of_measure {I P : σ → Prop} (μ : σ → ℕ)
    (hprog : ∀ s, I s → ¬ P s → ∃ s', Reach step ok s s' ∧ I s' ∧ μ s' < μ s) (hs : I s) :
    ∃ s', Reach step ok s s' ∧ I s' ∧ P s' := by
  induction hk : μ s using Nat.strong_induction_on generalizing s with
  | _ k ih =>
    by_cases hP : P s
    · exact ⟨s, .refl, hs, hP⟩
    · obtain ⟨t, hst, ht, hlt⟩ := hprog s hs hP
      obtain ⟨u, htu, hu⟩ := ih (μ t) (hk ▸ hlt) ht rfl
      exact ⟨u, hst.trans htu, hu⟩

/-- A trace that runs through, of actions that all meet `p`, is a run. -/
theorem reach_of_run_of {p : α → Prop} : ∀ (as : List α) {s : σ}, (∀ a ∈ as, p a) →
    run step s as = some s' → Reach step (fun _ a => p a) s s'
  | [], s, _, h => by
      cases h
      exact .refl
  | a :: as, s, hp, h => by
      obtain ⟨t, ht, hr⟩ := Option.bind_eq_some_iff.1 h
      exact (Reach.single (hp a (List.mem_cons_self ..)) ht).trans
        (reach_of_run_of as (fun b hb => hp b (List.mem_cons_of_mem _ hb)) hr)

/-- A trace that runs through is a reachable state. -/
theorem reach_of_run (as : List α) (h : run step s as = some s') : Reachable step s s' :=
  (reach_of_run_of (p := fun _ => True) as (fun _ _ => trivial) h).mono fun _ _ _ => trivial

/-- What a trace shows of the state at its end. -/
theorem exists_of_run (as : List α) {P : σ → Prop} [DecidablePred P]
    (h : (run step s as).any (fun s' => P s') = true) : ∃ s', Reachable step s s' ∧ P s' := by
  obtain ⟨s', hs', hP⟩ := (Option.any_eq_true ..).1 h
  exact ⟨s', reach_of_run as hs', of_decide_eq_true hP⟩

/-- The state after the actions `as`, `none` once one of them is not enabled or
does not meet `ok`. -/
def runIf (step : σ → α → Option σ) (ok : σ → α → Prop) [∀ s a, Decidable (ok s a)] :
    σ → List α → Option σ
  | s, [] => some s
  | s, a :: as => if ok s a then (step s a).bind fun s' => runIf step ok s' as else none

/-- An evaluated run is a run. -/
theorem reach_of_runIf [∀ s a, Decidable (ok s a)] : ∀ (as : List α) {s : σ},
    runIf step ok s as = some s' → Reach step ok s s'
  | [], s, h => by
      cases h
      exact .refl
  | a :: as, s, h => by
      rw [runIf] at h
      split_ifs at h with ha
      obtain ⟨t, ht, hr⟩ := Option.bind_eq_some_iff.1 h
      exact (Reach.single ha ht).trans (reach_of_runIf as hr)

/-- What a trace shows of the state at its end, when its steps all meet `ok`. -/
theorem exists_of_runIf [∀ s a, Decidable (ok s a)] (as : List α) {P : σ → Prop} [DecidablePred P]
    (h : (runIf step ok s as).any (fun s' => P s') = true) : ∃ s', Reach step ok s s' ∧ P s' := by
  obtain ⟨s', hs', hP⟩ := (Option.any_eq_true ..).1 h
  exact ⟨s', reach_of_runIf as hs', of_decide_eq_true hP⟩

/-- **What holds all along a sequence of calls.**  `f` is the state after some calls.  If from a
state of `I` a call leads to one exactly under `ok`, every initial part of a sequence ends in `I`
exactly if every call of it meets `ok`. -/
theorem forall_prefix_iff {f : List α → σ} {next : σ → α → σ} {I : σ → Prop}
    (hnext : ∀ as a, f (as ++ [a]) = next (f as) a) (h₀ : I (f []))
    (hstep : ∀ s a, I s → (I (next s a) ↔ ok s a)) (as : List α) :
    (∀ bs, bs <+: as → I (f bs)) ↔ ∀ bs a, bs ++ [a] <+: as → ok (f bs) a := by
  constructor
  · intro hall bs a hpre
    have hbefore := hall bs ((List.prefix_append bs [a]).trans hpre)
    have hafter := hall (bs ++ [a]) hpre
    rw [hnext] at hafter
    exact (hstep _ a hbefore).1 hafter
  · intro hok bs
    induction bs using List.reverseRecOn with
    | nil => exact fun _ => h₀
    | append_singleton bs a ih =>
      intro hpre
      have hbefore := ih ((List.prefix_append bs [a]).trans hpre)
      rw [hnext]
      exact (hstep _ a hbefore).2 (hok bs a hpre)

end Machine
end Clogx
