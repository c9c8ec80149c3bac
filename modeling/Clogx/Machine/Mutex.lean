/-
# A mutex and what threads hold

Two facts that the invariants of threads with a mutex rest on.  `Exclusive` says
that the threads between a lock and its unlock are the holder of the mutex, so
there is at most one; a thread locks a free mutex, unlocks the one it holds, or
moves without leaving or entering (`Exclusive.lock`, `Exclusive.unlock`,
`Exclusive.move`).  `sum_update` is the account of what all threads hold together
when one of them moves.
-/

import Mathlib.Algebra.BigOperators.Group.Finset.Piecewise
import Mathlib.Algebra.Order.BigOperators.Group.Finset
import Mathlib.Tactic

namespace Clogx
namespace Machine

variable {ι π : Type*}

/-- **Mutual exclusion:** the threads that are inside are the holder of the mutex. -/
def Exclusive (inside : π → Bool) (mutex : Option ι) (pc : ι → π) : Prop :=
  ∀ t, inside (pc t) = true ↔ mutex = some t

namespace Exclusive

variable {inside : π → Bool} {mutex : Option ι} {pc : ι → π} {t u : ι} {p : π}

/-- Who is inside holds the mutex. -/
theorem holder (h : Exclusive inside mutex pc) (ht : inside (pc t) = true) : mutex = some t :=
  (h t).1 ht

/-- There is at most one thread inside. -/
theorem eq_of_inside (h : Exclusive inside mutex pc) (ht : inside (pc t) = true)
    (hu : inside (pc u) = true) : u = t :=
  Option.some.inj ((h.holder hu).symm.trans (h.holder ht))

/-- While it is free nobody is inside. -/
theorem outside_of_free (h : Exclusive inside none pc) (t : ι) : inside (pc t) = false := by
  by_contra hin
  exact absurd (h.holder (Bool.not_eq_false _ ▸ hin)) (by simp)

variable [DecidableEq ι]

/-- A thread moves without locking or unlocking. -/
theorem move (h : Exclusive inside mutex pc) (hp : inside p = inside (pc t)) :
    Exclusive inside mutex (Function.update pc t p) := by
  intro u
  rcases eq_or_ne u t with rfl | hne
  · rw [Function.update_self, hp]
    exact h u
  · rw [Function.update_of_ne hne]
    exact h u

/-- A thread enters with the mutex. -/
theorem lock (h : Exclusive inside none pc) (hp : inside p = true) :
    Exclusive inside (some t) (Function.update pc t p) := by
  intro u
  rcases eq_or_ne u t with rfl | hne
  · rw [Function.update_self, hp]
    exact iff_of_true rfl rfl
  · rw [Function.update_of_ne hne, h.outside_of_free u]
    exact iff_of_false Bool.false_ne_true fun heq => hne (Option.some.inj heq).symm

/-- It leaves without. -/
theorem unlock (h : Exclusive inside mutex pc) (ht : inside (pc t) = true) (hp : inside p = false) :
    Exclusive inside none (Function.update pc t p) := by
  intro u
  rcases eq_or_ne u t with rfl | hne
  · rw [Function.update_self, hp]
    exact iff_of_false Bool.false_ne_true (Option.some_ne_none u).symm
  · rw [Function.update_of_ne hne]
    exact iff_of_false (fun hu => hne (h.eq_of_inside ht hu)) (Option.some_ne_none u).symm

end Exclusive

/-- **What the threads hold together,** when one of them goes from `pc t` to `p`. -/
theorem sum_update [Fintype ι] [DecidableEq ι] (f : π → ℕ) (pc : ι → π) (t : ι) (p : π) :
    (∑ u, f (Function.update pc t p u)) + f (pc t) = (∑ u, f (pc u)) + f p := by
  rw [← Finset.add_sum_erase _ _ (Finset.mem_univ t),
    ← Finset.add_sum_erase _ (fun u => f (pc u)) (Finset.mem_univ t), Function.update_self]
  have hrest : ∑ u ∈ Finset.univ.erase t, f (Function.update pc t p u) =
      ∑ u ∈ Finset.univ.erase t, f (pc u) :=
    Finset.sum_congr rfl fun u hu => by rw [Function.update_of_ne (Finset.ne_of_mem_erase hu)]
  rw [hrest]
  omega

/-- One thread holds no more than all of them. -/
theorem le_sum [Fintype ι] (f : π → ℕ) (pc : ι → π) (t : ι) : f (pc t) ≤ ∑ u, f (pc u) :=
  Finset.single_le_sum (fun u _ => Nat.zero_le (f (pc u))) (Finset.mem_univ t)

end Machine
end Clogx
