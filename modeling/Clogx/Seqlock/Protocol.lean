/-
# A sequence lock

Data that one writer at a time changes cell by cell, and that readers copy without
a lock.  A generation counter is odd while a writer is inside; a reader takes the
counter, copies the cells one by one, and takes the counter again: if it was even
and has not moved, the copy is the contents of one moment.

`versions` is history: the contents after each completed write, the initial ones
first, so that at generation `2 * v` the cells hold version `v`.  `Inv` is kept by
the writer's operations (`Inv.enter`, `Inv.store`, `Inv.leave`), and `Copying` is
what a reader may rely on between its two looks at the counter: it survives every
operation of the writers (`Copying.enter`, `Copying.store`, `Copying.leave`), and
ends in a version (`Copying.validated`).
-/

import Mathlib.Tactic

namespace Clogx
namespace Seqlock

variable {κ β : Type*}

/-- The counter, the cells, and the contents after each completed write. -/
structure Mem (κ β : Type*) where
  gen : ℕ
  cells : κ → β
  versions : List (κ → β)

namespace Mem

/-- A writer enters: the counter becomes odd. -/
def enter (r : Mem κ β) : Mem κ β := { r with gen := r.gen + 1 }

/-- It stores one cell. -/
def store [DecidableEq κ] (r : Mem κ β) (k : κ) (v : β) : Mem κ β :=
  { r with cells := Function.update r.cells k v }

/-- It leaves: the counter becomes even, and the cells are a version. -/
def leave (r : Mem κ β) : Mem κ β :=
  { r with gen := r.gen + 1, versions := r.versions ++ [r.cells] }

variable (r : Mem κ β)

@[simp] theorem gen_enter : r.enter.gen = r.gen + 1 := rfl

@[simp] theorem versions_enter : r.enter.versions = r.versions := rfl

@[simp] theorem gen_store [DecidableEq κ] (k : κ) (v : β) : (r.store k v).gen = r.gen := rfl

@[simp] theorem gen_leave : r.leave.gen = r.gen + 1 := rfl

@[simp] theorem versions_leave : r.leave.versions = r.versions ++ [r.cells] := rfl

end Mem

/-- Version `v` is the cells at generation `2 * v`. -/
structure Inv (r : Mem κ β) : Prop where
  count : r.versions.length = r.gen / 2 + 1
  stable : r.gen % 2 = 0 → r.versions[r.gen / 2]? = some r.cells

/-- Nothing has been written yet. -/
theorem inv_start (b : κ → β) : Inv ⟨0, b, [b]⟩ where
  count := by rw [Nat.zero_div, List.length_singleton]
  stable _ := by rw [Nat.zero_div, List.getElem?_cons_zero]

variable {r : Mem κ β}

theorem Inv.enter (h : Inv r) (heven : r.gen % 2 = 0) : Inv r.enter where
  count := by
    rw [Mem.versions_enter, Mem.gen_enter, h.count]
    omega
  stable hnext := by
    rw [Mem.gen_enter] at hnext
    omega

theorem Inv.store [DecidableEq κ] (h : Inv r) (hodd : r.gen % 2 = 1) (k : κ) (v : β) :
    Inv (r.store k v) where
  count := h.count
  stable heven := by
    rw [Mem.gen_store] at heven
    omega

theorem Inv.leave (h : Inv r) (hodd : r.gen % 2 = 1) : Inv r.leave where
  count := by
    rw [Mem.versions_leave, Mem.gen_leave, List.length_append, List.length_singleton, h.count]
    omega
  stable _ := by
    have hix : (r.gen + 1) / 2 = r.versions.length := by
      rw [h.count]
      omega
    rw [Mem.versions_leave, Mem.gen_leave, hix]
    exact List.getElem?_concat_length

/-- A version stays what it is. -/
theorem version_leave {v : ℕ} {b : κ → β} (h : r.versions[v]? = some b) :
    r.leave.versions[v]? = some b := by
  have hlt := (List.getElem?_eq_some_iff.1 h).1
  rw [Mem.versions_leave, List.getElem?_append_left hlt]
  exact h

/-- A reader found the even generation `gen`, at least `2 * since`, and has copied the cells that
meet `done` to `buf`: as long as the counter has not moved, the copy is right so far. -/
structure Copying (r : Mem κ β) (since gen : ℕ) (done : κ → Prop) (buf : κ → β) : Prop where
  even : gen % 2 = 0
  since_le : since ≤ gen / 2
  gen_le : gen ≤ r.gen
  copied : r.gen = gen → ∀ k, done k → buf k = r.cells k

variable {since gen : ℕ} {done : κ → Prop} {buf : κ → β}

/-- The first look at the counter. -/
theorem Copying.start (heven : r.gen % 2 = 0) (hsince : since ≤ r.gen / 2) (buf : κ → β) :
    Copying r since r.gen (fun _ => False) buf :=
  ⟨heven, hsince, le_rfl, fun _ _ h => h.elim⟩

/-- The reader copies one more cell. -/
theorem Copying.copy [DecidableEq κ] (h : Copying r since gen done buf) (k : κ) :
    Copying r since gen (fun j => j = k ∨ done j) (Function.update buf k (r.cells k)) where
  even := h.even
  since_le := h.since_le
  gen_le := h.gen_le
  copied hgen j hj := by
    rcases eq_or_ne j k with rfl | hne
    · exact Function.update_self ..
    · rw [Function.update_of_ne hne]
      exact h.copied hgen j (hj.resolve_left hne)

theorem Copying.mono {done' : κ → Prop} (h : Copying r since gen done buf)
    (hdone : ∀ k, done' k → done k) : Copying r since gen done' buf :=
  ⟨h.even, h.since_le, h.gen_le, fun hgen k hk => h.copied hgen k (hdone k hk)⟩

theorem Copying.enter (h : Copying r since gen done buf) :
    Copying r.enter since gen done buf where
  even := h.even
  since_le := h.since_le
  gen_le := h.gen_le.trans (Nat.le_succ _)
  copied hgen := by
    have hle := h.gen_le
    rw [Mem.gen_enter] at hgen
    omega

/-- A store is made at an odd generation, so the reader's has passed. -/
theorem Copying.store [DecidableEq κ] (h : Copying r since gen done buf) (hodd : r.gen % 2 = 1)
    (k : κ) (v : β) : Copying (r.store k v) since gen done buf where
  even := h.even
  since_le := h.since_le
  gen_le := h.gen_le
  copied hgen := by
    have heven := h.even
    rw [Mem.gen_store] at hgen
    omega

theorem Copying.leave (h : Copying r since gen done buf) :
    Copying r.leave since gen done buf where
  even := h.even
  since_le := h.since_le
  gen_le := h.gen_le.trans (Nat.le_succ _)
  copied hgen := by
    have hle := h.gen_le
    rw [Mem.gen_leave] at hgen
    omega

/-- **The second look:** if the counter has not moved, the copy is the version of that
generation. -/
theorem Copying.validated (h : Copying r since gen done buf) (hinv : Inv r) (hgen : r.gen = gen)
    (hall : ∀ k, done k) : ∃ v, since ≤ v ∧ r.versions[v]? = some buf := by
  have hbuf : buf = r.cells := funext fun k => h.copied hgen k (hall k)
  refine ⟨gen / 2, h.since_le, ?_⟩
  rw [hbuf, ← hgen]
  exact hinv.stable (hgen ▸ h.even)

end Seqlock
end Clogx
