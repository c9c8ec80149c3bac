/-
# Strings packed into a block

A block is filled with strings one behind another, each with its terminator, by a
cursor that moves over it.  A string that would leave the block is `none`.
`Packed` lists the strings with their places; it gives what a reader of the block
needs: every string stands at its place, inside the block, and before the next.
-/

import Clogx.CLib.Buffer

namespace Clogx
namespace CLib

/-- A block of `n` bytes, and the place of the next write. -/
structure Cursor (n : ℕ) where
  block : Block
  pos : ℕ
  size : block.length = n

/-- `memcpy(p, s, strlen(s) + 1)` at the cursor, which moves behind the copy; the result is the
place of the copy. -/
def pack {n : ℕ} (s : CString) : StateT (Cursor n) Option ℕ := fun c =>
  if h : c.pos + (s.val.length + 1) ≤ n then
    some (c.pos,
      { block := c.block.take c.pos ++ (s.val ++ 0 :: c.block.drop (c.pos + (s.val.length + 1)))
        pos := c.pos + (s.val.length + 1)
        size := by
          have hsize := c.size
          simp only [List.length_append, List.length_take, List.length_cons, List.length_drop]
          omega })
  else none

/-- The bytes of some strings in a block. -/
def layout (ss : List CString) : Block := ss.flatMap fun s => s.val ++ [0]

/-- Strings that stand one behind another, from the place `i`. -/
def Placed : ℕ → List (CString × ℕ) → Prop
  | _, [] => True
  | i, x :: xs => x.2 = i ∧ Placed (i + (x.1.val.length + 1)) xs

/-- What has been packed, with the places. -/
structure Packed {n : ℕ} (xs : List (CString × ℕ)) (c : Cursor n) : Prop where
  placed : Placed 0 xs
  pos : c.pos = (layout (xs.map Prod.fst)).length
  text : ∃ rest, c.block = layout (xs.map Prod.fst) ++ rest

section Placed

variable {n i : ℕ} {xs : List (CString × ℕ)}

/-- Strings side by side. -/
theorem layout_append (ss ss' : List CString) : layout (ss ++ ss') = layout ss ++ layout ss' :=
  List.flatMap_append

theorem layout_cons (s : CString) (ss : List CString) :
    layout (s :: ss) = s.val ++ 0 :: layout ss := by
  rw [layout, List.flatMap_cons, List.append_assoc]
  rfl

theorem length_layout_cons (s : CString) (ss : List CString) :
    (layout (s :: ss)).length = s.val.length + 1 + (layout ss).length := by
  rw [layout_cons, List.length_append, List.length_cons]
  omega

/-- One more string behind the others. -/
theorem Placed.append_one (h : Placed i xs) (s : CString) :
    Placed i (xs ++ [(s, i + (layout (xs.map Prod.fst)).length)]) := by
  induction xs generalizing i with
  | nil => exact ⟨rfl, trivial⟩
  | cons x xs ih =>
    refine ⟨h.1, ?_⟩
    have hrest := ih h.2
    rwa [Nat.add_assoc, ← length_layout_cons, ← List.map_cons] at hrest

/-- **Every string stands at its place,** between the start and the end of the layout. -/
theorem Placed.strAt (h : Placed i xs) (before rest : Block) (hi : before.length = i) :
    ∀ x ∈ xs, CLib.strAt (before ++ (layout (xs.map Prod.fst) ++ rest)) x.2 = some x.1.val ∧
      i ≤ x.2 ∧ x.2 + x.1.val.length < i + (layout (xs.map Prod.fst)).length := by
  induction xs generalizing i before with
  | nil => exact fun _ hx => absurd hx List.not_mem_nil
  | cons x xs ih =>
    obtain ⟨hplace, hrest⟩ := h
    have hsplit : before ++ (layout ((x :: xs).map Prod.fst) ++ rest) =
        before ++ (x.1.val ++ [0]) ++ (layout (xs.map Prod.fst) ++ rest) := by
      rw [List.map_cons, layout_cons]
      simp
    have hnext := ih hrest (before ++ (x.1.val ++ [0])) (by simp [hi])
    rw [List.map_cons, length_layout_cons]
    rintro y hy
    rcases List.mem_cons.1 hy with rfl | hy
    · refine ⟨?_, hplace.ge, by omega⟩
      rw [layout_cons, hplace, ← hi, List.append_assoc]
      exact strAt_append y.1.property
    · obtain ⟨hstr, hge, hlt⟩ := hnext y hy
      rw [← List.map_cons, hsplit]
      exact ⟨hstr, by omega, by omega⟩

/-- **No two strings overlap.** -/
theorem Placed.pairwise (h : Placed i xs) :
    xs.Pairwise fun x y => x.2 + x.1.val.length < y.2 := by
  induction xs generalizing i with
  | nil => exact .nil
  | cons x xs ih =>
    obtain ⟨hplace, hrest⟩ := h
    refine .cons (fun y hy => ?_) (ih hrest)
    obtain ⟨-, hge, -⟩ := hrest.strAt (List.replicate (i + (x.1.val.length + 1)) 0) []
      List.length_replicate y hy
    omega

end Placed

section Packed

variable {n : ℕ} {xs : List (CString × ℕ)} {c : Cursor n}

/-- An empty block. -/
theorem packed_start (b : Block) (h : b.length = n) : Packed [] (⟨b, 0, h⟩ : Cursor n) :=
  ⟨trivial, rfl, b, rfl⟩

/-- **A string that fits is packed behind the others.** -/
theorem Packed.pack (h : Packed xs c) {s : CString} (hfits : c.pos + (s.val.length + 1) ≤ n) :
    ∃ c', CLib.pack s c = some (c.pos, c') ∧ Packed (xs ++ [(s, c.pos)]) c' ∧
      c'.pos = c.pos + (s.val.length + 1) := by
  obtain ⟨hplaced, hpos, rest, htext⟩ := h
  refine ⟨_, dif_pos hfits, ⟨?_, ?_, ?_⟩, rfl⟩
  · have hone := hplaced.append_one s
    rwa [Nat.zero_add, ← hpos] at hone
  · dsimp only
    rw [List.map_append, layout_append, List.length_append, ← hpos]
    simp [layout]
  · refine ⟨c.block.drop (c.pos + (s.val.length + 1)), ?_⟩
    have htake : c.block.take c.pos = layout (xs.map Prod.fst) := by
      rw [htext, hpos, List.take_left]
    dsimp only
    rw [htake, List.map_append, layout_append, List.append_assoc]
    simp [layout]

/-- What a packed block holds. -/
theorem Packed.strAt (h : Packed xs c) : ∀ x ∈ xs,
    CLib.strAt c.block x.2 = some x.1.val ∧ x.2 + x.1.val.length < n := by
  obtain ⟨hplaced, hpos, rest, htext⟩ := h
  intro x hx
  obtain ⟨hstr, -, hlt⟩ := hplaced.strAt [] rest rfl x hx
  rw [List.nil_append, ← htext] at hstr
  refine ⟨hstr, ?_⟩
  have hsize := c.size
  rw [htext, List.length_append] at hsize
  omega

end Packed

end CLib
end Clogx
