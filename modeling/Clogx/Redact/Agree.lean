/-
# The three appliers agree

The in-place applier is followed along the occurrences of a pattern, then along
the rules.  Its scan keeps "done, then what is left, then the terminator" in the
buffer, and no intermediate text is longer than the text before the rule or after
it, so that nothing is cut.  The two appliers that copy apply every rule as long
as `malloc` grants their blocks.
-/

import Clogx.Redact.Refusal

namespace Clogx
namespace Redact

open CLib

/-! ### In place -/

/-- One replacement in the buffer: the rest is moved, and the mask is put before it. -/
theorem move_and_store {x z msk tl : List UInt8} (hnew : msk.length + tl.length ≤ z.length) :
    (store (x ++ z) (x.length + msk.length) tl >>= fun b => store b x.length msk) =
      some (x ++ (msk ++ (tl ++ z.drop (msk.length + tl.length)))) := by
  have hsplit : x ++ z = (x ++ z.take msk.length) ++ z.drop msk.length := by simp
  have hlen : (x ++ z.take msk.length).length = x.length + msk.length := by simp; omega
  have hmove : store (x ++ z) (x.length + msk.length) tl =
      some (x ++ (z.take msk.length ++ (tl ++ z.drop (msk.length + tl.length)))) := by
    rw [hsplit, ← hlen, store_fits (by simp; omega), List.drop_drop, List.append_assoc]
  rw [hmove, Option.bind_eq_bind, Option.bind_some, store_append (by simp; omega)]

section Scan

variable {pat hd tl : Text} {n : ℕ} {x rest : List UInt8}

/-- What the scan sees at an occurrence: the text behind it. -/
theorem strAt_behind (htl : 0 ∉ tl) :
    strAt (x ++ (hd ++ (pat ++ tl) ++ 0 :: rest)) (x.length + hd.length + pat.length) = some tl := by
  have hrest : x ++ (hd ++ (pat ++ tl) ++ 0 :: rest) = (x ++ hd ++ pat) ++ (tl ++ 0 :: rest) := by
    simp
  have hplace : x.length + hd.length + pat.length = (x ++ hd ++ pat).length := by simp; omega
  rw [hrest, hplace, strAt_append htl]

/-- An occurrence whose mask fits: the scan goes on behind the mask. -/
theorem redactHits_hit (hpat : pat ≠ []) (msk : Text) (fuel : ℕ) (ht : 0 ∉ hd ++ (pat ++ tl))
    (hsome : strstr pat (hd ++ (pat ++ tl)) = some hd.length)
    (hn : (x ++ (hd ++ (pat ++ tl) ++ 0 :: rest)).length = n)
    (hfits : x.length + hd.length + msk.length + tl.length < n) :
    ∃ rest', redactHits pat msk n (fuel + 1) (x ++ (hd ++ (pat ++ tl) ++ 0 :: rest)) x.length =
        redactHits pat msk n fuel (x ++ hd ++ msk ++ (tl ++ 0 :: rest')) (x ++ hd ++ msk).length ∧
      (x ++ hd ++ msk ++ (tl ++ 0 :: rest')).length = n := by
  have hpos := List.length_pos_iff.2 hpat
  have htl : 0 ∉ tl := fun h => ht (by simp [h])
  -- what is moved: the text behind the occurrence, with its terminator
  have hmoved : ((x ++ (hd ++ (pat ++ tl) ++ 0 :: rest)).drop
      (x.length + hd.length + pat.length)).take (tl.length + 1) = tl ++ [0] := by
    rw [← List.drop_drop, ← List.drop_drop, List.drop_left, List.append_assoc hd, List.drop_left,
      List.append_assoc pat, List.drop_left]
    simp [List.take_append]
  have hstore := @move_and_store (x ++ hd) (pat ++ (tl ++ 0 :: rest)) msk (tl ++ [0])
    (by simp at hn ⊢; omega)
  refine ⟨(pat ++ (tl ++ 0 :: rest)).drop (msk.length + (tl ++ [0]).length), ?_,
    by simp at hn ⊢; omega⟩
  rw [redactHits, strAt_append ht]
  simp only [Option.bind_eq_bind, Option.bind_some, hsome]
  rw [strAt_behind htl]
  simp only [Option.bind_some]
  rw [if_pos hfits, hmoved, ← Option.bind_assoc]
  simp only [List.length_append, List.append_assoc] at hstore ⊢
  rw [← Option.bind_eq_bind, hstore, Option.bind_eq_bind, Option.bind_some]
  simp [Nat.add_assoc]

end Scan

/-- **The scan of one rule.**  The buffer is what is done, the text that is left and the
terminator; when the scan ends, every occurrence in the text that was left is replaced. -/
theorem redactHits_spec {pat msk : Text} (hpat : pat ≠ []) {n : ℕ} (t : Text) :
    ∀ (fuel : ℕ) (x rest : List UInt8), 0 ∉ t → (x ++ (t ++ 0 :: rest)).length = n →
      x.length + (replaceAll pat msk t).length < n → t.length < fuel →
      ∃ rest', redactHits pat msk n fuel (x ++ (t ++ 0 :: rest)) x.length =
          some (x ++ (replaceAll pat msk t ++ 0 :: rest')) ∧
        (x ++ (replaceAll pat msk t ++ 0 :: rest')).length = n := by
  induction t using occurrences_induct hpat with
  | last t hnone =>
    intro fuel x rest ht hn _ hfuel
    obtain ⟨fuel, rfl⟩ : ∃ f, fuel = f + 1 := ⟨fuel - 1, by omega⟩
    refine ⟨rest, ?_, by rwa [replaceAll_of_strstr_eq_none msk hnone]⟩
    rw [redactHits, strAt_append ht, replaceAll_of_strstr_eq_none msk hnone]
    simp only [Option.bind_eq_bind, Option.bind_some, hnone]
    rfl
  | hit hd tl hsome hrep ih =>
    intro fuel x rest ht hn hafter hfuel
    obtain ⟨fuel, rfl⟩ : ∃ f, fuel = f + 1 := ⟨fuel - 1, by omega⟩
    have hfits : x.length + hd.length + msk.length + tl.length < n :=
      partial_length_lt hpat (hrep msk) (by simp at hn ⊢; omega) hafter
    have hpos := List.length_pos_iff.2 hpat
    obtain ⟨rest₁, hhit, hn₁⟩ := redactHits_hit hpat msk fuel ht hsome hn hfits
    obtain ⟨rest', hrun, hlen⟩ := ih fuel (x ++ hd ++ msk) rest₁ (fun h => ht (by simp [h])) hn₁
      (by rw [hrep] at hafter; simp at hafter ⊢; omega) (by simp at hfuel; omega)
    refine ⟨rest', ?_, by rw [hrep]; simpa using hlen⟩
    rw [hhit, hrun, hrep]
    simp

/-- The texts that rules go through on their way are all shorter than `n`. -/
def Fits (n : ℕ) (rules : List Rule) (t : Text) : Prop :=
  ∀ k, (redacted (rules.take k) t).length < n

theorem Fits.head {n : ℕ} {rules : List Rule} {t : Text} (h : Fits n rules t) : t.length < n := h 0

theorem Fits.tail {n : ℕ} {r : Rule} {rules : List Rule} {t : Text} (h : Fits n (r :: rules) t) :
    Fits n rules (replaceAll r.pattern r.mask t) :=
  fun k => h (k + 1)

/-- The rules run one after the other. -/
theorem redactApplyLocked_cons {r : Rule} (hr : r.Ok) {rules : List Rule} {fuel n : ℕ}
    {buf buf' : Block} (h : redactHits r.pattern r.mask n fuel buf 0 = some buf') :
    redactApplyLocked fuel (r :: rules) buf n = redactApplyLocked fuel rules buf' n := by
  rw [redactApplyLocked, List.foldlM_cons, if_neg (by simp [hr.pattern_ne, hr.mask_ne]), h]
  rfl

/-- **The in-place applier** leaves the redacted text in the buffer. -/
theorem redactApplyLocked_spec {n fuel : ℕ} (hfuel : n ≤ fuel) {rules : List Rule}
    (hok : ∀ r ∈ rules, r.Ok) {t : Text} (ht : 0 ∉ t) (hfits : Fits n rules t) {rest : Block}
    (hn : (t ++ 0 :: rest).length = n) :
    ∃ rest', redactApplyLocked fuel rules (t ++ 0 :: rest) n =
      some (redacted rules t ++ 0 :: rest') := by
  induction rules generalizing t rest with
  | nil => exact ⟨rest, rfl⟩
  | cons r rules ih =>
    have hr := hok r List.mem_cons_self
    obtain ⟨rest', hrun, hlen⟩ := redactHits_spec hr.pattern_ne t fuel [] rest ht hn
      (by simpa using hfits.tail.head) (hfits.head.trans_le hfuel)
    obtain ⟨rest'', hrest⟩ := ih (fun r hr => hok r (List.mem_cons_of_mem _ hr))
      (zero_notMem_replaceAll hr.pattern_ne hr.mask_nul ht) hfits.tail hlen
    exact ⟨rest'', (redactApplyLocked_cons hr hrun).trans hrest⟩

/-- What fits in the message buffer fits in the fuel. -/
theorem Fits.bounded {os : Allocator} (hos : ∀ n, os.grants n = true) (stack : ℕ) {n fuel : ℕ}
    {rules : List Rule} {t : Text} (h : Fits n rules t) (hn : n ≤ fuel) (k : ℕ) :
    Bounded os stack fuel rules (t, k) := by
  intro j
  rw [redactedBy_of_grants hos]
  exact (h j).trans_le hn

/-! ### All three -/

/-- **The three appliers agree.**  For every table and every text that, like each rule's result, is
shorter than the message buffer, and as long as `malloc` grants its blocks, all three end and give
the text with every occurrence of every rule replaced in turn. -/
theorem redaction_agrees (cs : List TableCall) (t : CString)
    (hfits : ∀ k, (redacted ((table cs).take k) t.val).length ≤ maxMessageSize - 1)
    (os : Allocator) (hos : ∀ n, os.grants n = true) (fuel : ℕ) (hfuel : maxMessageSize ≤ fuel) :
    (∀ buf, buf.length = maxMessageSize → (∃ rest, buf = t.val ++ 0 :: rest) →
      ∃ buf', redactApplyLocked fuel (table cs) buf maxMessageSize = some buf' ∧
        strAt buf' 0 = some (redacted (table cs) t.val)) ∧
    (∀ m : Mem, (∃ rest, m.arg = t.val ++ 0 :: rest) → (∀ a, (m.tmp a).length = redactKvTmpLen) →
      ∃ cur owned m', redactApplyAllLocked os fuel (table cs) m = some (cur, owned, m') ∧
        m'.strAt cur = some (redacted (table cs) t.val)) ∧
    (∀ m : Mem, (∃ rest, m.arg = t.val ++ 0 :: rest) →
      ∃ owned m', redactApplyAllHeapLocked os fuel (table cs) m = some (owned, m') ∧
        match owned with
        | some p => m'.strAt p = some (redacted (table cs) t.val)
        | none => redacted (table cs) t.val = t.val) := by
  have hok := ok_table cs
  have hnul := zero_notMem_redacted hok t.property
  have hfits : Fits maxMessageSize (table cs) t.val := fun k =>
    (Nat.lt_succ_of_le (hfits k)).trans_le (by decide)
  refine ⟨?_, ?_, ?_⟩
  · rintro buf hn ⟨rest, rfl⟩
    obtain ⟨rest', hrun⟩ := redactApplyLocked_spec hfuel hok t.property hfits hn
    exact ⟨_, hrun, strAt_zero hnul⟩
  · rintro m ⟨rest, harg⟩ htmps
    obtain ⟨cur, owned, m', hrun, hplace, -⟩ := redactApplyAllLocked_any os hok
      (hfits.bounded hos redactKvTmpLen hfuel m.mallocs) htmps harg
    rw [redactedBy_of_grants hos] at hplace
    exact ⟨cur, owned, m', hrun, hplace.strAt hnul⟩
  · rintro m ⟨rest, harg⟩
    obtain ⟨owned, m', cur, hrun, hplace, -, -, hcur⟩ := redactApplyAllHeapLocked_any os hok
      (hfits.bounded hos 0 hfuel m.mallocs) harg
    rw [redactedBy_of_grants hos] at hplace
    refine ⟨owned, m', hrun, ?_⟩
    rcases hplace.owned with ⟨rfl, -⟩ | ⟨n, rfl, rfl, -⟩
    · obtain rfl := hcur rfl
      exact hplace.eq_of_arg harg t.property hnul
    · exact hplace.strAt hnul

/-- The rules `ab` by default mask, then `*x` by `y`, on the text `xabxab`, in all three appliers: the
mask of the first makes the matches of the second. -/
theorem redaction_agrees_masks :
    let cs : List TableCall := [.add (some ⟨str "ab", by decide⟩) none,
      .add (some ⟨str "*x", by decide⟩) (some ⟨str "y", by decide⟩)]
    let os : Allocator := ⟨fun _ => true, fun _ _ => 0⟩
    let m : Mem := ⟨str "xabxab" ++ [0], fun _ => List.replicate redactKvTmpLen 7, fun _ => none, 0⟩
    (∃ buf', redactApplyLocked maxMessageSize (table cs)
        (str "xabxab" ++ 0 :: List.replicate 4089 7) maxMessageSize = some buf' ∧
      strAt buf' 0 = some (str "x**y***")) ∧
    (∃ cur owned m', redactApplyAllLocked os maxMessageSize (table cs) m = some (cur, owned, m') ∧
      m'.strAt cur = some (str "x**y***")) ∧
    ∃ p m', redactApplyAllHeapLocked os maxMessageSize (table cs) m = some (some p, m') ∧
      m'.strAt p = some (str "x**y***") := by
  intro cs os m
  have hfits : ∀ k, (redacted ((table cs).take k) (str "xabxab")).length ≤ maxMessageSize - 1 := by
    intro k
    match k with
    | 0 => decide
    | 1 => decide
    | k + 2 =>
      have htwo : (table cs).length = 2 := by decide
      rw [List.take_of_length_le (by omega)]
      decide
  have hlen : (str "xabxab" ++ 0 :: List.replicate 4089 7).length = maxMessageSize := by
    rw [List.length_append, List.length_cons, List.length_replicate]
    rfl
  obtain ⟨hinPlace, hpingPong, hheap⟩ := redaction_agrees cs ⟨str "xabxab", by decide⟩ hfits os
    (fun _ => rfl) maxMessageSize le_rfl
  refine ⟨hinPlace _ hlen ⟨_, rfl⟩, hpingPong m ⟨[], rfl⟩ fun _ => List.length_replicate, ?_⟩
  obtain ⟨owned, m', hrun, htext⟩ := hheap m ⟨[], rfl⟩
  cases owned with
  | none =>
    have hne : redacted (table cs) (str "xabxab") ≠ str "xabxab" := by decide
    exact absurd htext hne
  | some p => exact ⟨p, m', hrun, htext⟩

end Redact
end Clogx
