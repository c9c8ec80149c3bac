/-
# Every step of the socket ring keeps the invariant

Producers by their position (`Inv.of_own`), then the writer, whose steps act on
the ring as `take`, `clobber` and `commit`.
-/

import Clogx.Socket.Invariant

namespace Clogx
namespace Socket

open SeqRing (Shape Phase)
open Queue (szSub)
open Machine (Reach Reachable)

variable {ι : Type*} {g : Shape} {s s' : State ι} {t : ι} {pos : ℕ}

/-- The position of a call is claimed by its thread. -/
theorem PutOk.claim_of_pos {pc : Put} (h : PutOk g s t pc) (hp : pc.pos = some pos) :
    ∃ b l, s.claim pos = some ⟨t, b, l⟩ := by
  cases pc <;> simp only [Put.pos, Option.some.injEq, reduceCtorEq] at hp <;> subst hp <;>
    exact ⟨_, _, h.1⟩

theorem Inv.mine (h : Inv g s) (hp : (s.put t).pos = some pos) (c : Claim ι)
    (hc : s.claim pos = some c) : c.thread = t := by
  obtain ⟨b, l, hc'⟩ := (h.put t).claim_of_pos hp
  rw [← Option.some.inj (hc'.symm.trans hc)]

/-- Nothing is claimed at `head`. -/
theorem Inv.claim_head (h : Inv g s) : s.claim s.head = none := by
  have := (h.claimed s.head).not.2 (lt_irrefl _)
  simpa using this

/-- Nothing is written or signalled at `head`. -/
theorem Inv.fresh_head (h : Inv g s) : s.phase s.head = .vacant ∧ s.signalled s.head = false := by
  refine ⟨h.ring.vacant_of_head_le s.head le_rfl, Bool.eq_false_iff.2 fun hs => ?_⟩
  exact lt_irrefl _ (h.signalled _ hs).2

variable [DecidableEq ι]

@[simp] theorem setPut_put (s : State ι) (t : ι) (pc : Put) : (s.setPut t pc).put t = pc :=
  Function.update_self ..

theorem put_of_ne (s : State ι) {u : ι} (hu : u ≠ t) (pc : Put) :
    (s.setPut t pc).put u = s.put u :=
  Function.update_of_ne hu ..

/-- A step of thread `t` that leaves ring and claims alone. -/
theorem Inv.setPut (h : Inv g s) (d k : ℕ) {pc : Put}
    (hpc : PutOk g ({ s with dropped := d, count := k }.setPut t pc) t pc)
    (hpos : pc.pos = (s.put t).pos) :
    Inv g ({ s with dropped := d, count := k }.setPut t pc) := by
  obtain ⟨pos, hpos', hnone⟩ : ∃ pos, (∀ p, (s.put t).pos = some p → p = pos) ∧
      ((s.put t).pos = some pos ∨ pos = s.head) := by
    cases hp : (s.put t).pos with
    | some p => exact ⟨p, fun q hq => (Option.some.inj hq).symm, .inl rfl⟩
    | none => exact ⟨s.head, fun q hq => (nomatch hq), .inr rfl⟩
  have hmine : ∀ c, s.claim pos = some c → c.thread = t ∧ (s.put t).pos = some pos := by
    intro c hc
    rcases hnone with hp | rfl
    · exact ⟨h.mine hp c hc, hp⟩
    · rw [h.claim_head] at hc
      cases hc
  have ho : Own g t pos s ({ s with dropped := d, count := k }.setPut t pc) :=
    { tail := rfl, consumer := rfl, lines := rfl, next := rfl, head := le_rfl
      put := fun u hu => put_of_ne _ hu _
      other := fun _ _ => ⟨rfl, rfl, rfl, rfl⟩
      published := fun hp => ⟨hp, rfl⟩
      buf := fun _ _ _ _ => rfl
      mine := fun c hc => (hmine c hc).1
      hold := hpos' }
  exact h.of_own ho h.ring (by rwa [setPut_put]) h.claimed (h.content pos)
    (fun c hc _ => ⟨(hmine c hc).1, by rw [setPut_put, hpos]; exact (hmine c hc).2⟩)
    (h.signalled pos)

/-- **The compare-exchange on `head`**: the position is new, and there is room. -/
theorem Inv.claim (h : Inv g s) (b : List UInt8) (hpc : (s.put t).pos = none)
    (hroom : s.head < s.tail + g.capacity) :
    Inv g ({ s with
      head := s.head + 1
      claim := Function.update s.claim s.head (some ⟨t, b, false⟩) }.setPut t
        (.copy b s.head)) := by
  obtain ⟨hv, hsig⟩ := h.fresh_head
  have hself : Function.update s.claim s.head (some ⟨t, b, false⟩) s.head = some ⟨t, b, false⟩ :=
    Function.update_self ..
  have ho : Own g t s.head s ({ s with
      head := s.head + 1
      claim := Function.update s.claim s.head (some ⟨t, b, false⟩) }.setPut t (.copy b s.head)) :=
    { tail := rfl, consumer := rfl, lines := rfl, next := rfl, head := Nat.le_succ _
      put := fun u hu => put_of_ne _ hu _
      other := fun p hp => ⟨Function.update_of_ne hp .., rfl, rfl, rfl⟩
      published := fun hp => ⟨hp, rfl⟩
      buf := fun _ _ _ _ => rfl
      mine := fun c hc => by rw [h.claim_head] at hc; cases hc
      hold := fun p hp => by rw [hpc] at hp; cases hp }
  refine h.of_own ho h.ring.claim ?_ (fun p => ?_) (fun hne => absurd hv hne)
    (fun c hc _ => ⟨?_, by rw [setPut_put]; rfl⟩) fun hs => ?_
  · rw [setPut_put]
    exact ⟨hself, hv, hroom, hsig⟩
  · show (Function.update s.claim s.head (some ⟨t, b, false⟩) p).isSome ↔ p < s.head + 1
    by_cases hp : p = s.head
    · subst hp
      simp
    · rw [Function.update_of_ne hp, h.claimed p]
      omega
  · rw [← Option.some.inj (hself.symm.trans hc)]
  · exact absurd hsig (by rw [show s.signalled s.head = true from hs]; decide)

omit [DecidableEq ι] in
/-- A step of thread `t` on the slot of its unpublished position. -/
theorem Inv.of_slot (h : Inv g s) (hp : (s.put t).pos = some pos) (hv : s.phase pos ≠ .published)
    (hw : pos < s.tail + g.capacity) (hsig : s.signalled pos = false)
    (hrest : s'.tail = s.tail ∧ s'.consumer = s.consumer ∧ s'.lines = s.lines ∧
      s'.next = s.next ∧ s'.head = s.head ∧ s'.signalled = s.signalled)
    (hput : ∀ u, u ≠ t → s'.put u = s.put u)
    (hother : ∀ p, p ≠ pos → s'.claim p = s.claim p ∧ s'.phase p = s.phase p ∧
      s'.item p = s.item p)
    (hslots : ∀ i, i ≠ g.ix pos → s'.slots i = s.slots i) (hring : SeqRing.Inv g s'.ring)
    (hclaim : ∃ c, s'.claim pos = some c ∧ c.thread = t ∧
      (s'.phase pos ≠ .vacant → s'.item pos = c.line g pos))
    (hpos : (s'.put t).pos = some pos) (hself : PutOk g s' t (s'.put t)) : Inv g s' := by
  have htail := h.tail_le hv
  obtain ⟨h₁, h₂, h₃, h₄, h₅, h₆⟩ := hrest
  obtain ⟨c, hc, hthread, hline⟩ := hclaim
  have ho : Own g t pos s s' :=
    { tail := h₁, consumer := h₂, lines := h₃, next := h₄, head := h₅.ge
      put := hput
      other := fun p hne => ⟨(hother p hne).1, (hother p hne).2.1, (hother p hne).2.2, by rw [h₆]⟩
      published := fun hp => absurd hp hv
      buf := fun p hne hle hlt => by
        rw [hslots _ fun he => hne (g.ix_inj hle hlt htail hw he)]
      mine := h.mine hp
      hold := fun p hp' => Option.some.inj (hp'.symm.trans hp) }
  refine h.of_own ho hring hself (fun p => ?_) (fun hne => ⟨c, hc, hline hne⟩)
    (fun d hd _ => ⟨?_, hpos⟩) fun hs => ?_
  · rw [h₅]
    by_cases hne : p = pos
    · subst hne
      obtain ⟨b, l, hold⟩ := (h.put t).claim_of_pos hp
      rw [← h.claimed p, hc, hold]
      simp
    · rw [(hother p hne).1, h.claimed p]
  · rw [← Option.some.inj (hc.symm.trans hd), hthread]
  · rw [h₆, hsig] at hs
    cases hs

/-- `memcpy` to the `inline_buf` of the position. -/
theorem Inv.copyInline (h : Inv g s) {b : List UInt8} (hpc : s.put t = .copy b pos) :
    Inv g ((s.copyInline g pos b).setPut t (.setLine b pos true)) := by
  have hput := h.put t
  rw [hpc] at hput
  obtain ⟨hc, hv, hw, hsig⟩ := hput
  have hring : ((s.copyInline g pos b).setPut t (.setLine b pos true)).ring = s.ring := by
    simp only [State.ring, State.setPut, State.copyInline, SeqRing.Mem.mk.injEq, true_and, and_true]
    constructor <;> funext i <;> by_cases hi : i = g.ix pos
    all_goals first
      | (subst hi; rw [Function.update_self])
      | rw [Function.update_of_ne hi]
  refine h.of_slot (t := t) (by rw [hpc]; rfl) (by rw [hv]; decide) hw hsig
    ⟨rfl, rfl, rfl, rfl, rfl, rfl⟩ (fun u hu => put_of_ne _ hu _) (fun _ _ => ⟨rfl, rfl, rfl⟩)
    (fun i hi => Function.update_of_ne hi ..) (hring ▸ h.ring)
    ⟨_, hc, rfl, fun hne => absurd hv hne⟩ (by rw [setPut_put]; rfl) ?_
  rw [setPut_put]
  refine ⟨hc, hv, hw, hsig, fun _ => ?_, fun hf => nomatch hf⟩
  show ((s.copyInline g pos b).slots (g.ix pos)).inlineBuf.take b.length = b
  simp only [State.copyInline, Function.update_self]
  exact List.take_left' rfl

/-- `malloc` succeeds or fails. -/
theorem Inv.malloc (h : Inv g s) {b : List UInt8} (hpc : s.put t = .copy b pos)
    (hb : socketRingInlineLen ≤ b.length) (ok : Bool) :
    Inv g ({ s with claim := Function.update s.claim pos (some ⟨t, b, !ok⟩) }.setPut t
      (.setLine b pos ok)) := by
  have hput := h.put t
  rw [hpc] at hput
  obtain ⟨hc, hv, hw, hsig⟩ := hput
  have hclaim : Function.update s.claim pos (some (⟨t, b, !ok⟩ : Claim ι)) pos = some ⟨t, b, !ok⟩ :=
    Function.update_self ..
  refine h.of_slot (t := t) (by rw [hpc]; rfl) (by rw [hv]; decide) hw hsig
    ⟨rfl, rfl, rfl, rfl, rfl, rfl⟩ (fun u hu => put_of_ne _ hu _)
    (fun p hp => ⟨Function.update_of_ne hp .., rfl, rfl⟩) (fun _ _ => rfl) h.ring
    ⟨_, hclaim, rfl, fun hne => absurd hv hne⟩ (by rw [setPut_put]; rfl) ?_
  rw [setPut_put]
  exact ⟨hclaim, hv, hw, hsig, fun hlt => absurd hlt (not_lt.2 hb), fun _ => hb⟩

/-- The stores to `line`, `len` and `heap`. -/
theorem Inv.setLine (h : Inv g s) {b : List UInt8} {ok : Bool}
    (hpc : s.put t = .setLine b pos ok) :
    Inv g ((s.setLine g pos (lineFor g pos b ok)).setPut t (.publish b pos ok)) := by
  have hput := h.put t
  rw [hpc] at hput
  obtain ⟨hc, hv, hw, hsig, hbuf, hlong⟩ := hput
  have hlt : pos < s.head := (h.claimed pos).1 (by rw [hc]; rfl)
  have hring : ((s.setLine g pos (lineFor g pos b ok)).setPut t (.publish b pos ok)).ring =
      s.ring.write g pos (lineFor g pos b ok) := by
    simp only [State.ring, State.setPut, State.setLine, SeqRing.Mem.write, SeqRing.Mem.mk.injEq,
      true_and, and_true]
    constructor <;> funext i <;> by_cases hi : i = g.ix pos
    all_goals first
      | (subst hi; simp only [Function.update_self])
      | simp only [Function.update_of_ne hi]
  have hphase : Function.update s.phase pos .written pos = .written := Function.update_self ..
  refine h.of_slot (t := t) (by rw [hpc]; rfl) (by rw [hv]; decide) hw hsig
    ⟨rfl, rfl, rfl, rfl, rfl, rfl⟩ (fun u hu => put_of_ne _ hu _)
    (fun p hp => ⟨rfl, Function.update_of_ne hp .., Function.update_of_ne hp ..⟩)
    (fun i hi => Function.update_of_ne hi ..) ?_ ⟨_, hc, rfl, fun _ => ?_⟩
    (by rw [setPut_put]; rfl) ?_
  · rw [hring]
    exact h.ring.write (by show s.phase pos ≠ _; rw [hv]; decide) hlt hw
  · show Function.update s.item pos _ pos = _
    rw [Function.update_self, Claim.line, Bool.not_not]
  · rw [setPut_put]
    exact ⟨hc, hphase, hsig⟩

/-- The release-store of `seq`. -/
theorem Inv.publish (h : Inv g s) {b : List UInt8} {ok : Bool}
    (hpc : s.put t = .publish b pos ok) :
    Inv g ((s.publishSlot g pos).setPut t (.addCount b pos ok)) := by
  have hput := h.put t
  rw [hpc] at hput
  obtain ⟨hc, hv, hsig⟩ := hput
  have hw := h.ring.near pos (by show s.phase pos ≠ _; rw [hv]; decide)
  have hring : ((s.publishSlot g pos).setPut t (.addCount b pos ok)).ring =
      s.ring.publish g pos := by
    simp only [State.ring, State.setPut, State.publishSlot, SeqRing.Mem.publish,
      SeqRing.Mem.mk.injEq, true_and, and_true]
    constructor <;> funext i <;> by_cases hi : i = g.ix pos
    all_goals first
      | (subst hi; simp only [Function.update_self])
      | simp only [Function.update_of_ne hi]
  refine h.of_slot (t := t) (by rw [hpc]; rfl) (by rw [hv]; decide) hw hsig
    ⟨rfl, rfl, rfl, rfl, rfl, rfl⟩ (fun u hu => put_of_ne _ hu _)
    (fun p hp => ⟨rfl, Function.update_of_ne hp .., rfl⟩)
    (fun i hi => Function.update_of_ne hi ..) (hring ▸ h.ring.publish hv) ?_
    (by rw [setPut_put]; rfl) ?_
  · obtain ⟨c, hc', hi⟩ := h.content pos (by rw [hv]; decide)
    exact ⟨c, hc', h.mine (by rw [hpc]; rfl) c hc', fun _ => hi⟩
  · rw [setPut_put]
    exact ⟨hc, Function.update_self .., hsig⟩

/-- The post of `items_sem`: nothing is owed for the position any more. -/
theorem Inv.post (h : Inv g s) {b : List UInt8} {ok : Bool} (hpc : s.put t = .post b pos ok)
    {k : Put} (hself : ∀ s' : State ι, PutOk g s' t k) :
    Inv g ({ s with
      itemsSem := s.itemsSem + 1
      signalled := Function.update s.signalled pos true }.setPut t k) := by
  have hput := h.put t
  rw [hpc] at hput
  obtain ⟨hc, hv, -⟩ := hput
  have hpos : (s.put t).pos = some pos := by rw [hpc]; rfl
  have ho : Own g t pos s ({ s with
      itemsSem := s.itemsSem + 1
      signalled := Function.update s.signalled pos true }.setPut t k) :=
    { tail := rfl, consumer := rfl, lines := rfl, next := rfl, head := le_rfl
      put := fun u hu => put_of_ne _ hu _
      other := fun p hp => ⟨rfl, rfl, rfl, Function.update_of_ne hp ..⟩
      published := fun hp => ⟨hp, rfl⟩
      buf := fun _ _ _ _ => rfl
      mine := h.mine hpos
      hold := fun p hp => Option.some.inj (hp.symm.trans hpos) }
  refine h.of_own ho h.ring (by rw [setPut_put]; exact hself _) h.claimed (h.content pos)
    (fun c _ hs => ?_) fun _ => ⟨hv, (h.claimed pos).1 (by rw [hc]; rfl)⟩
  have hs' : Function.update s.signalled pos true pos = false := hs
  rw [Function.update_self] at hs'
  cases hs'

/-- **`socket_ring_put` keeps the invariant.** -/
theorem Inv.socketRingPut (h : Inv g s) (hs : socketRingPut g s t = some s') : Inv g s' := by
  have hput := h.put t
  have hle : s.tail ≤ s.head := (Nat.le_add_right _ _).trans h.ring.read_le_head
  unfold Socket.socketRingPut at hs
  cases hpc : s.put t with
  | idle | returned => simp [hpc] at hs
  | loadClosed b =>
    simp only [hpc] at hs
    split_ifs at hs <;> cases hs
    · exact h.setPut s.dropped s.count trivial (by rw [hpc]; rfl)
    · exact h.setPut s.dropped s.count trivial (by rw [hpc]; rfl)
  | loadHead b =>
    simp only [hpc] at hs
    cases hs
    exact h.setPut s.dropped s.count (le_refl s.head) (by rw [hpc]; rfl)
  | loadTail b head =>
    simp only [hpc] at hs
    rw [hpc] at hput
    split_ifs at hs with hfull <;> cases hs
    · exact h.setPut s.dropped s.count trivial (by rw [hpc]; rfl)
    · refine h.setPut s.dropped s.count ⟨hput, fun he => ?_⟩ (by rw [hpc]; rfl)
      -- if `head` is still the one loaded, `tail` is not past it and the test was exact
      have he' : s.head = head := he
      rw [Queue.szSub, if_pos (by omega)] at hfull
      show head < s.tail + g.capacity
      omega
  | full b =>
    simp only [hpc] at hs
    cases hs
    exact h.setPut _ s.count trivial (by rw [hpc]; rfl)
  | cas b head =>
    simp only [hpc] at hs
    rw [hpc] at hput
    split_ifs at hs with he <;> cases hs
    · subst he
      exact h.claim b (by rw [hpc]; rfl) (hput.2 rfl)
    · exact h.setPut s.dropped s.count trivial (by rw [hpc]; rfl)
  | copy b pos =>
    simp only [hpc] at hs
    rw [hpc] at hput
    split_ifs at hs with hb <;> cases hs
    · exact h.copyInline hpc
    · have h' := h.malloc hpc (not_lt.1 hb) true
      rw [show Function.update s.claim pos (some ⟨t, b, !true⟩) = s.claim by
        rw [Bool.not_true, ← hput.1, Function.update_eq_self]] at h'
      exact h'
  | setLine b pos ok =>
    simp only [hpc] at hs
    cases hs
    exact h.setLine hpc
  | publish b pos ok =>
    simp only [hpc] at hs
    cases hs
    exact h.publish hpc
  | addCount b pos ok =>
    simp only [hpc] at hs
    rw [hpc] at hput
    cases hs
    exact h.setPut s.dropped _ hput (by rw [hpc]; rfl)
  | post b pos ok =>
    simp only [hpc] at hs
    cases hs
    refine h.post hpc fun _ => ?_
    cases ok <;> trivial
  | incDropped b pos =>
    simp only [hpc] at hs
    cases hs
    exact h.setPut _ s.count trivial (by rw [hpc]; rfl)

/-- What a step of `socket_ring_put` does to the ring: nothing but its counters, or one
of the five operations on a position. -/
theorem put_cases (hs : socketRingPut g s t = some s') :
    (∃ k d pc, s' = { s with count := k, dropped := d }.setPut t pc) ∨
    (∃ b, s.put t = .cas b s.head ∧ s' = { s with
      head := s.head + 1
      claim := Function.update s.claim s.head (some ⟨t, b, false⟩) }.setPut t (.copy b s.head)) ∨
    (∃ b pos, s.put t = .copy b pos ∧ b.length < socketRingInlineLen ∧
      s' = (s.copyInline g pos b).setPut t (.setLine b pos true)) ∨
    (∃ b pos ok, s.put t = .setLine b pos ok ∧
      s' = (s.setLine g pos (lineFor g pos b ok)).setPut t (.publish b pos ok)) ∨
    (∃ b pos ok, s.put t = .publish b pos ok ∧
      s' = (s.publishSlot g pos).setPut t (.addCount b pos ok)) ∨
    ∃ b pos ok, s.put t = .post b pos ok ∧ s' = { s with
      itemsSem := s.itemsSem + 1
      signalled := Function.update s.signalled pos true }.setPut t
        (if ok then .returned 0 else .incDropped b pos) := by
  unfold Socket.socketRingPut at hs
  cases hpc : s.put t with
  | idle | returned => simp [hpc] at hs
  | loadClosed | loadTail =>
    simp only [hpc] at hs
    split_ifs at hs <;> cases hs <;>
      exact .inl ⟨s.count, s.dropped, _, rfl⟩
  | loadHead | full | addCount | incDropped =>
    simp only [hpc] at hs
    cases hs
    first
      | exact .inl ⟨s.count, s.dropped, _, rfl⟩
      | exact .inl ⟨s.count, _, _, rfl⟩
      | exact .inl ⟨_, s.dropped, _, rfl⟩
  | cas b head =>
    simp only [hpc] at hs
    split_ifs at hs with he <;> cases hs
    · subst he
      exact .inr (.inl ⟨b, rfl, rfl⟩)
    · exact .inl ⟨s.count, s.dropped, _, rfl⟩
  | copy b pos =>
    simp only [hpc] at hs
    split_ifs at hs with hb <;> cases hs
    · exact .inr (.inr (.inl ⟨b, pos, rfl, hb, rfl⟩))
    · exact .inl ⟨s.count, s.dropped, _, rfl⟩
  | setLine b pos ok =>
    simp only [hpc] at hs
    exact .inr (.inr (.inr (.inl ⟨b, pos, ok, rfl, (Option.some.inj hs).symm⟩)))
  | publish b pos ok =>
    simp only [hpc] at hs
    exact .inr (.inr (.inr (.inr (.inl ⟨b, pos, ok, rfl, (Option.some.inj hs).symm⟩))))
  | post b pos ok =>
    simp only [hpc] at hs
    exact .inr (.inr (.inr (.inr (.inr ⟨b, pos, ok, rfl, (Option.some.inj hs).symm⟩))))

theorem mallocFails_eq (hs : mallocFails s t = some s') :
    ∃ b pos, s.put t = .copy b pos ∧ socketRingInlineLen ≤ b.length ∧
      s' = { s with claim := Function.update s.claim pos (some ⟨t, b, true⟩) }.setPut t
        (.setLine b pos false) := by
  unfold mallocFails at hs
  split at hs
  · rename_i b pos hpc
    split_ifs at hs with hb
    exact ⟨b, pos, hpc, not_lt.1 hb, (Option.some.inj hs).symm⟩
  · cases hs

theorem casMiss_eq (hs : casMiss s t = some s') :
    ∃ b head, s.put t = .cas b head ∧ s' = s.setPut t (.loadHead b) := by
  unfold casMiss at hs
  split at hs
  · rename_i b head hpc
    exact ⟨b, head, hpc, (Option.some.inj hs).symm⟩
  · cases hs

omit [DecidableEq ι] in
theorem readLine_eq (hs : readLine s = some s') :
    ∃ n l, s.consumer = .returned n ∧ s.lines[s.next]? = some l ∧
      s' = { s with
        next := s.next + 1
        reads := if l.ptr = .null ∨ l.len = 0 then s.reads
          else s.reads ++ [(s.tail - n + s.next, s.bytesOf l)] } := by
  unfold readLine at hs
  split at hs
  · rename_i n hc
    split at hs
    · rename_i l hl
      refine ⟨n, l, hc, hl, ?_⟩
      split_ifs at hs ⊢ <;> exact (Option.some.inj hs).symm
    · cases hs
  · cases hs

omit [DecidableEq ι] in
theorem close_cases (hs : socketRingClose s = some s') :
    s.closer = .store ∧ s' = { s with closed := true, closer := .post } ∨
      s.closer = .post ∧ s' = { s with itemsSem := s.itemsSem + 1, closer := .idle } := by
  unfold socketRingClose at hs
  split at hs
  · cases hs
  · rename_i hc
    exact .inl ⟨hc, (Option.some.inj hs).symm⟩
  · rename_i hc
    exact .inr ⟨hc, (Option.some.inj hs).symm⟩

theorem Inv.mallocFails (h : Inv g s) (hs : mallocFails s t = some s') : Inv g s' := by
  obtain ⟨b, pos, hpc, hb, rfl⟩ := mallocFails_eq hs
  exact h.malloc hpc hb false

theorem Inv.casMiss (h : Inv g s) (hs : casMiss s t = some s') : Inv g s' := by
  obtain ⟨b, head, hpc, rfl⟩ := casMiss_eq hs
  exact h.setPut s.dropped s.count trivial (by rw [hpc]; rfl)

theorem Inv.call (h : Inv g s) (b : List UInt8) (hin : (s.put t).inside = false) :
    Inv g (s.setPut t (if b = [] then .returned (-1) else .loadClosed b)) := by
  have hpos := Put.pos_of_outside hin
  split_ifs <;> exact h.setPut s.dropped s.count trivial (by rw [hpos]; rfl)

/-! ### The writer -/

section Writer

omit [DecidableEq ι]

/-- A step of the writer leaves the producers alone. -/
theorem Inv.of_get (h : Inv g s) (hput : s'.put = s.put) (hhead : s'.head = s.head)
    (hhist : s'.phase = s.phase ∧ s'.item = s.item ∧ s'.claim = s.claim ∧
      s'.signalled = s.signalled)
    (htail : s.tail ≤ s'.tail)
    (hbuf : ∀ i, (s'.slots i).inlineBuf = (s.slots i).inlineBuf) (hring : SeqRing.Inv g s'.ring)
    (hget : GetOk s')
    (hlines : s'.lines = (List.range' s'.base (s'.consumer.taken + s'.consumer.batched)).map s'.item)
    (hnext : s'.next ≤ s'.consumer.batched) : Inv g s' := by
  obtain ⟨h₁, h₂, h₃, h₄⟩ := hhist
  refine ⟨hring, fun t => ?_, hget, hlines, hnext, ?_, ?_, ?_, ?_⟩
  · have hok := h.put t
    rw [hput]
    cases hpc : s.put t <;> rw [hpc] at hok <;>
      simp only [PutOk, Buffered, h₁, h₃, h₄, hhead, hbuf] at hok ⊢ <;> first
        | exact hok
        | (obtain ⟨hc, hv, hw, hok⟩ := hok; exact ⟨hc, hv, by omega, hok⟩)
        | exact ⟨hok.1, fun he => (hok.2 he).trans_le (by omega)⟩
  · rw [h₃, hhead]
    exact h.claimed
  · rw [h₁, h₂, h₃]
    exact h.content
  · rw [h₃, h₄, hput]
    exact h.held
  · rw [h₁, h₄, hhead]
    exact h.signalled

/-- A step that moves only the writer's program counter, and counters. -/
theorem Inv.moveGet (h : Inv g s) (k n : ℕ) {c : GetBatch} (ht : c.taken = s.consumer.taken)
    (hb : c.batched = s.consumer.batched)
    (hget : GetOk { s with consumer := c, itemsSem := k, count := n }) :
    Inv g { s with consumer := c, itemsSem := k, count := n } := by
  have hring : ({ s with consumer := c, itemsSem := k, count := n } : State ι).ring = s.ring := by
    simp only [State.ring, ht]
  refine h.of_get rfl rfl ⟨rfl, rfl, rfl, rfl⟩ le_rfl (fun _ => rfl) (hring ▸ h.ring) hget ?_ ?_
  · show s.lines = (List.range' (s.tail - c.batched) (c.taken + c.batched)).map s.item
    rw [ht, hb]
    exact h.lines
  · show s.next ≤ c.batched
    rw [hb]
    exact h.next

theorem szSub_of_le {a b : ℕ} (h : b ≤ a) : szSub a b = a - b := if_pos h

/-- The loop goes on, or has taken what there is. -/
theorem taken_loopTop (m head tail n : ℕ) :
    (loopTop m head tail n).taken = n ∧ (loopTop m head tail n).batched = 0 := by
  unfold loopTop afterLoop
  split_ifs with h₁ h₂
  · exact ⟨rfl, rfl⟩
  · exact ⟨h₂.symm, rfl⟩
  · exact ⟨rfl, rfl⟩

theorem getOk_loopTop {m head n : ℕ} (hc : s.consumer = loopTop m head s.tail n)
    (hle : s.tail ≤ head) (hhead : head ≤ s.head) : GetOk s := by
  unfold GetOk
  rw [hc, loopTop, afterLoop, szSub_of_le hle]
  split_ifs with h₁ h₂
  · exact ⟨rfl, by omega, hhead, h₁.2⟩
  · trivial
  · exact ⟨rfl, by omega⟩

/-- The writer takes the line under its cursor and clears the slot. -/
theorem Inv.take (h : Inv g s) {m head tail n : ℕ} (hc : s.consumer = .take m head tail n) :
    Inv g { s with
      lines := s.lines ++ [(s.slots (g.ix (tail + n))).line]
      slots := Function.update s.slots (g.ix (tail + n))
        { s.slots (g.ix (tail + n)) with line := noLine }
      consumer := loopTop m head tail (n + 1) } := by
  have hget := h.get
  simp only [GetOk, hc] at hget
  obtain ⟨rfl, hlt, hhead, -, hpub⟩ := hget
  have htaken : s.consumer.taken = n := by rw [hc]; rfl
  have hread : s.ring.read = s.tail + n := by simp only [State.ring, htaken]
  obtain ⟨htk, hbt⟩ := taken_loopTop m head s.tail (n + 1)
  have hval := h.ring.val_read (by rw [hread]; exact hpub)
  rw [hread] at hval
  refine h.of_get rfl rfl ⟨rfl, rfl, rfl, rfl⟩ le_rfl (fun i => ?_) ?_
    (getOk_loopTop rfl (show s.tail ≤ head by omega) hhead) ?_ ?_
  · show (Function.update s.slots _ _ i).inlineBuf = _
    by_cases hi : i = g.ix (s.tail + n)
    · subst hi
      rw [Function.update_self]
    · rw [Function.update_of_ne hi]
  · have hring := (h.ring.take (by rw [hread]; exact hpub)).clobber (v := noLine)
      (p := s.tail + n) (Nat.le_add_right _ _) (by show _ < s.ring.read + 1; omega)
    refine Eq.subst (motive := SeqRing.Inv g) ?_ hring
    simp only [State.ring, SeqRing.Mem.take, SeqRing.Mem.clobber, SeqRing.Mem.mk.injEq, htk, htaken,
      true_and, and_true]
    refine ⟨by omega, ?_, ?_⟩ <;> funext i <;> by_cases hi : i = g.ix (s.tail + n)
    all_goals first
      | (subst hi; simp only [Function.update_self])
      | simp only [Function.update_of_ne hi]
  · show s.lines ++ [(s.slots (g.ix (s.tail + n))).line] =
      (List.range' (s.tail - (loopTop m head s.tail (n + 1)).batched)
        ((loopTop m head s.tail (n + 1)).taken + (loopTop m head s.tail (n + 1)).batched)).map s.item
    have hlines := h.lines
    simp only [State.base, hc, GetBatch.taken, GetBatch.batched, Nat.sub_zero, Nat.add_zero]
      at hlines
    rw [htk, hbt, hlines, Nat.sub_zero, Nat.add_zero, List.range'_1_concat, List.map_append,
      show (s.slots (g.ix (s.tail + n))).line = s.item (s.tail + n) from hval]
    rfl
  · show s.next ≤ (loopTop m head s.tail (n + 1)).batched
    have hnext := h.next
    rw [hc] at hnext
    rw [hbt]
    exact hnext

/-- **The store of `tail`** frees the slots of the batch. -/
theorem Inv.storeTail (h : Inv g s) {tail n : ℕ} (hc : s.consumer = .storeTail tail n) :
    Inv g { s with tail := tail + n, consumer := .subCount n } := by
  have hget := h.get
  simp only [GetOk, hc] at hget
  obtain ⟨rfl, hpos⟩ := hget
  have hnext := h.next
  rw [hc] at hnext
  have hring : ({ s with tail := s.tail + n, consumer := .subCount n } : State ι).ring =
      s.ring.commit := by
    simp only [State.ring, SeqRing.Mem.commit, hc, GetBatch.taken, Nat.add_zero]
  refine h.of_get rfl rfl ⟨rfl, rfl, rfl, rfl⟩ (Nat.le_add_right _ _) (fun _ => rfl)
    (hring ▸ h.ring.commit) ⟨hpos, Nat.le_add_left _ _⟩ ?_ (hnext.trans (Nat.zero_le _))
  show s.lines = (List.range' (s.tail + n - n) (0 + n)).map s.item
  rw [Nat.add_sub_cancel, Nat.zero_add, h.lines, State.base, hc]
  rfl

/-- **`socket_ring_get_batch` keeps the invariant.** -/
theorem Inv.socketRingGetBatch (h : Inv g s) (hs : socketRingGetBatch g s = some s') :
    Inv g s' := by
  have hget := h.get
  have hle : s.tail ≤ s.head := (Nat.le_add_right _ _).trans h.ring.read_le_head
  unfold GetOk at hget
  unfold Socket.socketRingGetBatch at hs
  cases hc : s.consumer with
  | idle | returned | drained => simp [hc] at hs
  | loadClosed m =>
    simp only [hc] at hs
    cases hs
    split_ifs <;> exact h.moveGet s.itemsSem s.count (by rw [hc]; rfl) (by rw [hc]; rfl) trivial
  | emptyHead m | loadHead m =>
    simp only [hc] at hs
    cases hs
    exact h.moveGet s.itemsSem s.count (by rw [hc]; rfl) (by rw [hc]; rfl) ⟨hle, le_refl s.head⟩
  | emptyTail m head =>
    simp only [hc] at hs
    cases hs
    split_ifs <;> exact h.moveGet s.itemsSem s.count (by rw [hc]; rfl) (by rw [hc]; rfl) trivial
  | semWait m =>
    simp only [hc] at hs
    split_ifs at hs
    cases hs
    exact h.moveGet _ s.count (by rw [hc]; rfl) (by rw [hc]; rfl) trivial
  | loadTail m head =>
    simp only [hc] at hs hget
    cases hs
    split_ifs
    · exact h.moveGet s.itemsSem s.count (by rw [hc]; rfl) (by rw [hc]; rfl) trivial
    · obtain ⟨htk, hbt⟩ := taken_loopTop m head s.tail 0
      exact h.moveGet s.itemsSem s.count (by rw [htk, hc]; rfl) (by rw [hbt, hc]; rfl)
        (getOk_loopTop rfl hget.1 hget.2)
  | reloadClosed m =>
    simp only [hc] at hs
    cases hs
    split_ifs <;> exact h.moveGet s.itemsSem s.count (by rw [hc]; rfl) (by rw [hc]; rfl) trivial
  | loadSeq m head tail n =>
    simp only [hc] at hs hget
    obtain ⟨htail, hlt, hhead, hm⟩ := hget
    split_ifs at hs with hseq <;> cases hs
    · have hread : s.ring.read = tail + n := by
        simp only [State.ring, hc, GetBatch.taken, htail]
      have hpub := h.ring.published_of_seq (by rw [hread]; exact hseq)
      rw [hread] at hpub
      exact h.moveGet s.itemsSem s.count (by rw [hc]; rfl) (by rw [hc]; rfl)
        ⟨htail, hlt, hhead, hm, hpub⟩
    · -- the first slot that is not published ends the batch
      unfold afterLoop
      split_ifs with hn
      · exact h.moveGet s.itemsSem s.count (by rw [hc]; exact hn.symm) (by rw [hc]; rfl) trivial
      · exact h.moveGet s.itemsSem s.count (by rw [hc]; rfl) (by rw [hc]; rfl)
          ⟨htail, Nat.pos_of_ne_zero hn⟩
  | take m head tail n =>
    simp only [hc] at hs
    cases hs
    exact h.take hc
  | storeTail tail n =>
    simp only [hc] at hs
    cases hs
    exact h.storeTail hc
  | subCount n =>
    simp only [hc] at hs hget
    cases hs
    exact h.moveGet s.itemsSem _ (by rw [hc]; rfl) (by rw [hc]; rfl) hget

theorem Inv.callGet (h : Inv g s) (hf : s.consumer.free = true) (m : ℕ) :
    Inv g { s with
      lines := []
      next := 0
      consumer := if m = 0 then .drained else .loadClosed m } := by
  have htk : s.consumer.taken = 0 := by
    cases hc : s.consumer <;> rw [hc] at hf <;> first | rfl | cases hf
  have hzero : (if m = 0 then GetBatch.drained else .loadClosed m).taken = 0 ∧
      (if m = 0 then GetBatch.drained else .loadClosed m).batched = 0 := by
    split_ifs <;> exact ⟨rfl, rfl⟩
  refine h.of_get rfl rfl ⟨rfl, rfl, rfl, rfl⟩ le_rfl (fun _ => rfl) ?_ ?_ ?_ (Nat.zero_le _)
  · refine Eq.subst (motive := SeqRing.Inv g) ?_ h.ring
    simp only [State.ring, htk, hzero.1]
  · unfold GetOk
    split_ifs <;> trivial
  · show [] = List.map s.item (List.range' _ (_ + _))
    rw [hzero.1, hzero.2]
    rfl

/-- The arrays have as many lines as the batch. -/
theorem Inv.length_lines (h : Inv g s) {n : ℕ} (hc : s.consumer = .returned n) :
    s.lines.length = n := by
  rw [h.lines, hc]
  simp [GetBatch.taken, GetBatch.batched]

theorem Inv.readLine (h : Inv g s) (hs : readLine s = some s') : Inv g s' := by
  obtain ⟨n, l, hc, hl, rfl⟩ := readLine_eq hs
  have hnext : s.next + 1 ≤ s.consumer.batched := by
    have hlt := (List.getElem?_eq_some_iff.1 hl).1
    rw [h.length_lines hc] at hlt
    rw [hc]
    exact hlt
  exact h.of_get rfl rfl ⟨rfl, rfl, rfl, rfl⟩ le_rfl (fun _ => rfl) h.ring h.get h.lines hnext

end Writer

/-- **Every step keeps the invariant.** -/
theorem inv_step {a : Act ι} (h : Inv g s) (hs : step g s a = some s') : Inv g s' := by
  have hframe (k : ℕ) (c : Bool) (l : Close) :
      Inv g { s with itemsSem := k, closed := c, closer := l } :=
    h.of_get rfl rfl ⟨rfl, rfl, rfl, rfl⟩ le_rfl (fun _ => rfl) h.ring h.get h.lines h.next
  cases a with
  | call t b =>
    simp only [step] at hs
    by_cases hin : (s.put t).inside = true
    · rw [if_pos hin] at hs
      cases hs
    · rw [if_neg hin] at hs
      cases hs
      exact h.call b (Bool.eq_false_iff.2 hin)
  | put t => exact h.socketRingPut hs
  | mallocFails t => exact h.mallocFails hs
  | casMiss t => exact h.casMiss hs
  | callGet m =>
    simp only [step] at hs
    by_cases hf : s.consumer.free = true
    · rw [if_pos hf] at hs
      cases hs
      exact h.callGet hf m
    · rw [if_neg hf] at hs
      cases hs
  | get => exact h.socketRingGetBatch hs
  | read => exact h.readLine hs
  | callClose =>
    simp only [step] at hs
    split_ifs at hs
    cases hs
    exact hframe s.itemsSem s.closed _
  | close =>
    obtain ⟨-, rfl⟩ | ⟨-, rfl⟩ := close_cases hs
    · exact hframe s.itemsSem _ _
    · exact hframe _ s.closed _
  | signal =>
    cases hs
    exact hframe _ s.closed s.closer

omit [DecidableEq ι] in
theorem inv_create : Inv g (socketRingCreate : State ι) where
  ring := .fresh (fun i _ => (Nat.succ_ne_self i).symm) rfl rfl rfl fun _ => rfl
  put _ := trivial
  get := trivial
  lines := rfl
  next := le_rfl
  claimed p := by simp [socketRingCreate]
  content p h := absurd rfl h
  held p c hc := by cases hc
  signalled p hs := by cases hs

/-- **The invariant holds in every reachable state of a socket ring.** -/
theorem inv_reachable (h : Reachable (step g) (socketRingCreate : State ι) s) : Inv g s :=
  h.invariant (I := Inv g) inv_create fun _ _ _ hi _ hs => inv_step hi hs

/-- Outside `socket_ring_get_batch` nobody moves the writer, `tail` or its arrays, and
`head` only grows. -/
theorem beside_step {a : Act ι} (hget : a ≠ .get) (hcall : ∀ m, a ≠ .callGet m)
    (hs : step g s a = some s') :
    s'.consumer = s.consumer ∧ s'.tail = s.tail ∧ s'.lines = s.lines ∧ s.head ≤ s'.head ∧
      s.next ≤ s'.next := by
  cases a with
  | get => exact absurd rfl hget
  | callGet m => exact absurd rfl (hcall m)
  | put t =>
    obtain ⟨k, d, pc, rfl⟩ | ⟨b, hpc, rfl⟩ | ⟨b, pos, hpc, hb, rfl⟩ | ⟨b, pos, ok, hpc, rfl⟩ |
      ⟨b, pos, ok, hpc, rfl⟩ | ⟨b, pos, ok, hpc, rfl⟩ := put_cases hs
    case inr.inl => exact ⟨rfl, rfl, rfl, Nat.le_succ _, le_rfl⟩
    all_goals exact ⟨rfl, rfl, rfl, le_rfl, le_rfl⟩
  | read =>
    obtain ⟨n, l, -, -, rfl⟩ := readLine_eq hs
    exact ⟨rfl, rfl, rfl, le_rfl, Nat.le_succ _⟩
  | call t b =>
    simp only [step] at hs
    split at hs
    · cases hs
    · cases hs
      exact ⟨rfl, rfl, rfl, le_rfl, le_rfl⟩
  | mallocFails t =>
    obtain ⟨b, pos, -, -, rfl⟩ := mallocFails_eq hs
    exact ⟨rfl, rfl, rfl, le_rfl, le_rfl⟩
  | casMiss t =>
    obtain ⟨b, head, -, rfl⟩ := casMiss_eq hs
    exact ⟨rfl, rfl, rfl, le_rfl, le_rfl⟩
  | callClose =>
    simp only [step] at hs
    split_ifs at hs
    cases hs
    exact ⟨rfl, rfl, rfl, le_rfl, le_rfl⟩
  | close =>
    obtain ⟨-, rfl⟩ | ⟨-, rfl⟩ := close_cases hs
    · exact ⟨rfl, rfl, rfl, le_rfl, le_rfl⟩
    · exact ⟨rfl, rfl, rfl, le_rfl, le_rfl⟩
  | signal =>
    cases hs
    exact ⟨rfl, rfl, rfl, le_rfl, le_rfl⟩

end Socket
end Clogx
