/-
# What became of each call

`Clogx.Queue.Inv` is about positions; this module is about calls of
`mpsc_queue_try_put`.  A claimed position that is not published is still in the
hands of the thread that claimed it, unless that thread has abandoned it
(`History.held`): these are all the ways to leave a hole.  A call that returned
`0` owns a published position, accepted for its record; one that returned `-1`
owns none, or one that was refused or abandoned (`DoneOk`).  Later calls of a
thread own later positions (`History.order`).
-/

import Clogx.Queue.Steps

namespace Clogx
namespace Queue

open SeqRing (Shape Phase)
open Machine (Reachable)

variable {ι ρ : Type*}

/-- The position a call has claimed. -/
def TryPut.pos : TryPut ρ → Option ℕ
  | .recheck _ p | .poll _ p _ | .writeTomb _ p | .publishTomb _ p | .writeRec _ p
  | .publishRec _ p | .signal _ p _ | .post _ p _ => some p
  | _ => none

/-- The position a call has claimed and not yet published. -/
def TryPut.holds : TryPut ρ → Option ℕ
  | .signal _ _ _ | .post _ _ _ => none
  | pc => pc.pos

/-- What a call that has returned leaves behind. -/
def DoneOk (s : State ι ρ) (d : Done ι ρ) : Prop :=
  (d.ret = 0 ∧ ∃ p, d.pos = some p ∧ s.claim p = some ⟨d.thread, d.record, .accepted⟩ ∧
    s.phase p = .published) ∨
  (d.ret = -1 ∧ ∀ p, d.pos = some p → ∃ f, (f = .refused ∨ f = .abandoned) ∧
    s.claim p = some ⟨d.thread, d.record, f⟩)

/-- The order of two returned calls. -/
def Before (d e : Done ι ρ) : Prop :=
  d.thread = e.thread → ∀ p q, d.pos = some p → e.pos = some q → p < q

/-- The invariant of the calls. -/
structure History (s : State ι ρ) : Prop where
  held : ∀ p c, s.claim p = some c → s.phase p ≠ .published →
    c.fate = .abandoned ∨ (s.put c.thread).holds = some p
  done : ∀ d ∈ s.done, DoneOk s d
  order : s.done.Pairwise Before
  current : ∀ d ∈ s.done, ∀ p q, d.pos = some p → (s.put d.thread).pos = some q → p < q

variable {g : Shape} {s s' : State ι ρ} {t : ι}

/-- The claim of a call that has returned is settled. -/
theorem DoneOk.exists_claim {d : Done ι ρ} (h : DoneOk s d) {p : ℕ} (hp : d.pos = some p) :
    ∃ f, f ≠ .pending ∧ s.claim p = some ⟨d.thread, d.record, f⟩ := by
  rcases h with ⟨-, q, hq, hc, -⟩ | ⟨-, h⟩
  · obtain rfl : q = p := Option.some.inj (hq.symm.trans hp)
    exact ⟨_, by decide, hc⟩
  · obtain ⟨f, hf, hc⟩ := h p hp
    exact ⟨f, by rcases hf with rfl | rfl <;> decide, hc⟩

/-- Settled claims stay as they are and what is published stays published, so a
returned call keeps what it left. -/
theorem DoneOk.frame {d : Done ι ρ} (h : DoneOk s d)
    (hclaim : ∀ p c, s.claim p = some c → c.fate ≠ .pending → s'.claim p = some c)
    (hpub : ∀ p, s.phase p = .published → s'.phase p = .published) : DoneOk s' d := by
  rcases h with ⟨hr, p, hp, hc, hph⟩ | ⟨hr, h⟩
  · exact .inl ⟨hr, p, hp, hclaim p _ hc (by simp), hpub p hph⟩
  · refine .inr ⟨hr, fun p hp => ?_⟩
    obtain ⟨f, hf, hc⟩ := h p hp
    exact ⟨f, hf, hclaim p _ hc (by rcases hf with rfl | rfl <;> simp)⟩

/-- What a producer knows when it is about to return, is what its call leaves. -/
theorem doneOk_of_published {r : ρ} {pos : ℕ} {ret : ℤ}
    (h : s.phase pos = .published ∧ (ret = 0 ∧ s.claim pos = some ⟨t, r, .accepted⟩ ∨
      ret = -1 ∧ s.claim pos = some ⟨t, r, .refused⟩)) : DoneOk s ⟨t, r, some pos, ret⟩ := by
  obtain ⟨hp, ⟨hr, hc⟩ | ⟨hr, hc⟩⟩ := h
  · exact .inl ⟨hr, pos, rfl, hc, hp⟩
  · exact .inr ⟨hr, fun p hpos => ⟨_, .inl rfl, Option.some.inj hpos ▸ hc⟩⟩

/-- A step of thread `t` inside its call. -/
theorem History.of_step (h : History s) (hdone : s'.done = s.done)
    (hput : ∀ u, u ≠ t → s'.put u = s.put u)
    (hclaim : ∀ p c, s.claim p = some c → c.fate ≠ .pending → s'.claim p = some c)
    (hpub : ∀ p, s.phase p = .published → s'.phase p = .published)
    (hheld : ∀ p c, s'.claim p = some c → s'.phase p ≠ .published →
      c.fate = .abandoned ∨ (s'.put c.thread).holds = some p)
    (hpos : ∀ q, (s'.put t).pos = some q → (s.put t).pos = some q ∨
      ∀ p c, s.claim p = some c → p < q) : History s' where
  held := hheld
  done d hd := (h.done d (hdone ▸ hd)).frame hclaim hpub
  order := hdone ▸ h.order
  current d hd p q hp hq := by
    rw [hdone] at hd
    by_cases hu : d.thread = t
    · rcases hpos q (hu ▸ hq) with hq' | hlt
      · exact h.current d hd p q hp (hu ▸ hq')
      · obtain ⟨f, -, hc⟩ := (h.done d hd).exists_claim hp
        exact hlt p _ hc
    · exact h.current d hd p q hp (hput _ hu ▸ hq)

section Producer

variable [DecidableEq ι]

/-- A step that moves only the program counter, within the call's position. -/
theorem History.setPut (h : History s) {pc : TryPut ρ} (hh : pc.holds = (s.put t).holds)
    (hp : pc.pos = (s.put t).pos) : History (s.setPut t pc) := by
  refine h.of_step (t := t) rfl (fun u hu => Function.update_of_ne hu _ _) (fun _ _ hc _ => hc)
    (fun _ hp => hp) (fun p c hc hph => ?_) (fun q hq => .inl (by simpa [hp] using hq))
  refine (h.held p c hc hph).imp_right fun hold => ?_
  by_cases hu : c.thread = t
  · subst hu
    simpa [hh] using hold
  · simpa [State.setPut, Function.update_of_ne hu] using hold

/-- The call returns: its position, if any, is published or abandoned. -/
theorem History.finish (h : History s) {r : ρ} {pos : Option ℕ} {ret : ℤ}
    (hpos : pos = (s.put t).pos) (hok : DoneOk s ⟨t, r, pos, ret⟩)
    (hheld : ∀ p c, s.claim p = some c → s.phase p ≠ .published → c.thread = t →
      c.fate = .abandoned) : History (s.finish t r pos ret) where
  held p c hc hph := by
    by_cases hu : c.thread = t
    · exact .inl (hheld p c hc hph hu)
    · refine (h.held p c hc hph).imp_right fun hold => ?_
      simpa [State.finish, Function.update_of_ne hu] using hold
  done d hd := by
    rcases List.mem_append.1 hd with hd | hd
    · exact h.done d hd
    · exact (List.mem_singleton.1 hd) ▸ hok
  order := by
    refine List.pairwise_append.2 ⟨h.order, List.pairwise_singleton _ _, fun d hd e he => ?_⟩
    obtain rfl := List.mem_singleton.1 he
    intro hu p q hp hq
    obtain rfl : d.thread = t := hu
    exact h.current d hd p q hp (hpos ▸ hq)
  current d hd p q hp hq := by
    by_cases hu : d.thread = t
    · simp [State.finish, hu, TryPut.pos] at hq
    · rcases List.mem_append.1 hd with hd | hd
      · exact h.current d hd p q hp (by
          simpa [State.finish, Function.update_of_ne hu] using hq)
      · exact absurd (by rw [List.mem_singleton.1 hd]) hu

omit [DecidableEq ι] in
/-- Nothing is held by a thread whose call has claimed nothing, or published
what it claimed. -/
theorem History.abandoned_of_holds (h : History s) (ht : (s.put t).holds = none) {p : ℕ}
    {c : Claim ι ρ} (hc : s.claim p = some c) (hph : s.phase p ≠ .published)
    (hu : c.thread = t) : c.fate = .abandoned := by
  rcases h.held p c hc hph with hf | hold
  · exact hf
  · rw [hu, ht] at hold
    cases hold

omit [DecidableEq ι] in
/-- A thread holds at most the one position its call has claimed. -/
theorem History.held_of_ne (h : History s) {pos p : ℕ} (ht : (s.put t).holds = some pos)
    {c : Claim ι ρ} (hc : s.claim p = some c) (hph : s.phase p ≠ .published) (hne : p ≠ pos)
    (hu : c.thread = t) : c.fate = .abandoned := by
  rcases h.held p c hc hph with hf | hold
  · exact hf
  · rw [hu, ht] at hold
    exact absurd (Option.some.inj hold).symm hne

/-- A step on the one position `pos` thread `t` holds. -/
theorem History.of_held (h : History s) {pos : ℕ} (ht : (s.put t).holds = some pos)
    (hdone : s'.done = s.done) (hput : ∀ u, u ≠ t → s'.put u = s.put u)
    (hout : ∀ p, p ≠ pos → s'.claim p = s.claim p ∧ s'.phase p = s.phase p)
    (hclaim : ∀ c, s.claim pos = some c → c.fate ≠ .pending → s'.claim pos = some c)
    (hpub : s.phase pos ≠ .published)
    (hpos : ∀ c, s'.claim pos = some c → s'.phase pos ≠ .published →
      (s'.put c.thread).holds = some pos)
    (hpc : (s'.put t).pos = (s.put t).pos) : History s' := by
  refine h.of_step (t := t) hdone hput (fun p c hc hf => ?_) (fun p hp => ?_)
    (fun p c hc hph => ?_) fun q hq => .inl (hpc ▸ hq)
  · by_cases hp : p = pos
    · exact hp ▸ hclaim c (hp ▸ hc) hf
    · rw [(hout p hp).1, hc]
  · by_cases hp' : p = pos
    · exact absurd (hp' ▸ hp) hpub
    · rw [(hout p hp').2, hp]
  · by_cases hp : p = pos
    · subst hp
      exact .inr (hpos c hc hph)
    · rw [(hout p hp).1] at hc
      rw [(hout p hp).2] at hph
      by_cases hu : c.thread = t
      · exact .inl (h.held_of_ne ht hc hph hp hu)
      · rw [hput _ hu]
        exact h.held p c hc hph

variable [Inhabited ρ]

/-- **`mpsc_queue_try_put` keeps the history.** -/
theorem History.tryPut (h : History s) (hi : Inv g s) (hs : mpscQueueTryPut g s t = some s') :
    History s' := by
  have hput := hi.put t
  unfold mpscQueueTryPut at hs
  cases hpc : s.put t with
  | idle | returned => simp [hpc] at hs
  | loadClosed r =>
    simp only [hpc] at hs
    have hnone : (s.put t).holds = none := by rw [hpc]; rfl
    split_ifs at hs <;> cases hs
    · exact h.finish (by rw [hpc]; rfl) (.inr ⟨rfl, fun p hp => nomatch hp⟩)
        fun p c hc hph => h.abandoned_of_holds hnone hc hph
    · exact h.setPut (by rw [hpc]; rfl) (by rw [hpc]; rfl)
  | loadTail r =>
    simp only [hpc] at hs
    cases hs
    exact h.setPut (by rw [hpc]; rfl) (by rw [hpc]; rfl)
  | loadHead r tailSnap =>
    simp only [hpc] at hs
    have hnone : (s.put t).holds = none := by rw [hpc]; rfl
    split_ifs at hs <;> cases hs
    · exact h.finish (by rw [hpc]; rfl) (.inr ⟨rfl, fun p hp => nomatch hp⟩)
        fun p c hc hph => h.abandoned_of_holds hnone hc hph
    · exact h.setPut (by rw [hpc]; rfl) (by rw [hpc]; rfl)
  | fetchAdd r =>
    simp only [hpc] at hs
    have hnone : (s.put t).holds = none := by rw [hpc]; rfl
    have hlt : ∀ p c, s.claim p = some c → p < s.head := fun p c hc =>
      (hi.claimed p).1 (by rw [hc]; rfl)
    cases hs
    refine h.of_step (t := t) rfl (fun u hu => Function.update_of_ne hu _ _)
      (fun p c hc _ => ?_) (fun _ hp => hp) (fun p c hc hph => ?_) fun q hq => .inr ?_
    · rw [← hc]
      exact Function.update_of_ne (hlt p c hc).ne _ _
    · by_cases hp : p = s.head
      · subst hp
        obtain rfl : _ = c := by simpa [State.setPut, State.setFate] using hc
        right
        simp [TryPut.holds, TryPut.pos]
      · have hc' : s.claim p = some c := by
          simpa [State.setPut, State.setFate, Function.update_of_ne hp] using hc
        by_cases hu : c.thread = t
        · exact .inl (h.abandoned_of_holds hnone hc' hph hu)
        · simpa [State.setPut, State.setFate, Function.update_of_ne hu] using h.held p c hc' hph
    · obtain rfl : s.head = q := by simpa [TryPut.pos] using hq
      exact hlt
  | recheck r pos | poll r pos =>
    simp only [hpc] at hs
    rw [hpc] at hput
    obtain ⟨hc, hv⟩ := hput
    have hsettle (f : Fate) (pc : TryPut ρ) (hh : pc.holds = some pos) (hp : pc.pos = some pos) :
        History ((s.setFate t r pos f).setPut t pc) := by
      refine h.of_held (t := t) (show (s.put t).holds = some pos by rw [hpc]; rfl) rfl
        (fun u hu => Function.update_of_ne hu _ _)
        (fun p hp => ⟨Function.update_of_ne hp _ _, rfl⟩) (fun c hc' hf => ?_)
        (by rw [hv]; decide) (fun c hc' _ => ?_) (by rw [setPut_put, hp, hpc]; rfl)
      · exact absurd (by rw [← Option.some.inj (hc.symm.trans hc')]) hf
      · obtain rfl : _ = c := by simpa [State.setPut, State.setFate] using hc'
        simpa using hh
    split_ifs at hs <;> cases hs
    all_goals first
      | exact h.setPut (by rw [hpc]; rfl) (by rw [hpc]; rfl)
      | exact hsettle _ _ rfl rfl
  | writeTomb r pos | writeRec r pos =>
    simp only [hpc] at hs
    rw [hpc] at hput
    obtain ⟨hc, hv, -⟩ := hput
    cases hs
    refine h.of_held (t := t) (show (s.put t).holds = some pos by rw [hpc]; rfl) rfl
      (fun u hu => Function.update_of_ne hu _ _)
      (fun p hp => ⟨rfl, Function.update_of_ne hp _ _⟩) (fun c hc' _ => hc')
      (by rw [hv]; decide) (fun c hc' _ => ?_) (by simp [hpc, TryPut.pos])
    rw [← Option.some.inj (hc.symm.trans hc')]
    simp [TryPut.holds, TryPut.pos]
  | publishTomb r pos | publishRec r pos =>
    simp only [hpc] at hs
    rw [hpc] at hput
    obtain ⟨hc, hw, -⟩ := hput
    cases hs
    refine h.of_held (t := t) (show (s.put t).holds = some pos by rw [hpc]; rfl) rfl
      (fun u hu => Function.update_of_ne hu _ _)
      (fun p hp => ⟨rfl, Function.update_of_ne hp _ _⟩) (fun c hc' _ => hc')
      (by rw [hw]; decide) (fun c hc' hph => ?_) (by simp [hpc, TryPut.pos])
    exact absurd (by simp [State.setPut, State.publishSlot]) hph
  | signal r pos ret =>
    simp only [hpc] at hs
    rw [hpc] at hput
    split_ifs at hs <;> cases hs
    · have h' : History (s.setPut t (.post r pos ret)) :=
        h.setPut (by rw [hpc]; rfl) (by rw [hpc]; rfl)
      exact ⟨h'.held, h'.done, h'.order, h'.current⟩
    · exact h.finish (by rw [hpc]; rfl) (doneOk_of_published hput)
        fun p c hc hph => h.abandoned_of_holds (by rw [hpc]; rfl) hc hph
  | post r pos ret =>
    simp only [hpc] at hs
    rw [hpc] at hput
    cases hs
    have h' := h.finish (t := t) (by rw [hpc]; rfl) (doneOk_of_published hput)
      fun p c hc hph => h.abandoned_of_holds (by rw [hpc]; rfl) hc hph
    exact ⟨h'.held, h'.done, h'.order, h'.current⟩

/-- A failed wake-up keeps the history. -/
theorem History.casMiss (h : History s) (hi : Inv g s) (hs : casMiss s t = some s') :
    History s' := by
  have hput := hi.put t
  obtain ⟨r, pos, ret, hpc, rfl⟩ := casMiss_eq hs
  rw [hpc] at hput
  exact h.finish (by rw [hpc]; rfl) (doneOk_of_published hput)
    fun p c hc hph => h.abandoned_of_holds (by rw [hpc]; rfl) hc hph

/-- The call that gives up leaves its position behind, marked as abandoned. -/
theorem History.abandon (h : History s) (hi : Inv g s) (hs : abandon g s t = some s') :
    History s' := by
  have hput := hi.put t
  obtain ⟨r, pos, hpc, -, rfl⟩ := abandon_eq hs
  rw [hpc] at hput
  obtain ⟨hc, hv⟩ := hput
  have hout : ∀ p, p ≠ pos → (s.setFate t r pos .abandoned).claim p = s.claim p :=
    fun p hp => Function.update_of_ne hp _ _
  have hpos : (s.setFate t r pos .abandoned).claim pos = some ⟨t, r, .abandoned⟩ :=
    Function.update_self ..
  refine History.finish (s := s.setFate t r pos .abandoned) ?_ (by rw [show
    (s.setFate t r pos .abandoned).put t = s.put t from rfl, hpc]; rfl)
    (.inr ⟨rfl, fun p hp => ⟨_, .inr rfl, Option.some.inj hp ▸ hpos⟩⟩) fun p c hc' hph hu => ?_
  · refine h.of_held (t := t) (show (s.put t).holds = some pos by rw [hpc]; rfl) rfl (fun _ _ => rfl)
      (fun p hp => ⟨hout p hp, rfl⟩) (fun c hc' hf => ?_) (by rw [hv]; decide)
      (fun c hc' _ => ?_) rfl
    · exact absurd (by rw [← Option.some.inj (hc.symm.trans hc')]) hf
    · rw [← Option.some.inj (hpos.symm.trans hc')]
      show (s.put t).holds = some pos
      rw [hpc]
      rfl
  · by_cases hp : p = pos
    · subst hp
      rw [← Option.some.inj (hpos.symm.trans hc')]
    · rw [hout p hp] at hc'
      exact h.held_of_ne (by rw [hpc]; rfl) hc' hph hp hu

end Producer

/-! ### Whole runs -/

/-- The thread whose call a step belongs to. -/
def Act.producer : Act ι ρ → Option ι
  | .call t _ | .put t | .giveUp t | .casMiss t => some t
  | _ => none

/-- From `s` to `s'` nothing happened to any call of `mpsc_queue_try_put`. -/
structure SameCalls (s s' : State ι ρ) : Prop where
  put : s'.put = s.put
  claim : s'.claim = s.claim
  phase : s'.phase = s.phase
  item : s'.item = s.item
  done : s'.done = s.done
  head : s'.head = s.head

/-- So does a step of another party. -/
theorem History.sameCalls (h : History s) (hs : SameCalls s s') : History s' where
  held := by rw [hs.claim, hs.phase, hs.put]; exact h.held
  done := by
    rw [hs.done]
    exact fun d hd => (h.done d hd).frame (fun p c hc _ => hs.claim ▸ hc) fun p hp => hs.phase ▸ hp
  order := by rw [hs.done]; exact h.order
  current := by rw [hs.done, hs.put]; exact h.current

/-- A queue nobody has used. -/
theorem history_fresh (hcl : ∀ p, s.claim p = none) (hd : s.done = []) : History s where
  held p c hc := by rw [hcl p] at hc; cases hc
  done d h := by rw [hd] at h; cases h
  order := by rw [hd]; exact .nil
  current d h := by rw [hd] at h; cases h

variable [DecidableEq ι] [Inhabited ρ]

/-- Consumer, closer and waiter leave the calls alone. -/
theorem sameCalls_step {a : Act ι ρ} (ha : a.producer = none) (hs : step g s a = some s') :
    SameCalls s s' := by
  cases a with
  | call | put | giveUp | casMiss => cases ha
  | consume =>
    rcases consume_cases hs with ⟨pc, -, hs⟩ | ⟨pc, -, hs⟩
    · obtain ⟨parked, items, pc', rfl⟩ := waitForItems_eq hs
      exact ⟨rfl, rfl, rfl, rfl, rfl, rfl⟩
    · obtain ⟨tail, slots, locked, waiter, records, copied, pc', -, rfl⟩ := getBatchTry_eq hs
      exact ⟨rfl, rfl, rfl, rfl, rfl, rfl⟩
  | close =>
    obtain ⟨closed, items, slots, locked, waiter, closer, -, -, rfl⟩ := close_eq hs
    exact ⟨rfl, rfl, rfl, rfl, rfl, rfl⟩
  | waitEmpty =>
    obtain ⟨locked, waiter, rfl⟩ := waitEmpty_eq hs
    exact ⟨rfl, rfl, rfl, rfl, rfl, rfl⟩
  | callClose =>
    obtain ⟨-, rfl⟩ := callClose_eq hs
    exact ⟨rfl, rfl, rfl, rfl, rfl, rfl⟩
  | callWait | callGet | callWaitEmpty | spurious =>
    simp only [step] at hs
    split_ifs at hs
    cases hs
    exact ⟨rfl, rfl, rfl, rfl, rfl, rfl⟩

/-- **Every step keeps the history.** -/
theorem history_step {a : Act ι ρ} (h : History s) (hi : Inv g s) (hs : step g s a = some s') :
    History s' := by
  cases a with
  | call t r =>
    simp only [step] at hs
    split_ifs at hs with hin
    cases hs
    -- between two calls a thread has no position
    have hnone : (s.put t).pos = none ∧ (s.put t).holds = none := by
      cases hpc : s.put t <;> first | exact ⟨rfl, rfl⟩ | simp [hpc, TryPut.inside] at hin
    exact h.setPut (by rw [hnone.2]; rfl) (by rw [hnone.1]; rfl)
  | put t => exact h.tryPut hi hs
  | giveUp t => exact h.abandon hi hs
  | casMiss t => exact h.casMiss hi hs
  | callWait | callGet | consume | callClose | close | callWaitEmpty | waitEmpty | spurious =>
    exact h.sameCalls (sameCalls_step rfl hs)

/-- **The history is right in every run.** -/
theorem history_reachable {junk : ℕ → Entry ρ}
    (h : Reachable (step g) (mpscQueueCreate g junk) s) : Inv g s ∧ History s :=
  h.invariant (I := fun s => Inv g s ∧ History s)
    ⟨inv_create junk, history_fresh (fun _ => rfl) rfl⟩
    fun _ _ _ hi _ hs => ⟨inv_step hi.1 hs, history_step hi.2 hi.1 hs⟩

end Queue
end Clogx
