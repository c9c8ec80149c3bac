/-
# The order in which the records of a thread arrive

`log_async_write_for` has two ways to the sinks: the queue, and the caller's own
dispatch when the record did not get into the queue.  Records of one thread keep
their order on each way (`OrderInv.ascending`: a thread claims its positions in
the order of its calls), but the second way is shorter.  A caller that dispatches
while a record it logged before is still in the queue, or in the worker's batch,
overtakes itself.

What a sink receives is, in order, those of the dispatched records that it takes
(its `min_level`), since `log_dispatcher_dispatch_for` writes a record under
`dispatcher_mutex`.  `tid` is the field `record.tid`: every caller fills it in
with its own thread id (`stamped`).
-/

import Clogx.Async.Shutdown

namespace Clogx
namespace Queue

open SeqRing (Shape)

variable {ι ρ : Type*} [DecidableEq ι] [Inhabited ρ] {g : Shape} {s s' : State ι ρ}

/-- A position is claimed at `head`. -/
theorem pos_eq_head {a : Act ι ρ} {t : ι} {p : ℕ} (ha : a.inCall t) (hs : step g s a = some s')
    (hnone : (s.put t).pos = none) (hp : (s'.put t).pos = some p) : p = s.head := by
  rcases ha with rfl | rfl | rfl
  · cases hpc : s.put t with
    | idle | returned => simp [step, mpscQueueTryPut, hpc] at hs
    | loadClosed | loadTail | loadHead =>
      simp only [step, mpscQueueTryPut, hpc] at hs
      try split_ifs at hs
      all_goals
        cases hs
        simp [State.finish, TryPut.pos] at hp
    | fetchAdd r =>
      simp only [step, mpscQueueTryPut, hpc] at hs
      cases hs
      simpa [TryPut.pos, eq_comm] using hp
    | _ => rw [hpc] at hnone; cases hnone
  · cases hpc : s.put t with
    | poll => rw [hpc] at hnone; cases hnone
    | _ => simp [step, abandon, hpc] at hs
  · cases hpc : s.put t with
    | signal => rw [hpc] at hnone; cases hnone
    | _ => simp [step, casMiss, hpc] at hs

end Queue

namespace Async

open SeqRing (Shape)
open Machine (Reach Reachable exists_of_run exists_of_runIf)

variable {ι ρ : Type*}

/-- The calls, by number, whose records thread `t` logged and a sink has received. -/
def arrivals [DecidableEq ι] (tid : ρ → ι) (t : ι) (takes : Call ρ → Bool) (l : List (Event ρ)) :
    List ℕ :=
  l.filterMap fun
    | .dispatched _ c => if tid c.record = t ∧ takes c = true then some c.id else none
    | _ => none

/-- Every sink has received the records of every thread in the order of its calls. -/
def InOrder [DecidableEq ι] (tid : ρ → ι) (s : State ι ρ) : Prop :=
  ∀ t takes, (arrivals tid t takes s.events).Pairwise (· < ·)

/-- A thread writes its own id into what it logs. -/
def stamped (tid : ρ → ι) (_ : State ι ρ) : Act ι ρ → Prop
  | .log t r => tid r = t
  | _ => True

/-- A caller dispatches its record itself only when the worker has dispatched every record of this
thread that the queue has accepted. -/
def overtakesNone (tid : ρ → ι) (s : State ι ρ) : Act ι ρ → Prop
  | .write t =>
    match s.write t with
    | .dispatch _ _ => ∀ p < s.q.head, ∀ c ∈ s.q.acceptedAt p, tid c.record = t →
        Event.dispatched true c ∈ s.events
    | _ => True
  | _ => True

/-- **The invariant of the order.**  A thread claims positions in the order of its calls; what it
has dispatched itself is older than its open call and than everything of it that the worker has
still to dispatch. -/
structure OrderInv [DecidableEq ι] (tid : ρ → ι) (s : State ι ρ) : Prop where
  open_ : ∀ t c, (s.write t).call = some c → tid c.record = t
  owner : ∀ p cl, s.q.claim p = some cl → tid cl.record.record = cl.thread
  below : ∀ t c p cl, (s.write t).call = some c → s.q.claim p = some cl →
    tid cl.record.record = t → cl.record.id ≤ c.id
  ascending : ∀ p p' cl cl', p < p' → s.q.claim p = some cl → s.q.claim p' = some cl' →
    tid cl.record.record = tid cl'.record.record → cl.record.id < cl'.record.id
  sent : ∀ t c d, (s.write t).call = some c → Event.dispatched false d ∈ s.events →
    tid d.record = t → d.id < c.id
  ahead : ∀ d p cl, Event.dispatched false d ∈ s.events → s.q.claim p = some cl →
    cl.fate = .pending ∨ cl.fate = .accepted → tid d.record = tid cl.record.record →
    Event.dispatched true cl.record ∉ s.events → d.id < cl.record.id
  ordered : InOrder tid s

variable [DecidableEq ι] {tid : ρ → ι} {s s' : State ι ρ} {t : ι} {c : Call ρ}

theorem arrivals_append (takes : Call ρ → Bool) (l l' : List (Event ρ)) :
    arrivals tid t takes (l ++ l') = arrivals tid t takes l ++ arrivals tid t takes l' :=
  List.filterMap_append

theorem mem_arrivals {takes : Call ρ → Bool} {l : List (Event ρ)} {k : ℕ}
    (h : k ∈ arrivals tid t takes l) :
    ∃ b d, Event.dispatched b d ∈ l ∧ tid d.record = t ∧ d.id = k := by
  obtain ⟨e, he, hk⟩ := List.mem_filterMap.1 h
  cases e with
  | dispatched b d =>
    simp only at hk
    split_ifs at hk with hd
    exact ⟨b, d, he, hd.1, Option.some.inj hk⟩
  | _ => cases hk

/-- What is no dispatch does not arrive. -/
theorem arrivals_eq_nil (takes : Call ρ → Bool) {l : List (Event ρ)}
    (h : ∀ b d, Event.dispatched b d ∉ l) : arrivals tid t takes l = [] := by
  refine List.filterMap_eq_nil_iff.2 fun e he => ?_
  cases e with
  | dispatched b d => exact absurd he (h b d)
  | _ => rfl

theorem InOrder.quiet (h : InOrder tid s) {l : List (Event ρ)} (hl : s'.events = s.events ++ l)
    (hev : ∀ b d, Event.dispatched b d ∉ l) : InOrder tid s' := by
  intro t takes
  rw [hl, arrivals_append, arrivals_eq_nil takes hev, List.append_nil]
  exact h t takes

/-- **One more dispatch keeps the order** if what has arrived of the thread is older. -/
theorem InOrder.dispatch (h : InOrder tid s) {b : Bool} {l : List (Event ρ)}
    (hl : s'.events = s.events ++ .dispatched b c :: l) (hev : ∀ b d, Event.dispatched b d ∉ l)
    (hold : ∀ b d, Event.dispatched b d ∈ s.events → tid d.record = tid c.record → d.id < c.id) :
    InOrder tid s' := by
  intro t takes
  have hone : arrivals tid t takes (.dispatched b c :: l) =
      if tid c.record = t ∧ takes c = true then [c.id] else [] := by
    have hnil : arrivals tid t takes l = [] := arrivals_eq_nil takes hev
    rw [← List.singleton_append, arrivals_append, hnil, List.append_nil]
    split_ifs with hc <;> simp [arrivals, hc]
  rw [hl, arrivals_append, hone]
  split_ifs with hc
  · refine List.pairwise_append.2 ⟨h t takes, List.pairwise_singleton _ _, fun k hk j hj => ?_⟩
    obtain ⟨b, d, hd, htid, rfl⟩ := mem_arrivals hk
    obtain rfl := List.mem_singleton.1 hj
    exact hold b d hd (htid.trans hc.1.symm)
  · rw [List.append_nil]
    exact h t takes

/-- A claim after the step: it was there, or it is one of an open call, which had it before or gets
it at `head` as its first. -/
def ClaimFrom (s : State ι ρ) (p : ℕ) (cl : Queue.Claim ι (Call ρ)) : Prop :=
  s.q.claim p = some cl ∨ ∃ t c, (s.write t).call = some c ∧ cl.thread = t ∧ cl.record = c ∧
    ((∃ f, s.q.claim p = some ⟨t, c, f⟩) ∨ p = s.q.head ∧ s.Unclaimed c.id)

/-- A step that dispatches nothing and opens no call. -/
theorem OrderInv.quiet (h : OrderInv tid s) (hclaimed : ∀ p, (s.q.claim p).isSome → p < s.q.head)
    (hcall : ∀ u d, (s'.write u).call = some d → (s.write u).call = some d)
    {l : List (Event ρ)} (hl : s'.events = s.events ++ l) (hev : ∀ b d, Event.dispatched b d ∉ l)
    (hclaim : ∀ p cl, s'.q.claim p = some cl → ClaimFrom s p cl) : OrderInv tid s' := by
  have hmem (b : Bool) (d : Call ρ) : Event.dispatched b d ∈ s'.events ↔
      Event.dispatched b d ∈ s.events := by
    rw [hl, List.mem_append]
    exact or_iff_left (hev b d)
  -- the call at an old position, or a new position at `head`
  have hcases (p : ℕ) (cl : Queue.Claim ι (Call ρ)) (hcl : s'.q.claim p = some cl) :
      (∃ cl₀, s.q.claim p = some cl₀ ∧ cl₀.record = cl.record ∧ cl₀.thread = cl.thread) ∨
        ∃ t c, (s.write t).call = some c ∧ cl.thread = t ∧ cl.record = c ∧ p = s.q.head ∧
          s.Unclaimed c.id := by
    rcases hclaim p cl hcl with hold | ⟨t, c, hc, ht, hr, ⟨f, hf⟩ | ⟨hp, hun⟩⟩
    · exact .inl ⟨cl, hold, rfl, rfl⟩
    · exact .inl ⟨_, hf, hr.symm, ht.symm⟩
    · exact .inr ⟨t, c, hc, ht, hr, hp, hun⟩
  refine ⟨fun u d hd => h.open_ u d (hcall u d hd), fun p cl hcl => ?_, fun u d p cl hd hcl htid => ?_,
    fun p p' cl cl' hlt hcl hcl' htid => ?_, fun u d e hd he => h.sent u d e (hcall u d hd)
      ((hmem _ _).1 he), fun d p cl hd hcl hfate htid hnot => ?_, h.ordered.quiet hl hev⟩
  · rcases hcases p cl hcl with ⟨cl₀, hcl₀, hr, ht⟩ | ⟨t, c, hc, ht, hr, -⟩
    · rw [← hr, ← ht]
      exact h.owner p cl₀ hcl₀
    · rw [hr, ht]
      exact h.open_ t c hc
  · rcases hcases p cl hcl with ⟨cl₀, hcl₀, hr, -⟩ | ⟨t, c, hc, ht, hr, -⟩
    · rw [← hr] at htid ⊢
      exact h.below u d p cl₀ (hcall u d hd) hcl₀ htid
    · rw [hr, h.open_ t c hc] at htid
      subst htid
      rw [hr, Option.some.inj (hc.symm.trans (hcall t d hd))]
  · rcases hcases p cl hcl with ⟨cl₀, hcl₀, hr, -⟩ | ⟨t, c, hc, ht, hr, hp, hun⟩ <;>
      rcases hcases p' cl' hcl' with ⟨cl₀', hcl₀', hr', -⟩ | ⟨t', c', hc', ht', hr', hp', hun'⟩
    · rw [← hr, ← hr'] at htid ⊢
      exact h.ascending p p' cl₀ cl₀' hlt hcl₀ hcl₀' htid
    · rw [← hr, hr'] at htid ⊢
      rw [h.open_ t' c' hc'] at htid
      exact lt_of_le_of_ne (h.below t' c' p cl₀ hc' hcl₀ htid) (hun' p cl₀ hcl₀)
    · have := hclaimed p' (by rw [hcl₀']; rfl)
      omega
    · omega
  · rw [hmem] at hd hnot
    rcases hclaim p cl hcl with hold | ⟨t, c, hc, ht, hr, -⟩
    · exact h.ahead d p cl hd hold hfate htid hnot
    · rw [hr] at htid ⊢
      exact h.sent t c d hc hd (htid.trans (h.open_ t c hc))

theorem setWrite_of_ne (s : State ι ρ) {u : ι} (hu : u ≠ t) (pc : Write ρ) :
    (s.setWrite t pc).write u = s.write u :=
  Function.update_of_ne hu ..

/-- **A new call** is younger than everything there is. -/
theorem OrderInv.log (h : OrderInv tid s) (hc : CallsInv s) {r : ρ} (hr : tid r = t) :
    OrderInv tid ({ s with calls := s.calls + 1 }.setWrite t (.checkQueue ⟨s.calls, r⟩)) := by
  have hcall (u : ι) (d : Call ρ)
      (hd : ((({ s with calls := s.calls + 1 } : State ι ρ).setWrite t
        (.checkQueue ⟨s.calls, r⟩)).write u).call = some d) :
      (u = t ∧ d = ⟨s.calls, r⟩) ∨ (s.write u).call = some d := by
    by_cases hu : u = t
    · subst hu
      rw [setWrite_self] at hd
      exact .inl ⟨rfl, (Option.some.inj hd).symm⟩
    · exact .inr (setWrite_of_ne _ hu _ ▸ hd)
  have hsent (d : Call ρ) (hd : Event.dispatched false d ∈ s.events) : d.id < s.calls := by
    by_contra hle
    have hzero := hc.callers d.id (by omega)
    exact (List.countP_eq_zero.1 hzero _ hd) (by simp [Event.byCaller])
  refine ⟨fun u d hd => ?_, h.owner, fun u d p cl hd hcl htid => ?_, h.ascending,
    fun u d e hd he htid => ?_, h.ahead, h.ordered⟩
  · rcases hcall u d hd with ⟨rfl, rfl⟩ | hd
    · exact hr
    · exact h.open_ u d hd
  · rcases hcall u d hd with ⟨rfl, rfl⟩ | hd
    · exact (hc.fresh p cl hcl).le
    · exact h.below u d p cl hd hcl htid
  · rcases hcall u d hd with ⟨rfl, rfl⟩ | hd
    · exact hsent e he
    · exact h.sent u d e hd he htid

/-- What the worker has dispatched of a thread is in the order of its calls. -/
theorem OrderInv.pairwise_workerLog (h : OrderInv tid s) (hw' : WorkerInv s')
    (hq : s'.q.claim = s.q.claim) :
    (workerLog s'.events).Pairwise fun c d => tid c.record = tid d.record → c.id < d.id := by
  rw [hw'.log, List.pairwise_filterMap]
  refine List.pairwise_lt_range.imp fun hlt c hp d hp' htid => ?_
  obtain ⟨u, hcl⟩ := claim_of_acceptedAt hp
  obtain ⟨u', hcl'⟩ := claim_of_acceptedAt hp'
  rw [hq] at hcl hcl'
  exact h.ascending _ _ _ _ hlt hcl hcl' htid

omit [DecidableEq ι] in
theorem WorkerInv.accepted_of_mem (hw : WorkerInv s) (hc : Event.dispatched true c ∈ s.events) :
    ∃ p, s.q.acceptedAt p = some c := by
  rw [← mem_workerLog, hw.log] at hc
  obtain ⟨p, -, hp⟩ := List.mem_filterMap.1 hc
  exact ⟨p, hp⟩

/-- **The worker dispatches a record** after all older ones of its thread. -/
theorem OrderInv.worked (h : OrderInv tid s) (hw' : WorkerInv s') (hq : s'.q.claim = s.q.claim)
    (hwrite : s'.write = s.write) (hl : s'.events = s.events ++ [.dispatched true c]) :
    OrderInv tid s' := by
  have hmem (d : Call ρ) : Event.dispatched false d ∈ s'.events ↔
      Event.dispatched false d ∈ s.events := by
    simp [hl]
  have hpair := h.pairwise_workerLog hw' hq
  rw [hl, workerLog_append] at hpair
  have hnew : Event.dispatched true c ∉ s.events := fun hold =>
    lt_irrefl _ ((List.pairwise_append.1 hpair).2.2 c (mem_workerLog.2 hold) c
      (List.mem_singleton_self c) rfl)
  obtain ⟨p, hp⟩ := hw'.accepted_of_mem (c := c) (hl ▸ List.mem_append_right _ (List.mem_singleton_self _))
  obtain ⟨u, hcl⟩ := claim_of_acceptedAt hp
  rw [hq] at hcl
  refine ⟨by rw [hwrite]; exact h.open_, by rw [hq]; exact h.owner,
    by rw [hwrite, hq]; exact h.below, by rw [hq]; exact h.ascending, fun u d e hd he => ?_,
    fun d p cl hd hcl hfate htid hnot => ?_, h.ordered.dispatch hl nofun fun b d hd htid => ?_⟩
  · rw [hwrite] at hd
    exact h.sent u d e hd ((hmem e).1 he)
  · rw [hq] at hcl
    exact h.ahead d p cl ((hmem d).1 hd) hcl hfate htid fun hold =>
      hnot (hl ▸ List.mem_append_left _ hold)
  · cases b with
    | true =>
      exact (List.pairwise_append.1 hpair).2.2 d (mem_workerLog.2 hd) c
        (List.mem_singleton_self c) htid
    | false => exact h.ahead d p _ hd hcl (.inr rfl) htid hnew

variable [Inhabited ρ] {g : Shape}

omit [DecidableEq ι] in
/-- A position whose fate is open belongs to a thread inside `mpsc_queue_try_put`. -/
theorem inside_of_pending (hg : Good g s) {p : ℕ} {cl : Queue.Claim ι (Call ρ)}
    (hcl : s.q.claim p = some cl) (hf : cl.fate = .pending) : (s.q.put cl.thread).inside = true := by
  have hunpub : s.q.phase p ≠ .published := fun hpub => by
    obtain ⟨u, r, ⟨hc, -⟩ | ⟨hc, -⟩⟩ := hg.queue.inv.content p hpub <;>
      rw [hc] at hcl <;> rw [← Option.some.inj hcl] at hf <;> cases hf
  rcases hg.queue.history.held p cl hcl hunpub with hab | hholds
  · rw [hab] at hf
    cases hf
  · cases hpc : s.q.put cl.thread <;> rw [hpc] at hholds <;> first | rfl | cases hholds

/-- **A caller dispatches its own record** when nothing of its thread waits for the worker. -/
theorem OrderInv.dispatched (h : OrderInv tid s) (hg : Good g s) {ret : Ret}
    (hw : s.write t = .dispatch c ret)
    (hnone : ∀ p < s.q.head, ∀ d ∈ s.q.acceptedAt p, tid d.record = t →
      Event.dispatched true d ∈ s.events) :
    OrderInv tid ((s.emit [.dispatched false c, .wrote c ret]).setWrite t .idle) := by
  have hc : (s.write t).call = some c := by rw [hw]; rfl
  have htid := h.open_ t c hc
  obtain ⟨hin, -, hlost, -⟩ : WriteOk s t (.dispatch c ret) := hw ▸ hg.calls.write t
  have hcall (u : ι) (d : Call ρ) (hd : (((s.emit [.dispatched false c, .wrote c ret]).setWrite t
      .idle).write u).call = some d) : u ≠ t ∧ (s.write u).call = some d := by
    by_cases hu : u = t
    · subst hu
      rw [setWrite_self] at hd
      cases hd
    · exact ⟨hu, setWrite_of_ne _ hu _ ▸ hd⟩
  have hmem (d : Call ρ) (hd : Event.dispatched false d ∈ s.events ++
      [.dispatched false c, .wrote c ret]) : d = c ∨ Event.dispatched false d ∈ s.events := by
    rcases List.mem_append.1 hd with hd | hd
    · exact .inr hd
    · exact .inl (by simpa using hd)
  refine ⟨fun u d hd => h.open_ u d (hcall u d hd).2, h.owner,
    fun u d p cl hd => h.below u d p cl (hcall u d hd).2, h.ascending, fun u d e hd he htid' => ?_,
    fun d p cl hd hcl hfate htid' hnot => ?_, h.ordered.dispatch rfl (by simp) fun b d hd htid' => ?_⟩
  · rcases hmem e he with rfl | he
    · exact absurd (htid'.symm.trans htid) (hcall u d hd).1
    · exact h.sent u d e (hcall u d hd).2 he htid'
  · replace hcl : s.q.claim p = some cl := hcl
    replace hnot : Event.dispatched true cl.record ∉ s.events := fun hold =>
      hnot (List.mem_append_left _ hold)
    rcases hmem d hd with rfl | hd
    · rw [htid] at htid'
      rcases hfate with hf | hf
      · have hinside := inside_of_pending hg hcl hf
        rw [← h.owner p cl hcl, ← htid', hin] at hinside
        cases hinside
      · obtain ⟨u, r, f⟩ := cl
        obtain rfl : f = .accepted := hf
        exact absurd (hnone p ((hg.queue.inv.claimed p).1 (by rw [hcl]; rfl)) r
          (Queue.acceptedAt_of_claim hcl) htid'.symm) hnot
    · exact h.ahead d p cl hd hcl hfate htid' hnot
  · rw [htid] at htid'
    cases b with
    | false => exact h.sent t c d hc hd htid'
    | true =>
      -- what the worker dispatched was accepted, and the open call was not
      obtain ⟨p, hp⟩ := hg.worker.accepted_of_mem hd
      obtain ⟨u, hcl⟩ := claim_of_acceptedAt hp
      refine lt_of_le_of_ne (h.below t c p _ hc hcl htid') fun hid => ?_
      rcases hlost p _ hcl hid with hf | hf <;> cases hf

/-- **A step inside `mpsc_queue_try_put`.** -/
theorem OrderInv.put (h : OrderInv tid s) (hg : Good g s) {b : Queue.Act ι (Call ρ)}
    (hb : b.inCall t) (hw : s.write t = .tryPut c) {q : Queue.State ι (Call ρ)}
    (hs : Queue.step g s.q b = some q) : OrderInv tid (afterPut s t c q) := by
  have hc : (s.write t).call = some c := by rw [hw]; rfl
  obtain ⟨hr, hun, -⟩ : WriteOk s t (.tryPut c) := hw ▸ hg.calls.write t
  have hp := Queue.putStep_step hb hg.queue.inv hr hs
  obtain ⟨hq, -, -, -, l, hl, hev⟩ := afterPut_frame s t c q
  refine h.quiet (fun p => (hg.queue.inv.claimed p).1) (fun u d hd => ?_) hl
    (fun b d hd => by cases hev _ hd) fun p cl hcl => ?_
  · by_cases hu : u = t
    · subst hu
      unfold afterPut at hd
      split at hd
      · split_ifs at hd <;> rw [setWrite_self] at hd
        · exact hc.trans hd
        · cases hd
      · exact hd
    · have hsame : (afterPut s t c q).write u = s.write u := by
        unfold afterPut
        split
        · split_ifs <;> exact setWrite_of_ne _ hu _
        · rfl
      rwa [hsame] at hd
  · rw [hq] at hcl
    refine (hp.claim p cl hcl).imp_right fun ⟨ht, hrec, hpos⟩ => ⟨t, c, hc, ht, hrec, ?_⟩
    rcases hpos with hpos | ⟨hnone, hpos⟩
    · exact .inl (Queue.claim_of_pos hg.queue.inv hr hpos)
    · exact .inr ⟨Queue.pos_eq_head hb hs hnone hpos, hun hnone⟩

/-- What the worker's step adds to the log. -/
theorem events_work (hs : asyncWorkerFor g s = some s') :
    (∃ c, s'.events = s.events ++ [.dispatched true c]) ∨
      ∃ l, s'.events = s.events ++ l ∧ ∀ b d, Event.dispatched b d ∉ l := by
  have hnil (h : s'.events = s.events) :
      ∃ l, s'.events = s.events ++ l ∧ ∀ b d, Event.dispatched b d ∉ l :=
    ⟨[], by rw [h, List.append_nil], nofun⟩
  unfold asyncWorkerFor at hs
  cases hk : s.worker with
  | exited => simp [hk] at hs
  | start | callGet =>
    simp only [hk] at hs
    obtain ⟨q, -, rfl⟩ := Option.map_eq_some_iff.1 hs
    exact .inr (hnil rfl)
  | waiting | getting =>
    simp only [hk] at hs
    split at hs
    · try split_ifs at hs
      all_goals
        cases hs
        exact .inr (hnil rfl)
    · obtain ⟨q, -, rfl⟩ := Option.map_eq_some_iff.1 hs
      exact .inr (hnil rfl)
  | setProcessing | clearProcessing =>
    simp only [hk] at hs
    cases hs
    exact .inr (hnil rfl)
  | dispatching i =>
    simp only [hk] at hs
    split at hs
    · split_ifs at hs <;> cases hs
      · exact .inr (hnil rfl)
      · exact .inl ⟨_, rfl⟩
    · cases hs
      exact .inr (hnil rfl)
  | flushing =>
    simp only [hk] at hs
    cases hs
    exact .inr ⟨_, rfl, by simp⟩

/-- **Every step keeps the order,** as long as no caller overtakes its own records. -/
theorem OrderInv.step {a : Act ι ρ} (h : OrderInv tid s) (hg : Good g s) (hst : stamped tid s a)
    (hov : overtakesNone tid s a) (hs : Async.step g s a = some s') : OrderInv tid s' := by
  have hclaimed (p : ℕ) : (s.q.claim p).isSome → p < s.q.head := (hg.queue.inv.claimed p).1
  have hm := moves_step hs
  have hsame (ha : a.caller = none) : s'.q.claim = s.q.claim := by
    rcases hm.queue with heq | ⟨b, hb, hal⟩
    · rw [heq]
    · exact (Queue.sameCalls_step (Act.producer_of_caller hal ha) hb).claim
  have hbeside (ha : a.caller = none) {l : List (Event ρ)} (hl : s'.events = s.events ++ l)
      (hev : ∀ b d, Event.dispatched b d ∉ l) : OrderInv tid s' :=
    h.quiet hclaimed (fun u d hd => (hm.write ha).1 ▸ hd) hl hev
      fun p cl hcl => .inl (hsame ha ▸ hcl)
  have haside (ha : a.caller = none) (hwork : a ≠ .work) : OrderInv tid s' := by
    obtain ⟨l, hl, hev⟩ := hm.events
    refine hbeside ha hl fun b d hd => ?_
    obtain ⟨h₁, h₂⟩ := hev _ hd
    cases b with
    | true => exact hwork (h₁ rfl)
    | false =>
      rw [ha] at h₂
      cases h₂ rfl
  -- a step of a caller between the functions it calls
  have hmove {t : ι} {c : Call ρ} {pc : Write ρ} {q : Queue.State ι (Call ρ)}
      (hc : (s.write t).call = some c) (hpc : pc.call = some c) (hq : q.claim = s.q.claim) :
      OrderInv tid ({ s with q := q }.setWrite t pc) := by
    refine h.quiet hclaimed (fun u d hd => ?_) (List.append_nil _).symm
      (fun _ _ => List.not_mem_nil)
      fun p cl hcl => .inl (hq ▸ hcl)
    by_cases hu : u = t
    · subst hu
      rw [setWrite_self, hpc] at hd
      exact hc.trans hd
    · exact setWrite_of_ne _ hu _ ▸ hd
  cases a with
  | log t r =>
    simp only [Async.step] at hs
    split at hs
    · cases hs
      exact h.log hg.calls hst
    · cases hs
  | write t =>
    simp only [Async.step, logAsyncWriteFor] at hs
    simp only [overtakesNone] at hov
    cases hw : s.write t with
    | idle => simp [hw] at hs
    | checkQueue c =>
      simp only [hw] at hs
      split_ifs at hs <;> cases hs <;>
        exact hmove (by rw [hw]; rfl) rfl rfl
    | clone c =>
      simp only [hw] at hs
      cases hs
      exact hmove (by rw [hw]; rfl) rfl rfl
    | loadQueue c =>
      simp only [hw] at hs
      split_ifs at hs
      · obtain ⟨q, hq, rfl⟩ := Option.map_eq_some_iff.1 hs
        simp only [Queue.step] at hq
        split_ifs at hq
        cases hq
        exact hmove (by rw [hw]; rfl) rfl rfl
      · cases hs
        exact hmove (by rw [hw]; rfl) rfl rfl
    | tryPut c =>
      simp only [hw] at hs
      obtain ⟨q, hq, rfl⟩ := Option.map_eq_some_iff.1 hs
      exact h.put hg (.inl rfl) hw hq
    | dispatch c ret =>
      simp only [hw] at hs hov
      cases hs
      exact h.dispatched hg hw hov
  | cloneFails t =>
    simp only [Async.step, cloneFails] at hs
    split at hs
    case h_1 c hw =>
      cases hs
      exact hmove (by rw [hw]; rfl) rfl rfl
    case h_2 => cases hs
  | giveUp t =>
    obtain ⟨c, q, hw, hq, rfl⟩ := insidePut_cases hs
    exact h.put hg (.inr (.inl rfl)) hw hq
  | casMiss t =>
    obtain ⟨c, q, hw, hq, rfl⟩ := insidePut_cases hs
    exact h.put hg (.inr (.inr rfl)) hw hq
  | work =>
    rcases events_work hs with ⟨c, hl⟩ | ⟨l, hl, hev⟩
    · exact h.worked (good_step hg hs).worker (hsame rfl) (hm.write rfl).1 hl
    · exact hbeside rfl hl hev
  | callShutdown | shutdown | callFlush | flush | spurious => exact haside rfl fun hw => by cases hw

theorem orderInv_init (g : Shape) (junk : ℕ → Queue.Entry (Call ρ)) :
    OrderInv tid (logAsyncInitFor g junk : State ι ρ) where
  open_ _ _ := nofun
  owner _ _ := nofun
  below _ _ _ _ := nofun
  ascending _ _ _ _ _ := nofun
  sent _ _ _ := nofun
  ahead _ _ _ := nofun
  ordered _ _ := .nil

/-- **The records of a thread arrive in order** in every run in which no caller dispatches a record
itself while the worker has one of this thread still to dispatch. -/
theorem in_order_of_overtakesNone (g : Shape) (junk : ℕ → Queue.Entry (Call ρ)) (tid : ρ → ι)
    (s : State ι ρ) (h : Reach (step g) (fun s a => stamped tid s a ∧ overtakesNone tid s a)
      (logAsyncInitFor g junk) s) : InOrder tid s := by
  have hinv := h.invariant (I := fun s => Good g s ∧ OrderInv tid s)
    ⟨good_init g junk, orderInv_init g junk⟩
    fun _ _ _ hi ha hs => ⟨good_step hi.1 hs, hi.2.step hi.1 ha.1 ha.2 hs⟩
  exact hinv.2.ordered

/-- A logger with a queue of two slots and two threads; a record is a thread id and a text. -/
def stampedLogger : State (Fin 2) (Fin 2 × ℕ) := logAsyncInitFor (.ofPow 1) fun _ => Queue.tombstone

instance [DecidableEq ρ] (tid : ρ → ι) (s : State ι ρ) :
    (a : Act ι ρ) → Decidable (stamped tid s a ∧ overtakesNone tid s a)
  | .log t r => inferInstanceAs (Decidable (tid r = t ∧ True))
  | .write t => by
      unfold stamped overtakesNone
      dsimp only
      split <;> infer_instance
  | .cloneFails _ | .giveUp _ | .casMiss _ | .work | .callShutdown | .shutdown | .callFlush
  | .flush | .spurious => .isTrue ⟨trivial, trivial⟩

instance (tid : ρ → ι) (s : State ι ρ) : (a : Act ι ρ) → Decidable (stamped tid s a)
  | .log t r => inferInstanceAs (Decidable (tid r = t))
  | .write _ | .cloneFails _ | .giveUp _ | .casMiss _ | .work | .callShutdown | .shutdown
  | .callFlush | .flush | .spurious => .isTrue trivial

/-- Thread 0 logs and the worker dispatches; thread 1 fills the queue; thread 0 logs again, and
dispatches itself. -/
def politeTrace : List (Act (Fin 2) (Fin 2 × ℕ)) :=
  List.flatten [[.log 0 (0, 7)], List.replicate 11 (.write 0), List.replicate 22 .work,
    [.log 1 (1, 8)], List.replicate 11 (.write 1), [.log 1 (1, 9)], List.replicate 11 (.write 1),
    [.log 0 (0, 10)], List.replicate 7 (.write 0)]

/-- The record that its caller dispatches has nothing of this caller to overtake. -/
theorem in_order_of_overtakesNone_polite : ∃ s, Reach (step (.ofPow 1))
    (fun s a => stamped Prod.fst s a ∧ overtakesNone Prod.fst s a) stampedLogger s ∧
    Event.dispatched false ⟨3, (0, 10)⟩ ∈ s.events ∧ InOrder Prod.fst s := by
  obtain ⟨s, hr, hs⟩ : ∃ s, Reach (step (.ofPow 1))
      (fun s a => stamped Prod.fst s a ∧ overtakesNone Prod.fst s a) stampedLogger s ∧
      Event.dispatched false ⟨3, (0, 10)⟩ ∈ s.events := by
    apply exists_of_runIf politeTrace
    decide +kernel
  exact ⟨s, hr, hs, in_order_of_overtakesNone (.ofPow 1) (fun _ => Queue.tombstone) Prod.fst s hr⟩

/-- Thread 0 fills the queue with two records and logs a third; then the worker starts. -/
def overtakingTrace : List (Act (Fin 2) (Fin 2 × ℕ)) :=
  List.flatten [[.log 0 (0, 7)], List.replicate 11 (.write 0), [.log 0 (0, 8)],
    List.replicate 11 (.write 0), [.log 0 (0, 9)], List.replicate 7 (.write 0),
    List.replicate 23 .work]

/-- The third record arrives first. -/
theorem third_record_arrives_first : ∃ s, Reach (step (.ofPow 1)) (stamped Prod.fst) stampedLogger s ∧
    arrivals Prod.fst 0 (fun _ => true) s.events = [2, 0, 1] ∧ ¬ InOrder Prod.fst s := by
  obtain ⟨s, hr, hs⟩ : ∃ s, Reach (step (.ofPow 1)) (stamped Prod.fst) stampedLogger s ∧
      arrivals Prod.fst 0 (fun _ => true) s.events = [2, 0, 1] := by
    apply exists_of_runIf overtakingTrace
    decide +kernel
  refine ⟨s, hr, hs, fun h => ?_⟩
  have hpair := h 0 fun _ => true
  rw [hs] at hpair
  exact absurd hpair (by decide)

end Async
end Clogx
