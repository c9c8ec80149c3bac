/-
# What became of each call of `log_async_write_for`

`CallsInv`: a call claims at most one position, and no two calls share one.  A
call that returned `CLOG_OK` owns an accepted position and was not dispatched by
its caller; a call that returned an error was dispatched by its caller once, and
owns no position that was or can be accepted.

Together with `WorkerInv` and the invariants of the queue this is `Good`, which
holds in every reachable state (`good_reachable`).
-/

import Clogx.Async.Worker
import Clogx.Async.Moves

namespace Clogx
namespace Async

open SeqRing (Shape)
open Machine (Reachable)

variable {ι ρ : Type*}

/-- No position is claimed for call `k`. -/
def State.Unclaimed (s : State ι ρ) (k : ℕ) : Prop :=
  ∀ p c, s.q.claim p = some c → c.record.id ≠ k

/-- What call `k` claimed, it lost: the position is a tombstone or a hole. -/
def State.Lost (s : State ι ρ) (k : ℕ) : Prop :=
  ∀ p c, s.q.claim p = some c → c.record.id = k → c.fate = .refused ∨ c.fate = .abandoned

/-- The call thread `t` is in. -/
def Write.call : Write ρ → Option (Call ρ)
  | .idle => none
  | .checkQueue c | .clone c | .loadQueue c | .tryPut c | .dispatch c _ => some c

/-- What a call of thread `t` has done so far. -/
def WriteOk (s : State ι ρ) (t : ι) : Write ρ → Prop
  | .idle => (s.q.put t).inside = false
  | .checkQueue c | .clone c | .loadQueue c =>
    (s.q.put t).inside = false ∧ s.Unclaimed c.id ∧ s.callers c.id = 0
  | .tryPut c => (s.q.put t).record = some c ∧ ((s.q.put t).pos = none → s.Unclaimed c.id) ∧
      s.callers c.id = 0
  | .dispatch c ret =>
    (s.q.put t).inside = false ∧ ret ≠ .ok ∧ s.Lost c.id ∧ s.callers c.id = 0

/-- What a call that returned leaves behind. -/
def WroteOk (s : State ι ρ) (c : Call ρ) : Ret → Prop
  | .ok => (∃ p, s.q.acceptedAt p = some c) ∧ s.callers c.id = 0
  | _ => s.Lost c.id ∧ s.callers c.id = 1 ∧ Event.dispatched false c ∈ s.events

/-- The invariant of the callers. -/
structure CallsInv (s : State ι ρ) : Prop where
  fresh : ∀ p c, s.q.claim p = some c → c.record.id < s.calls
  inj : ∀ p p' c c', s.q.claim p = some c → s.q.claim p' = some c' →
    c.record.id = c'.record.id → p = p'
  callers : ∀ k, s.calls ≤ k → s.callers k = 0
  write : ∀ t, WriteOk s t (s.write t)
  opened : ∀ t c, (s.write t).call = some c → c.id < s.calls
  apart : ∀ t u c d, (s.write t).call = some c → (s.write u).call = some d → c.id = d.id → t = u
  wrote : ∀ c e, Event.wrote c e ∈ s.events → WroteOk s c e
  closed : ∀ c e, Event.wrote c e ∈ s.events →
    c.id < s.calls ∧ ∀ t d, (s.write t).call = some d → d.id ≠ c.id

variable {g : Shape} {s s' : State ι ρ} {t : ι} {c : Call ρ}

/-- What a step does not do to call `k`. -/
structure Untouched (s s' : State ι ρ) (k : ℕ) : Prop where
  claim : ∀ p cl, s'.q.claim p = some cl → cl.record.id = k → s.q.claim p = some cl
  callers : s'.callers k = s.callers k

theorem Untouched.unclaimed {k : ℕ} (h : Untouched s s' k) (hu : s.Unclaimed k) :
    s'.Unclaimed k :=
  fun p cl hc hk => hu p cl (h.claim p cl hc hk) hk

theorem Untouched.lost {k : ℕ} (h : Untouched s s' k) (hl : s.Lost k) : s'.Lost k :=
  fun p cl hc hk => hl p cl (h.claim p cl hc hk) hk

theorem WriteOk.frame {pc : Write ρ} (hk : ∀ c, pc.call = some c → Untouched s s' c.id)
    (hput : s'.q.put t = s.q.put t) (h : WriteOk s t pc) : WriteOk s' t pc := by
  cases pc with
  | idle =>
    simp only [WriteOk] at h ⊢
    rw [hput, h]
  | checkQueue c | clone c | loadQueue c =>
    obtain ⟨h₁, h₂, h₃⟩ := h
    have hu := hk c rfl
    exact ⟨hput ▸ h₁, hu.unclaimed h₂, hu.callers.trans h₃⟩
  | tryPut c =>
    obtain ⟨h₁, h₂, h₃⟩ := h
    have hu := hk c rfl
    exact ⟨hput ▸ h₁, fun hp => hu.unclaimed (h₂ (hput ▸ hp)), hu.callers.trans h₃⟩
  | dispatch c ret =>
    obtain ⟨h₁, h₂, h₃, h₄⟩ := h
    have hu := hk c rfl
    exact ⟨hput ▸ h₁, h₂, hu.lost h₃, hu.callers.trans h₄⟩

/-- What was accepted stays accepted. -/
theorem acceptedAt_of_settled (hset : ∀ p cl, s.q.claim p = some cl → cl.fate ≠ .pending →
    s'.q.claim p = some cl) {p : ℕ} (h : s.q.acceptedAt p = some c) :
    s'.q.acceptedAt p = some c := by
  rw [Queue.State.acceptedAt] at h
  split at h
  case h_1 u r hc => rw [Queue.State.acceptedAt, hset p _ hc (by simp)]; exact h
  case h_2 => cases h

theorem WroteOk.frame {e : Ret} (hk : Untouched s s' c.id)
    (hset : ∀ p cl, s.q.claim p = some cl → cl.fate ≠ .pending → s'.q.claim p = some cl)
    (hev : ∀ e ∈ s.events, e ∈ s'.events) (h : WroteOk s c e) : WroteOk s' c e := by
  cases e with
  | ok =>
    obtain ⟨⟨p, hp⟩, h₂⟩ := h
    exact ⟨⟨p, acceptedAt_of_settled hset hp⟩, hk.callers.trans h₂⟩
  | queueFull | oom =>
    obtain ⟨h₁, h₂, h₃⟩ := h
    exact ⟨hk.lost h₁, hk.callers.trans h₂, hev _ h₃⟩

/-- **A step of thread `t` inside its call `c`.**  Only claims of `c` change, all at
one position; only the counters of `c` change; what returns is `c`. -/
theorem CallsInv.own (h : CallsInv s) (hc : (s.write t).call = some c)
    (hcalls : s'.calls = s.calls) (hwrite : ∀ u, u ≠ t → s'.write u = s.write u)
    (hput : ∀ u, u ≠ t → s'.q.put u = s.q.put u)
    (hclaim : ∃ p₀, (∀ p cl, s'.q.claim p = some cl →
        s.q.claim p = some cl ∨ p = p₀ ∧ cl.record = c) ∧
      ∀ p cl, s.q.claim p = some cl → cl.record.id = c.id → p = p₀)
    (hset : ∀ p cl, s.q.claim p = some cl → cl.fate ≠ .pending → s'.q.claim p = some cl)
    (hcallers : ∀ k, k ≠ c.id → s'.callers k = s.callers k)
    (hev : ∀ e ∈ s.events, e ∈ s'.events)
    (hwrote : ∀ d e, Event.wrote d e ∈ s'.events → Event.wrote d e ∈ s.events ∨
      d = c ∧ WroteOk s' c e ∧ (s'.write t).call = none)
    (hok : WriteOk s' t (s'.write t))
    (hpc : ∀ d, (s'.write t).call = some d → d = c) : CallsInv s' := by
  obtain ⟨p₀, hclaim, hown⟩ := hclaim
  have hopen : c.id < s.calls := h.opened t c hc
  have hun (k : ℕ) (hk : k ≠ c.id) : Untouched s s' k := by
    refine ⟨fun p cl hcl hid => ?_, hcallers k hk⟩
    rcases hclaim p cl hcl with hold | ⟨-, hr⟩
    · exact hold
    · exact absurd (hid.symm.trans (congrArg Call.id hr)) hk
  -- the other open calls, and those that returned, have other numbers
  have hother (u : ι) (hu : u ≠ t) (d : Call ρ) (hd : (s.write u).call = some d) :
      d.id ≠ c.id := fun he => hu (h.apart u t d c hd hc he)
  have hback (u : ι) (d : Call ρ) (hd : (s'.write u).call = some d) :
      ∃ d', (s.write u).call = some d' ∧ d'.id = d.id := by
    by_cases hu : u = t
    · subst hu
      exact ⟨c, hc, by rw [hpc d hd]⟩
    · exact ⟨d, by rwa [← hwrite u hu], rfl⟩
  constructor
  · intro p cl hcl
    rw [hcalls]
    rcases hclaim p cl hcl with hold | ⟨-, hr⟩
    · exact h.fresh p cl hold
    · rw [hr]
      exact hopen
  · intro p p' cl cl' hcl hcl' hid
    rcases hclaim p cl hcl with hold | ⟨hp, hr⟩ <;>
      rcases hclaim p' cl' hcl' with hold' | ⟨hp', hr'⟩
    · exact h.inj p p' cl cl' hold hold' hid
    · rw [hp']
      exact hown p cl hold (by rw [hid, hr'])
    · rw [hp]
      exact (hown p' cl' hold' (by rw [← hid, hr])).symm
    · rw [hp, hp']
  · intro k hk
    rw [hcalls] at hk
    rw [hcallers k (by omega)]
    exact h.callers k hk
  · intro u
    by_cases hu : u = t
    · exact hu ▸ hok
    · rw [hwrite u hu]
      exact (h.write u).frame (fun d hd => hun d.id (hother u hu d hd)) (hput u hu)
  · intro u d hd
    obtain ⟨d', hd', he⟩ := hback u d hd
    rw [hcalls, ← he]
    exact h.opened u d' hd'
  · intro u v d e hd he hid
    obtain ⟨d', hd', hde⟩ := hback u d hd
    obtain ⟨e', he', hee⟩ := hback v e he
    exact h.apart u v d' e' hd' he' (by rw [hde, hee, hid])
  · intro d e hd
    rcases hwrote d e hd with hold | ⟨rfl, hnew, -⟩
    · exact (h.wrote d e hold).frame (hun d.id ((h.closed d e hold).2 t c hc).symm) hset hev
    · exact hnew
  · intro d e hd
    rw [hcalls]
    rcases hwrote d e hd with hold | ⟨rfl, -, hnone⟩
    · refine ⟨(h.closed d e hold).1, fun u d' hd' => ?_⟩
      obtain ⟨d'', hd'', he⟩ := hback u d' hd'
      rw [← he]
      exact (h.closed d e hold).2 u d'' hd''
    · refine ⟨hopen, fun u d' hd' => ?_⟩
      by_cases hu : u = t
      · rw [hu, hnone] at hd'
        cases hd'
      · exact hother u hu d' (by rwa [← hwrite u hu])

theorem callers_emit (es : List (Event ρ)) (k : ℕ) :
    (s.emit es).callers k = s.callers k + es.countP (Event.byCaller k) :=
  List.countP_append

/-- **A new call** gets a number no claim, no caller and no other call has. -/
theorem CallsInv.log [DecidableEq ι] (h : CallsInv s) (hw : s.write t = .idle) (r : ρ) :
    CallsInv ({ s with calls := s.calls + 1 }.setWrite t (.checkQueue ⟨s.calls, r⟩)) := by
  have hself : Function.update s.write t (.checkQueue ⟨s.calls, r⟩) t = .checkQueue ⟨s.calls, r⟩ :=
    Function.update_self ..
  have hne (u : ι) (hu : u ≠ t) :
      Function.update s.write t (.checkQueue ⟨s.calls, r⟩) u = s.write u :=
    Function.update_of_ne hu ..
  -- the open calls are the old ones and the new one
  have hcall (u : ι) (d : Call ρ)
      (hd : (Function.update s.write t (.checkQueue ⟨s.calls, r⟩) u).call = some d) :
      (u = t ∧ d.id = s.calls) ∨ (u ≠ t ∧ (s.write u).call = some d) := by
    by_cases hu : u = t
    · subst hu
      rw [hself] at hd
      exact .inl ⟨rfl, (Option.some.inj hd) ▸ rfl⟩
    · exact .inr ⟨hu, hne u hu ▸ hd⟩
  constructor
  · exact fun p cl hcl => (h.fresh p cl hcl).trans (Nat.lt_succ_self _)
  · exact h.inj
  · exact fun k hk => h.callers k (Nat.le_of_succ_le hk)
  · intro u
    by_cases hu : u = t
    · subst hu
      have hidle := h.write u
      rw [hw] at hidle
      show WriteOk _ u (Function.update s.write u _ u)
      rw [hself]
      exact ⟨hidle, fun p cl hcl => (h.fresh p cl hcl).ne, h.callers s.calls le_rfl⟩
    · show WriteOk _ u (Function.update s.write t _ u)
      rw [hne u hu]
      exact (h.write u).frame (fun d _ => ⟨fun _ _ hcl _ => hcl, rfl⟩) rfl
  · intro u d hd
    show d.id < s.calls + 1
    rcases hcall u d hd with ⟨-, hid⟩ | ⟨-, hold⟩
    · omega
    · exact (h.opened u d hold).trans (Nat.lt_succ_self _)
  · intro u v d e hd he hid
    rcases hcall u d hd with ⟨hu, hd⟩ | ⟨-, hd⟩ <;> rcases hcall v e he with ⟨hv, he⟩ | ⟨-, he⟩
    · rw [hu, hv]
    · exact absurd (h.opened v e he) (by omega)
    · exact absurd (h.opened u d hd) (by omega)
    · exact h.apart u v d e hd he hid
  · exact fun d e hd => (h.wrote d e hd).frame ⟨fun _ _ hcl _ => hcl, rfl⟩
      (fun _ _ hcl _ => hcl) fun _ he => he
  · intro d e hd
    obtain ⟨hlt, hopen⟩ := h.closed d e hd
    refine ⟨hlt.trans (Nat.lt_succ_self _), fun u d' hd' => ?_⟩
    rcases hcall u d' hd' with ⟨-, hid⟩ | ⟨-, hold⟩
    · omega
    · exact hopen u d' hold

/-- Whatever a call claimed sits at one position. -/
theorem CallsInv.exists_pos (h : CallsInv s) (c : Call ρ) :
    ∃ p₀, ∀ p cl, s.q.claim p = some cl → cl.record.id = c.id → p = p₀ := by
  by_cases hex : ∃ p cl, s.q.claim p = some cl ∧ cl.record.id = c.id
  · obtain ⟨p₀, cl₀, hcl₀, hid₀⟩ := hex
    exact ⟨p₀, fun p cl hcl hid => h.inj p p₀ cl cl₀ hcl hcl₀ (hid.trans hid₀.symm)⟩
  · exact ⟨0, fun p cl hcl hid => absurd ⟨p, cl, hcl, hid⟩ hex⟩

variable [DecidableEq ι]

@[simp] theorem setWrite_self (s : State ι ρ) (t : ι) (pc : Write ρ) :
    (s.setWrite t pc).write t = pc :=
  Function.update_self ..

/-- A step outside the queue's own functions. -/
theorem CallsInv.move (h : CallsInv s) (hc : (s.write t).call = some c) {q : Queue.State ι (Call ρ)}
    (hclaim : q.claim = s.q.claim) (hput : ∀ u, u ≠ t → q.put u = s.q.put u) {pc : Write ρ}
    (hok : WriteOk ({ s with q := q }.setWrite t pc) t pc) (hpc : pc.call = some c) :
    CallsInv ({ s with q := q }.setWrite t pc) := by
  obtain ⟨p₀, hown⟩ := h.exists_pos c
  refine h.own hc rfl (fun u hu => Function.update_of_ne hu ..) hput
    ⟨p₀, fun p cl hcl => .inl (hclaim ▸ hcl), hown⟩ (fun p cl hcl _ => hclaim ▸ hcl)
    (fun _ _ => rfl) (fun _ he => he) (fun d e hd => .inl hd) (by rwa [setWrite_self])
    fun d hd => ?_
  rw [setWrite_self, hpc] at hd
  exact (Option.some.inj hd).symm

/-- **The caller dispatches its own record** and returns the error. -/
theorem CallsInv.dispatch (h : CallsInv s) {ret : Ret} (hw : s.write t = .dispatch c ret) :
    CallsInv ((s.emit [.dispatched false c, .wrote c ret]).setWrite t .idle) := by
  have hc : (s.write t).call = some c := by rw [hw]; rfl
  have hok := h.write t
  rw [hw] at hok
  obtain ⟨hin, hret, hlost, hzero⟩ := hok
  obtain ⟨p₀, hown⟩ := h.exists_pos c
  have hcount (k : ℕ) : ((s.emit [.dispatched false c, .wrote c ret]).setWrite t .idle).callers k
      = s.callers k + if c.id = k then 1 else 0 := by
    refine (callers_emit _ k).trans ?_
    by_cases hk : c.id = k <;> simp [Event.byCaller, hk]
  refine h.own hc rfl (fun u hu => Function.update_of_ne hu ..) (fun _ _ => rfl)
    ⟨p₀, fun p cl hcl => .inl hcl, hown⟩ (fun p cl hcl _ => hcl)
    (fun k hk => by rw [hcount, if_neg hk.symm, Nat.add_zero])
    (fun _ he => List.mem_append_left _ he) (fun d e hd => ?_) (by rwa [setWrite_self])
    fun d hd => by rw [setWrite_self] at hd; cases hd
  rcases List.mem_append.1 hd with hd | hd
  · exact .inl hd
  · obtain ⟨rfl, rfl⟩ : d = c ∧ e = ret := by simpa using hd
    refine .inr ⟨rfl, ?_, by rw [setWrite_self]; rfl⟩
    have hone : ((s.emit [.dispatched false d, .wrote d e]).setWrite t .idle).callers d.id = 1 := by
      rw [hcount, if_pos rfl, hzero]
    have hmem : Event.dispatched false d ∈
        ((s.emit [.dispatched false d, .wrote d e]).setWrite t .idle).events :=
      List.mem_append_right _ (List.mem_cons_self ..)
    cases e with
    | ok => exact absurd rfl hret
    | queueFull | oom => exact ⟨hlost, hone, hmem⟩

omit [DecidableEq ι] in
/-- Inside `mpsc_queue_try_put` a call has at most the claim it holds. -/
theorem CallsInv.exists_pos_tryPut (h : CallsInv s) [Inhabited ρ] (hi : Queue.Inv g s.q)
    (hw : s.write t = .tryPut c) {q : Queue.State ι (Call ρ)} (hp : Queue.PutStep s.q q t c) :
    ∃ p₀, (∀ p cl, q.claim p = some cl → s.q.claim p = some cl ∨ p = p₀ ∧ cl.record = c) ∧
      ∀ p cl, s.q.claim p = some cl → cl.record.id = c.id → p = p₀ := by
  have hok := h.write t
  rw [hw] at hok
  obtain ⟨hr, hun, -⟩ := hok
  cases hpos : (s.q.put t).pos with
  | some p₀ =>
    obtain ⟨f, hcl₀⟩ := Queue.claim_of_pos hi hr hpos
    refine ⟨p₀, fun p cl hcl => ?_, fun p cl hcl hid => h.inj p p₀ cl _ hcl hcl₀ hid⟩
    refine (hp.claim p cl hcl).imp_right fun ⟨_, hrec, hp'⟩ => ⟨?_, hrec⟩
    rw [hpos] at hp'
    rcases hp' with hp' | ⟨hp', -⟩
    · exact (Option.some.inj hp').symm
    · cases hp'
  | none =>
    refine ⟨((q.put t).pos).getD 0, fun p cl hcl => ?_,
      fun p cl hcl hid => absurd hid (hun hpos p cl hcl)⟩
    refine (hp.claim p cl hcl).imp_right fun ⟨_, hrec, hp'⟩ => ⟨?_, hrec⟩
    rw [hpos] at hp'
    rcases hp' with hp' | ⟨-, hp'⟩
    · cases hp'
    · rw [hp']
      rfl

theorem afterPut_of_record {q : Queue.State ι (Call ρ)} {d : Call ρ}
    (h : (q.put t).record = some d) : afterPut s t c q = { s with q := q } := by
  unfold afterPut
  split
  case h_1 ret hret => rw [hret] at h; cases h
  case h_2 => rfl

variable [Inhabited ρ]

/-- **A step inside `mpsc_queue_try_put`**, its return included: the position of a
call that comes back with `0` was accepted, that of one that comes back with
`-1` was not. -/
theorem CallsInv.put (h : CallsInv s) (hq : Queue.Good g s.q) {b : Queue.Act ι (Call ρ)}
    (hb : b.inCall t) (hw : s.write t = .tryPut c) {q : Queue.State ι (Call ρ)}
    (hs : Queue.step g s.q b = some q) : CallsInv (afterPut s t c q) := by
  have hc : (s.write t).call = some c := by rw [hw]; rfl
  have hok := h.write t
  rw [hw] at hok
  obtain ⟨hr, hun, hzero⟩ := hok
  have hp := Queue.putStep_step hb hq.inv hr hs
  obtain ⟨p₀, hclaim, hown⟩ := h.exists_pos_tryPut hq.inv hw hp
  rcases hp.next with ⟨ret, hret, hdone⟩ | ⟨hrec, hpos⟩
  · have hd : Queue.DoneOk q ⟨t, c, (s.q.put t).pos, ret⟩ := (Queue.good_step hq hs).history.done _
      (hdone ▸ List.mem_append_right _ (List.mem_cons_self ..))
    have hin : (q.put t).inside = false := by rw [hret]; rfl
    rcases hd with ⟨rfl, p, -, hcl, -⟩ | ⟨rfl, hlost⟩
    · -- `0`: the call returns `CLOG_OK`
      have heq : afterPut s t c q = ({ s with q := q }.emit [.wrote c .ok]).setWrite t .idle := by
        simp only [afterPut, hret, ne_eq, not_true_eq_false, if_false]
      have hcount (k : ℕ) :
          (({ s with q := q }.emit [.wrote c .ok]).setWrite t .idle).callers k = s.callers k :=
        (callers_emit (s := { s with q := q }) _ k).trans (by simp [Event.byCaller, State.callers])
      rw [heq]
      refine h.own hc rfl (fun u hu => Function.update_of_ne hu ..) hp.other
        ⟨p₀, hclaim, hown⟩ hp.settled (fun k _ => hcount k)
        (fun _ he => List.mem_append_left _ he) (fun d e hd => ?_) (by rwa [setWrite_self])
        fun d hd => by rw [setWrite_self] at hd; cases hd
      rcases List.mem_append.1 hd with hd | hd
      · exact .inl hd
      · obtain ⟨rfl, rfl⟩ : d = c ∧ e = .ok := by simpa using hd
        exact .inr ⟨rfl, ⟨⟨p, Queue.acceptedAt_of_claim hcl⟩, (hcount d.id).trans hzero⟩,
          by rw [setWrite_self]; rfl⟩
    · -- `-1`: the caller has to dispatch the record
      have heq : afterPut s t c q = { s with q := q }.setWrite t (.dispatch c .queueFull) := by
        simp only [afterPut, hret, ne_eq, if_pos (show (-1 : ℤ) ≠ 0 by decide)]
      rw [heq]
      refine h.own hc rfl (fun u hu => Function.update_of_ne hu ..) hp.other
        ⟨p₀, hclaim, hown⟩ hp.settled (fun _ _ => rfl) (fun _ he => he) (fun d e hd => .inl hd)
        ?_ fun d hd => by rw [setWrite_self] at hd; exact (Option.some.inj hd).symm
      rw [setWrite_self]
      refine ⟨hin, by simp, fun p cl hcl hid => ?_, hzero⟩
      cases hpos : (s.q.put t).pos with
      | some p₁ =>
        -- every claim of the call is at its own position
        obtain ⟨f₀, hcl₀⟩ := Queue.claim_of_pos hq.inv hr hpos
        have hp₁ : p₁ = p₀ := hown p₁ _ hcl₀ rfl
        have hp' : p = p₀ := by
          rcases hclaim p cl hcl with hold | ⟨h', -⟩
          · exact hown p cl hold hid
          · exact h'
        obtain ⟨f, hf, hcl₁⟩ := hlost p₁ hpos
        rw [hp₁, ← hp'] at hcl₁
        obtain rfl := Option.some.inj (hcl.symm.trans hcl₁)
        exact hf
      | none =>
        rcases hp.claim p cl hcl with hold | ⟨-, -, hnew | ⟨-, hnew⟩⟩
        · exact absurd hid (hun hpos p cl hold)
        · rw [hpos] at hnew
          cases hnew
        · rw [hret] at hnew
          cases hnew
  · -- the call goes on
    rw [afterPut_of_record hrec]
    refine h.own hc rfl (fun _ _ => rfl) hp.other ⟨p₀, hclaim, hown⟩ hp.settled (fun _ _ => rfl)
      (fun _ he => he) (fun d e hd => .inl hd) ?_ fun d hd =>
        Option.some.inj (hd.symm.trans hc)
    show WriteOk _ t (s.write t)
    rw [hw]
    refine ⟨hrec, fun hnone p cl hcl hid => ?_, hzero⟩
    have hnone' : (s.q.put t).pos = none := by
      rcases hpos with hpos | hpos
      · exact hpos
      · rw [← hpos]
        exact hnone
    rcases hp.claim p cl hcl with hold | ⟨-, -, hnew | ⟨-, hnew⟩⟩
    · exact hun hnone' p cl hold hid
    · rw [hnone'] at hnew
      cases hnew
    · rw [show (q.put t).pos = none from hnone] at hnew
      cases hnew

/-! ### Whole runs -/

omit [DecidableEq ι] [Inhabited ρ] in
theorem callers_append {l : List (Event ρ)} (hl : s'.events = s.events ++ l)
    (hq : ∀ e ∈ l, e.ofCaller = false) (k : ℕ) : s'.callers k = s.callers k := by
  have hzero : l.countP (Event.byCaller k) = 0 := by
    refine List.countP_eq_zero.2 fun e he => ?_
    have := hq e he
    cases e with
    | dispatched b c => cases b <;> simp_all [Event.ofCaller, Event.byCaller]
    | _ => simp [Event.byCaller]
  rw [State.callers, hl, List.countP_append, hzero, Nat.add_zero, State.callers]

omit [DecidableEq ι] [Inhabited ρ] in
/-- What the worker and the threads that flush or shut down do, is nothing to the
calls. -/
theorem CallsInv.beside (h : CallsInv s) (hq : Queue.SameCalls s.q s'.q)
    (hw : s'.write = s.write) (hc : s'.calls = s.calls) {l : List (Event ρ)}
    (hl : s'.events = s.events ++ l) (hev : ∀ e ∈ l, e.ofCaller = false) : CallsInv s' := by
  have hun (k : ℕ) : Untouched s s' k :=
    ⟨fun p cl hcl _ => hq.claim ▸ hcl, callers_append hl hev k⟩
  have hwrote (d : Call ρ) (e : Ret) (hd : Event.wrote d e ∈ s'.events) :
      Event.wrote d e ∈ s.events := by
    rw [hl] at hd
    rcases List.mem_append.1 hd with hd | hd
    · exact hd
    · exact absurd (hev _ hd) (by simp [Event.ofCaller])
  constructor
  · rw [hq.claim, hc]
    exact h.fresh
  · rw [hq.claim]
    exact h.inj
  · intro k hk
    rw [(hun k).callers]
    exact h.callers k (hc ▸ hk)
  · intro t
    rw [hw]
    exact (h.write t).frame (fun d _ => hun d.id) (by rw [hq.put])
  · rw [hw, hc]
    exact h.opened
  · rw [hw]
    exact h.apart
  · exact fun d e hd => (h.wrote d e (hwrote d e hd)).frame (hun d.id)
      (fun p cl hcl _ => hq.claim ▸ hcl) fun e he => hl ▸ List.mem_append_left _ he
  · intro d e hd
    rw [hc, hw]
    exact h.closed d e (hwrote d e hd)

/-- **`log_async_write_for` keeps the account of the calls.** -/
theorem CallsInv.step_write (h : CallsInv s) (hq : Queue.Good g s.q)
    (hs : logAsyncWriteFor g s t = some s') : CallsInv s' := by
  have hok := h.write t
  have hlost {k : ℕ} (hu : s.Unclaimed k) : s.Lost k := fun p cl hcl hid => absurd hid (hu p cl hcl)
  unfold logAsyncWriteFor at hs
  cases hw : s.write t with
  | idle => simp [hw] at hs
  | checkQueue c =>
    simp only [hw] at hs
    rw [hw] at hok
    obtain ⟨hin, hun, hzero⟩ := hok
    have hc : (s.write t).call = some c := by rw [hw]; rfl
    split_ifs at hs <;> cases hs
    · exact h.move hc rfl (fun _ _ => rfl) ⟨hin, hun, hzero⟩ rfl
    · exact h.move hc rfl (fun _ _ => rfl) ⟨hin, by simp, hlost hun, hzero⟩ rfl
  | clone c =>
    simp only [hw] at hs
    rw [hw] at hok
    cases hs
    exact h.move (by rw [hw]; rfl) rfl (fun _ _ => rfl) hok rfl
  | loadQueue c =>
    simp only [hw] at hs
    rw [hw] at hok
    obtain ⟨hin, hun, hzero⟩ := hok
    have hc : (s.write t).call = some c := by rw [hw]; rfl
    split_ifs at hs
    · obtain ⟨q, hstep, rfl⟩ := Option.map_eq_some_iff.1 hs
      simp only [Queue.step, hin, Bool.false_eq_true, if_false] at hstep
      cases hstep
      have hrec : ((s.q.setPut t (.loadClosed c)).put t).record = some c := by
        rw [Queue.setPut_put]
        rfl
      have hok' : WriteOk ({ s with q := s.q.setPut t (.loadClosed c) }.setWrite t (.tryPut c)) t
          (.tryPut c) := ⟨hrec, fun _ => hun, hzero⟩
      refine h.move hc ?_ ?_ hok' rfl
      · rfl
      · exact fun u hu => Function.update_of_ne hu ..
    · cases hs
      exact h.move hc rfl (fun _ _ => rfl) ⟨hin, by simp, hlost hun, hzero⟩ rfl
  | tryPut c =>
    simp only [hw] at hs
    obtain ⟨q, hstep, rfl⟩ := Option.map_eq_some_iff.1 hs
    exact h.put hq (.inl rfl) hw hstep
  | dispatch c ret =>
    simp only [hw] at hs
    cases hs
    exact h.dispatch hw

/-- Every step keeps the calls accounted for. -/
theorem CallsInv.step {a : Act ι ρ} (h : CallsInv s) (hq : Queue.Good g s.q)
    (hs : step g s a = some s') : CallsInv s' := by
  have hm := moves_step hs
  have hbeside (ha : a.caller = none) : CallsInv s' := by
    obtain ⟨hw, hc⟩ := hm.write ha
    obtain ⟨l, hl, hev⟩ := hm.events
    refine h.beside ?_ hw hc hl fun e he => ?_
    · rcases hm.queue with heq | ⟨b, hb, hal⟩
      · exact heq ▸ .refl _
      · exact Queue.sameCalls_step (Act.producer_of_caller hal ha) hb
    · rw [ha] at hev
      exact Bool.eq_false_iff.2 fun hof => absurd ((hev e he).2 hof) (by simp)
  cases a with
  | log t r =>
    simp only [Async.step] at hs
    split at hs
    case h_1 hw =>
      cases hs
      exact h.log hw r
    case h_2 => cases hs
  | write t => exact h.step_write hq hs
  | cloneFails t =>
    simp only [Async.step, cloneFails] at hs
    split at hs
    case h_1 c hw =>
      have hok := h.write t
      rw [hw] at hok
      obtain ⟨hin, hun, hzero⟩ := hok
      cases hs
      exact h.move (by rw [hw]; rfl) rfl (fun _ _ => rfl)
        ⟨hin, by simp, fun p cl hcl hid => absurd hid (hun p cl hcl), hzero⟩ rfl
    case h_2 => cases hs
  | giveUp t =>
    obtain ⟨c, q, hw, hstep, rfl⟩ := insidePut_cases hs
    exact h.put hq (.inr (.inl rfl)) hw hstep
  | casMiss t =>
    obtain ⟨c, q, hw, hstep, rfl⟩ := insidePut_cases hs
    exact h.put hq (.inr (.inr rfl)) hw hstep
  | work | callShutdown | shutdown | callFlush | flush | spurious => exact hbeside rfl

/-- All invariants of the async path. -/
structure Good (g : Shape) (s : State ι ρ) : Prop where
  queue : Queue.Good g s.q
  worker : WorkerInv s
  calls : CallsInv s

theorem WorkerInv.step {a : Act ι ρ} (h : WorkerInv s) (hq : Queue.Good g s.q)
    (hs : Async.step g s a = some s') : WorkerInv s' := by
  by_cases ha : a = .work
  · subst ha
    exact h.work hq.inv hs
  · have hm := moves_step hs
    obtain ⟨hw, hp⟩ := hm.worker ha
    obtain ⟨l, hl, hev⟩ := hm.events
    have hlog : workerLog s'.events = workerLog s.events := by
      have hnil : workerLog l = [] := by
        refine List.filterMap_eq_nil_iff.2 fun e he => ?_
        have hof : e.ofWorker = false := Bool.eq_false_iff.2 fun hof => ha ((hev e he).1 hof)
        cases e with
        | dispatched b c => cases b <;> simp_all [Event.ofWorker]
        | _ => rfl
      rw [hl, workerLog_append, hnil, List.append_nil]
    rcases hm.queue with heq | ⟨b, hb, hal⟩
    · exact h.frame hq.inv (by rw [heq]; exact ⟨rfl, rfl⟩) (fun _ _ => by rw [heq]) hw hp hlog
    · have hsame := Queue.sameConsumer_step (Bool.eq_false_iff.2 fun hc =>
        ha (Act.work_of_consumes hal hc)) hb
      exact h.frame hq.inv ⟨hsame.tail, hsame.consumer⟩
        (fun p hlt => Queue.acceptedAt_step hq.inv hb hlt) hw hp hlog

/-- Every step keeps `Good`. -/
theorem good_step {a : Act ι ρ} (h : Good g s) (hs : step g s a = some s') : Good g s' := by
  refine ⟨?_, h.worker.step h.queue hs, h.calls.step h.queue hs⟩
  rcases (moves_step hs).queue with heq | ⟨b, hb, -⟩
  · exact heq ▸ h.queue
  · exact Queue.good_step h.queue hb

theorem good_init (g : Shape) (junk : ℕ → Queue.Entry (Call ρ)) :
    Good g (logAsyncInitFor g junk : State ι ρ) where
  queue := Queue.good_reachable .refl
  worker := ⟨rfl, rfl, rfl⟩
  calls :=
    { fresh := fun _ _ hc => nomatch hc
      inj := fun _ _ _ _ hc => nomatch hc
      callers := fun _ _ => rfl
      write := fun _ => rfl
      opened := fun _ _ hc => nomatch hc
      apart := fun _ _ _ _ hc => nomatch hc
      wrote := fun _ _ he => nomatch he
      closed := fun _ _ he => nomatch he }

/-- **Every reachable state of the async path keeps all accounts.** -/
theorem good_reachable {junk : ℕ → Queue.Entry (Call ρ)}
    (h : Reachable (step g) (logAsyncInitFor g junk : State ι ρ) s) : Good g s :=
  h.invariant (I := Good g) (good_init g junk) fun _ _ _ hi _ hs => good_step hi hs

end Async
end Clogx
