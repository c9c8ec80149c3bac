/-
# The server of the metrics

`clog_prometheus_exporter_start`, `clog_prometheus_exporter_stop` and the loop of
`prometheus_worker_thread`, in `core/prometheus_exporter.c`: any number of threads in
the two calls, and every worker that a start has made.  What is between a lock of
`g_prom_mutex` and its unlock is one step, since the globals are touched nowhere
else; so a start is one step, and a stop is two: it gives the mutex back before it
joins, and reads `g_prom_thread` behind it.  A worker takes a step for each of its
two sections, for `accept` and for a client.  What a client is sent is in
`Prometheus.Render`.

The calls of the system fail when they like.  A descriptor is never given out again,
and `accept` fails on one that is closed (`shutdown` lets it return).  `fault` is
raised when a descriptor is closed that is not open, or a thread is joined that was
joined before.
-/

import Clogx.Machine.Run

namespace Clogx
namespace Prometheus

open Machine

/-- `clogx_errno_t`, as far as the exporter returns it. -/
inductive Errno
  | ok
  | invalidArg
  | socketConnect
  | threadCreate
  deriving DecidableEq

/-- Where a worker is. -/
inductive Pc
  | loop
  | accept (fd : Option ℕ)
  | serve (client : ℕ)
  | retry
  | exited
  deriving DecidableEq

/-- The globals, the workers made so far, the threads at `clog_thread_join`, and what the system has
given out: descriptors and the calls of `clog_net_init`. -/
structure Exporter (ι : Type*) where
  running : Bool
  serverFd : Option ℕ
  thread : Option ℕ
  workers : List Pc
  joining : List ι
  joined : List ℕ
  openFds : List ℕ
  nextFd : ℕ
  inits : ℕ
  cleanups : ℕ
  fault : Bool

/-- Whether the calls of a start succeed. -/
structure Answers where
  socket : Bool
  bind : Bool
  listen : Bool
  create : Bool

inductive Act (ι : Type*)
  | start (port : ℤ) (sys : Answers)
  | stop (t : ι)
  | join (t : ι)
  | work (k : ℕ) (ok : Bool)

variable {ι : Type*}

namespace Exporter

/-- Before the first call. -/
def initial : Exporter ι where
  running := false
  serverFd := none
  thread := none
  workers := []
  joining := []
  joined := []
  openFds := []
  nextFd := 0
  inits := 0
  cleanups := 0
  fault := false

variable (s : Exporter ι)

/-- A new descriptor. -/
def openFd : Exporter ι := { s with openFds := s.nextFd :: s.openFds, nextFd := s.nextFd + 1 }

/-- `clog_close_socket`. -/
def closeFd (fd : ℕ) : Exporter ι :=
  { s with openFds := s.openFds.erase fd, fault := s.fault || decide (fd ∉ s.openFds) }

/-- `g_prom_server_fd` is closed and forgotten, and `clog_net_cleanup` called. -/
def closeServer : Exporter ι :=
  match s.serverFd with
  | none => { s with cleanups := s.cleanups + 1, fault := true }
  | some fd => { s.closeFd fd with serverFd := none, cleanups := s.cleanups + 1 }

/-- `clog_prometheus_exporter_start`. -/
def start (port : ℤ) (sys : Answers) : Errno × Exporter ι :=
  if port ≤ 0 ∨ 65535 < port then (.invalidArg, s)
  else if s.running then (.ok, s)
  else
    let s := { s with inits := s.inits + 1 }
    if !sys.socket then
      (.socketConnect, { s with serverFd := none, cleanups := s.cleanups + 1 })
    else
      let s := { s.openFd with serverFd := some s.nextFd }
      if !sys.bind then (.socketConnect, s.closeServer)
      else if !sys.listen then (.socketConnect, s.closeServer)
      else
        let s := { s with running := true }
        if !sys.create then (.threadCreate, { s with running := false }.closeServer)
        else (.ok, { s with thread := some s.workers.length, workers := s.workers ++ [.loop] })

/-- `clog_prometheus_exporter_stop` by thread `t`, up to the join. -/
def stop (t : ι) : Exporter ι :=
  if !s.running then s
  else
    let s := { s with running := false, joining := s.joining ++ [t] }
    if s.serverFd = none then s else s.closeServer

/-- `clog_thread_join` by thread `t`, which waits until the worker has exited. -/
def join [DecidableEq ι] (t : ι) : Option (Exporter ι) :=
  if t ∈ s.joining then
    match s.thread with
    | none => some { s with joining := s.joining.erase t, fault := true }
    | some k =>
      if s.workers[k]? = some .exited then
        some { s with
          joining := s.joining.erase t
          joined := s.joined ++ [k]
          fault := s.fault || decide (k ∈ s.joined) }
      else none
  else none

/-- Worker `k` goes to `p`. -/
def goto (k : ℕ) (p : Pc) : Exporter ι := { s with workers := s.workers.set k p }

/-- The next step of worker `k`; `ok` is the answer of `accept`. -/
def work (k : ℕ) (ok : Bool) : Option (Exporter ι) :=
  match s.workers[k]? with
  | none | some .exited => none
  | some .loop => some (s.goto k (if s.running then .accept s.serverFd else .exited))
  | some (.accept fd) =>
    if !ok then some (s.goto k .retry)
    else if fd.any (· ∈ s.openFds) then some (s.openFd.goto k (.serve s.nextFd))
    else none
  | some (.serve client) => some ((s.closeFd client).goto k .loop)
  | some .retry => some (s.goto k (if s.running then .loop else .exited))

end Exporter

open Exporter

/-- One step. -/
def step [DecidableEq ι] (s : Exporter ι) : Act ι → Option (Exporter ι)
  | .start port sys => some (s.start port sys).2
  | .stop t => some (s.stop t)
  | .join t => s.join t
  | .work k ok => s.work k ok

/-- **What the callers keep to:** no start comes between a stop and its join. -/
def Keeps (s : Exporter ι) : Act ι → Prop
  | .start .. => s.joining = []
  | _ => True

instance (s : Exporter ι) : (a : Act ι) → Decidable (Keeps s a)
  | .start .. => decidable_of_iff (s.joining.isEmpty = true) List.isEmpty_iff
  | .stop _ | .join _ | .work .. => inferInstanceAs (Decidable True)

/-- The client that a worker serves. -/
def Pc.client : Pc → List ℕ
  | .serve client => [client]
  | _ => []

/-- How many steps a worker that finds the flag down has to go. -/
def Pc.toExit : Pc → ℕ
  | .accept _ | .serve _ => 2
  | .loop | .retry => 1
  | .exited => 0

/-- **The exporter is in order.** -/
structure Exporter.Sound (s : Exporter ι) : Prop where
  /-- Nothing is closed or joined twice. -/
  fault : s.fault = false
  /-- A start says that it succeeded where the exporter runs behind it. -/
  status : ∀ port sys, (s.start port sys).1 = .ok ↔
    0 < port ∧ port ≤ 65535 ∧ (s.start port sys).2.running = true
  /-- At most one worker runs: those before it are joined. -/
  one : ∀ k p, s.workers[k]? = some p → p ≠ Pc.exited → s.joined = List.range k
  /-- While it runs, one worker serves a socket that is open. -/
  runs : s.running = true → ∃ fd p, s.workers.getLast? = some p ∧ p ≠ Pc.exited ∧
    s.serverFd = some fd ∧ s.openFds.Perm (fd :: p.client) ∧ s.inits = s.cleanups + 1
  /-- When it does not and nobody waits for the worker, everything was given back. -/
  rests : s.running = false → s.joining = [] → (∀ p ∈ s.workers, p = Pc.exited) ∧
    s.serverFd = none ∧ s.openFds = [] ∧ s.inits = s.cleanups ∧
    s.joined = List.range s.workers.length

/-! ### The account

`n` workers were joined.  Beside them there is the server socket, the worker that was made last, and
the thread that joins it. -/

structure At (s : Exporter ι) (n : ℕ) (server : Option ℕ) (worker : Option Pc) (joining : List ι) :
    Prop where
  running : s.running = server.isSome
  serverFd : s.serverFd = server
  workers : s.workers = List.replicate n .exited ++ worker.toList
  joined : s.joined = List.range n
  joining : s.joining = joining
  thread : worker.isSome → s.thread = some n
  fds : s.openFds.Perm (server.toList ++ worker.elim [] Pc.client)
  inits : s.inits = s.cleanups + server.toList.length
  sound : s.fault = false

theorem closeServer_running (s : Exporter ι) : s.closeServer.running = s.running := by
  rw [closeServer]
  split <;> rfl

/-- When `start` succeeds. -/
theorem start_eq_ok (s : Exporter ι) (port : ℤ) (sys : Answers) : (s.start port sys).1 = .ok ↔
    0 < port ∧ port ≤ 65535 ∧ (s.start port sys).2.running = true := by
  rw [Exporter.start]
  split_ifs with hport hup
  · exact iff_of_false (by rintro ⟨⟩) (by omega)
  · simp [hup]
    omega
  all_goals simp_all [closeServer_running, openFd]

/-- **The exporter is in one of three phases:** nothing runs, a worker serves, or a stop waits. -/
inductive Phase (s : Exporter ι) : Prop
  | rests (n : ℕ) (h : At s n none none [])
  | runs (n fd : ℕ) (p : Pc) (h : At s n (some fd) (some p) []) (hp : p ≠ .exited)
  | stops (n : ℕ) (t : ι) (p : Pc) (h : At s n none (some p) [t])

section Steps

variable {s s' : Exporter ι} {n k : ℕ} {server : Option ℕ} {p q : Pc} {joining : List ι} {t : ι}

/-- **A start where nothing runs** leaves nothing behind if it fails, and a socket and a worker if
it succeeds. -/
theorem At.start (h : At s n none none []) (port : ℤ) (sys : Answers) :
    At (s.start port sys).2 n none none [] ∨
      ∃ fd, At (s.start port sys).2 n (some fd) (some .loop) [] := by
  have hinits : s.inits + 1 = s.cleanups + 1 := congrArg (· + 1) h.inits
  -- a socket that was opened and closed again
  have hclosed : ∀ s' : Exporter ι, s' = { s with
      inits := s.inits + 1
      cleanups := s.cleanups + 1
      serverFd := none
      nextFd := s.nextFd + 1 } → At s' n none none [] := by
    rintro s' rfl
    exact ⟨h.running, rfl, h.workers, h.joined, h.joining, h.thread, h.fds, hinits, h.sound⟩
  have hdown : s.running = false := h.running
  rw [Exporter.start]
  split_ifs with _ hup
  · exact .inl h
  · exact absurd (hdown.symm.trans hup) Bool.false_ne_true
  · exact .inl ⟨h.running, rfl, h.workers, h.joined, h.joining, h.thread, h.fds, hinits, h.sound⟩
  · exact .inl (hclosed _ (by simp [openFd, closeServer, closeFd]))
  · exact .inl (hclosed _ (by simp [openFd, closeServer, closeFd]))
  · exact .inl (hclosed _ (by simp [openFd, closeServer, closeFd, hdown]))
  · refine .inr ⟨s.nextFd, rfl, rfl, ?_, h.joined, h.joining, fun _ => ?_, ?_, hinits, h.sound⟩
    · show s.workers ++ [Pc.loop] = _
      rw [h.workers]
      simp
    · show some s.workers.length = some n
      rw [h.workers]
      simp
    · exact h.fds.cons _

/-- A stop takes the flag down and closes the socket. -/
theorem At.stop {fd : ℕ} (h : At s n (some fd) (some p) []) (t : ι) :
    At (s.stop t) n none (some p) [t] := by
  have hup : s.running = true := h.running
  have hserver := h.serverFd
  have hmem : fd ∈ s.openFds := h.fds.mem_iff.2 (List.mem_cons_self ..)
  have hstop : s.stop t = { s with
      running := false
      joining := s.joining ++ [t]
      openFds := s.openFds.erase fd
      fault := false
      serverFd := none
      cleanups := s.cleanups + 1 } := by
    simp [Exporter.stop, hup, hserver, closeServer, closeFd, h.sound, hmem]
  rw [hstop]
  refine ⟨rfl, rfl, h.workers, h.joined, ?_, h.thread, ?_, h.inits, rfl⟩
  · show s.joining ++ [t] = [t]
    rw [h.joining]
    rfl
  · have hperm := h.fds.erase fd
    rwa [Option.toList_some, List.cons_append, List.erase_cons_head] at hperm

/-- The workers before the last one have exited. -/
theorem At.getElem?_eq {worker : Option Pc} (h : At s n server worker joining) (k : ℕ) :
    s.workers[k]? = if k < n then some .exited else if k = n then worker else none := by
  rw [h.workers, List.getElem?_append, List.length_replicate]
  split_ifs with hlt heq
  · rw [List.getElem?_replicate, if_pos hlt]
  · rw [heq, Nat.sub_self]
    cases worker <;> rfl
  · have hlen : worker.toList.length ≤ 1 := by cases worker <;> simp
    exact List.getElem?_eq_none (by omega)

theorem At.getElem? (h : At s n server (some p) joining) : s.workers[n]? = some p := by
  rw [h.getElem?_eq, if_neg (Nat.lt_irrefl n), if_pos rfl]

/-- The worker that is joined is the last one, which has exited. -/
theorem At.join [DecidableEq ι] (h : At s n none (some p) [t]) {u : ι} (hs : s.join u = some s') :
    p = .exited ∧ u = t ∧ At s' (n + 1) none none [] := by
  have hnew : n ∉ s.joined := by
    rw [h.joined]
    simp
  rw [Exporter.join, h.joining] at hs
  split_ifs at hs with hu
  obtain rfl := List.mem_singleton.1 hu
  split at hs
  · rename_i hnone
    cases hnone.symm.trans (h.thread rfl)
  · rename_i k hk
    obtain rfl : k = n := Option.some.inj (hk.symm.trans (h.thread rfl))
    split_ifs at hs with hexit
    obtain rfl : p = .exited := Option.some.inj (h.getElem?.symm.trans hexit)
    cases hs
    refine ⟨rfl, rfl, h.running, h.serverFd, ?_, ?_, ?_, by rintro ⟨⟩, h.fds, h.inits, ?_⟩
    · show s.workers = _
      rw [h.workers, List.replicate_succ', List.append_assoc]
      rfl
    · show s.joined ++ [k] = _
      rw [h.joined, List.range_succ]
    · simp
    · simp [h.sound, hnew]

/-- Only the last worker takes steps. -/
theorem At.eq_of_work {worker : Option Pc} (h : At s n server worker joining) {ok : Bool}
    (hs : s.work k ok = some s') : k = n ∧ worker.isSome := by
  by_cases hlt : k < n
  · simp [Exporter.work, h.getElem?_eq, hlt] at hs
  by_cases heq : k = n
  · cases worker with
    | none => simp [Exporter.work, h.getElem?_eq, heq] at hs
    | some p => exact ⟨heq, rfl⟩
  · simp [Exporter.work, h.getElem?_eq, hlt, heq] at hs

/-- The worker goes to `p`. -/
theorem At.goto (h : At s n server (some q) joining) (hclient : p.client = q.client) :
    At (s.goto n p) n server (some p) joining := by
  refine ⟨h.running, h.serverFd, ?_, h.joined, h.joining, h.thread, ?_, h.inits, h.sound⟩
  · show s.workers.set n p = _
    rw [h.workers]
    simp
  · show s.openFds.Perm (_ ++ p.client)
    rw [hclient]
    exact h.fds

/-- `accept` has a client. -/
theorem At.accept (h : At s n server (some q) joining) (hclient : q.client = []) :
    At (s.openFd.goto n (.serve s.nextFd)) n server (some (.serve s.nextFd)) joining := by
  refine ⟨h.running, h.serverFd, ?_, h.joined, h.joining, h.thread, ?_, h.inits, h.sound⟩
  · show s.workers.set n _ = _
    rw [h.workers]
    simp
  · have hperm := h.fds
    rw [Option.elim_some, hclient, List.append_nil] at hperm
    exact (hperm.cons _).trans (List.perm_append_singleton ..).symm

/-- The client is closed. -/
theorem At.closeClient {client : ℕ} (h : At s n server (some (.serve client)) joining) :
    At ((s.closeFd client).goto n .loop) n server (some .loop) joining := by
  have hmem : client ∈ s.openFds := h.fds.mem_iff.2 (List.mem_append_right _ (List.mem_cons_self ..))
  refine ⟨h.running, h.serverFd, ?_, h.joined, h.joining, h.thread, ?_, h.inits, ?_⟩
  · show s.workers.set n _ = _
    rw [h.workers]
    simp
  · have hperm := (h.fds.trans (List.perm_append_singleton ..)).erase client
    rw [List.erase_cons_head] at hperm
    exact hperm.trans (List.append_nil _ ▸ List.Perm.refl _)
  · show (s.fault || decide (client ∉ s.openFds)) = false
    simp [h.sound, hmem]

/-- **A step of the last worker,** which exits only where it finds the flag down. -/
theorem At.work (h : At s n server (some q) joining) {ok : Bool} (hs : s.work n ok = some s') :
    ∃ p, At s' n server (some p) joining ∧ (p = .exited → server = none) ∧
      (server = none → p.toExit < q.toExit) := by
  have hup : s.running = server.isSome := h.running
  cases q with
  | exited => simp [Exporter.work, h.getElem?] at hs
  | loop =>
    simp only [Exporter.work, h.getElem?, hup] at hs
    cases hs
    cases server with
    | none => exact ⟨.exited, h.goto rfl, fun _ => rfl, fun _ => Nat.zero_lt_one⟩
    | some fd => exact ⟨.accept _, h.goto rfl, by rintro ⟨⟩, by rintro ⟨⟩⟩
  | accept fd =>
    simp only [Exporter.work, h.getElem?] at hs
    split_ifs at hs with hok hopen
    · cases hs
      exact ⟨.retry, h.goto rfl, by rintro ⟨⟩, fun _ => Nat.lt_succ_self 1⟩
    · cases hs
      refine ⟨_, h.accept rfl, by rintro ⟨⟩, ?_⟩
      rintro rfl
      -- the server socket is closed, and no other one is open
      simp [h.fds.eq_nil] at hopen
  | serve client =>
    simp only [Exporter.work, h.getElem?] at hs
    cases hs
    exact ⟨.loop, h.closeClient, by rintro ⟨⟩, fun _ => Nat.lt_succ_self 1⟩
  | retry =>
    simp only [Exporter.work, h.getElem?, hup] at hs
    cases hs
    cases server with
    | none => exact ⟨.exited, h.goto rfl, fun _ => rfl, fun _ => Nat.zero_lt_one⟩
    | some fd => exact ⟨.loop, h.goto rfl, by rintro ⟨⟩, by rintro ⟨⟩⟩

/-- **Every step goes from phase to phase.** -/
theorem Phase.step [DecidableEq ι] (h : Phase s) {a : Act ι} (hkeeps : Keeps s a)
    (hs : step s a = some s') : Phase s' := by
  cases a with
  | start port sys =>
    cases hs
    rcases h with ⟨n, h⟩ | ⟨n, fd, p, h, hp⟩ | ⟨n, t, p, h⟩
    · rcases h.start port sys with h' | ⟨fd, h'⟩
      · exact .rests n h'
      · exact .runs n fd .loop h' (by rintro ⟨⟩)
    · have hup : s.running = true := h.running
      have hsame : (s.start port sys).2 = s := by
        rw [Exporter.start, if_pos hup]
        split_ifs <;> rfl
      exact .runs n fd p (hsame.symm ▸ h) hp
    · cases hkeeps.symm.trans h.joining
  | stop t =>
    cases hs
    have hsame : s.running = false → s.stop t = s := fun hdown => by simp [Exporter.stop, hdown]
    rcases h with ⟨n, h⟩ | ⟨n, fd, p, h, -⟩ | ⟨n, u, p, h⟩
    · exact .rests n ((hsame h.running).symm ▸ h)
    · exact .stops n t p (h.stop t)
    · exact .stops n u p ((hsame h.running).symm ▸ h)
  | join u =>
    have hs : s.join u = some s' := hs
    have hmem : u ∈ s.joining := by
      by_contra hno
      simp [Exporter.join, hno] at hs
    rcases h with ⟨n, h⟩ | ⟨n, fd, p, h, -⟩ | ⟨n, t, p, h⟩
    · exact absurd hmem (h.joining ▸ List.not_mem_nil)
    · exact absurd hmem (h.joining ▸ List.not_mem_nil)
    · exact .rests (n + 1) (h.join hs).2.2
  | work k ok =>
    have hs : s.work k ok = some s' := hs
    rcases h with ⟨n, h⟩ | ⟨n, fd, p, h, -⟩ | ⟨n, t, p, h⟩
    · cases (h.eq_of_work hs).2
    · obtain rfl := (h.eq_of_work hs).1
      obtain ⟨p', h', hexit, -⟩ := h.work hs
      exact .runs k fd p' h' fun heq => by cases hexit heq
    · obtain rfl := (h.eq_of_work hs).1
      obtain ⟨p', h', -, -⟩ := h.work hs
      exact .stops k t p' h'

theorem Phase.initial : Phase (initial : Exporter ι) :=
  .rests 0 ⟨rfl, rfl, rfl, rfl, rfl, by rintro ⟨⟩, .refl _, rfl, rfl⟩

/-- The phase invariant over whole runs. -/
theorem phase_of_reach [DecidableEq ι] (h : Reach step Keeps initial s) : Phase s :=
  h.invariant Phase.initial fun _ _ _ hphase hkeeps hs => hphase.step hkeeps hs

/-- The phase invariant gives soundness. -/
theorem Phase.sound (h : Phase s) : s.Sound where
  fault := by
    rcases h with ⟨n, h⟩ | ⟨n, fd, p, h, -⟩ | ⟨n, t, p, h⟩ <;> exact h.sound
  status := start_eq_ok s
  one k p hk hp := by
    obtain ⟨n, server, worker, joining, h⟩ : ∃ n server worker joining,
        At s n server worker joining := by
      rcases h with ⟨n, h⟩ | ⟨n, fd, q, h, -⟩ | ⟨n, t, q, h⟩ <;> exact ⟨_, _, _, _, h⟩
    rw [h.getElem?_eq] at hk
    split_ifs at hk with hlt heq
    · exact absurd (Option.some.inj hk).symm hp
    · rw [heq, h.joined]
  runs hup := by
    rcases h with ⟨n, h⟩ | ⟨n, fd, p, h, hp⟩ | ⟨n, t, p, h⟩
    · cases hup.symm.trans h.running
    · refine ⟨fd, p, ?_, hp, h.serverFd, h.fds, h.inits⟩
      rw [h.workers]
      simp
    · cases hup.symm.trans h.running
  rests hdown hjoining := by
    rcases h with ⟨n, h⟩ | ⟨n, fd, p, h, -⟩ | ⟨n, t, p, h⟩
    · refine ⟨fun p hp => ?_, h.serverFd, h.fds.eq_nil, h.inits, ?_⟩
      · rw [h.workers, Option.toList_none, List.append_nil] at hp
        exact List.eq_of_mem_replicate hp
      · rw [h.joined, h.workers]
        simp
    · cases hdown.symm.trans h.running
    · cases hjoining.symm.trans h.joining

end Steps

section Results

variable [DecidableEq ι] {s s' : Exporter ι} {t : ι} {k : ℕ}

/-- **The exporter is in order whatever is called.**  For any number of threads that start and stop
it, any failures of the system and any clients, where no start comes between a stop and its join: no
descriptor is closed and no worker joined twice, at most one worker runs, while the flag is up it
serves the one server socket, and once a stop has returned every socket is closed, every worker
joined and every `clog_net_init` undone. -/
theorem exporter_lifecycle (h : Reach step Keeps initial s) : s.Sound :=
  (phase_of_reach h).sound

/-- A start whose `bind` fails, one that succeeds, a client, and a stop that closes the socket while
the worker is in `accept`. -/
def served : List (Act (Fin 1)) :=
  [.start 9090 ⟨true, false, true, true⟩, .start 9090 ⟨true, true, true, true⟩, .work 0 true,
    .work 0 true, .work 0 true, .work 0 true, .stop 0]

/-- At the end of that run the worker is joined. -/
theorem exporter_lifecycle_served : ∃ s : Exporter (Fin 1), Reach step Keeps initial s ∧
    s.workers = [.exited] ∧ s.Sound := by
  obtain ⟨s, hs, hexited⟩ : ∃ s : Exporter (Fin 1), Reach step Keeps initial s ∧
      s.workers = [.exited] :=
    exists_of_runIf (served ++ [.work 0 false, .work 0 true, .join 0]) (by decide +kernel)
  exact ⟨s, hs, hexited, exporter_lifecycle hs⟩

end Results

end Prometheus
end Clogx
