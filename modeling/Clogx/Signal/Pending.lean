/-
# Caught signals

`log_signal_handler` and `log_process_pending_signals` (`core/signal_handler.c`, the
POSIX part) after `log_install_signal_handlers`.  The handler has two steps, the store
to `g_signal_pending` and the write of one byte to the self-pipe, and each may fall
between any two steps of the calls that process signals; these run on any number of
threads.

`SA_RESETHAND` sets the disposition of a signal back to the default when the handler is
entered, so an installation catches each of the two signals at most once.  The
dispositions that were there before the installation return: `raise` is a step like the
others.

A processing call takes one signal, from `g_signal_pending` or else from the pipe, and
then clears both.  So a second signal is lost if it is recorded before the first one is
taken, or between the take and the clear.  `caught` and `reraised` are history.
-/

import Clogx.Machine.Run

namespace Clogx
namespace Signal

open Machine (Reach Reachable)

/-- The signals that are caught. -/
inductive Sig
  | sigterm
  | sigint
deriving DecidableEq

instance : Fintype Sig := ⟨{.sigterm, .sigint}, by rintro (_ | _) <;> decide⟩

/-- What becomes of a signal that arrives: the handler of the library, `SIG_DFL`, or what
`g_old_sigterm` and `g_old_sigint` hold. -/
inductive Disposition
  | logSignalHandler
  | sigDfl
  | old
deriving DecidableEq

/-- Where a call of `log_process_pending_signals` stands; `sig` is its variable. -/
inductive Pc
  | idle
  | load
  | readPipe
  | clear (sig : Sig)
  | drain (sig : Sig)
  | flush (sig : Sig)
  | restore (sig : Sig)
  | raise (sig : Sig)
deriving DecidableEq

/-- The variables of `signal_handler.c`, the handlers between their two steps, the calls, and
the history.  `g_signal_pending` is 0 for `none`, and the pipe is not open for `none`. -/
structure State (ι : Type*) where
  gSignalPending : Option Sig
  gSignalPipe : Option (List Sig)
  gInstalled : Bool
  disposition : Sig → Disposition
  handlers : List Sig
  pc : ι → Pc
  caught : List Sig
  reraised : List Sig

/-- Nothing is installed. -/
def State.init {ι : Type*} : State ι where
  gSignalPending := none
  gSignalPipe := none
  gInstalled := false
  disposition _ := .old
  handlers := []
  pc _ := .idle
  caught := []
  reraised := []

/-- `setup_self_pipe`, where `pipe` succeeds or not. -/
def setupSelfPipe (opens : Bool) : Option (List Sig) → Option (List Sig)
  | some bytes => some bytes
  | none => if opens then some [] else none

/-- `log_install_signal_handlers`, when it returns `CLOG_OK`. -/
def logInstallSignalHandlers {ι : Type*} (opens : Bool) (s : State ι) : State ι :=
  if s.gInstalled then s
  else
    { s with
      gSignalPipe := setupSelfPipe opens s.gSignalPipe
      disposition := fun _ => .logSignalHandler
      gInstalled := true
      gSignalPending := none }

/-- The handlers are installed. -/
abbrev State.installed {ι : Type*} (opens : Bool) : State ι :=
  logInstallSignalHandlers opens State.init

/-- A signal arrives and the handler stores it, a handler writes its byte, a call of
`log_process_pending_signals` begins, or it takes its next step. -/
inductive Act (ι : Type*)
  | arrive (sig : Sig)
  | write (sig : Sig)
  | call (t : ι)
  | step (t : ι)

/-- The bytes in the pipe. -/
def State.bytes {ι : Type*} (s : State ι) : List Sig := s.gSignalPipe.getD []

variable {ι : Type*} [DecidableEq ι]

/-- Thread `t` goes to `pc`. -/
def State.goto (s : State ι) (t : ι) (pc : Pc) : State ι :=
  { s with pc := Function.update s.pc t pc }

/-- The previous disposition of the signal, or the default one. -/
def State.restore (s : State ι) (sig : Sig) : State ι :=
  { s with
    disposition := Function.update s.disposition sig (if s.gInstalled then .old else .sigDfl) }

/-- One step of a call of `log_process_pending_signals`. -/
def processStep (s : State ι) (t : ι) : Option (State ι) :=
  match s.pc t with
  | .idle => none
  | .load =>
    match s.gSignalPending, s.gSignalPipe with
    | some sig, _ => some (s.goto t (.clear sig))
    | none, some _ => some (s.goto t .readPipe)
    | none, none => some (s.goto t .idle)
  | .readPipe =>
    match s.gSignalPipe with
    | some (ch :: rest) => some ({ s with gSignalPipe := some rest }.goto t (.clear ch))
    | _ => some (s.goto t .idle)
  | .clear sig => some ({ s with gSignalPending := none }.goto t (.drain sig))
  | .drain sig =>
    match s.gSignalPipe with
    | some (ch :: rest) => some { s with gSignalPipe := some ((ch :: rest).drop 16) }
    | _ => some (s.goto t (.flush sig))
  -- `log_flush` touches nothing here
  | .flush sig => some (s.goto t (.restore sig))
  | .restore sig => some ((s.restore sig).goto t (.raise sig))
  | .raise sig => some ({ s with reraised := sig :: s.reraised }.goto t .idle)

/-- One step of the system. -/
def step (s : State ι) : Act ι → Option (State ι)
  | .arrive sig =>
    if s.disposition sig = .logSignalHandler then
      some { s with
        disposition := Function.update s.disposition sig .sigDfl
        gSignalPending := some sig
        handlers := sig :: s.handlers
        caught := sig :: s.caught }
    else none
  | .write sig =>
    if sig ∈ s.handlers then
      some { s with
        gSignalPipe := s.gSignalPipe.map (· ++ [sig])
        handlers := s.handlers.erase sig }
    else none
  | .call t => if s.pc t = .idle then some (s.goto t .load) else none
  | .step t => processStep s t

/-! ### What is kept -/

/-- The signal is in `g_signal_pending` or in the self-pipe. -/
def Recorded (s : State ι) (g : Sig) : Prop := s.gSignalPending = some g ∨ g ∈ s.bytes

/-- It has been caught and not been raised again. -/
def Owed (s : State ι) (g : Sig) : Prop := g ∈ s.caught ∧ g ∉ s.reraised

/-- **No caught signal is lost:** while no call is running, every signal that is owed is
recorded. -/
def Kept (s : State ι) : Prop := (∀ t, s.pc t = .idle) → ∀ g, Owed s g → Recorded s g

/-- The signal that a call has taken and not raised yet. -/
def Pc.sig : Pc → Option Sig
  | .clear g | .drain g | .flush g | .restore g | .raise g => some g
  | _ => none

/-- The call is about to clear `g_signal_pending`. -/
def Pc.clears : Pc → Bool
  | .clear _ => true
  | _ => false

/-- **Every earlier signal has been taken for good:** what is owed is with a call, no call is
about to clear `g_signal_pending`, and none can take an old byte from the pipe. -/
def Settled (s : State ι) : Prop :=
  (∀ g, Owed s g → ∃ t, (s.pc t).sig = some g) ∧ (∀ t, (s.pc t).clears = false) ∧
    ∀ t, s.pc t = .readPipe → s.bytes = [] ∧ s.handlers = []

/-- The condition on a step: a signal arrives only when the earlier ones are settled. -/
def Spaced (s : State ι) : Act ι → Prop
  | .arrive _ => Settled s
  | _ => True

instance (s : State ι) (g : Sig) : Decidable (Owed s g) :=
  inferInstanceAs (Decidable (g ∈ s.caught ∧ g ∉ s.reraised))

instance [Fintype ι] (s : State ι) : (a : Act ι) → Decidable (Spaced s a)
  | .arrive _ => inferInstanceAs (Decidable
      ((∀ g, Owed s g → ∃ t, (s.pc t).sig = some g) ∧ (∀ t, (s.pc t).clears = false) ∧
        ∀ t, s.pc t = .readPipe → s.bytes = [] ∧ s.handlers = []))
  | .write _ | .call _ | .step _ => inferInstanceAs (Decidable True)

/-! ### The invariant -/

/-- The signal waits in `g_signal_pending`, and whoever clears it has taken it. -/
structure Waiting (s : State ι) (g : Sig) : Prop where
  pending : s.gSignalPending = some g
  clears : ∀ t, (s.pc t).clears = false
  bytes : ∀ t, s.pc t = .readPipe → ∀ b ∈ s.bytes, b = g
  handlers : ∀ t, s.pc t = .readPipe → ∀ b ∈ s.handlers, b = g

/-- A call has the signal, or it waits. -/
def Safe (s : State ι) (g : Sig) : Prop := (∃ t, (s.pc t).sig = some g) ∨ Waiting s g

section Steps

variable {s s' : State ι} {t u : ι} {g : Sig} {p : Pc}

/-- A call that moves to a place where it neither reads the pipe nor clears. -/
theorem Waiting.goto (h : Waiting s g) (hclear : p.clears = false) (hread : p ≠ .readPipe) :
    Waiting (s.goto t p) g := by
  have hpc : ∀ u, (s.goto t p).pc u = .readPipe → s.pc u = .readPipe := by
    intro u hu
    rcases eq_or_ne u t with rfl | hne
    · exact absurd ((Function.update_self ..).symm.trans hu) hread
    · exact (Function.update_of_ne hne ..).symm.trans hu
  refine ⟨h.pending, fun u => ?_, fun u hu => h.bytes u (hpc u hu),
    fun u hu => h.handlers u (hpc u hu)⟩
  change (Function.update s.pc t p u).clears = false
  rcases eq_or_ne u t with rfl | hne
  · rw [Function.update_self]
    exact hclear
  · rw [Function.update_of_ne hne]
    exact h.clears u

omit [DecidableEq ι] in
/-- What a call takes from the pipe. -/
theorem Waiting.read {bytes : List Sig} (h : Waiting s g) (hsub : ∀ b ∈ bytes, b ∈ s.bytes) :
    Waiting { s with gSignalPipe := some bytes } g :=
  ⟨h.pending, h.clears, fun u hu b hb => h.bytes u hu b (hsub b hb), h.handlers⟩

theorem sig_goto (s : State ι) (t : ι) (p : Pc) : ((s.goto t p).pc t).sig = p.sig := by
  change (Function.update s.pc t p t).sig = p.sig
  rw [Function.update_self]

/-- What a step of a call does.  It moves on and keeps its signal, takes the signal from
`g_signal_pending` or from the pipe, clears the one, drains the other, restores, or raises. -/
theorem processStep_cases (hs : processStep s t = some s') :
    (∃ p, s' = s.goto t p ∧ p.sig = (s.pc t).sig ∧ p.clears = false ∧
      (p = .readPipe → s.gSignalPending = none)) ∨
    (∃ sig, s' = s.goto t (.clear sig) ∧ s.pc t = .load ∧ s.gSignalPending = some sig) ∨
    (∃ ch rest, s' = { s with gSignalPipe := some rest }.goto t (.clear ch) ∧
      s.pc t = .readPipe ∧ s.bytes = ch :: rest) ∨
    (∃ sig, s' = { s with gSignalPending := none }.goto t (.drain sig) ∧ s.pc t = .clear sig) ∨
    (∃ bytes, s' = { s with gSignalPipe := some bytes } ∧ ∀ b ∈ bytes, b ∈ s.bytes) ∨
    (∃ sig, s' = (s.restore sig).goto t (.raise sig) ∧ s.pc t = .restore sig) ∨
    ∃ sig, s' = { s with reraised := sig :: s.reraised }.goto t .idle ∧ s.pc t = .raise sig := by
  unfold processStep at hs
  split at hs
  case h_1 => cases hs
  case h_2 hpc =>
    split at hs <;> cases hs
    case h_1 sig hpending => exact .inr (.inl ⟨sig, rfl, hpc, hpending⟩)
    case h_2 hpending _ => exact .inl ⟨.readPipe, rfl, by rw [hpc]; rfl, rfl, fun _ => hpending⟩
    case h_3 hpending _ => exact .inl ⟨.idle, rfl, by rw [hpc]; rfl, rfl, fun _ => hpending⟩
  case h_3 hpc =>
    split at hs <;> cases hs
    case h_1 ch rest hpipe =>
      have hbytes : s.bytes = ch :: rest := by rw [State.bytes, hpipe]; rfl
      exact .inr (.inr (.inl ⟨ch, rest, rfl, hpc, hbytes⟩))
    case h_2 => exact .inl ⟨.idle, rfl, by rw [hpc]; rfl, rfl, by rintro ⟨⟩⟩
  case h_4 sig hpc =>
    cases hs
    exact .inr (.inr (.inr (.inl ⟨sig, rfl, hpc⟩)))
  case h_5 sig hpc =>
    split at hs <;> cases hs
    case h_1 ch rest hpipe =>
      refine .inr (.inr (.inr (.inr (.inl ⟨_, rfl, fun b hb => ?_⟩))))
      rw [State.bytes, hpipe]
      exact List.mem_of_mem_drop hb
    case h_2 => exact .inl ⟨.flush sig, rfl, by rw [hpc]; rfl, rfl, by rintro ⟨⟩⟩
  case h_6 sig hpc =>
    cases hs
    exact .inl ⟨.restore sig, rfl, by rw [hpc]; rfl, rfl, by rintro ⟨⟩⟩
  case h_7 sig hpc =>
    cases hs
    exact .inr (.inr (.inr (.inr (.inr (.inl ⟨sig, rfl, hpc⟩)))))
  case h_8 sig hpc =>
    cases hs
    exact .inr (.inr (.inr (.inr (.inr (.inr ⟨sig, rfl, hpc⟩)))))

/-- A signal that waits is taken by a call, or still waits. -/
theorem Waiting.processStep (h : Waiting s g) (hs : processStep s t = some s') : Safe s' g := by
  obtain ⟨p, rfl, -, hclears, hread⟩ | ⟨sig, rfl, -, hpending⟩ | ⟨ch, rest, rfl, hpc, hbytes⟩ |
    ⟨sig, rfl, hpc⟩ | ⟨bytes, rfl, hsub⟩ | ⟨sig, rfl, -⟩ | ⟨sig, rfl, -⟩ := processStep_cases hs
  · refine .inr (h.goto hclears fun hp => ?_)
    rw [h.pending] at hread
    cases hread hp
  · exact .inl ⟨t, (sig_goto s t _).trans (hpending.symm.trans h.pending)⟩
  · have hch : ch = g := h.bytes t hpc ch (hbytes ▸ List.mem_cons_self)
    exact .inl ⟨t, (sig_goto _ t _).trans (congrArg some hch)⟩
  · have hclears := h.clears t
    rw [hpc] at hclears
    cases hclears
  · exact .inr (h.read hsub)
  · have hrestored : Waiting (s.restore sig) g := ⟨h.pending, h.clears, h.bytes, h.handlers⟩
    exact .inr (hrestored.goto rfl (by rintro ⟨⟩))
  · have hraised : Waiting { s with reraised := sig :: s.reraised } g :=
      ⟨h.pending, h.clears, h.bytes, h.handlers⟩
    exact .inr (hraised.goto rfl (by decide))

/-- A call keeps its signal until it has raised it. -/
theorem sig_processStep (hu : (s.pc u).sig = some g) (hs : processStep s t = some s')
    (hraised : g ∉ s'.reraised) : (s'.pc u).sig = some g := by
  have hgoto : ∀ (r : State ι) (p : Pc), r.pc = s.pc → (u = t → p.sig = (s.pc t).sig) →
      ((r.goto t p).pc u).sig = some g := by
    intro r p hr hp
    change (Function.update r.pc t p u).sig = some g
    rcases eq_or_ne u t with rfl | hne
    · rw [Function.update_self, hp rfl]
      exact hu
    · rw [Function.update_of_ne hne, hr]
      exact hu
  -- a call that takes a signal held none
  have hfree : ∀ {q : Pc}, s.pc t = q → q.sig = none → u ≠ t := by
    rintro q hq hsig rfl
    rw [hq, hsig] at hu
    cases hu
  obtain ⟨p, rfl, hsig, -, -⟩ | ⟨sig, rfl, hpc, -⟩ | ⟨ch, rest, rfl, hpc, -⟩ |
    ⟨sig, rfl, hpc⟩ | ⟨bytes, rfl, -⟩ | ⟨sig, rfl, hpc⟩ | ⟨sig, rfl, hpc⟩ := processStep_cases hs
  · exact hgoto s p rfl fun _ => hsig
  · exact hgoto s _ rfl fun h => absurd h (hfree hpc rfl)
  · exact hgoto _ _ rfl fun h => absurd h (hfree hpc rfl)
  · exact hgoto _ _ rfl fun _ => (congrArg Pc.sig hpc).symm
  · exact hu
  · exact hgoto _ _ rfl fun _ => (congrArg Pc.sig hpc).symm
  · refine hgoto _ _ rfl ?_
    rintro rfl
    rw [hpc] at hu
    rw [← Option.some.inj hu] at hraised
    exact absurd List.mem_cons_self hraised

/-- The history of a processing step. -/
theorem caught_processStep (hs : processStep s t = some s') :
    s'.caught = s.caught ∧ ∀ g ∈ s.reraised, g ∈ s'.reraised := by
  obtain ⟨p, rfl, -⟩ | ⟨sig, rfl, -⟩ | ⟨ch, rest, rfl, -⟩ | ⟨sig, rfl, -⟩ | ⟨bytes, rfl, -⟩ |
    ⟨sig, rfl, -⟩ | ⟨sig, rfl, -⟩ := processStep_cases hs
  case inr.inr.inr.inr.inr.inr => exact ⟨rfl, fun g hg => List.mem_cons_of_mem _ hg⟩
  all_goals exact ⟨rfl, fun g hg => hg⟩

/-- A signal that is owed stays safe, if no signal arrives before the earlier ones are settled. -/
theorem safe_step {a : Act ι} (h : ∀ g, Owed s g → Safe s g) (hok : Spaced s a)
    (hs : step s a = some s') (howed : Owed s' g) : Safe s' g := by
  cases a with
  | arrive sig =>
    obtain ⟨htaken, hclears, hread⟩ : Settled s := hok
    simp only [step] at hs
    split_ifs at hs
    cases hs
    rcases eq_or_ne g sig with rfl | hne
    · refine .inr ⟨rfl, hclears, fun t ht b hb => ?_, fun t ht b hb => ?_⟩
      · have hb' : b ∈ s.bytes := hb
        rw [(hread t ht).1] at hb'
        cases hb'
      · have hb' : b ∈ g :: s.handlers := hb
        rw [(hread t ht).2] at hb'
        exact List.mem_singleton.1 hb'
    · exact .inl (htaken g ⟨List.mem_of_ne_of_mem hne howed.1, howed.2⟩)
  | write sig =>
    simp only [step] at hs
    split_ifs at hs with hmem
    cases hs
    rcases h g howed with hheld | hw
    · exact .inl hheld
    · refine .inr ⟨hw.pending, hw.clears, fun t ht b hb => ?_, fun t ht b hb => ?_⟩
      · cases hpipe : s.gSignalPipe with
        | none =>
          have hb' : b ∈ (s.gSignalPipe.map (· ++ [sig])).getD [] := hb
          rw [hpipe] at hb'
          cases hb'
        | some bytes =>
          have hb' : b ∈ (s.gSignalPipe.map (· ++ [sig])).getD [] := hb
          rw [hpipe] at hb'
          rcases List.mem_append.1 hb' with hold | hnew
          · refine hw.bytes t ht b ?_
            rw [State.bytes, hpipe]
            exact hold
          · rw [List.mem_singleton.1 hnew]
            exact hw.handlers t ht sig hmem
      · exact hw.handlers t ht b (List.mem_of_mem_erase hb)
  | call t =>
    simp only [step] at hs
    split_ifs at hs with hidle
    cases hs
    rcases h g howed with ⟨u, hu⟩ | hw
    · refine .inl ⟨u, ?_⟩
      have hne : u ≠ t := by
        rintro rfl
        rw [hidle] at hu
        cases hu
      exact (congrArg Pc.sig (Function.update_of_ne hne ..)).trans hu
    · exact .inr (hw.goto rfl (by decide))
  | step t =>
    have hs' : processStep s t = some s' := hs
    obtain ⟨hcaught, hraised⟩ := caught_processStep hs'
    have howed₀ : Owed s g := ⟨hcaught ▸ howed.1, fun hg => howed.2 (hraised g hg)⟩
    rcases h g howed₀ with ⟨u, hu⟩ | hw
    · exact .inl ⟨u, sig_processStep hu hs' howed.2⟩
    · exact hw.processStep hs'

end Steps

/-- Every signal that is owed is safe, in every run in which the signals are spaced. -/
theorem safe_of_spaced {opens : Bool} {s : State ι} (h : Reach step Spaced (.installed opens) s) :
    ∀ g, Owed s g → Safe s g :=
  h.invariant (I := fun s => ∀ g, Owed s g → Safe s g) (fun _ hg => absurd hg.1 List.not_mem_nil)
    fun _ _ _ hinv hok hs _ howed => safe_step hinv hok hs howed

/-! ### A call that processes the signal -/

/-- A step of the call of thread `t`. -/
def Alone (t : ι) (_ : State ι) (a : Act ι) : Prop := a = .call t ∨ a = .step t

/-- The drain ends. -/
theorem drains (t : ι) (sig : Sig) (n : ℕ) : ∀ s : State ι, s.bytes.length = n →
    s.pc t = .drain sig → ∃ s', Reach step (Alone t) s s' ∧ s'.pc t = .flush sig := by
  induction n using Nat.strong_induction_on with
  | _ n ih =>
    intro s hn hpc
    -- a read takes up to 16 bytes, so the pipe gets shorter until a read finds nothing
    rcases hpipe : s.gSignalPipe with _ | _ | ⟨ch, rest⟩
    · have hs : step s (.step t) = some (s.goto t (.flush sig)) := by
        simp only [step, processStep, hpc, hpipe]
      exact ⟨_, .single (.inr rfl) hs, Function.update_self ..⟩
    · have hs : step s (.step t) = some (s.goto t (.flush sig)) := by
        simp only [step, processStep, hpc, hpipe]
      exact ⟨_, .single (.inr rfl) hs, Function.update_self ..⟩
    · let s₁ : State ι := { s with gSignalPipe := some ((ch :: rest).drop 16) }
      have hs : step s (.step t) = some s₁ := by
        simp only [step, processStep, hpc, hpipe]
        rfl
      have hlen : s₁.bytes.length < n := by
        have hbytes : s.bytes = ch :: rest := by rw [State.bytes, hpipe]; rfl
        change ((ch :: rest).drop 16).length < n
        rw [List.length_drop, ← hn, hbytes, List.length_cons]
        omega
      obtain ⟨s', hreach, hpc'⟩ := ih _ hlen s₁ rfl hpc
      exact ⟨s', (Reach.single (.inr rfl) hs).trans hreach, hpc'⟩

/-- **A call that finds the signal in `g_signal_pending` raises it.** -/
theorem reraises {s : State ι} {g : Sig} (t : ι) (hidle : s.pc t = .idle)
    (hpending : s.gSignalPending = some g) :
    ∃ s', Reach step (Alone t) s s' ∧ s'.pc t = .idle ∧ g ∈ s'.reraised := by
  let s₁ := s.goto t .load
  let s₂ := s₁.goto t (.clear g)
  let s₃ := { s₂ with gSignalPending := none }.goto t (.drain g)
  have h₁ : step s (.call t) = some s₁ := if_pos hidle
  have h₂ : step s₁ (.step t) = some s₂ := by
    have hpc : s₁.pc t = .load := Function.update_self ..
    have hpend : s₁.gSignalPending = some g := hpending
    simp only [step, processStep, hpc, hpend]
    rfl
  have h₃ : step s₂ (.step t) = some s₃ := by
    have hpc : s₂.pc t = .clear g := Function.update_self ..
    simp only [step, processStep, hpc]
    rfl
  obtain ⟨s₄, hdrain, hpc₄⟩ := drains t g _ s₃ rfl (Function.update_self ..)
  let s₅ := s₄.goto t (.restore g)
  let s₆ := (s₅.restore g).goto t (.raise g)
  let s₇ := { s₆ with reraised := g :: s₆.reraised }.goto t .idle
  have h₅ : step s₄ (.step t) = some s₅ := by
    simp only [step, processStep, hpc₄]
    rfl
  have h₆ : step s₅ (.step t) = some s₆ := by
    have hpc : s₅.pc t = .restore g := Function.update_self ..
    simp only [step, processStep, hpc]
    rfl
  have h₇ : step s₆ (.step t) = some s₇ := by
    have hpc : s₆.pc t = .raise g := Function.update_self ..
    simp only [step, processStep, hpc]
    rfl
  have htake : Reach step (Alone t) s s₃ :=
    .tail (.tail (.single (.inl rfl) h₁) (.inr rfl) h₂) (.inr rfl) h₃
  have hraise : Reach step (Alone t) s₄ s₇ :=
    .tail (.tail (.single (.inr rfl) h₅) (.inr rfl) h₆) (.inr rfl) h₇
  exact ⟨s₇, (htake.trans hdrain).trans hraise, Function.update_self .., List.mem_cons_self⟩

/-- **No caught signal is lost while the signals are spaced.**  Whenever no call is running, every
signal that was caught and not raised again is recorded, and the next call raises it. -/
theorem kept_of_spaced {opens : Bool} {s : State ι} (h : Reach step Spaced (.installed opens) s) :
    Kept s ∧ ((∀ t, s.pc t = .idle) → ∀ g t, Owed s g →
      ∃ s', Reach step (Alone t) s s' ∧ s'.pc t = .idle ∧ g ∈ s'.reraised) := by
  have hpending : (∀ t, s.pc t = .idle) → ∀ g, Owed s g → s.gSignalPending = some g := by
    intro hidle g howed
    rcases safe_of_spaced h g howed with ⟨t, ht⟩ | hw
    · rw [hidle t] at ht
      cases ht
    · exact hw.pending
  refine ⟨fun hidle g howed => .inl (hpending hidle g howed), fun hidle g t howed => ?_⟩
  exact reraises t (hidle t) (hpending hidle g howed)

/-- A call has taken `SIGINT` and cleared the pipe when `SIGTERM` arrives.  It raises `SIGINT`, and
behind it `SIGTERM` is still recorded for the next call. -/
theorem kept_of_sigint : ∃ s : State (Fin 1), Reach step Spaced (.installed true) s ∧
    (s.reraised = [.sigint] ∧ Owed s .sigterm ∧ ∀ t, s.pc t = .idle) ∧ Kept s ∧
      ∃ s', Reach step (Alone 0) s s' ∧ s'.pc 0 = .idle ∧ .sigterm ∈ s'.reraised := by
  obtain ⟨s, hreach, hraised, howed, hidle⟩ :
      ∃ s : State (Fin 1), Reach step Spaced (.installed true) s ∧
        s.reraised = [.sigint] ∧ Owed s .sigterm ∧ ∀ t, s.pc t = .idle :=
    Machine.exists_of_runIf (List.flatten [[.arrive .sigint, .write .sigint, .call 0],
      List.replicate 4 (.step 0), [.arrive .sigterm, .write .sigterm],
      List.replicate 3 (.step 0)]) (by decide)
  obtain ⟨hkept, hnext⟩ := kept_of_spaced hreach
  exact ⟨s, hreach, ⟨hraised, howed, hidle⟩, hkept, hnext hidle .sigterm 0 howed⟩

/-- **A signal is lost.**  `SIGINT` and then `SIGTERM` arrive before one call: it takes `SIGTERM`,
and drains the byte of `SIGINT`. -/
theorem sigint_lost : ∃ s : State (Fin 1), Reachable step (.installed true) s ∧ ¬ Kept s := by
  obtain ⟨s, hreach, hidle, hcaught, hraised, hpending, hbytes⟩ :
      ∃ s : State (Fin 1), Reachable step (.installed true) s ∧
        (s.pc 0 = .idle ∧ Sig.sigint ∈ s.caught ∧ Sig.sigint ∉ s.reraised ∧
          s.gSignalPending ≠ some .sigint ∧ Sig.sigint ∉ s.bytes) :=
    Machine.exists_of_run [.arrive .sigint, .write .sigint, .arrive .sigterm, .write .sigterm,
      .call 0, .step 0, .step 0, .step 0, .step 0, .step 0, .step 0, .step 0] (by decide)
  refine ⟨s, hreach, fun hkept => ?_⟩
  have hall : ∀ t, s.pc t = .idle := fun t => (congrArg s.pc (Subsingleton.elim t 0)).trans hidle
  rcases hkept hall .sigint ⟨hcaught, hraised⟩ with hp | hb
  · exact hpending hp
  · exact hbytes hb

end Signal
end Clogx
