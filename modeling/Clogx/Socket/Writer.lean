/-
# The socket writer and its stream

`socket_writer_thread` (`core/socket_writer.c`) and `socket_send_nonblocking`
(`core/socket_transport.c`), on the plain TCP path.  The writer is one thread; what
it meets is an action: the batch `socket_ring_get_batch` returns, the outcome of
a connect, of a `malloc`, of each `send`, and the clock `backoff_next` reads.

A connection is a stream of bytes, so the receiver finds the lines by their
newlines: a line that is cut must be the last one of its connection.
`socket_send_nonblocking` loops until the line is out, and the batch loop closes
the connection when it reports `-1`.  But when `send` would block after a part of
the line has been accepted, it reports the part, which the batch loop takes for
success; and the drain before the thread exits does not look at the result at
all.  `keepsLines` excludes both.
-/

import Clogx.CLib.Text
import Clogx.Machine.Run

namespace Clogx
namespace Writer

open CLib (toInt)
open Machine (Reach Reachable exists_of_run exists_of_runIf)

/-- `'\n'`. -/
def newline : UInt8 := 10

/-- `BATCH_SIZE`. -/
def batchSize : ℕ := 64

/-- `sizeof(framed_stack)`. -/
def framedStackSize : ℕ := 512

/-- `backoff_next`, in `uint32_t`; `seed` is the clock. -/
def backoffNext (currentMs maxMs seed : ℕ) : ℕ :=
  let doubled := currentMs * 2 % 2 ^ 32
  let next := if maxMs < doubled then maxMs else doubled
  let jitter := next / 10
  let delta := seed % 2 ^ 32 % (2 * jitter + 1)
  let moved := if jitter < delta then (next + (delta - jitter)) % 2 ^ 32
    else next - (jitter - delta)
  if moved < 100 then 100 else moved

/-- The delays of `socket_writer_config_t`. -/
structure Config where
  backoffMinMs : ℕ
  backoffMaxMs : ℕ

/-- The defaults `socket_writer_start` fills in. -/
def Config.sane (cfg : Config) : Config where
  backoffMinMs := if cfg.backoffMinMs = 0 then 1000 else cfg.backoffMinMs
  backoffMaxMs := if cfg.backoffMaxMs = 0 then 60000 else cfg.backoffMaxMs

/-- A connection: the lines handed to `socket_writer_send` on it, and the bytes the
kernel has accepted. -/
structure Conn where
  handed : List (List UInt8)
  accepted : List UInt8
deriving DecidableEq

/-- What `send` may do: accept some bytes, fail with `EAGAIN`, `EWOULDBLOCK` or `EINTR`,
or fail for good. -/
inductive Sent
  | accept (k : ℕ)
  | again
  | hard
deriving DecidableEq

/-- Where the writer thread stands; `final` tells the drain before the exit from the main
loop. -/
inductive Pc
  | getBatch
  | connecting (ls : List (List UInt8))
  | finalConnect
  | finalGet
  | lines (final : Bool) (ls : List (List UInt8))
  | sending (final : Bool) (buf : List UInt8) (total : ℕ) (ls : List (List UInt8))
  | exited
deriving DecidableEq

/-- `socket_writer_t`; `connected` is that there is a `conn`.  `past` are the connections
closed so far. -/
structure State where
  pc : Pc
  conn : Option Conn
  past : List Conn
  backoffMs : ℕ

/-- What the writer meets.  An empty line stands for an empty slot. -/
inductive Act
  | batch (ls : List (List UInt8))
  | drained
  | connect (ok : Bool) (seed : ℕ)
  | line (mallocOk : Bool) (seed : ℕ)
  | send (r : Sent) (seed : ℕ)

/-- `socket_writer_start`. -/
def socketWriterStart (cfg : Config) : State := ⟨.getBatch, none, [], cfg.sane.backoffMinMs⟩

/-- `socket_writer_cleanup`. -/
def State.socketWriterCleanup (s : State) : State :=
  { s with conn := none, past := s.past ++ s.conn.toList }

/-- `socket_writer_connect` has succeeded. -/
def State.socketWriterConnect (s : State) (cfg : Config) : State :=
  { s with conn := some ⟨[], []⟩, backoffMs := cfg.sane.backoffMinMs }

/-- What the batch loop makes of the result of `socket_writer_send`; the final drain
ignores it. -/
def State.afterSend (s : State) (cfg : Config) (seed : ℕ) (final : Bool) (rc : ℤ)
    (ls : List (List UInt8)) : State :=
  if final then { s with pc := .lines true ls }
  else if rc < 0 then
    { s.socketWriterCleanup with
      backoffMs := backoffNext s.backoffMs cfg.sane.backoffMaxMs seed
      pc := .getBatch }
  else { s with pc := .lines false ls }

/-- `socket_writer_send` of the line `l`, framed as `buf`. -/
def State.socketWriterSend (s : State) (cfg : Config) (seed : ℕ) (final : Bool)
    (l buf : List UInt8) (ls : List (List UInt8)) : State :=
  match s.conn with
  | none => s.afterSend cfg seed final (-1) ls
  | some c =>
    { s with
      conn := some { c with handed := c.handed ++ [l] }
      pc := .sending final buf 0 ls }

/-- The kernel has accepted `bs`. -/
def State.accept (s : State) (bs : List UInt8) : State :=
  { s with conn := s.conn.map fun c => { c with accepted := c.accepted ++ bs } }

/-- One `send` of `socket_send_nonblocking`. -/
def State.socketSendNonblocking (s : State) (cfg : Config) (seed : ℕ) (final : Bool)
    (buf : List UInt8) (total : ℕ) (ls : List (List UInt8)) : Sent → State
  | .again => s.afterSend cfg seed final (if 0 < toInt total then toInt total else -1) ls
  | .hard => s.afterSend cfg seed final (-1) ls
  | .accept k =>
    let sent := min k (buf.length - total)
    if sent = 0 then s.afterSend cfg seed final (toInt total) ls
    else
      let s' := s.accept ((buf.drop total).take sent)
      if total + sent < buf.length then { s' with pc := .sending final buf (total + sent) ls }
      else s'.afterSend cfg seed final (toInt (total + sent)) ls

/-- One step of `socket_writer_thread`. -/
def step (cfg : Config) (s : State) (a : Act) : Option State :=
  match s.pc, a with
  | .getBatch, .batch ls =>
    if ls = [] then some s
    else if ls.length ≤ batchSize then
      some { s with pc := if s.conn.isSome then .lines false ls else .connecting ls }
    else none
  | .getBatch, .drained =>
    some { s with pc := if s.conn.isSome then .finalGet else .finalConnect }
  | .connecting ls, .connect ok seed =>
    if ok then some { s.socketWriterConnect cfg with pc := .lines false ls }
    else some { s with
      backoffMs := backoffNext s.backoffMs cfg.sane.backoffMaxMs seed
      pc := .getBatch }
  | .finalConnect, .connect ok _ =>
    if ok then some { s.socketWriterConnect cfg with pc := .finalGet }
    else some { s with pc := .exited }
  | .finalGet, .batch ls =>
    if ls = [] then some { s.socketWriterCleanup with pc := .exited }
    else if ls.length ≤ batchSize then some { s with pc := .lines true ls }
    else none
  | .finalGet, .drained => some { s.socketWriterCleanup with pc := .exited }
  | .lines final [], .line _ _ =>
    if final then some { s with pc := .finalGet }
    else some { s with backoffMs := cfg.sane.backoffMinMs, pc := .getBatch }
  | .lines final (l :: ls), .line mallocOk seed =>
    if l = [] then some { s with pc := .lines final ls }
    else if l.getLast? = some newline then some (s.socketWriterSend cfg seed final l l ls)
    else if l.length + 1 ≤ framedStackSize ∨ mallocOk = true then
      some (s.socketWriterSend cfg seed final l (l ++ [newline]) ls)
    else some (s.afterSend cfg seed final 0 ls)
  | .sending final buf total ls, .send r seed =>
    some (s.socketSendNonblocking cfg seed final buf total ls r)
  | _, _ => none

/-! ### The stream of a connection -/

/-- A line on the wire: followed by exactly one newline, its own if it ends in one. -/
def frame (l : List UInt8) : List UInt8 :=
  (if l.getLast? = some newline then l.dropLast else l) ++ [newline]

/-- The lines handed to a connection, as a receiver should find them. -/
def Conn.stream (c : Conn) : List UInt8 := (c.handed.map frame).flatten

/-- The same without the last line. -/
def Conn.before (c : Conn) : List UInt8 := (c.handed.dropLast.map frame).flatten

/-- Only the last line of the connection may be cut. -/
structure Framed (c : Conn) : Prop where
  before : c.before <+: c.accepted
  cut : c.accepted <+: c.stream

/-- In `socket_send_nonblocking`: whether for the final drain, and what has been accepted
of the line. -/
def Pc.inFlight : Pc → Option (Bool × ℕ)
  | .sending final _ total _ => some (final, total)
  | _ => none

/-- No `send` would block after a part of the line was accepted, none accepts nothing,
and none fails in the final drain. -/
def keepsLines (s : State) : Act → Prop
  | .send (.accept k) _ => 0 < k
  | .send .again _ => ∀ e ∈ s.pc.inFlight, e.1 = false ∧ e.2 = 0
  | .send .hard _ => ∀ e ∈ s.pc.inFlight, e.1 = false
  | _ => True

instance (s : State) : (a : Act) → Decidable (keepsLines s a)
  | .send (.accept k) _ => inferInstanceAs (Decidable (0 < k))
  | .send .again _ => inferInstanceAs (Decidable (∀ e ∈ s.pc.inFlight, e.1 = false ∧ e.2 = 0))
  | .send .hard _ => inferInstanceAs (Decidable (∀ e ∈ s.pc.inFlight, e.1 = false))
  | .batch _ | .drained | .connect .. | .line .. => .isTrue trivial

/-- The thread is inside `socket_send_nonblocking`. -/
def Pc.inSend : Pc → Bool
  | .sending .. => true
  | _ => false

/-- What the writer has sent. -/
structure Ok (s : State) : Prop where
  past : ∀ c ∈ s.past, Framed c
  whole : s.pc.inSend = false → ∀ c, s.conn = some c → c.accepted = c.stream
  part : ∀ final buf total ls, s.pc = .sending final buf total ls → ∃ hs l,
    s.conn = some ⟨hs ++ [l], (hs.map frame).flatten ++ buf.take total⟩ ∧ buf = frame l ∧
      total < buf.length

theorem frame_eq_self {l : List UInt8} (h : l.getLast? = some newline) : frame l = l := by
  obtain ⟨hs, rfl⟩ := List.getLast?_eq_some_iff.1 h
  rw [frame, if_pos h, List.dropLast_concat]

theorem frame_eq_append {l : List UInt8} (h : l.getLast? ≠ some newline) :
    frame l = l ++ [newline] := by rw [frame, if_neg h]

theorem frame_length_pos (l : List UInt8) : 0 < (frame l).length := by
  rw [frame, List.length_append]
  exact Nat.add_pos_right _ Nat.one_pos

/-- A connection on which the last line has been sent up to `total` bytes. -/
theorem framed_part (hs : List (List UInt8)) (l : List UInt8) (total : ℕ) :
    Framed ⟨hs ++ [l], (hs.map frame).flatten ++ (frame l).take total⟩ where
  before := by
    rw [Conn.before, List.dropLast_concat]
    exact List.prefix_append _ _
  cut := by
    simp only [Conn.stream, List.map_append, List.flatten_append, List.map_cons, List.map_nil,
      List.flatten_cons, List.flatten_nil, List.append_nil]
    exact (List.prefix_append_right_inj _).2 (List.take_prefix _ _)

/-- A connection on which nothing is missing. -/
theorem framed_whole {c : Conn} (h : c.accepted = c.stream) : Framed c where
  before := by
    rw [h, Conn.before, Conn.stream]
    rcases c.handed.eq_nil_or_concat with hnil | ⟨hs, l, hcat⟩
    · rw [hnil]
      exact List.prefix_rfl
    · rw [hcat, List.concat_eq_append, List.dropLast_concat, List.map_append, List.flatten_append]
      exact List.prefix_append _ _
  cut := by rw [h]

variable {cfg : Config} {s s' : State} {seed : ℕ} {final : Bool} {ls : List (List UInt8)}

/-- `socket_writer_cleanup` closes a connection whose last line at most is cut. -/
theorem Ok.cleanup (h : ∀ c ∈ s.past, Framed c) (hc : ∀ c, s.conn = some c → Framed c)
    (k : ℕ) {pc : Pc} (hpc : pc.inSend = false) :
    Ok { s.socketWriterCleanup with backoffMs := k, pc := pc } where
  past c hmem := by
    rcases List.mem_append.1 hmem with hp | hp
    · exact h c hp
    · exact hc c (Option.mem_toList.1 hp)
  whole _ _ hnone := nomatch hnone
  part final buf total ls he := by
    have he' : pc = .sending final buf total ls := he
    rw [he'] at hpc
    cases hpc

/-- Between two lines, or outside the batch loop. -/
theorem Ok.move (hp : ∀ c ∈ s.past, Framed c) (hw : ∀ c, s.conn = some c → c.accepted = c.stream)
    (k : ℕ) {pc : Pc} (hpc : pc.inSend = false) : Ok { s with backoffMs := k, pc := pc } where
  past := hp
  whole _ := hw
  part final buf total ls he := by
    have he' : pc = .sending final buf total ls := he
    rw [he'] at hpc
    cases hpc

/-- **After a line**: either all of it was accepted, or the connection is closed. -/
theorem Ok.afterSend (hp : ∀ c ∈ s.past, Framed c) (hf : ∀ c, s.conn = some c → Framed c) {rc : ℤ}
    (hw : (∀ c, s.conn = some c → c.accepted = c.stream) ∨ final = false ∧ rc < 0) :
    Ok (s.afterSend cfg seed final rc ls) := by
  unfold State.afterSend
  split_ifs with hfin hrc
  · rcases hw with hw | ⟨hno, -⟩
    · exact Ok.move hp hw s.backoffMs rfl
    · rw [hno] at hfin
      cases hfin
  · exact Ok.cleanup hp hf _ rfl
  · rcases hw with hw | ⟨-, hneg⟩
    · exact Ok.move hp hw s.backoffMs rfl
    · exact absurd hneg hrc

/-- A line is handed over, framed. -/
theorem Ok.socketWriterSend (h : Ok s) (hpc : s.pc.inSend = false) {l buf : List UInt8}
    (hbuf : buf = frame l) : Ok (s.socketWriterSend cfg seed final l buf ls) := by
  unfold State.socketWriterSend
  split
  case h_1 hnone =>
    exact Ok.afterSend h.past (fun c hc => by rw [hnone] at hc; cases hc)
      (.inl fun c hc => by rw [hnone] at hc; cases hc)
  case h_2 c hc =>
    refine ⟨h.past, fun hin => (nomatch hin), fun final' buf' total' ls' he => ?_⟩
    obtain ⟨rfl, rfl, rfl, rfl⟩ := Pc.sending.inj he
    refine ⟨c.handed, l, ?_, hbuf, hbuf ▸ frame_length_pos l⟩
    rw [List.take_zero, List.append_nil]
    show some (Conn.mk (c.handed ++ [l]) c.accepted) = _
    rw [h.whole hpc c hc]
    rfl

/-- **One `send`** under the condition: the line goes on, is out, or the connection is
closed. -/
theorem Ok.socketSendNonblocking (h : Ok s) {buf : List UInt8} {total : ℕ} {r : Sent}
    (hpc : s.pc = .sending final buf total ls) (hok : keepsLines s (.send r seed)) :
    Ok (s.socketSendNonblocking cfg seed final buf total ls r) := by
  obtain ⟨hs, l, hconn, rfl, hlt⟩ := h.part final buf total ls hpc
  have hframed : ∀ c, s.conn = some c → Framed c := fun c hc => by
    obtain rfl := Option.some.inj (hconn.symm.trans hc)
    exact framed_part hs l total
  cases r with
  | again =>
    obtain ⟨rfl, rfl⟩ : final = false ∧ total = 0 := hok (final, total) (by rw [hpc]; rfl)
    exact Ok.afterSend h.past hframed (.inr ⟨rfl, by decide⟩)
  | hard =>
    obtain rfl : final = false := hok (final, total) (by rw [hpc]; rfl)
    exact Ok.afterSend h.past hframed (.inr ⟨rfl, by decide⟩)
  | accept k =>
    have hk : 0 < k := hok
    -- what is accepted now continues what was accepted before
    have htake : (frame l).take total ++ ((frame l).drop total).take
        (min k ((frame l).length - total)) =
        (frame l).take (total + min k ((frame l).length - total)) := (List.take_add ..).symm
    have hacc : (s.accept (((frame l).drop total).take
        (min k ((frame l).length - total)))).conn = some ⟨hs ++ [l], (hs.map frame).flatten ++
          (frame l).take (total + min k ((frame l).length - total))⟩ := by
      rw [State.accept, hconn, ← htake]
      simp only [Option.map_some, List.append_assoc]
    simp only [State.socketSendNonblocking]
    rw [if_neg (by omega)]
    split_ifs with hmore
    · refine ⟨h.past, fun hin => (nomatch hin), fun final' buf' total' ls' he => ?_⟩
      obtain ⟨rfl, rfl, rfl, rfl⟩ := Pc.sending.inj he
      exact ⟨hs, l, hacc, rfl, hmore⟩
    · have hall : ∀ c, (s.accept (((frame l).drop total).take
          (min k ((frame l).length - total)))).conn = some c → c.accepted = c.stream := by
        intro c hc
        obtain rfl := Option.some.inj (hacc.symm.trans hc)
        simp only [Conn.stream, List.map_append, List.flatten_append, List.map_cons, List.map_nil,
          List.flatten_cons, List.flatten_nil, List.append_nil]
        rw [List.take_of_length_le (by omega)]
      exact Ok.afterSend (s := s.accept _) h.past (fun c hc => framed_whole (hall c hc))
        (.inl hall)

/-- **Every step keeps the stream framed.** -/
theorem ok_step {a : Act} (h : Ok s) (hok : keepsLines s a) (hs : step cfg s a = some s') :
    Ok s' := by
  unfold step at hs
  split at hs
  case h_1 ls hpc =>
    split_ifs at hs <;> cases hs
    · exact h
    · exact Ok.move h.past (h.whole (by rw [hpc]; rfl)) s.backoffMs rfl
    · exact Ok.move h.past (h.whole (by rw [hpc]; rfl)) s.backoffMs rfl
  case h_2 hpc =>
    cases hs
    refine Ok.move h.past (h.whole (by rw [hpc]; rfl)) s.backoffMs ?_
    split_ifs <;> rfl
  case h_3 ls ok seed hpc =>
    split_ifs at hs <;> cases hs
    · exact Ok.move (s := s.socketWriterConnect cfg) h.past
        (fun c hc => by cases hc; rfl) _ rfl
    · exact Ok.move h.past (h.whole (by rw [hpc]; rfl)) _ rfl
  case h_4 ok seed hpc =>
    split_ifs at hs <;> cases hs
    · exact Ok.move (s := s.socketWriterConnect cfg) h.past
        (fun c hc => by cases hc; rfl) _ rfl
    · exact Ok.move h.past (h.whole (by rw [hpc]; rfl)) s.backoffMs rfl
  case h_5 ls hpc =>
    split_ifs at hs <;> cases hs
    · exact Ok.cleanup h.past (fun c hc => framed_whole (h.whole (by rw [hpc]; rfl) c hc))
        s.backoffMs rfl
    · exact Ok.move h.past (h.whole (by rw [hpc]; rfl)) s.backoffMs rfl
  case h_6 hpc =>
    cases hs
    exact Ok.cleanup h.past (fun c hc => framed_whole (h.whole (by rw [hpc]; rfl) c hc))
      s.backoffMs rfl
  case h_7 final _ _ hpc =>
    split_ifs at hs <;> cases hs
    · exact Ok.move h.past (h.whole (by rw [hpc]; rfl)) s.backoffMs rfl
    · exact Ok.move h.past (h.whole (by rw [hpc]; rfl)) _ rfl
  case h_8 final l ls mallocOk seed hpc =>
    have hin : s.pc.inSend = false := by rw [hpc]; rfl
    split_ifs at hs with hnil hend hroom <;> cases hs
    · exact Ok.move h.past (h.whole hin) s.backoffMs rfl
    · exact h.socketWriterSend hin (frame_eq_self hend).symm
    · exact h.socketWriterSend hin (frame_eq_append hend).symm
    · exact Ok.afterSend h.past (fun c hc => framed_whole (h.whole hin c hc)) (.inl (h.whole hin))
  case h_9 final buf total ls r seed hpc =>
    cases hs
    exact h.socketSendNonblocking hpc hok
  case h_10 => cases hs

theorem ok_start : Ok (socketWriterStart cfg) where
  past _ hmem := nomatch hmem
  whole _ _ hc := nomatch hc
  part _ _ _ _ he := nomatch he

/-- **The stream of every connection is made of whole lines**, in every run in which no
`send` would block in the middle of a line and none fails in the final drain.
What the kernel has accepted on a connection is a prefix of the framed lines
handed to it, all of them but the last entirely; and while the connection is
open and no line is on its way, nothing is missing. -/
theorem stream_framed (cfg : Config) (s : State)
    (h : Reach (step cfg) keepsLines (socketWriterStart cfg) s) :
    (∀ c ∈ s.past ++ s.conn.toList, c.accepted <+: c.stream ∧ c.before <+: c.accepted) ∧
    (s.pc.inSend = false → ∀ c, s.conn = some c → c.accepted = c.stream) := by
  have hok : Ok s := h.invariant (I := Ok) ok_start fun _ _ _ hi hc hs => ok_step hi hc hs
  refine ⟨fun c hmem => ?_, hok.whole⟩
  suffices hf : Framed c from ⟨hf.cut, hf.before⟩
  rcases List.mem_append.1 hmem with hp | hp
  · exact hok.past c hp
  · have hc : s.conn = some c := Option.mem_toList.1 hp
    by_cases hin : s.pc.inSend = true
    · cases hpc : s.pc with
      | sending final buf total ls =>
        obtain ⟨hs, l, hconn, rfl, -⟩ := hok.part final buf total ls hpc
        obtain rfl := Option.some.inj (hconn.symm.trans hc)
        exact framed_part hs l total
      | _ =>
        rw [hpc] at hin
        cases hin
    · exact framed_whole (hok.whole (Bool.eq_false_iff.2 hin) c hc)

/-- One connection: `ab` goes out in two pieces, the next line is refused and the
connection is closed. -/
theorem stream_framed_pieces : ∃ s : State,
    Reach (step ⟨0, 0⟩) keepsLines (socketWriterStart ⟨0, 0⟩) s ∧
      s.past = [⟨[[97, 98], [99]], [97, 98, 10]⟩] ∧
      ∀ c ∈ s.past ++ s.conn.toList, c.accepted <+: c.stream ∧ c.before <+: c.accepted := by
  obtain ⟨s, hr, hs⟩ : ∃ s : State, Reach (step ⟨0, 0⟩) keepsLines (socketWriterStart ⟨0, 0⟩) s ∧
      s.past = [⟨[[97, 98], [99]], [97, 98, 10]⟩] := by
    apply exists_of_runIf [.batch [[97, 98], [99]], .connect true 0, .line true 0,
      .send (.accept 1) 0, .send (.accept 5) 0, .line true 0, .send .again 0]
    decide +kernel
  exact ⟨s, hr, hs, (stream_framed ⟨0, 0⟩ s hr).1⟩

/-- `send` accepts the first byte of `ab` and would block; the next line follows it. -/
theorem line_cut : ∃ s : State, Reachable (step ⟨0, 0⟩) (socketWriterStart ⟨0, 0⟩) s ∧
    s.conn = some ⟨[[97, 98], [99]], [97, 99, 10]⟩ := by
  apply exists_of_run [.batch [[97, 98], [99]], .connect true 0, .line true 0,
    .send (.accept 1) 0, .send .again 0, .line true 0, .send (.accept 2) 0]
  decide +kernel

end Writer
end Clogx
