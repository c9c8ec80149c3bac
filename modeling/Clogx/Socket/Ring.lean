/-
# The socket ring

`core/socket_ring.c`: producers in `socket_ring_put`, the writer thread in
`socket_ring_get_batch`, and a thread that calls `socket_ring_close` and
`socket_ring_signal`.  A state is the memory of the ring and the place of each
party; one step is one atomic operation of one party, or the plain stores
between two of them.

A slot has its line in its own `inline_buf` when it is short, and else on the
heap; what `socket_ring_get_batch` hands out is the pointer (`Ptr`), and the
writer reads the bytes behind it later, line by line (`Act.read`).  A heap block
is written once, before its slot is published, and freed by the writer, so a
pointer to it carries its bytes; `inline_buf` is memory of the slot, and a
pointer into it reads whatever is there (`State.bytesOf`).

`malloc` may fail (`Act.mallocFails`), and `clog_atomic_cas_sz` is a weak
compare-exchange (`Act.casMiss`).  The arguments `ring` and `line` are not
`NULL`; an empty line and `max_lines = 0` are refused as in the source.

The fields after `closer` are history: they record what happened and no step
reads them.
-/

import Clogx.Machine.Run
import Clogx.Queue.Model

namespace Clogx
namespace Socket

open SeqRing (Shape Phase)
open Queue (szSub)

/-- `SOCKET_RING_INLINE_LEN`. -/
def socketRingInlineLen : ℕ := 256

/-- What a `char *line` points to: nothing, the `inline_buf` of a slot, or a block
of the heap. -/
inductive Ptr
  | null
  | inlineBuf (i : ℕ)
  | heap (b : List UInt8)
deriving DecidableEq

/-- `line`, `len` and `heap`, of a slot or of the arrays a batch is returned in. -/
structure Line where
  ptr : Ptr
  len : ℕ
  heap : Bool
deriving DecidableEq

/-- An empty slot. -/
def noLine : Line := ⟨.null, 0, false⟩

/-- `socket_ring_slot_t`. -/
structure Slot where
  inlineBuf : List UInt8
  line : Line
  seq : ℕ

/-- Where a call of `socket_ring_put` stands; `ok` is false once `malloc` has failed. -/
inductive Put
  | idle
  | loadClosed (b : List UInt8)
  | loadHead (b : List UInt8)
  | loadTail (b : List UInt8) (head : ℕ)
  | full (b : List UInt8)
  | cas (b : List UInt8) (head : ℕ)
  | copy (b : List UInt8) (pos : ℕ)
  | setLine (b : List UInt8) (pos : ℕ) (ok : Bool)
  | publish (b : List UInt8) (pos : ℕ) (ok : Bool)
  | addCount (b : List UInt8) (pos : ℕ) (ok : Bool)
  | post (b : List UInt8) (pos : ℕ) (ok : Bool)
  | incDropped (b : List UInt8) (pos : ℕ)
  | returned (ret : ℤ)

/-- Where a call of `socket_ring_get_batch` stands; `drained` is its return of `-1`. -/
inductive GetBatch
  | idle
  | loadClosed (maxLines : ℕ)
  | emptyHead (maxLines : ℕ)
  | emptyTail (maxLines head : ℕ)
  | semWait (maxLines : ℕ)
  | loadHead (maxLines : ℕ)
  | loadTail (maxLines head : ℕ)
  | reloadClosed (maxLines : ℕ)
  | loadSeq (maxLines head tail n : ℕ)
  | take (maxLines head tail n : ℕ)
  | storeTail (tail n : ℕ)
  | subCount (n : ℕ)
  | returned (n : ℕ)
  | drained
deriving DecidableEq

/-- Where a call of `socket_ring_close` stands. -/
inductive Close
  | idle
  | store
  | post
deriving DecidableEq

/-- The `socket_ring_put` call that owns a position. -/
structure Claim (ι : Type*) where
  thread : ι
  bytes : List UInt8
  lost : Bool

/-- The ring, the parties working on it, and the history. -/
structure State (ι : Type*) where
  slots : ℕ → Slot
  head : ℕ
  tail : ℕ
  count : ℕ
  dropped : ℕ
  closed : Bool
  itemsSem : ℕ
  put : ι → Put
  consumer : GetBatch
  lines : List Line
  next : ℕ
  closer : Close
  phase : ℕ → Phase
  item : ℕ → Line
  claim : ℕ → Option (Claim ι)
  signalled : ℕ → Bool
  reads : List (ℕ × List UInt8)

/-- One step of one party. -/
inductive Act (ι : Type*)
  | call (t : ι) (b : List UInt8)
  | put (t : ι)
  | mallocFails (t : ι)
  | casMiss (t : ι)
  | callGet (maxLines : ℕ)
  | get
  | read
  | callClose
  | close
  | signal

/-- `socket_ring_create`: slot `i` starts at `seq = i`, with its memory zeroed. -/
def socketRingCreate {ι : Type*} : State ι where
  slots i := ⟨List.replicate socketRingInlineLen 0, noLine, i⟩
  head := 0
  tail := 0
  count := 0
  dropped := 0
  closed := false
  itemsSem := 0
  put _ := .idle
  consumer := .idle
  lines := []
  next := 0
  closer := .idle
  phase _ := .vacant
  item _ := noLine
  claim _ := none
  signalled _ := false
  reads := []

variable {ι : Type*} [DecidableEq ι]

namespace State

variable (s : State ι)

/-- Thread `t` goes to `pc`. -/
def setPut (t : ι) (pc : Put) : State ι := { s with put := Function.update s.put t pc }

/-- The bytes a line of a batch reads as. -/
def bytesOf (l : Line) : List UInt8 :=
  match l.ptr with
  | .null => []
  | .inlineBuf i => (s.slots i).inlineBuf.take l.len
  | .heap b => b.take l.len

/-- `memcpy` of `b` and its terminator to the front of the `inline_buf` of `pos`. -/
def copyInline (g : Shape) (pos : ℕ) (b : List UInt8) : State ι :=
  { s with
    slots := Function.update s.slots (g.ix pos)
      { s.slots (g.ix pos) with
        inlineBuf := b ++ 0 :: (s.slots (g.ix pos)).inlineBuf.drop (b.length + 1) } }

/-- The stores to `line`, `len` and `heap` of the slot of `pos`. -/
def setLine (g : Shape) (pos : ℕ) (l : Line) : State ι :=
  { s with
    slots := Function.update s.slots (g.ix pos) { s.slots (g.ix pos) with line := l }
    phase := Function.update s.phase pos .written
    item := Function.update s.item pos l }

/-- `clog_atomic_store_u64(&slot->seq, pos + 1)` for the slot of `pos`. -/
def publishSlot (g : Shape) (pos : ℕ) : State ι :=
  { s with
    slots := Function.update s.slots (g.ix pos) { s.slots (g.ix pos) with seq := pos + 1 }
    phase := Function.update s.phase pos .published }

end State

/-- The line stored for a claim: in the slot, on the heap, or none if `malloc`
failed. -/
def lineFor (g : Shape) (pos : ℕ) (b : List UInt8) (ok : Bool) : Line :=
  if ok then
    if b.length < socketRingInlineLen then ⟨.inlineBuf (g.ix pos), b.length, false⟩
    else ⟨.heap b, b.length, true⟩
  else noLine

/-- `socket_ring_put`. -/
def socketRingPut (g : Shape) (s : State ι) (t : ι) : Option (State ι) :=
  match s.put t with
  | .idle | .returned _ => none
  | .loadClosed b =>
    if s.closed then some (s.setPut t (.returned (-1))) else some (s.setPut t (.loadHead b))
  | .loadHead b => some (s.setPut t (.loadTail b s.head))
  | .loadTail b head =>
    if g.capacity ≤ szSub head s.tail then some (s.setPut t (.full b))
    else some (s.setPut t (.cas b head))
  | .full _ =>
    some ({ s with dropped := (s.dropped + 1) % 2 ^ 64 }.setPut t (.returned 0))
  | .cas b head =>
    if s.head = head then
      some ({ s with
        head := head + 1
        claim := Function.update s.claim head (some ⟨t, b, false⟩) }.setPut t (.copy b head))
    else some (s.setPut t (.loadHead b))
  | .copy b pos =>
    if b.length < socketRingInlineLen then
      some ((s.copyInline g pos b).setPut t (.setLine b pos true))
    else some (s.setPut t (.setLine b pos true))
  | .setLine b pos ok =>
    some ((s.setLine g pos (lineFor g pos b ok)).setPut t (.publish b pos ok))
  | .publish b pos ok => some ((s.publishSlot g pos).setPut t (.addCount b pos ok))
  | .addCount b pos ok =>
    some ({ s with count := (s.count + 1) % 2 ^ 64 }.setPut t (.post b pos ok))
  | .post b pos ok =>
    some ({ s with
      itemsSem := s.itemsSem + 1
      signalled := Function.update s.signalled pos true }.setPut t
        (if ok then .returned 0 else .incDropped b pos))
  | .incDropped _ _ =>
    some ({ s with dropped := (s.dropped + 1) % 2 ^ 64 }.setPut t (.returned (-1)))

/-- `malloc(len + 1)` returns `NULL`. -/
def mallocFails (s : State ι) (t : ι) : Option (State ι) :=
  match s.put t with
  | .copy b pos =>
    if b.length < socketRingInlineLen then none
    else some ({ s with claim := Function.update s.claim pos (some ⟨t, b, true⟩) }.setPut t
      (.setLine b pos false))
  | _ => none

/-- A spurious failure of the weak compare-exchange on `head`. -/
def casMiss (s : State ι) (t : ι) : Option (State ι) :=
  match s.put t with
  | .cas b _ => some (s.setPut t (.loadHead b))
  | _ => none

/-- What follows the copying loop: with nothing taken, the outer loop again. -/
def afterLoop (maxLines tail n : ℕ) : GetBatch :=
  if n = 0 then .loadClosed maxLines else .storeTail tail n

/-- The test `n < available && n < max_lines` of the copying loop. -/
def loopTop (maxLines head tail n : ℕ) : GetBatch :=
  if n < szSub head tail ∧ n < maxLines then .loadSeq maxLines head tail n
  else afterLoop maxLines tail n

/-- `socket_ring_get_batch`. -/
def socketRingGetBatch (g : Shape) (s : State ι) : Option (State ι) :=
  match s.consumer with
  | .idle | .returned _ | .drained => none
  | .loadClosed m =>
    some { s with consumer := if s.closed then .emptyHead m else .semWait m }
  | .emptyHead m => some { s with consumer := .emptyTail m s.head }
  | .emptyTail m head =>
    some { s with consumer := if head = s.tail then .drained else .semWait m }
  | .semWait m =>
    if s.itemsSem = 0 then none
    else some { s with itemsSem := s.itemsSem - 1, consumer := .loadHead m }
  | .loadHead m => some { s with consumer := .loadTail m s.head }
  | .loadTail m head =>
    some { s with
      consumer := if szSub head s.tail = 0 then .reloadClosed m else loopTop m head s.tail 0 }
  | .reloadClosed m => some { s with consumer := if s.closed then .drained else .loadClosed m }
  | .loadSeq m head tail n =>
    if (s.slots (g.ix (tail + n))).seq = tail + n + 1 then
      some { s with consumer := .take m head tail n }
    else some { s with consumer := afterLoop m tail n }
  | .take m head tail n =>
    some { s with
      lines := s.lines ++ [(s.slots (g.ix (tail + n))).line]
      slots := Function.update s.slots (g.ix (tail + n))
        { s.slots (g.ix (tail + n)) with line := noLine }
      consumer := loopTop m head tail (n + 1) }
  | .storeTail tail n => some { s with tail := tail + n, consumer := .subCount n }
  | .subCount n =>
    some { s with
      count := (s.count + 2 ^ 64 - n % 2 ^ 64) % 2 ^ 64
      consumer := .returned n }

/-- The writer reads line `next` of its batch; it skips an empty one. -/
def readLine (s : State ι) : Option (State ι) :=
  match s.consumer with
  | .returned n =>
    match s.lines[s.next]? with
    | some l =>
      if l.ptr = .null ∨ l.len = 0 then some { s with next := s.next + 1 }
      else some { s with
        next := s.next + 1
        reads := s.reads ++ [(s.tail - n + s.next, s.bytesOf l)] }
    | none => none
  | _ => none

/-- `socket_ring_close`. -/
def socketRingClose (s : State ι) : Option (State ι) :=
  match s.closer with
  | .idle => none
  | .store => some { s with closed := true, closer := .post }
  | .post => some { s with itemsSem := s.itemsSem + 1, closer := .idle }

/-- A call of `socket_ring_put` is in progress. -/
def Put.inside : Put → Bool
  | .idle | .returned _ => false
  | _ => true

/-- The writer is not inside `socket_ring_get_batch`. -/
def GetBatch.free : GetBatch → Bool
  | .idle | .returned _ | .drained => true
  | _ => false

/-- One step of the system. -/
def step (g : Shape) (s : State ι) : Act ι → Option (State ι)
  | .call t b =>
    if (s.put t).inside then none
    else some (s.setPut t (if b = [] then .returned (-1) else .loadClosed b))
  | .put t => socketRingPut g s t
  | .mallocFails t => mallocFails s t
  | .casMiss t => casMiss s t
  | .callGet m =>
    if s.consumer.free then
      some { s with
        lines := []
        next := 0
        consumer := if m = 0 then .drained else .loadClosed m }
    else none
  | .get => socketRingGetBatch g s
  | .read => readLine s
  | .callClose => if s.closer = .idle then some { s with closer := .store } else none
  | .close => socketRingClose s
  | .signal => some { s with itemsSem := s.itemsSem + 1 }

end Socket
end Clogx
