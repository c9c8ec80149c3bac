/-
# The datagrams of the journald sink

`journald_write` of `sinks/journald_sink.c`: the line without its newlines at the
end becomes the field `MESSAGE` of a datagram, next to `PRIORITY` and
`SYSLOG_IDENTIFIER`, in an array of 512 bytes or in a block from `malloc`, whose
size is computed before anything is written.

`buf` is the block of memory that the sink is given.  The model stops with `none`
where the code would read or write outside a block, and where `strstr` is given
bytes without a terminator.
-/

import Clogx.CLib.Buffer
import Clogx.Journal.Protocol
import Mathlib.Data.List.DropRight
import Mathlib.Data.List.GetD

namespace Clogx
namespace Journald

open CLib Journal

/-- `JOURNALD_MAX_MESSAGE`. -/
def maxMessage : ℕ := 240 * 1024

/-- Whether a text has an occurrence of a pattern. -/
def has (pat text : Text) : Bool := (strstr pat text).isSome

/-- `journald_priority_from_text` of a string. -/
def priorityOf (text : Text) : ℕ :=
  if has (str "[TRACE]") text || has (str "[DEBUG]") text then 7
  else if has (str "[WARN]") text || has (str "[WARNING]") text then 4
  else if has (str "[ERROR]") text then 3
  else if has (str "[FATAL]") text then 2
  else 6

/-- `journald_priority_from_text`. -/
def journaldPriorityFromText (buf : Block) : Option ℕ := (strAt buf 0).map priorityOf

/-- `journald_store_le64`. -/
def journaldStoreLe64 (v : ℕ) : Text := encodeLe 8 v

/-- `journald_put` at an offset of a packet. -/
def journaldPut (packet : Block × ℕ) (src : Text) : Option (Block × ℕ) :=
  (store packet.1 packet.2 src).map (·, packet.2 + src.length)

/-- The loop that takes off newlines and carriage returns at the end. -/
def stripLen (buf : Block) : ℕ → ℕ
  | 0 => 0
  | n + 1 => if buf.getD n 0 = 10 ∨ buf.getD n 0 = 13 then stripLen buf n else n + 1

theorem stripLen_le (buf : Block) (n : ℕ) : stripLen buf n ≤ n := by
  induction n with
  | zero => exact le_rfl
  | succ n ih =>
    rw [stripLen]
    split_ifs
    · exact ih.trans (Nat.le_succ n)
    · exact le_rfl

/-- What `journald_write` does: it gives up, or it sends a datagram. -/
inductive Sent
  | refused
  | datagram (packet : Text)

/-- `MESSAGE`, in the form for any bytes or as a line. -/
def putMessage (packet : Block × ℕ) (useBinary : Bool) (msg : Text) : Option (Block × ℕ) :=
  if useBinary then do
    let packet ← journaldPut packet (str "MESSAGE\n")
    let packet ← journaldPut packet (journaldStoreLe64 msg.length)
    journaldPut packet msg
  else do
    let packet ← journaldPut packet (str "MESSAGE=")
    journaldPut packet msg

/-- The local array and what `malloc` returns, with whatever they hold. -/
structure Memory where
  stackBuf : Block
  malloc : ℕ → Block
  stackSize : stackBuf.length = 512
  mallocSize : ∀ n, (malloc n).length = n

/-- `journald_write` up to the `send`, for the identifier `ident`. -/
def journaldWrite (ident : CString) (mem : Memory) (buf : Block) (len : ℕ) : Option Sent := do
  let msgLen := min (stripLen buf len) maxMessage
  let prio ← journaldPriorityFromText buf
  let prioText := str "PRIORITY=" ++ decimal prio ++ str "\n"
  let prioLine := cut 32 prioText
  let useBinary := decide (10 ∈ buf.take msgLen)
  let total := prioText.length + (str "SYSLOG_IDENTIFIER=").length + ident.val.length + 1 +
    if useBinary then (str "MESSAGE\n").length + 8 + msgLen + 1
    else (str "MESSAGE=").length + msgLen + 1
  let packet ← journaldPut (if total ≤ 512 then mem.stackBuf else mem.malloc total, 0)
    (prioLine.take prioText.length)
  let packet ← journaldPut packet (str "SYSLOG_IDENTIFIER=")
  let packet ← journaldPut packet ident.val
  let packet ← journaldPut packet (str "\n")
  let packet ← putMessage packet useBinary (buf.take msgLen)
  let packet ← journaldPut packet (str "\n")
  if packet.2 ≠ total then return .refused
  else return .datagram (packet.1.take packet.2)

/-- `journald_sink_create`, as far as the identifier goes. -/
def journaldSinkCreate (ident : Option CString) : Option CString :=
  let name := ident.getD ⟨str "clogx", by decide⟩
  if 10 ∈ name.val then none else some name

/-! ### The packet -/

/-- A packet that is written up to an offset. -/
theorem journaldPut_eq {x z src : Block} (h : src.length ≤ z.length) :
    journaldPut (x ++ z, x.length) src =
      some ((x ++ src) ++ z.drop src.length, (x ++ src).length) := by
  rw [journaldPut, store_fits h, Option.map_some, List.append_assoc, List.length_append]

/-- The parts of a packet, one after the other. -/
def putAll : Block × ℕ → List Text → Option (Block × ℕ)
  | packet, [] => some packet
  | packet, part :: parts => (journaldPut packet part).bind (putAll · parts)

/-- **Parts that together fit the block are all written.** -/
theorem putAll_eq (parts : List Text) : ∀ {x z : Block}, parts.flatten.length ≤ z.length →
    putAll (x ++ z, x.length) parts =
      some ((x ++ parts.flatten) ++ z.drop parts.flatten.length, (x ++ parts.flatten).length) := by
  induction parts with
  | nil => intro x z _; simp [putAll]
  | cons part parts ih =>
    intro x z h
    rw [List.flatten_cons, List.length_append] at h
    rw [putAll, journaldPut_eq (by omega), Option.bind_some,
      ih (by rw [List.length_drop]; omega), List.drop_drop, List.flatten_cons, List.append_assoc x,
      ← List.length_append]

/-- The parts of `MESSAGE`. -/
def messageParts (useBinary : Bool) (msg : Text) : List Text :=
  if useBinary then [str "MESSAGE\n", journaldStoreLe64 msg.length, msg] else [str "MESSAGE=", msg]

theorem putAll_append (parts parts' : List Text) : ∀ packet,
    putAll packet (parts ++ parts') = (putAll packet parts).bind (putAll · parts') := by
  induction parts with
  | nil => exact fun packet => rfl
  | cons part parts ih =>
    intro packet
    rw [List.cons_append, putAll, putAll, Option.bind_assoc]
    exact Option.bind_congr fun p _ => ih p

theorem putMessage_eq (packet : Block × ℕ) (useBinary : Bool) (msg : Text) :
    putMessage packet useBinary msg = putAll packet (messageParts useBinary msg) := by
  have hlast (p : Block × ℕ) : putAll p [msg] = journaldPut p msg := by
    rw [putAll]
    exact Option.bind_fun_some _
  cases useBinary with
  | false =>
    rw [putMessage, messageParts, if_neg Bool.noConfusion, if_neg Bool.noConfusion, putAll]
    exact Option.bind_congr fun p _ => (hlast p).symm
  | true =>
    rw [putMessage, messageParts, if_pos rfl, if_pos rfl, putAll]
    refine Option.bind_congr fun p _ => ?_
    rw [putAll]
    exact Option.bind_congr fun p _ => (hlast p).symm

/-- The parts of a datagram. -/
def packetParts (ident : Text) (prio : ℕ) (msg : Text) : List Text :=
  [str "PRIORITY=" ++ decimal prio ++ str "\n", str "SYSLOG_IDENTIFIER=", ident, str "\n"] ++
    messageParts (decide (10 ∈ msg)) msg ++ [str "\n"]

theorem priorityOf_lt (text : Text) : priorityOf text < 10 := by
  rw [priorityOf]
  split_ifs <;> norm_num

/-- The first line of a packet fits its array. -/
theorem length_prioText_lt (text : Text) :
    (str "PRIORITY=" ++ decimal (priorityOf text) ++ str "\n").length < 32 := by
  have hdigits := length_decimal_le_of_lt (by norm_num)
    ((priorityOf_lt text).trans_le (by norm_num : 10 ≤ 10 ^ 1))
  have hname : (str "PRIORITY=").length = 9 := rfl
  have hnewline : (str "\n").length = 1 := rfl
  rw [List.length_append, List.length_append]
  omega

/-- **The size that is computed is that of the parts.** -/
theorem length_packetParts (ident : Text) (prio : ℕ) (msg : Text) :
    (packetParts ident prio msg).flatten.length =
      (str "PRIORITY=" ++ decimal prio ++ str "\n").length + (str "SYSLOG_IDENTIFIER=").length +
        ident.length + 1 +
      (if decide (10 ∈ msg) then (str "MESSAGE\n").length + 8 + msg.length + 1
        else (str "MESSAGE=").length + msg.length + 1) := by
  have hnewline : (str "\n").length = 1 := rfl
  rw [packetParts, messageParts]
  split_ifs
  · simp only [journaldStoreLe64, List.cons_append, List.nil_append, List.flatten_cons,
      List.flatten_nil, List.length_append, List.length_nil, length_encodeLe]
    omega
  · simp only [List.cons_append, List.nil_append, List.flatten_cons, List.flatten_nil,
      List.length_append, List.length_nil]
    omega

/-- **The packet has the size that was computed, and is sent.** -/
theorem journaldWrite_eq (ident : CString) (mem : Memory) {buf : Block} {text : Text}
    (htext : strAt buf 0 = some text) {len : ℕ} (hlen : len ≤ buf.length) :
    journaldWrite ident mem buf len =
      some (.datagram (packetParts ident.val (priorityOf text)
        (buf.take (min (stripLen buf len) maxMessage))).flatten) := by
  have hmsg : (buf.take (min (stripLen buf len) maxMessage)).length =
      min (stripLen buf len) maxMessage :=
    List.length_take_of_le (((min_le_left _ _).trans (stripLen_le buf len)).trans hlen)
  generalize hm : min (stripLen buf len) maxMessage = msgLen at hmsg ⊢
  generalize hparts : packetParts ident.val (priorityOf text) (buf.take msgLen) = parts
  have htotal := length_packetParts ident.val (priorityOf text) (buf.take msgLen)
  obtain ⟨total, hsize⟩ : ∃ total, total = parts.flatten.length := ⟨_, rfl⟩
  rw [hparts, hmsg, ← hsize] at htotal
  rw [journaldWrite, journaldPriorityFromText, htext]
  simp only [Option.map_some, Option.bind_eq_bind, Option.bind_some, hm, ← htotal,
    cut_of_length_lt (length_prioText_lt text), List.take_length]
  generalize hblock : (if total ≤ 512 then mem.stackBuf else mem.malloc total) = block
  have hfits : parts.flatten.length ≤ block.length := by
    rw [← hsize, ← hblock]
    split_ifs with hsmall
    · rwa [mem.stackSize]
    · rw [mem.mallocSize]
  -- The writes of the function are those of the parts.
  have hchain : (putAll (block, 0) parts).bind (fun packet =>
      if packet.2 ≠ total then some Sent.refused
      else some (.datagram (packet.1.take packet.2))) =
      some (.datagram parts.flatten) := by
    have hput := putAll_eq parts (x := []) hfits
    rw [List.nil_append, List.length_nil, List.nil_append] at hput
    rw [hput, Option.bind_some, hsize, if_neg (by simp), List.take_left]
  rw [← hchain, ← hparts, packetParts, putAll_append, putAll_append]
  simp only [putAll, Option.bind_assoc, Option.bind_some, putMessage_eq]
  rfl

/-! ### The fields -/

/-- A line without the newlines and carriage returns at its end. -/
def stripEnd (line : Text) : Text := line.rdropWhile fun c => c = 10 ∨ c = 13

theorem take_stripLen (buf : Block) (n : ℕ) (h : n ≤ buf.length) :
    buf.take (stripLen buf n) = stripEnd (buf.take n) := by
  induction n with
  | zero => rfl
  | succ n ih =>
    have hget : buf.getD n 0 = buf[n] := List.getD_eq_getElem _ _ h
    rw [stripLen, hget, stripEnd, List.take_succ_eq_append_getElem h]
    by_cases hend : buf[n] = 10 ∨ buf[n] = 13
    · rw [if_pos hend, List.rdropWhile_concat_pos _ _ _ (by simpa using hend)]
      exact ih (Nat.le_of_succ_le h)
    · rw [if_neg hend, List.rdropWhile_concat_neg _ _ _ (by simpa using hend),
        List.take_succ_eq_append_getElem h]

/-- The message of a write. -/
def message (buf : Block) (len : ℕ) : Text := (stripEnd (buf.take len)).take maxMessage

theorem message_eq {buf : Block} {len : ℕ} (h : len ≤ buf.length) :
    buf.take (min (stripLen buf len) maxMessage) = message buf len := by
  rw [message, ← take_stripLen buf len h, List.take_take, min_comm]

theorem decode_packetParts {ident : Text} (hident : 10 ∉ ident) (prio : ℕ) {msg : Text}
    (hmsg : msg.length < 256 ^ 8) :
    decode (packetParts ident prio msg).flatten =
      some [(str "PRIORITY", decimal prio), (str "SYSLOG_IDENTIFIER", ident),
        (str "MESSAGE", msg)] := by
  have hfields : (packetParts ident prio msg).flatten =
      [textField (str "PRIORITY") (decimal prio), textField (str "SYSLOG_IDENTIFIER") ident,
        if 10 ∈ msg then binaryField (str "MESSAGE") msg
        else textField (str "MESSAGE") msg].flatten := by
    have hp : str "PRIORITY=" = str "PRIORITY" ++ [61] := rfl
    have hs : str "SYSLOG_IDENTIFIER=" = str "SYSLOG_IDENTIFIER" ++ [61] := rfl
    have hm : str "MESSAGE=" = str "MESSAGE" ++ [61] := rfl
    have hb : str "MESSAGE\n" = str "MESSAGE" ++ [10] := rfl
    have hn : str "\n" = [10] := rfl
    rw [packetParts, messageParts]
    split_ifs with h1 h2 h2
    · simp [hp, hs, hb, hn, textField, binaryField, journaldStoreLe64]
    · exact absurd (of_decide_eq_true h1) h2
    · exact absurd (decide_eq_true h2) h1
    · simp [hp, hs, hm, hn, textField]
  rw [hfields]
  refine decode_flatten
    (.cons (fun rest => ?_) (.cons (fun rest => ?_) (.cons (fun rest => ?_) .nil)))
  · exact nextField_textField (by decide) (by decide)
      (fun h => absurd (mem_decimal h).1 (by decide)) rest
  · exact nextField_textField (by decide) (by decide) hident rest
  · split_ifs with hnl
    · exact nextField_binaryField (by decide) (by decide) hmsg rest
    · exact nextField_textField (by decide) (by decide) hnl rest

/-- A block with a terminator becomes a datagram of the three fields. -/
theorem exists_datagram {ident : CString} (hident : 10 ∉ ident.val) (mem : Memory) {buf : Block}
    (hzero : 0 ∈ buf) {len : ℕ} (hlen : len ≤ buf.length) :
    ∃ packet, journaldWrite ident mem buf len = some (.datagram packet) ∧
      decode packet = some [(str "PRIORITY", decimal (priorityOf (buf.takeWhile (· ≠ 0)))),
        (str "SYSLOG_IDENTIFIER", ident.val), (str "MESSAGE", message buf len)] := by
  have htext : strAt buf 0 = some (buf.takeWhile (· ≠ 0)) := if_pos hzero
  have hmsg : (message buf len).length < 256 ^ 8 := by
    refine lt_of_le_of_lt (List.length_take_le ..) ?_
    norm_num [maxMessage]
  refine ⟨_, journaldWrite_eq ident mem htext hlen, ?_⟩
  rw [message_eq hlen]
  exact decode_packetParts hident _ hmsg

/-- **A datagram of the sink decodes to its three fields** exactly if the block that the sink is
given has a terminator. -/
theorem packet_decodes_iff {ident : Option CString} {name : CString}
    (hname : journaldSinkCreate ident = some name) (mem : Memory) {buf : Block} {len : ℕ}
    (hlen : len ≤ buf.length) :
    (∃ packet, journaldWrite name mem buf len = some (.datagram packet) ∧
      decode packet = some [(str "PRIORITY", decimal (priorityOf (buf.takeWhile (· ≠ 0)))),
        (str "SYSLOG_IDENTIFIER", name.val), (str "MESSAGE", message buf len)]) ↔ 0 ∈ buf := by
  constructor
  · rintro ⟨packet, hwrite, -⟩
    by_contra hzero
    have hnone : strAt buf 0 = none := if_neg hzero
    rw [journaldWrite, journaldPriorityFromText, hnone] at hwrite
    cases hwrite
  · intro hzero
    rw [journaldSinkCreate] at hname
    split_ifs at hname with hnl
    cases hname
    exact exists_datagram hnl mem hzero hlen

/-- Arrays of zeros. -/
def zeroMemory : Memory :=
  ⟨List.replicate 512 0, fun n => List.replicate n 0, List.length_replicate,
    fun _ => List.length_replicate⟩

/-- An identifier. -/
def appIdent : CString := ⟨str "app", by decide⟩

/-- A message of two lines, with its terminator. -/
theorem packet_decodes_two_lines : ∃ packet,
    journaldWrite appIdent zeroMemory (str "a\nb\n" ++ [0]) 4 = some (.datagram packet) ∧
    decode packet = some
      [(str "PRIORITY", decimal (priorityOf ((str "a\nb\n" ++ [0]).takeWhile (· ≠ 0)))),
        (str "SYSLOG_IDENTIFIER", appIdent.val), (str "MESSAGE", message (str "a\nb\n" ++ [0]) 4)] := by
  have hname : journaldSinkCreate (some appIdent) = some appIdent := rfl
  exact (packet_decodes_iff hname zeroMemory (by decide)).2 (by decide)

/-- A block with its bytes and no terminator, as the interface of a sink allows, is read past its
end. -/
theorem unterminated_read_past : journaldWrite appIdent zeroMemory (str "hello") 5 = none := rfl

end Journald
end Clogx
