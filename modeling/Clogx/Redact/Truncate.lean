/-
# Truncation and redaction

The message of the printf path is cut twice: `logger_writevprintf_internal` cuts
the formatted text to the buffer and puts `...` over its last bytes, and
`redact_apply_locked` cuts again where a mask does not fit.  The rules run on
what is kept, and the bytes behind the cut are lost to them.

A rule keeps "a prefix of the full redaction, then the marker" if it finds
nothing that reaches into the marker and no occurrence lies across the end of
what is kept (`Separable`).  An occurrence across that end leaves its first
bytes in the message (`replaceAll_append_cases`).
-/

import Clogx.Redact.Agree

namespace Clogx
namespace Redact

open CLib

/-! ### The message of the printf path -/

/-- `INT_MAX`: the longest text whose length `vsnprintf` can return. -/
def intMax : ℕ := 2 ^ 31 - 1

/-- `redact_message_if_needed`. -/
def redactMessageIfNeeded (fuel : ℕ) (rules : List Rule) (buf : Block) (bufSize : ℕ) :
    Option Block :=
  if rules.length = 0 then some buf else redactApplyLocked fuel rules buf bufSize

/-- The bytes of a text that the first cut keeps. -/
def kept (t : Text) : Text :=
  if t.length < maxMessageSize then t else t.take (maxMessageSize - 4)

/-- The bytes that it loses. -/
def lost (t : Text) : Text :=
  if t.length < maxMessageSize then [] else t.drop (maxMessageSize - 4)

/-- What stands in their place. -/
def marker (t : Text) : Text :=
  if t.length < maxMessageSize then [] else str "..."

/-- The text in the array when the rules start. -/
def shown (t : Text) : Text :=
  if intMax < t.length then [] else kept t ++ marker t

/-- **The replacement in room for `n` bytes,** the terminator among them: at the first occurrence
whose mask and what follows it do not fit, the text ends in the mask, as far as there is room. -/
def replaceCut (pat msk : Text) : ℕ → ℕ → Text → Text
  | 0, _, t => t
  | fuel + 1, n, t =>
    match strstr pat t with
    | none => t
    | some k =>
      let behind := t.drop (k + pat.length)
      if k + msk.length + behind.length < n then
        t.take k ++ (msk ++ replaceCut pat msk fuel (n - (k + msk.length)) behind)
      else (t.take k ++ msk).take (n - 1)

/-- What a rule leaves of a text in an array of `n` bytes that is too short for the replacement. -/
def leftOver (n : ℕ) (r : Rule) (t : Text) : Text := replaceCut r.pattern r.mask (t.length + 1) n t

/-- **No rule is disturbed by a cut.**  With `a` kept, `b` lost and the marker `mk` in its place, no
occurrence reaches into the marker, and none lies across the end of what is kept.  A rule that does
not fit cuts once more: what it leaves is kept then, the rest of the replacement is lost, and there
is no marker. -/
def Separable (n : ℕ) : Text → List Rule → Text → Text → Prop
  | _, [], _, _ => True
  | mk, r :: rules, a, b =>
    let r' := replaceAll r.pattern r.mask
    let y := leftOver n r (a ++ mk)
    Inside r.pattern a mk ∧
    if (r' a ++ mk).length < n then
      r' (a ++ b) = r' a ++ r' b ∧ Separable n mk rules (r' a) (r' b)
    else Separable n [] rules y ((r' (a ++ b)).drop y.length)

/-- Nothing is redacted differently because of the first cut. -/
def Intact (rules : List Rule) (t : Text) : Prop :=
  intMax < t.length ∨ Separable maxMessageSize (marker t) rules (kept t) (lost t)

end Redact
end Clogx
