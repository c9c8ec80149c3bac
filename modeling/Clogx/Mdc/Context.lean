/-
# The context of a thread

`log_set_thread_context`, `log_get_thread_context` and
`log_clear_thread_context` of `core/log.c`: at most 16 pairs in arrays of 32 bytes
for the key and 128 bytes for the value, written with `snprintf` and so cut
without a word, and found by comparing with the whole key.

A context is meant to be a map.  Here is exactly which calls keep it one.
-/

import Clogx.Assoc.Table
import Clogx.CLib.Text
import Clogx.Machine.Run

namespace Clogx
namespace Mdc

open CLib Assoc

/-- `MAX_THREAD_CONTEXT_PAIRS`. -/
def maxThreadContextPairs : ℕ := 16

/-- The size of the key of a `thread_context_pair_t`. -/
def keySize : ℕ := 32

/-- The size of its value. -/
def valueSize : ℕ := 128

/-- `g_thread_context`, the first `g_thread_context_count` pairs of it. -/
structure ThreadContext where
  pairs : List (Text × Text)
  bounded : pairs.length ≤ maxThreadContextPairs
  keys : ∀ p ∈ pairs, p.1.length < keySize
  values : ∀ p ∈ pairs, p.2.length < valueSize

/-- The context of a new thread. -/
def ThreadContext.empty : ThreadContext :=
  ⟨[], Nat.zero_le _, fun _ h => absurd h List.not_mem_nil, fun _ h => absurd h List.not_mem_nil⟩

/-- `!value || strlen(value) == 0`. -/
def Blank : Option Text → Prop
  | none => True
  | some v => v = []

instance : DecidablePred Blank
  | none => isTrue trivial
  | some v => inferInstanceAs (Decidable (v = []))

theorem length_swapRemove {l : List (Text × Text)} {k : Text} {i : ℕ} (h : slot l k = some i) :
    (swapRemove l i).length ≤ l.length ∧ ∀ p ∈ swapRemove l i, p ∈ l := by
  obtain ⟨a, v, b, rfl, rfl⟩ := slot_eq_some h
  refine ⟨?_, fun p hp => ?_⟩
  · rw [swapRemove_split.length_eq]
    simp
  · have hmem := swapRemove_split.mem_iff.1 hp
    simp only [List.mem_append, List.mem_cons] at hmem ⊢
    tauto

/-- The pair of a key is removed. -/
def ThreadContext.remove (c : ThreadContext) {k : Text} {i : ℕ} (h : slot c.pairs k = some i) :
    ThreadContext where
  pairs := swapRemove c.pairs i
  bounded := (length_swapRemove h).1.trans c.bounded
  keys p hp := c.keys p ((length_swapRemove h).2 p hp)
  values p hp := c.values p ((length_swapRemove h).2 p hp)

theorem mem_overwrite {l : List (Text × Text)} {k : Text} {i : ℕ} (h : slot l k = some i) {v : Text}
    {p : Text × Text} (hp : p ∈ overwrite l i v) : p ∈ l ∨ p.2 = v ∧ ∃ q ∈ l, q.1 = p.1 := by
  obtain ⟨a, w, b, rfl, rfl⟩ := slot_eq_some h
  rw [overwrite_split, List.mem_append, List.mem_cons] at hp
  rcases hp with hp | rfl | hp
  · exact .inl (List.mem_append_left _ hp)
  · exact .inr ⟨rfl, (k, w), by simp, rfl⟩
  · exact .inl (List.mem_append_right _ (List.mem_cons_of_mem _ hp))

/-- The value of a key is overwritten with `snprintf`. -/
def ThreadContext.overwrite (c : ThreadContext) {k : Text} {i : ℕ} (h : slot c.pairs k = some i)
    (v : Text) : ThreadContext where
  pairs := Assoc.overwrite c.pairs i (cut valueSize v)
  bounded := by
    rw [Assoc.overwrite, List.length_modify]
    exact c.bounded
  keys p hp := by
    rcases mem_overwrite h hp with hp | ⟨-, q, hq, heq⟩
    · exact c.keys p hp
    · exact heq ▸ c.keys q hq
  values p hp := by
    rcases mem_overwrite h hp with hp | ⟨heq, -⟩
    · exact c.values p hp
    · exact heq ▸ length_cut_lt (by decide) v

/-- A pair is added at the end with `snprintf`. -/
def ThreadContext.add (c : ThreadContext) (h : c.pairs.length < maxThreadContextPairs) (k v : Text) :
    ThreadContext where
  pairs := c.pairs ++ [(cut keySize k, cut valueSize v)]
  bounded := by
    rw [List.length_append]
    exact h
  keys p hp := by
    rcases List.mem_append.1 hp with hp | hp
    · exact c.keys p hp
    · exact List.mem_singleton.1 hp ▸ length_cut_lt (by decide) k
  values p hp := by
    rcases List.mem_append.1 hp with hp | hp
    · exact c.values p hp
    · exact List.mem_singleton.1 hp ▸ length_cut_lt (by decide) v

/-- `log_set_thread_context`: whether it returns `CLOG_OK`, and the context afterwards. -/
def logSetThreadContext (c : ThreadContext) (key value : Option Text) : Bool × ThreadContext :=
  match key with
  | none => (false, c)
  | some k =>
    if k = [] then (false, c)
    else
      match h : slot c.pairs k with
      | some _ => (true, if Blank value then c.remove h else c.overwrite h (value.getD []))
      | none =>
        if Blank value then (true, c)
        else if hroom : maxThreadContextPairs ≤ c.pairs.length then (false, c)
        else (true, c.add (not_le.1 hroom) k (value.getD []))

/-- `log_get_thread_context`. -/
def logGetThreadContext (c : ThreadContext) (key : Option Text) : Option Text :=
  key.bind (lookup c.pairs)

/-- `log_clear_thread_context`. -/
def logClearThreadContext (_ : ThreadContext) : ThreadContext := .empty

/-! ### What a call does -/

theorem logSetThreadContext_of_slot {c : ThreadContext} {k : Text} {i : ℕ} (hk : k ≠ [])
    (h : slot c.pairs k = some i) (value : Option Text) :
    logSetThreadContext c (some k) value =
      (true, if Blank value then c.remove h else c.overwrite h (value.getD [])) := by
  rw [logSetThreadContext, if_neg hk]
  split
  next j hj =>
    cases hj.symm.trans h
    rfl
  next hnone =>
    rw [h] at hnone
    cases hnone

theorem logSetThreadContext_of_no_slot {c : ThreadContext} {k : Text} (hk : k ≠ [])
    (h : slot c.pairs k = none) (value : Option Text) :
    logSetThreadContext c (some k) value =
      if Blank value then (true, c)
      else if hroom : maxThreadContextPairs ≤ c.pairs.length then (false, c)
      else (true, c.add (not_le.1 hroom) k (value.getD [])) := by
  rw [logSetThreadContext, if_neg hk]
  split
  next j hj =>
    rw [h] at hj
    cases hj
  next => rfl

/-! ### The map -/

/-- A call that changes the context. -/
inductive Call
  | set (key value : Option Text)
  | clear

def ThreadContext.call (c : ThreadContext) : Call → Bool × ThreadContext
  | .set key value => logSetThreadContext c key value
  | .clear => (true, logClearThreadContext c)

/-- What the call means for a map, given whether it succeeded. -/
def Call.meaning (ok : Bool) (m : Text → Option Text) : Call → Text → Option Text
  | .set none _ => m
  | .set (some k) value =>
    if ok then Function.update m k (if Blank value then none else value) else m
  | .clear => fun _ => none

/-- The context after some calls, and the map that they mean. -/
def calls (cs : List Call) : ThreadContext × (Text → Option Text) :=
  cs.foldl (fun s c => ((s.1.call c).2, c.meaning (s.1.call c).1 s.2)) (.empty, fun _ => none)

/-- **The context is the map:** every key is looked up as in the map, and no key stands twice. -/
structure IsMap (s : ThreadContext × (Text → Option Text)) : Prop where
  get : ∀ k, logGetThreadContext s.1 (some k) = s.2 k
  distinct : Distinct s.1.pairs

/-- The call fits the arrays: a value that is to be stored is shorter than its array, and so is its
key, or there is no room for the pair and the call says so. -/
def Fits (c : ThreadContext) : Call → Prop
  | .set (some k) (some v) =>
    k ≠ [] → v ≠ [] → (k.length < keySize ∧ v.length < valueSize) ∨
      (lookup c.pairs k = none ∧ maxThreadContextPairs ≤ c.pairs.length)
  | _ => True

theorem isMap_iff {c : ThreadContext} {m : Text → Option Text} :
    IsMap (c, m) ↔ lookup c.pairs = m ∧ Distinct c.pairs :=
  ⟨fun h => ⟨funext h.get, h.distinct⟩, fun h => ⟨fun k => congrFun h.1 k, h.2⟩⟩

theorem lookup_eq_none_of_le {c : ThreadContext} {k : Text} (h : keySize ≤ k.length) :
    lookup c.pairs k = none := by
  refine lookup_eq_none_iff.2 fun v hmem => ?_
  exact absurd (c.keys _ hmem) (not_lt.2 h)

section Step

variable {c : ThreadContext} {k v : Text} (h : Distinct c.pairs) (hk : k ≠ []) (hv : v ≠ [])
include h hk hv

/-- Storing a value gives the map that is meant exactly if key and value fit, or if there is no
room. -/
theorem isMap_set : IsMap ((logSetThreadContext c (some k) (some v)).2,
      (Call.set (some k) (some v)).meaning (logSetThreadContext c (some k) (some v)).1
        (lookup c.pairs)) ↔
    (k.length < keySize ∧ v.length < valueSize) ∨
      (lookup c.pairs k = none ∧ maxThreadContextPairs ≤ c.pairs.length) := by
  have hblank : ¬ Blank (some v) := hv
  have hcut : Function.update (lookup c.pairs) k (some (cut valueSize v)) =
      Function.update (lookup c.pairs) k (some v) ↔ v.length < valueSize := by
    rw [← cut_eq_self_iff (by decide)]
    refine ⟨fun heq => ?_, fun heq => by rw [heq]⟩
    have hat := congrFun heq k
    rw [Function.update_self, Function.update_self] at hat
    exact Option.some.inj hat
  cases hslot : slot c.pairs k with
  | some i =>
    have hfound : ¬ lookup c.pairs k = none := by
      rw [← slot_eq_none_iff_lookup, hslot]
      exact Option.some_ne_none i
    have hkey : k.length < keySize := by
      by_contra hge
      exact hfound (lookup_eq_none_of_le (not_lt.1 hge))
    rw [logSetThreadContext_of_slot hk hslot, if_neg hblank, isMap_iff]
    have hlookup : lookup (c.overwrite hslot v).pairs =
        Function.update (lookup c.pairs) k (some (cut valueSize v)) :=
      lookup_overwrite h hslot _
    simp only [Option.getD_some, Call.meaning, if_true, if_neg hblank, hlookup, hcut, hkey,
      true_and, hfound, false_and, or_false, and_iff_left_iff_imp]
    exact fun _ => distinct_overwrite h hslot _
  | none =>
    have hnone : lookup c.pairs k = none := slot_eq_none_iff_lookup.1 hslot
    rw [logSetThreadContext_of_no_slot hk hslot, if_neg hblank]
    by_cases hroom : maxThreadContextPairs ≤ c.pairs.length
    · rw [dif_pos hroom]
      exact iff_of_true (isMap_iff.2 ⟨rfl, h⟩) (.inr ⟨hnone, hroom⟩)
    · rw [dif_neg hroom, isMap_iff]
      simp only [Option.getD_some, Call.meaning, if_true, if_neg hblank, hroom, and_false,
        or_false]
      by_cases hkey : k.length < keySize
      · have hpairs : (c.add (not_le.1 hroom) k v).pairs = c.pairs ++ [(k, cut valueSize v)] :=
          congrArg (fun t => c.pairs ++ [(t, cut valueSize v)]) (cut_of_length_lt hkey)
        rw [hpairs, lookup_append h hslot, hcut]
        exact ⟨fun hv => ⟨hkey, hv.1⟩, fun hv => ⟨hv.2, distinct_append h hslot _⟩⟩
      · refine iff_of_false (fun hmap => ?_) fun hfit => hkey hfit.1
        have hget := congrFun hmap.1 k
        rw [lookup_eq_none_of_le (not_lt.1 hkey), Function.update_self] at hget
        cases hget

end Step

/-- **One call:** a context that is a map stays one exactly if the call fits. -/
theorem isMap_call {s : ThreadContext × (Text → Option Text)} (h : IsMap s) (a : Call) :
    IsMap ((s.1.call a).2, a.meaning (s.1.call a).1 s.2) ↔ Fits s.1 a := by
  obtain ⟨c, m⟩ := s
  obtain ⟨rfl, hdistinct⟩ := isMap_iff.1 h
  cases a with
  | clear => exact iff_of_true (isMap_iff.2 ⟨rfl, List.nodup_nil⟩) trivial
  | set key value =>
    show IsMap ((logSetThreadContext c key value).2, _) ↔ _
    cases key with
    | none => exact iff_of_true (isMap_iff.2 ⟨rfl, hdistinct⟩) (by cases value <;> trivial)
    | some k =>
      by_cases hk : k = []
      · have hset : logSetThreadContext c (some k) value = (false, c) := if_pos hk
        refine iff_of_true ?_ (by cases value <;> [trivial; exact fun h => absurd hk h])
        show IsMap ((logSetThreadContext c (some k) value).2,
          Call.meaning (logSetThreadContext c (some k) value).1 _ _)
        rw [hset]
        exact isMap_iff.2 ⟨rfl, hdistinct⟩
      · by_cases hblank : Blank value
        · have hfits : Fits c (.set (some k) value) := by
            cases value with
            | none => trivial
            | some v => exact fun _ hv => absurd hblank hv
          refine iff_of_true ?_ hfits
          show IsMap ((logSetThreadContext c (some k) value).2,
            Call.meaning (logSetThreadContext c (some k) value).1 _ _)
          cases hslot : slot c.pairs k with
          | some i =>
            rw [logSetThreadContext_of_slot hk hslot, if_pos hblank, isMap_iff]
            simp only [Call.meaning, if_true, if_pos hblank]
            exact ⟨lookup_swapRemove hdistinct hslot, distinct_swapRemove hdistinct hslot⟩
          | none =>
            rw [logSetThreadContext_of_no_slot hk hslot, if_pos hblank, isMap_iff]
            simp only [Call.meaning, if_true, if_pos hblank]
            refine ⟨?_, hdistinct⟩
            rw [← slot_eq_none_iff_lookup.1 hslot, Function.update_eq_self]
        · cases value with
          | none => exact absurd trivial hblank
          | some v =>
            exact (isMap_set hdistinct hk hblank).trans
              ⟨fun hf _ _ => hf, fun hf => hf hk hblank⟩

/-- **A call that fails changes nothing.** -/
theorem call_of_fails {c : ThreadContext} {a : Call} (h : (c.call a).1 = false) :
    (c.call a).2 = c := by
  cases a with
  | clear => cases h
  | set key value =>
    have h : (logSetThreadContext c key value).1 = false := h
    show (logSetThreadContext c key value).2 = c
    cases key with
    | none => rfl
    | some k =>
      by_cases hk : k = []
      · rw [show logSetThreadContext c (some k) value = (false, c) from if_pos hk]
      · cases hslot : slot c.pairs k with
        | some i =>
          rw [logSetThreadContext_of_slot hk hslot] at h
          cases h
        | none =>
          rw [logSetThreadContext_of_no_slot hk hslot] at h ⊢
          split_ifs at h ⊢
          rfl

theorem calls_concat (cs : List Call) (a : Call) :
    calls (cs ++ [a]) = (((calls cs).1.call a).2, a.meaning ((calls cs).1.call a).1 (calls cs).2) :=
  List.foldl_append

/-- **The context of a thread is a map all along a sequence of calls exactly if every call fits the
arrays,** and in every context a call that fails changes nothing. -/
theorem thread_context_map_iff (cs : List Call) :
    ((∀ ds, ds <+: cs → IsMap (calls ds)) ↔
      ∀ ds a, ds ++ [a] <+: cs → Fits (calls ds).1 a) ∧
    ∀ a, ((calls cs).1.call a).1 = false → ((calls cs).1.call a).2 = (calls cs).1 := by
  have hempty : IsMap (calls []) := isMap_iff.2 ⟨rfl, List.nodup_nil⟩
  have hstep (s : ThreadContext × (Text → Option Text)) (a : Call) (h : IsMap s) :
      IsMap ((s.1.call a).2, a.meaning (s.1.call a).1 s.2) ↔ Fits s.1 a := isMap_call h a
  have hall := Machine.forall_prefix_iff calls_concat hempty hstep cs
  exact ⟨hall, fun a => call_of_fails⟩

/-- A key of 32 bytes is stored as its first 31, so that it is not found, and each time it is set it
takes another pair. -/
theorem long_key_not_found :
    let key := List.replicate 32 97
    let set := Call.set (some key) (some (str "v"))
    let s := (calls [set, set]).1
    ((calls []).1.call set).1 = true ∧ ((calls [set]).1.call set).1 = true ∧
      logGetThreadContext s (some key) = none ∧
      s.pairs = [(List.replicate 31 97, str "v"), (List.replicate 31 97, str "v")] := by
  decide +kernel

end Mdc
end Clogx
