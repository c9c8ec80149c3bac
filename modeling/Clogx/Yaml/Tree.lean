/-
# YAML nodes as event streams

What an event-based YAML parser delivers: the events of one document, in the
order of its text.  `Node` is the tree behind them (an alias is a reference to an
anchored node and has no content of its own), and `Node.events` is its
traversal: a stream is well nested when it is the traversal of a tree.
-/

import Mathlib.Tactic

namespace Clogx
namespace Yaml

/-- The events of a stream; a scalar comes with its text. -/
inductive Event
  | streamStart
  | streamEnd
  | documentStart
  | documentEnd
  | ref
  | scalar (v : List UInt8)
  | sequenceStart
  | sequenceEnd
  | mappingStart
  | mappingEnd
deriving DecidableEq

/-- A node of a document. -/
inductive Node
  | ref
  | scalar (v : List UInt8)
  | seq (items : List Node)
  | map (entries : List (Node × Node))

mutual

/-- The events of a node. -/
def Node.events : Node → List Event
  | .ref => [.ref]
  | .scalar v => [.scalar v]
  | .seq items => .sequenceStart :: (itemsEvents items ++ [.sequenceEnd])
  | .map entries => .mappingStart :: (entriesEvents entries ++ [.mappingEnd])
termination_by structural n => n

/-- The events of the items of a sequence. -/
def itemsEvents : List Node → List Event
  | [] => []
  | n :: ns => n.events ++ itemsEvents ns
termination_by structural ns => ns

/-- The events of the entries of a mapping. -/
def entriesEvents : List (Node × Node) → List Event
  | [] => []
  | e :: es => entryEvents e ++ entriesEvents es
termination_by structural es => es

/-- The events of one entry: its key, then its value. -/
def entryEvents : Node × Node → List Event
  | (k, v) => k.events ++ v.events
termination_by structural e => e

end

mutual

/-- A test that holds of a node and of every node in it. -/
def Node.all (p : Node → Bool) : Node → Bool
  | .ref => p .ref
  | .scalar v => p (.scalar v)
  | .seq items => p (.seq items) && itemsAll p items
  | .map entries => p (.map entries) && entriesAll p entries
termination_by structural n => n

/-- The test holds in every item. -/
def itemsAll (p : Node → Bool) : List Node → Bool
  | [] => true
  | n :: ns => n.all p && itemsAll p ns
termination_by structural ns => ns

/-- The test holds in every key and every value. -/
def entriesAll (p : Node → Bool) : List (Node × Node) → Bool
  | [] => true
  | e :: es => entryAll p e && entriesAll p es
termination_by structural es => es

/-- The test holds in the key and in the value. -/
def entryAll (p : Node → Bool) : Node × Node → Bool
  | (k, v) => k.all p && v.all p
termination_by structural e => e

end

theorem entryEvents_eq (e : Node × Node) : entryEvents e = e.1.events ++ e.2.events := by
  rw [entryEvents]

theorem entryAll_iff {p : Node → Bool} {e : Node × Node} :
    entryAll p e = true ↔ e.1.all p = true ∧ e.2.all p = true := by
  rw [entryAll, Bool.and_eq_true_iff]

theorem itemsAll_iff {p : Node → Bool} {ns : List Node} :
    itemsAll p ns = true ↔ ∀ n ∈ ns, n.all p = true := by
  induction ns with
  | nil => simp [itemsAll]
  | cons n ns ih => rw [itemsAll, Bool.and_eq_true_iff, ih, List.forall_mem_cons]

theorem entriesAll_iff {p : Node → Bool} {es : List (Node × Node)} :
    entriesAll p es = true ↔ ∀ e ∈ es, e.1.all p = true ∧ e.2.all p = true := by
  induction es with
  | nil => simp [entriesAll]
  | cons e es ih =>
    rw [entriesAll, Bool.and_eq_true_iff, ih, List.forall_mem_cons, entryAll_iff]

/-- The stream of a single document. -/
def documentEvents (root : Node) : List Event :=
  .streamStart :: .documentStart :: (root.events ++ [.documentEnd, .streamEnd])

theorem entriesEvents_append (es es' : List (Node × Node)) :
    entriesEvents (es ++ es') = entriesEvents es ++ entriesEvents es' := by
  induction es with
  | nil => rfl
  | cons e es ih => rw [List.cons_append, entriesEvents, entriesEvents, ih, List.append_assoc]

/-- **Induction over a node:** a property of every node that is inherited from the items of a
sequence and from the keys and values of a mapping. -/
theorem Node.induct {motive : Node → Prop} (ref : motive .ref)
    (scalar : ∀ v, motive (.scalar v))
    (seq : ∀ items, (∀ n ∈ items, motive n) → motive (.seq items))
    (map : ∀ entries, (∀ e ∈ entries, motive e.1 ∧ motive e.2) → motive (.map entries))
    (n : Node) : motive n := by
  refine @Node.rec motive (fun items => ∀ n ∈ items, motive n)
    (fun entries => ∀ e ∈ entries, motive e.1 ∧ motive e.2) (fun e => motive e.1 ∧ motive e.2)
    ref scalar seq map ?_ ?_ ?_ ?_ ?_ n
  · exact fun _ h => nomatch h
  · rintro n ns hn hns m (_ | ⟨_, hm⟩)
    · exact hn
    · exact hns m hm
  · exact fun _ h => nomatch h
  · rintro e es he hes e' (_ | ⟨_, hm⟩)
    · exact he
    · exact hes e' hm
  · exact fun _ _ hk hv => ⟨hk, hv⟩

theorem all_true (n : Node) : n.all (fun _ => true) = true := by
  induction n using Node.induct with
  | ref => rfl
  | scalar v => rfl
  | seq items ih => simpa [Node.all, itemsAll_iff] using ih
  | map entries ih => simpa [Node.all, entriesAll_iff] using ih

/-- A test that only mappings fail holds throughout a node whose events start no mapping. -/
theorem all_of_mappingStart_notMem {p : Node → Bool} (hp : ∀ n, p n = false → ∃ es, n = .map es)
    (n : Node) : .mappingStart ∉ n.events → n.all p = true := by
  have hok : ∀ n, (∀ es, n ≠ .map es) → p n = true := fun n hn =>
    Bool.of_not_eq_false fun hf => (hp n hf).elim hn
  induction n using Node.induct with
  | ref => exact fun _ => hok _ nofun
  | scalar v => exact fun _ => hok _ nofun
  | map entries => exact fun h => absurd (by simp [Node.events]) h
  | seq items ih =>
    intro h
    have hitems : .mappingStart ∉ itemsEvents items := by
      rw [Node.events] at h
      simp_all
    rw [Node.all, hok (.seq items) nofun, Bool.true_and, itemsAll_iff]
    clear h
    induction items with
    | nil => exact fun n hn => nomatch hn
    | cons n ns ihns =>
      rw [itemsEvents, List.mem_append, not_or] at hitems
      refine List.forall_mem_cons.2 ⟨ih n (by simp) hitems.1, ihns ?_ hitems.2⟩
      exact fun m hm => ih m (List.mem_cons_of_mem _ hm)

end Yaml
end Clogx
