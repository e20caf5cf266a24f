import CacheCoherence.Application.Contents
import CacheCoherence.Foundation.Shadowing
import CacheCoherence.Foundation.TransitionRuns

/-! # The hash table under contention

A denied lock drops the access behind it: `insert` ignores the empty address that `Node::write` hands back, and
`get` takes the 0 of `Node::read` for the value.
-/
namespace CacheCoherence
open Shadowing TransitionRuns

variable {V : Type} [Integral V]

inductive TableAction (V : Type) where
  | call (op : TableOp V) (held : List Request)
  | serve (r : Request)
deriving DecidableEq, Repr

/-- The last insertion of a key: its value, the answer to its EXCLUSIVE, the word that its block was found with. -/
structure Insertion (V : Type) where
  value : V
  granted : Bool
  fresh : UInt64

/-- The keys whose last call was an insertion, since the last `clear`. -/
structure WatchedTable (V : Type) where
  table : HashTable
  inserted : UInt32 → Option (Insertion V)

namespace WatchedTable

def inserts (s : WatchedTable V) : TableOp V → UInt32 → Option (Insertion V)
  | .insert key value block => Function.update s.inserted key
      (block.map fun b => ⟨value, (s.table.node.setLock s.table.node.id .exclusive).1, b.2.data⟩)
  | .erase key => Function.update s.inserted key none
  | .clear => fun _ => none
  | .get _ | .count _ | .size => s.inserted

def step (s : WatchedTable V) : TableAction V → Option (WatchedTable V)
  | .call op held => (s.table.perform op held).map fun p => ⟨p.2, s.inserts op⟩
  | .serve r => (s.table.serveOthers [r] s.table.node).map fun node => { s with table := { s.table with node := node } }

def Right (s : WatchedTable V) : TableAction V → Prop
  | .call (.get key) held => ∀ i ∈ s.inserted key, ∀ p ∈ s.table.get V key held, p.1 = some i.value
  | _ => True

/-- Insertion and lookup have got their locks, or what stands in for the value is the value: the content of the
fresh block after a denied EXCLUSIVE, 0 after a denied SHAREDLOCK. -/
def Granted (s : WatchedTable V) : TableAction V → Prop
  | .call (.get key) _ => ∀ i ∈ s.inserted key,
      if (s.table.node.setLock s.table.node.id .sharedlock).1 then i.granted = true ∨
        Integral.reinterpret i.fresh = i.value
      else Integral.reinterpret 0 = i.value
  | _ => True

instance decidableRight [DecidableEq V] (s : WatchedTable V) : (a : TableAction V) → Decidable (s.Right a)
  | .call (.get key) held =>
    inferInstanceAs (Decidable (∀ i ∈ s.inserted key, ∀ p ∈ s.table.get V key held, p.1 = some i.value))
  | .call (.insert _ _ _) _ | .call (.erase _) _ | .call (.count _) _ | .call .size _ | .call .clear _ | .serve _ =>
    isTrue trivial

def Watches (s : WatchedTable V) (es : List Elem) : Prop :=
  s.table.Holds es ∧ ∀ key, ∀ i ∈ s.inserted key, ∃ e, es.find? (fun e => e.key = key) = some e ∧
    ∃ d, s.table.node.mem e.gaddr.ptr = some d ∧ d.data = if i.granted then Integral.cast i.value else i.fresh

variable {s t : WatchedTable V} {es : List Elem} {a : TableAction V}

theorem Watches.keeps (hs : s.Watches es) {u : HashTable} (hu : u.Holds es)
    (h : HashTable.Keeps s.table.node u.node es) :
    Watches ⟨u, s.inserted⟩ es := by
  refine ⟨hu, fun key i hi => ?_⟩
  obtain ⟨e, he, d, hd, hdata⟩ := hs.2 key i hi
  exact ⟨e, he, d, (h.2 e (List.mem_of_find?_eq_some he)).trans hd, hdata⟩

theorem Watches.insert (hs : s.Watches es) {key : UInt32} {value : V} {block : Option (UInt64 × SaveData UInt64)}
    {held : List Request} {u : HashTable} (h : s.table.insert key value block held = some u) :
    ∃ es', Watches ⟨u, s.inserts (.insert key value block)⟩ es' := by
  obtain ⟨buffer, content, rfl, helements, hkeeps, hmem⟩ := hs.1.insert h
  refine ⟨_, helements, fun k i hi => ?_⟩
  by_cases hk : k = key
  · subst hk
    obtain rfl : (⟨value, (s.table.node.setLock s.table.node.id .exclusive).1, content.data⟩ : Insertion V) = i := by
      simpa [inserts] using hi
    refine ⟨_, by simp; rfl, _, hmem, ?_⟩
    split <;> rfl
  · have hne : key ≠ k := fun heq => hk heq.symm
    obtain ⟨e, he, d, hd, hdata⟩ := hs.2 k i (by simpa [inserts, hk] using hi)
    exact ⟨e, by simpa [hne] using he, d, (hkeeps.2 e (List.mem_of_find?_eq_some he)).trans hd, hdata⟩

theorem Watches.erase (hs : s.Watches es) {key : UInt32} {u : HashTable} (h : s.table.erase key = some u) :
    ∃ es', Watches ⟨u, s.inserts (.erase key)⟩ es' := by
  obtain ⟨helements, hkeeps⟩ := hs.1.erase h
  refine ⟨_, helements, fun k i hi => ?_⟩
  by_cases hk : k = key
  · simp [inserts, hk] at hi
  · obtain ⟨e, he, d, hd, hdata⟩ := hs.2 k i (by simpa [inserts, hk] using hi)
    have he' : (es.eraseP fun e => e.key = key).find? (fun e => e.key = k) = some e :=
      (find?_eraseP_of_ne Elem.key es hk).trans he
    exact ⟨e, he', d, (hkeeps.2 e (List.mem_of_find?_eq_some he')).trans hd, hdata⟩

theorem Watches.step (hs : s.Watches es) (h : s.step a = some t) : ∃ es', t.Watches es' := by
  cases a with
  | serve r =>
    obtain ⟨node, hnode, rfl⟩ := Option.map_eq_some_iff.mp h
    have hkeeps := hs.1.serveOthers hnode
    exact ⟨es, hs.keeps (hs.1.keeps hkeeps) hkeeps⟩
  | call op held =>
    obtain ⟨⟨r, u⟩, hperform, rfl⟩ := Option.map_eq_some_iff.mp h
    cases HashTable.performed_of_perform hperform with
    | insert hinsert => exact hs.insert hinsert
    | erase herase => exact hs.erase herase
    | get hget | count hget =>
      obtain ⟨helements, hkeeps, -⟩ := hs.1.get hget
      exact ⟨es, hs.keeps helements hkeeps⟩
    | size => exact ⟨es, hs⟩
    | clear hclear => exact ⟨[], (HashTable.clear_holds hclear).1, fun key i hi => by cases hi⟩

theorem Watches.get (hs : s.Watches es) {key : UInt32} {i : Insertion V} (hi : s.inserted key = some i)
    {held : List Request}
    {r : Option V} {u : HashTable} (h : s.table.get V key held = some (r, u)) :
    r = some (Integral.reinterpret (if (s.table.node.setLock s.table.node.id .sharedlock).1 then
      if i.granted then Integral.cast i.value else i.fresh else 0)) := by
  obtain ⟨e, he, d, hd, hdata⟩ := hs.2 key i hi
  obtain ⟨-, -, rfl⟩ := hs.1.get h
  have hid := (hs.1.block e (List.mem_of_find?_eq_some he)).1
  rw [he, Option.map_some, HashTable.shows, hid, hd, ← hdata]
  rfl

/-- A lookup is right exactly when it and the insertion before it have got their locks, or the word that it
yields instead reads as the value. -/
theorem Watches.answers (hs : s.Watches es) (h : s.step a = some t) : s.Right a ↔ s.Granted a := by
  cases a with
  | serve r => exact Iff.rfl
  | call op held =>
    cases op with
    | get key =>
      obtain ⟨p, hperform, -⟩ := Option.map_eq_some_iff.mp h
      obtain ⟨⟨r, u⟩, hget, -⟩ := Option.map_eq_some_iff.mp hperform
      refine forall_congr' fun i => forall_congr' fun hi => ?_
      have hr := hs.get hi hget
      simp only [hget, Option.mem_def, Option.some.injEq, forall_eq', hr]
      split
      · cases hgranted : i.granted <;> simp
      · rfl
    | insert | erase | count | size | clear => exact Iff.rfl

/-- Every lookup of an inserted key that returns yields the inserted value, if and only if each of them and the
insertion before it got their locks, or read the value in place of it. -/
theorem lookups_right_iff {node : Host} {as : List (TableAction V)} :
    Meets step Right (⟨.new node, fun _ => none⟩ : WatchedTable V) as ↔
      Meets step Granted ⟨.new node, fun _ => none⟩ as := by
  refine meets_congr (I := fun s => ∃ es, s.Watches es) ?_ ?_ ⟨[], HashTable.holds_new node,
    fun key i hi => by cases hi⟩
  · rintro s a t ⟨es, hs⟩ h
    exact hs.step h
  · rintro s a t ⟨es, hs⟩ h
    exact hs.answers h

/-- Another client holds SHARED while 7 is inserted. The lookup that follows gets its own lock, and yields what the
fresh block was found with. -/
theorem insertion_dropped :
    ¬ Meets step Right (⟨.new ⟨locknode, LockTable.empty, fun _ => none⟩, fun _ => none⟩ : WatchedTable UInt64)
    [.serve (.lock ⟨locknode, .sharedlock⟩), .call (.insert 5 7 (some (64, ⟨0, .unshared, 0, []⟩))) [],
      .serve (.lock ⟨locknode, .unlocked⟩), .call (.get 5) []] := by
  decide +kernel

end WatchedTable
end CacheCoherence
