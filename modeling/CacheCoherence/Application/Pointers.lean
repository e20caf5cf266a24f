import CacheCoherence.Application.Conservation
import CacheCoherence.Foundation.Coupling
import CacheCoherence.Foundation.LinkedLists

/-! # The pointers of a hash table

`app/HashTable.h` with its chains as they are in memory: `Elem` objects that `new` puts somewhere and `delete` takes
away, and loops that follow `next`. A table behaves as one whose chains are lists, whatever its node does; the loops
end, and no pointer that is followed is null or dangling.
-/
namespace CacheCoherence.Pointers
open Exits LinkedLists
open Chains (NodeCalls Op)
open HashTable (hashBucket)

structure Table (σ : Type) where
  node : σ
  amountElements : ℕ
  storage : Fin 64 → Ptr
  heap : Heap Elem

variable {ε σ W α : Type}

def new (node : σ) : Table σ := ⟨node, 0, fun _ => none, ∅⟩

def onNode (m : Prog ε σ α) : Prog ε (Table σ) α := zoom Table.node (fun n t => { t with node := n }) id m

def head (b : Fin 64) : Prog ε (Table σ) Ptr := act fun t => some (.ok (t.storage b), t)

def setHead (b : Fin 64) (p : Ptr) : Prog ε (Table σ) Unit :=
  act fun t => some (.ok (), { t with storage := Function.update t.storage b p })

def setAmount (f : ℕ → ℕ) : Prog ε (Table σ) Unit :=
  act fun t => some (.ok (), { t with amountElements := f t.amountElements })

def deref (a : ℕ) : Prog ε (Table σ) (Node Elem) := act fun t => (t.heap.lookup a).map fun n => (.ok n, t)

def setNext (a : ℕ) (p : Ptr) : Prog ε (Table σ) Unit := act fun t =>
  (t.heap.lookup a).map fun n => (.ok (), { t with heap := t.heap.insert a ⟨n.elem, p⟩ })

def newElem (pick : Allocator) (n : Node Elem) : Prog ε (Table σ) ℕ := act fun t =>
  some (.ok (pick.1 t.heap.keys), { t with heap := t.heap.insert (pick.1 t.heap.keys) n })

def delete (a : ℕ) : Prog ε (Table σ) Unit := act fun t =>
  (t.heap.lookup a).map fun _ => (.ok (), { t with heap := t.heap.erase a })

def objects : Prog ε (Table σ) ℕ := act fun t => some (.ok t.heap.keys.card, t)

/-- A walk that meets more objects than there are goes in circles and does not end. -/
def circles : Prog ε (Table σ) α := act fun _ => none

variable (calls : NodeCalls ε σ W) (pick : Allocator) (size : UInt64)

def link (key : UInt32) (gadd : GlobalAddress) : Prog ε (Table σ) Unit := do
  let b := hashBucket key
  setHead b (some (← newElem pick ⟨⟨key, gadd⟩, ← head b⟩))
  setAmount (· + 1)

def insert (key : UInt32) (value : W) : Prog ε (Table σ) Unit := do
  let gadd ← onNode (calls.malloc size)
  link pick key gadd
  let _ ← onNode (calls.write ⟨size, value, gadd⟩)

def eraseFrom (b : Fin 64) (key : UInt32) (left : ℕ) (oldBucket bucket : Ptr) : Prog ε (Table σ) Unit :=
  match bucket, left with
  | none, _ => pure ()
  | some _, 0 => circles
  | some a, left + 1 => do
    let n ← deref a
    if n.elem.key = key then do
      match oldBucket with
      | some old => setNext old n.next
      | none => setHead b n.next
      let _ ← onNode (calls.free n.elem.gaddr)
      delete a
      setAmount (· - 1)
    else eraseFrom b key left (some a) n.next

def erase (key : UInt32) : Prog ε (Table σ) Unit := do
  eraseFrom calls (hashBucket key) key (← objects) none (← head (hashBucket key))

def find (key : UInt32) (left : ℕ) (bucket : Ptr) : Prog ε (Table σ) (Option (Node Elem)) :=
  match bucket, left with
  | none, _ => pure none
  | some _, 0 => circles
  | some a, left + 1 => do
    let n ← deref a
    if n.elem.key = key then pure (some n) else find key left n.next

def get (key : UInt32) : Prog ε (Table σ) (Option W) := do
  match ← find key (← objects) (← head (hashBucket key)) with
  | some bucket => do pure (some (← onNode (calls.read bucket.elem.gaddr)))
  | none => pure none

def count (key : UInt32) : Prog ε (Table σ) UInt64 := do pure (← get calls key).isSome.toUInt64

def index (key : UInt32) : Prog ε (Table σ) W := do
  match ← find key (← objects) (← head (hashBucket key)) with
  | some bucket => onNode (calls.read bucket.elem.gaddr)
  | none =>
    let gadd ← onNode (calls.malloc size)
    link pick key gadd
    onNode (calls.read gadd)

/-- The inner loop of `clear`; `b` is a reference to the head of the bucket. Nothing is deleted. -/
def drain (b : Fin 64) : ℕ → Prog ε (Table σ) Unit
  | 0 => do
    match ← head b with
    | none => pure ()
    | some _ => circles
  | left + 1 => do
    match ← head b with
    | none => pure ()
    | some oldBucket =>
      let n ← deref oldBucket
      setHead b n.next
      let _ ← onNode (calls.free n.elem.gaddr)
      drain b left

def clear : Prog ε (Table σ) Unit := do
  (List.finRange 64).forM fun b => do drain calls b (← objects)
  setAmount fun _ => 0

structure Action (ε σ W : Type) where
  calls : NodeCalls ε σ W
  pick : Allocator
  op : Op W

def Action.call (size : UInt64) (a : Action ε σ W) : Prog ε (Table σ) (Answer W) :=
  match a.op with
  | .insert key value => do
    insert a.calls a.pick size key value
    pure .done
  | .index key => do pure (.value (some (← index a.calls a.pick size key)))
  | .erase key => do
    erase a.calls key
    pure .done
  | .get key => do pure (.value (← get a.calls key))
  | .count key => do pure (.number (← count a.calls key))
  | .clear => do
    clear a.calls
    pure .done

/-- The elements that a call takes out of the account without deleting them. -/
def Action.resets (a : Action ε σ W) (t : Table σ) : ℕ :=
  match a.op with
  | .clear => t.amountElements
  | _ => 0

def Action.lists (a : Action ε σ W) : Chains.Action ε σ W := ⟨a.calls, a.op⟩

end CacheCoherence.Pointers

namespace CacheCoherence.Chains
variable {ε σ W : Type}

def Action.call (size : UInt64) (a : Action ε σ W) : Exits.Prog ε (Table σ) (Answer W) :=
  match a.op with
  | .insert key value => do
    insert a.calls size key value
    pure .done
  | .index key => do pure (.value (some (← index a.calls size key)))
  | .erase key => do
    erase a.calls key
    pure .done
  | .get key => do pure (.value (← get a.calls key))
  | .count key => do pure (.number (← count a.calls key))
  | .clear => do
    clear a.calls
    pure .done

end CacheCoherence.Chains

namespace CacheCoherence.Pointers
open Exits LinkedLists
open Chains (NodeCalls Op)
open HashTable (hashBucket)

variable {ε σ W α : Type}

/-- The lists of the one table are the chains of the other, in these objects. There are as many objects in memory as
elements are counted, and `k` more that nothing leads to. -/
structure Holds (cells : Fin 64 → List (ℕ × Elem)) (k : ℕ) (p : Table σ) (t : Chains.Table σ) : Prop where
  node : p.node = t.node
  amount : p.amountElements = t.amountElements
  family : Family p.heap p.storage cells
  elems : ∀ b, (cells b).map Prod.snd = t.storage b
  counted : t.elements.length ≤ t.amountElements
  live : p.heap.keys.card = t.amountElements + k

def Represents (k : ℕ) (p : Table σ) (t : Chains.Table σ) : Prop := ∃ cells, Holds cells k p t

variable {calls : NodeCalls ε σ W} {pick : Allocator} {size : UInt64} {cells : Fin 64 → List (ℕ × Elem)} {k : ℕ}
  {p p' : Table σ} {t t' : Chains.Table σ} {b : Fin 64} {key : UInt32} {g : GlobalAddress} {bucket oldBucket : Ptr}
  {c : ℕ × Elem} {cs xs : List (ℕ × Elem)} {left : ℕ}

theorem represents_new (node : σ) : Represents 0 (new node) (Chains.new node) :=
  ⟨fun _ => [], rfl, rfl, family_empty, fun _ => rfl, by simp [Chains.new, Chains.Table.elements], rfl⟩

theorem Holds.setNode (h : Holds cells k p t) (n : σ) (asked : List (Ownership.Event GlobalAddress)) :
    Holds cells k { p with node := n } { t with node := n, asked := asked } :=
  ⟨rfl, h.amount, h.family, h.elems, h.counted, h.live⟩

theorem coupled_malloc (h : Holds cells k p t) : Coupled (onNode (calls.malloc size)) (Chains.malloc calls size) p t
    (fun a b p' t' => a = b ∧ Holds cells k p' t') (Holds cells k) := by
  have hnode : Coupled (onNode (calls.malloc size)) (Chains.onNode (calls.malloc size)) p t
      (fun a b p' t' => a = b ∧ Holds cells k p' t') (Holds cells k) :=
    coupled_zoom h.node (fun _ n => ⟨rfl, h.setNode n t.asked⟩) fun n => h.setNode n t.asked
  rw [← bind_pure (onNode (calls.malloc size))]
  refine hnode.bind ?_
  rintro g _ p' t' ⟨rfl, h'⟩
  exact coupled_right rfl (coupled_pure ⟨rfl, h'.node, h'.amount, h'.family, h'.elems, h'.counted, h'.live⟩)

theorem coupled_read (h : Holds cells k p t) : Coupled (onNode (calls.read g)) (Chains.read calls g) p t
    (fun a b p' t' => a = b ∧ Holds cells k p' t') (Holds cells k) :=
  coupled_right rfl (coupled_zoom h.node (fun _ n => ⟨rfl, h.setNode n _⟩) fun n => h.setNode n _)

theorem coupled_write {data : Data W} (h : Holds cells k p t) :
    Coupled (onNode (calls.write data)) (Chains.write calls data) p t
      (fun _ _ => Holds cells k) (Holds cells k) :=
  coupled_right rfl (coupled_zoom h.node (fun _ n => h.setNode n _) fun n => h.setNode n _)

/-- `Free` leaves the chains as they are, so what has been unlinked stays unlinked. -/
theorem coupled_free (h : Holds cells k p t) : Coupled (onNode (calls.free g)) (Chains.free calls g) p t
    (fun _ _ p' t' => Holds cells k p' t' ∧ p'.heap = p.heap ∧ t'.storage = t.storage ∧
      t'.amountElements = t.amountElements) (Holds cells k) :=
  coupled_right rfl (coupled_zoom h.node (fun _ n => ⟨h.setNode n _, rfl, rfl, rfl⟩) fun n => h.setNode n _)

theorem map_update {storage : Fin 64 → List Elem} {es : List Elem} (helems : ∀ b, (cells b).map Prod.snd = storage b)
    (hcs : cs.map Prod.snd = es) (b' : Fin 64) :
    (Function.update cells b cs b').map Prod.snd = Function.update storage b es b' := by
  by_cases hb : b' = b
  · subst hb
    rw [Function.update_self, Function.update_self, hcs]
  · rw [Function.update_of_ne hb, Function.update_of_ne hb, helems]

theorem exec_find (ε : Type) (key : UInt32) {p : Table σ} {bucket : Ptr} (hs : Segment p.heap bucket cs none)
    (hleft : cs.length ≤ left) : ∃ r, (find key left bucket : Prog ε (Table σ) _).exec p = some (.ok r, p) ∧
      r.map Node.elem = (cs.map Prod.snd).find? fun e => e.key = key := by
  induction cs generalizing left bucket with
  | nil =>
    have hnull : bucket = none := hs
    subst hnull
    exact ⟨none, by rw [find]; rfl, rfl⟩
  | cons c cs ih =>
    obtain ⟨rfl, next, hnext, hrest⟩ := hs
    obtain ⟨left, rfl⟩ := Nat.exists_eq_add_of_le' (Nat.one_le_of_lt hleft)
    have hleft : cs.length ≤ left := Nat.le_of_succ_le_succ hleft
    have hderef : (deref c.1 : Prog ε (Table σ) _).exec p = some (.ok ⟨c.2, next⟩, p) := by
      rw [deref, exec_act, hnext, Option.map_some]
    by_cases hkey : c.2.key = key
    · refine ⟨some ⟨c.2, next⟩, ?_, by simp [hkey]⟩
      rw [find, exec_bind_ok hderef, if_pos hkey, exec_pure]
    · obtain ⟨r, hr, hfind⟩ := ih hrest hleft
      refine ⟨r, ?_, by simpa [hkey] using hfind⟩
      rw [find, exec_bind_ok hderef, if_neg hkey, hr]

theorem coupled_delete (h : Holds cells k p t) (hout : Outside cells c.1) (hc : c.1 ∈ p.heap)
    (hless : t.elements.length < t.amountElements) :
    Coupled
      (do
        let _ ← onNode (calls.free g)
        delete c.1
        setAmount (· - 1))
      (do
        let _ ← Chains.free calls g
        Chains.setAmount (· - 1)) p t (fun _ _ => Represents k) (Represents k) := by
  refine ((coupled_free h).mono (fun _ _ _ _ hQ => hQ) fun _ _ h' => ⟨cells, h'⟩).bind ?_
  rintro - - p' t' ⟨h', hheap, hstorage, hamount⟩
  obtain ⟨n, hn⟩ := Option.isSome_iff_exists.mp (Finmap.lookup_isSome.mpr (hheap ▸ hc))
  have hdelete : (delete c.1 : Prog ε (Table σ) _).exec p' = some (.ok (), { p' with heap := p'.heap.erase c.1 }) := by
    rw [delete, exec_act, hn, Option.map_some]
  refine coupled_left hdelete ⟨cells, h'.node, ?_, h'.family.delete hout, h'.elems, ?_, ?_⟩
  · exact congrArg (· - 1) h'.amount
  · have helements : t'.elements = t.elements := by rw [Chains.Table.elements, hstorage, Chains.Table.elements]
    change t'.elements.length ≤ t'.amountElements - 1
    rw [helements]
    omega
  · change (p'.heap.erase c.1).keys.card = t'.amountElements - 1 + k
    have hlive := h'.live
    rw [Finmap.keys_erase, Finset.card_erase_of_mem (hheap ▸ hc)]
    omega

theorem coupled_eraseFrom (calls : NodeCalls ε σ W) (key : UInt32) (h : Holds cells k p t) (hcells : cells b = xs ++ cs)
    (hs : Segment p.heap bucket cs none) (hleft : cs.length ≤ left) (hold : oldBucket = xs.getLast?.map Prod.fst) :
    Coupled (eraseFrom calls b key left oldBucket bucket)
      (match (Chains.unlink key (cs.map Prod.snd)).map fun r => (r.1, xs.map Prod.snd ++ r.2) with
      | some (bucket, es) => do
        Chains.setChain b es
        let _ ← Chains.free calls bucket.gaddr
        Chains.setAmount (· - 1)
      | none => pure ()) p t (fun _ _ => Represents k) (Represents k) := by
  induction cs generalizing left xs bucket oldBucket with
  | nil =>
    have hnull : bucket = none := hs
    subst hnull
    rw [eraseFrom]
    exact coupled_pure ⟨cells, h⟩
  | cons c cs ih =>
    obtain ⟨rfl, next, hnext, hrest⟩ := hs
    obtain ⟨left, rfl⟩ := Nat.exists_eq_add_of_le' (Nat.one_le_of_lt hleft)
    have hleft : cs.length ≤ left := Nat.le_of_succ_le_succ hleft
    have hderef : (deref c.1 : Prog ε (Table σ) _).exec p = some (.ok ⟨c.2, next⟩, p) := by
      rw [deref, exec_act, hnext, Option.map_some]
    rw [eraseFrom]
    refine coupled_left hderef ?_
    by_cases hkey : c.2.key = key
    · rw [if_pos hkey, List.map_cons, Chains.unlink, if_pos hkey, Option.map_some]
      have hperm : (t.storage b).Perm (c.2 :: (xs.map Prod.snd ++ cs.map Prod.snd)) := by
        rw [← h.elems b, hcells, List.map_append, List.map_cons]
        exact List.perm_middle
      have hless : ({ t with storage := Function.update t.storage b (xs.map Prod.snd ++ cs.map Prod.snd) } :
          Chains.Table σ).elements.length < t.amountElements := by
        have hlength := (Chains.elements_unlink hperm).length_eq
        rw [List.length_cons] at hlength
        exact hlength.symm.trans_le h.counted
      have helems : ∀ b', (Function.update cells b (xs ++ cs) b').map Prod.snd =
          Function.update t.storage b (xs.map Prod.snd ++ cs.map Prod.snd) b' :=
        map_update h.elems (List.map_append ..)
      have hc : c.1 ∈ p.heap := Finmap.mem_of_lookup_eq_some hnext
      rcases List.eq_nil_or_concat' xs with rfl | ⟨ys, old, rfl⟩
      · -- the head of the bucket moves on
        obtain ⟨hfamily, hout⟩ := h.family.pop (by simpa using hcells) hnext
        subst hold
        exact coupled_left rfl (coupled_right rfl (coupled_delete
          ⟨h.node, h.amount, hfamily, helems, hless.le, h.live⟩ hout hc hless))
      · -- the element before it is linked to the one after it
        obtain ⟨next₀, hnext₀⟩ := (h.family.linked b).lookup (c := old) (by rw [hcells]; simp)
        obtain ⟨hfamily, hout⟩ := h.family.splice (b := b) (by simpa using hcells) hnext
        rw [← List.singleton_append, ← List.append_assoc] at hfamily hout
        rw [List.getLast?_concat, Option.map_some] at hold
        subst hold
        have hset : (setNext old.1 next : Prog ε (Table σ) _).exec p =
            some (.ok (), { p with heap := p.heap.insert old.1 ⟨old.2, next⟩ }) := by
          rw [setNext, exec_act, hnext₀, Option.map_some]
        have hkeys : (p.heap.insert old.1 ⟨old.2, next⟩).keys = p.heap.keys := by
          ext a
          rw [Finmap.mem_keys, Finmap.mem_insert, Finmap.mem_keys, or_iff_right_iff_imp]
          rintro rfl
          exact Finmap.mem_of_lookup_eq_some hnext₀
        refine coupled_left hset (coupled_right rfl (coupled_delete
          ⟨h.node, h.amount, hfamily, helems, hless.le, hkeys ▸ h.live⟩ hout ?_ hless))
        exact Finmap.mem_insert.mpr (Or.inr hc)
    · rw [if_neg hkey, List.map_cons, Chains.unlink, if_neg hkey, Option.map_map]
      have hcells' : cells b = xs ++ [c] ++ cs := by rw [hcells, List.append_assoc, List.singleton_append]
      have hold' : some c.1 = (xs ++ [c]).getLast?.map Prod.fst := by rw [List.getLast?_concat, Option.map_some]
      have hstep := ih hcells' hrest hleft hold'
      simpa [Function.comp_def] using hstep

theorem coupled_erase (h : Represents k p t) :
    Coupled (erase calls key) (Chains.erase calls key) p t (fun _ _ => Represents k) (Represents k) := by
  obtain ⟨cells, h⟩ := h
  refine coupled_left rfl (coupled_left rfl (coupled_right (Chains.exec_chain (hashBucket key) t) ?_))
  have hcells : cells (hashBucket key) = [] ++ cells (hashBucket key) := (List.nil_append _).symm
  have hlinked := h.family.linked (hashBucket key)
  have hwalk := coupled_eraseFrom calls key h hcells hlinked hlinked.length_le rfl
  rw [h.elems] at hwalk
  generalize Chains.unlink key (t.storage (hashBucket key)) = r at hwalk ⊢
  cases r <;> exact hwalk

theorem coupled_link {gadd : GlobalAddress} (h : Holds cells k p t) :
    Coupled (link pick key gadd : Prog ε (Table σ) Unit) (Chains.link key gadd) p t (fun _ _ => Represents k)
      (Represents k) := by
  have hfree : pick.1 p.heap.keys ∉ p.heap := fun hmem => pick.2 _ (Finmap.mem_keys.mpr hmem)
  have hexec : (link pick key gadd : Prog ε (Table σ) Unit).exec p = some (.ok (), { p with
      amountElements := p.amountElements + 1
      storage := Function.update p.storage (hashBucket key) (some (pick.1 p.heap.keys))
      heap := p.heap.insert (pick.1 p.heap.keys) ⟨⟨key, gadd⟩, p.storage (hashBucket key)⟩ }) := rfl
  unfold Coupled
  rw [hexec, Chains.exec_link]
  refine ⟨_, h.node, congrArg (· + 1) h.amount, h.family.push hfree (hashBucket key) ⟨key, gadd⟩,
    map_update h.elems (by rw [List.map_cons, h.elems]), ?_, ?_⟩
  · have hlength := (Chains.elements_link t (hashBucket key) ⟨key, gadd⟩).length_eq
    rw [List.length_cons] at hlength
    exact hlength.trans_le (Nat.add_le_add_right h.counted 1)
  · have hkeys : (p.heap.insert (pick.1 p.heap.keys) ⟨⟨key, gadd⟩, p.storage (hashBucket key)⟩).keys =
        p.heap.keys.cons (pick.1 p.heap.keys) (pick.2 _) := by
      ext a
      rw [Finmap.mem_keys, Finmap.mem_insert, Finset.mem_cons, Finmap.mem_keys]
    change (p.heap.insert _ _).keys.card = t.amountElements + 1 + k
    rw [hkeys, Finset.card_cons, h.live]
    omega

theorem coupled_insert {value : W} (h : Represents k p t) :
    Coupled (insert calls pick size key value) (Chains.insert calls size key value) p t (fun _ _ => Represents k)
      (Represents k) := by
  obtain ⟨cells, h⟩ := h
  refine ((coupled_malloc h).mono (fun _ _ _ _ hQ => hQ) fun _ _ h' => ⟨cells, h'⟩).bind ?_
  rintro g _ p' t' ⟨rfl, h'⟩
  refine (coupled_link h').bind ?_
  rintro - - p'' t'' ⟨cells'', h''⟩
  refine ((coupled_write h'').mono (fun _ _ _ _ hQ => hQ) fun _ _ hE => ⟨cells'', hE⟩).bind fun _ _ _ _ hQ => ?_
  exact coupled_pure ⟨cells'', hQ⟩

theorem coupled_get (h : Represents k p t) :
    Coupled (get calls key) (Chains.get calls key) p t (fun a b p' t' => a = b ∧ Represents k p' t')
      (Represents k) := by
  obtain ⟨cells, h⟩ := h
  have hlinked := h.family.linked (hashBucket key)
  obtain ⟨r, hr, hfind⟩ := exec_find ε key hlinked hlinked.length_le
  rw [h.elems] at hfind
  refine coupled_left rfl (coupled_left rfl (coupled_left hr (coupled_right
    (Chains.exec_chain (hashBucket key) t) ?_)))
  rw [← hfind]
  cases r with
  | none => exact coupled_pure ⟨rfl, cells, h⟩
  | some bucket =>
    refine ((coupled_read h).mono (fun _ _ _ _ hQ => hQ) fun _ _ h' => ⟨cells, h'⟩).bind ?_
    rintro w _ p' t' ⟨rfl, h'⟩
    exact coupled_pure ⟨rfl, cells, h'⟩

theorem coupled_index (h : Represents k p t) :
    Coupled (index calls pick size key) (Chains.index calls size key) p t (fun a b p' t' => a = b ∧ Represents k p' t')
      (Represents k) := by
  obtain ⟨cells, h⟩ := h
  have hlinked := h.family.linked (hashBucket key)
  obtain ⟨r, hr, hfind⟩ := exec_find ε key hlinked hlinked.length_le
  rw [h.elems] at hfind
  refine coupled_left rfl (coupled_left rfl (coupled_left hr (coupled_right
    (Chains.exec_chain (hashBucket key) t) ?_)))
  rw [← hfind]
  cases r with
  | none =>
    refine ((coupled_malloc h).mono (fun _ _ _ _ hQ => hQ) fun _ _ h' => ⟨cells, h'⟩).bind ?_
    rintro g _ p' t' ⟨rfl, h'⟩
    refine (coupled_link h').bind ?_
    rintro - - p'' t'' ⟨cells'', h''⟩
    exact (coupled_read h'').mono (fun _ _ _ _ hQ => ⟨hQ.1, cells'', hQ.2⟩) fun _ _ hE => ⟨cells'', hE⟩
  | some bucket => exact (coupled_read h).mono (fun _ _ _ _ hQ => ⟨hQ.1, cells, hQ.2⟩) fun _ _ h' => ⟨cells, h'⟩

theorem coupled_drain (h : Holds cells k p t) (hcells : cells b = cs) (hleft : cs.length ≤ left) :
    Coupled (drain calls b left) (Chains.drain calls b (cs.map Prod.snd)) p t
      (fun _ _ p' t' => Holds (Function.update cells b []) k p' t' ∧ t'.amountElements = t.amountElements)
      (Represents k) := by
  induction cs generalizing left cells p t with
  | nil =>
    have hnull : p.storage b = none := by simpa [hcells, Segment] using h.family.linked b
    have hhead : (head b : Prog ε (Table σ) Ptr).exec p = some (.ok none, p) := by rw [head, exec_act, hnull]
    have hdone : Coupled (drain calls b left) (pure ()) p t (fun _ _ p' t' => Holds cells k p' t' ∧
        t'.amountElements = t.amountElements) (Represents k) := by
      cases left with
      | zero => exact coupled_left hhead (coupled_pure ⟨h, rfl⟩)
      | succ left => exact coupled_left hhead (coupled_pure ⟨h, rfl⟩)
    rw [← hcells, Function.update_eq_self, hcells]
    exact hdone
  | cons c cs ih =>
    obtain ⟨hhead, next, hnext, -⟩ : Segment p.heap (p.storage b) (c :: cs) none := hcells ▸ h.family.linked b
    have hhead : (head b : Prog ε (Table σ) Ptr).exec p = some (.ok (some c.1), p) := by rw [head, exec_act, hhead]
    have hderef : (deref c.1 : Prog ε (Table σ) _).exec p = some (.ok ⟨c.2, next⟩, p) := by
      rw [deref, exec_act, hnext, Option.map_some]
    obtain ⟨left, rfl⟩ := Nat.exists_eq_add_of_le' (Nat.one_le_of_lt hleft)
    have hleft : cs.length ≤ left := Nat.le_of_succ_le_succ hleft
    rw [drain, List.map_cons, Chains.drain]
    refine coupled_left hhead (coupled_left hderef (coupled_left rfl (coupled_right rfl ?_)))
    have hpop : Holds (Function.update cells b cs) k { p with storage := Function.update p.storage b next }
        { t with storage := Function.update t.storage b (cs.map Prod.snd) } := by
      have hperm : (t.storage b).Perm (c.2 :: cs.map Prod.snd) := by rw [← h.elems b, hcells, List.map_cons]
      have hlength := (Chains.elements_unlink hperm).length_eq
      rw [List.length_cons] at hlength
      exact ⟨h.node, h.amount, (h.family.pop hcells hnext).1, map_update h.elems rfl,
        (Nat.le_succ _).trans (hlength.symm.trans_le h.counted), h.live⟩
    refine ((coupled_free hpop).mono (fun _ _ _ _ hQ => hQ) fun _ _ hE => ⟨_, hE⟩).bind ?_
    rintro - - p' t' ⟨h', -, -, hamount⟩
    refine (ih h' (Function.update_self _ _ _) hleft).mono ?_ fun _ _ hE => hE
    rintro - - p'' t'' ⟨h'', hamount''⟩
    rw [Function.update_idem] at h''
    exact ⟨h'', hamount''.trans hamount⟩

theorem coupled_clear (h : Represents k p t) :
    Coupled (clear calls) (Chains.clear calls) p t (fun _ _ => Represents (k + p.amountElements)) (Represents k) := by
  obtain ⟨cells, h⟩ := h
  have hloop : Coupled ((List.finRange 64).forM fun b => do drain calls b (← objects))
      ((List.finRange 64).forM fun b => do Chains.drain calls b (← Chains.chain b)) p t
      (fun _ _ p' t' => ∃ cells', Holds cells' k p' t' ∧ t'.amountElements = t.amountElements ∧ ∀ b ∉ [], cells' b = [])
      (Represents k) := by
    refine coupled_forM (R := fun l p' t' => ∃ cells', Holds cells' k p' t' ∧ t'.amountElements = t.amountElements ∧
      ∀ b ∉ l, cells' b = []) ?_ ⟨cells, h, rfl, fun b hb => absurd (List.mem_finRange b) hb⟩
    rintro b l p' t' ⟨cells', h', hamount, hempty⟩
    refine coupled_left rfl (coupled_right (Chains.exec_chain b t') ?_)
    rw [← h'.elems b]
    refine (coupled_drain h' rfl (h'.family.linked b).length_le).mono ?_ fun _ _ hE => hE
    rintro - - p'' t'' ⟨h'', hamount''⟩
    refine ⟨_, h'', hamount''.trans hamount, fun b' hb' => ?_⟩
    by_cases hb : b' = b
    · rw [hb, Function.update_self]
    · rw [Function.update_of_ne hb, hempty b' (by simp [hb, hb'])]
  refine hloop.bind ?_
  rintro - - p' t' ⟨cells', h', hamount, hempty⟩
  have hstorage : ∀ b, t'.storage b = [] := fun b => by rw [← h'.elems b, hempty b List.not_mem_nil, List.map_nil]
  refine ⟨cells', h'.node, rfl, h'.family, h'.elems, ?_, ?_⟩
  · simp [Chains.Table.elements, hstorage]
  · change p'.heap.keys.card = 0 + (k + p.amountElements)
    rw [h'.live, hamount, h.amount, Nat.zero_add, Nat.add_comm]

theorem coupled_call (size : UInt64) (a : Action ε σ W) (h : Represents k p t) :
    Coupled (a.call size) (a.lists.call size) p t (fun x y p' t' => x = y ∧ Represents (k + a.resets p) p' t')
      (Represents k) := by
  obtain ⟨calls, pick, op⟩ := a
  cases op with
  | insert key value => exact (coupled_insert h).bind fun _ _ _ _ h' => coupled_pure ⟨rfl, h'⟩
  | index key =>
    refine (coupled_index h).bind ?_
    rintro w _ p' t' ⟨rfl, h'⟩
    exact coupled_pure ⟨rfl, h'⟩
  | erase key => exact (coupled_erase h).bind fun _ _ _ _ h' => coupled_pure ⟨rfl, h'⟩
  | get key =>
    refine (coupled_get h).bind ?_
    rintro v _ p' t' ⟨rfl, h'⟩
    exact coupled_pure ⟨rfl, h'⟩
  | count key =>
    have hcount : Coupled (count calls key) (Chains.count calls key) p t (fun a b p' t' => a = b ∧ Represents k p' t')
        (Represents k) := by
      refine (coupled_get h).bind ?_
      rintro v _ p' t' ⟨rfl, h'⟩
      exact coupled_pure ⟨rfl, h'⟩
    refine hcount.bind ?_
    rintro n _ p' t' ⟨rfl, h'⟩
    exact coupled_pure ⟨rfl, h'⟩
  | clear => exact (coupled_clear h).bind fun _ _ _ _ h' => coupled_pure ⟨rfl, h'⟩

/-- Whatever the calls of a table, its nodes and its allocators: the table and one whose chains are lists end, and
return or throw, alike. Its chains are lists of the same elements at all times, and the objects in memory are those
that are counted and those that calls of `clear` have passed over. -/
theorem history_represents (node : σ) (as : List (Action ε σ W)) :
    Option.Rel (fun p q => p.1 = q.1 ∧ Represents (charges (Action.call size) Action.resets as (new node)) p.2 q.2)
      (history (Action.call size) as (new node))
      (history (Chains.Action.call size) (as.map Action.lists) (Chains.new node)) := by
  have h := history_rel (fun a _ _ _ h => coupled_call size a h) as (represents_new node)
  rwa [Nat.zero_add] at h

end CacheCoherence.Pointers
