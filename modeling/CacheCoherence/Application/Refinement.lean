import CacheCoherence.Application.Conservation
import CacheCoherence.Application.Indexing

/-! # The table of a host and its chains

A call of a table on a host that returns is a call of the chains, over a node that does what the host does.
-/
namespace CacheCoherence.Chains
open Exits Ownership TransitionRuns
open HashTable (hashBucket)

def hostCalls (block : Option (UInt64 × SaveData UInt64)) (held : Host → Option Host) :
    NodeCalls Empty Host UInt64 where
  malloc size := act fun node => (node.malloc size block).map fun p => (.ok p.1, p.2)
  free gaddr := act fun node => (node.free gaddr).map fun n => (.ok gaddr.freed, n)
  read gaddr := act fun node => (node.read gaddr held).map fun p => (.ok p.1, p.2)
  write data := act fun node => (node.write data held).map fun p => (.ok p.1, p.2)

/-- The chains of the table, with a history in which nothing live was allocated. -/
structure Refines (t : HashTable) (c : Table Host) : Prop where
  node : c.node = t.node
  storage : c.storage = t.storage
  amount : t.amountElements = UInt64.ofNat c.amountElements
  fresh : Fresh c.asked
  conserved : Conserved c

/-- The node has changed between the calls, or a call has returned. -/
def Follows (size : UInt64) (c c' : Table Host) : Prop :=
  (∃ n, c' = { c with node := n }) ∨ ∃ a : Action Empty Host UInt64, returns size c a = some c'

variable {V : Type} [Integral V] {t t' : HashTable} {c c' : Table Host} {es : List Elem} {held : List Request}
    {key : UInt32}
  {size : UInt64} {a : TableUse V}

theorem returns_of_exec {ε σ W : Type} {calls : NodeCalls ε σ W} {op : Op W} {t u : Table σ} {x : Unit}
    (h : (op.run calls size).exec t = some (.ok x, u)) : returns size t ⟨calls, op⟩ = some u := by
  rw [returns, h]

section
variable {block : Option (UInt64 × SaveData UInt64)} {others : Host → Option Host} {node node' : Host}
    {g : GlobalAddress} {w : UInt64}

theorem hostCalls_malloc (h : node.malloc size block = some (g, node')) :
    ((hostCalls block others).malloc size).exec node = some (.ok g, node') := congrArg (Option.map _) h

theorem hostCalls_free (h : node.free g = some node') :
    ((hostCalls block others).free g).exec node = some (.ok g.freed, node') := congrArg (Option.map _) h

theorem hostCalls_read (h : node.read g others = some (w, node')) :
    ((hostCalls block others).read g).exec node = some (.ok w, node') := congrArg (Option.map _) h

theorem hostCalls_write {data : Data UInt64} (h : node.write data others = some (g, node')) :
    ((hostCalls block others).write data).exec node = some (.ok g, node') := congrArg (Option.map _) h

end

theorem Refines.not_live (hc : Refines t c) (hT : t.Holds es) {g : GlobalAddress} (hg : t.node.mem g.ptr = none) :
    ¬ Live c.asked g := by
  intro hlive
  obtain ⟨e, he, rfl⟩ := List.mem_map.mp ((hc.conserved.owned.live g).mpr hlive)
  obtain ⟨b, hb⟩ := Table.mem_elements.mp he
  rw [hc.storage] at hb
  exact (hT.block e (hT.chained.mem.mp hb).1).2.2 hg

theorem Refines.of_exec {calls : NodeCalls Empty Host UInt64} {x : Unit} (hc : Refines t c) (op : Op UInt64)
    (h : (op.run calls size).exec c = some (.ok x, c')) (hnode : c'.node = t'.node) (hstorage : c'.storage = t'.storage)
    (hamount : t'.amountElements = UInt64.ofNat c'.amountElements) (hfresh : Fresh c'.asked) :
    Refines t' c' ∧ Follows size c c' :=
  ⟨⟨hnode, hstorage, hamount, hfresh, (keeps_run h).conserved hc.conserved hfresh⟩,
    Or.inr ⟨⟨calls, op⟩, returns_of_exec h⟩⟩

theorem fresh_use {h : List (Event GlobalAddress)} {g : GlobalAddress} (hf : Fresh h) : Fresh (h ++ [.use g]) :=
  fresh_concat.mpr ⟨hf, by simp⟩

theorem malloc_free {block : Option (UInt64 × SaveData UInt64)} {node node' : Host} {g : GlobalAddress}
    (h : node.malloc size block = some (g, node')) : node.mem g.ptr = none := by
  obtain ⟨buffer, content, -, -, hfree, rfl, -⟩ := Host.malloc_iff.mp h
  exact hfree

theorem Refines.fresh_push (hc : Refines t c) (hT : t.Holds es) {g : GlobalAddress} (hg : t.node.mem g.ptr = none) :
    Fresh (c.asked ++ [.alloc g] ++ [.use g]) := by
  refine fresh_use (fresh_concat.mpr ⟨hc.fresh, fun a ha => ?_⟩)
  cases ha
  exact hc.not_live hT hg

theorem refines_insert {value : V} {block : Option (UInt64 × SaveData UInt64)} (hT : t.Holds es) (hc : Refines t c)
    (h : t.insert key value block held = some t') : ∃ c', Refines t' c' ∧ Follows (Integral.size V) c c' := by
  obtain ⟨⟨g, node₀⟩, hmalloc, ⟨result, node₁⟩, hwrite, rfl⟩ := by
    simpa only [HashTable.insert, Option.bind_eq_bind, Option.bind_eq_some_iff, Option.some.injEq] using h
  let others : Host → Option Host := (⟨node₀, t.amountElements + 1, Function.update t.storage (hashBucket key)
    (⟨key, g⟩ :: t.storage (hashBucket key))⟩ : HashTable).serveOthers held
  have hmalloc' : ((hostCalls block others).malloc (Integral.size V)).exec c.node = some (.ok g, node₀) :=
    hc.node ▸ hostCalls_malloc hmalloc
  have hwrite' :
    ((hostCalls block others).write ⟨Integral.size V, Integral.cast value, g⟩).exec node₀ = some (.ok result, node₁) :=
    hostCalls_write hwrite
  have hexec : (insert (hostCalls block others) (Integral.size V) key (Integral.cast value)).exec c =
      some (.ok (), ⟨node₁, c.amountElements + 1,
        Function.update c.storage (hashBucket key) (⟨key, g⟩ :: c.storage (hashBucket key)),
        c.asked ++ [.alloc g] ++ [.use g]⟩) := by
    unfold insert
    rw [exec_bind_ok (exec_malloc hmalloc'), exec_bind_ok (exec_link _ _ _)]
    exact exec_bind_ok (exec_write hwrite')
  refine ⟨_, hc.of_exec (.insert key (Integral.cast value)) hexec rfl ?_ ?_ (hc.fresh_push hT (malloc_free hmalloc))⟩
  · rw [hc.storage]
  · rw [UInt64.ofNat_add, ← hc.amount]
    rfl

theorem refines_index {block : Option (UInt64 × SaveData UInt64)} {w : UInt64} (hT : t.Holds es) (hc : Refines t c)
    (h : t.index V key block held = some (w, t')) : ∃ c', Refines t' c' ∧ Follows (Integral.size V) c c' := by
  unfold HashTable.index at h
  cases hfind : (t.storage (hashBucket key)).find? fun e => e.key = key with
  | some e =>
    have hfind' : (c.storage (hashBucket key)).find? (fun e => e.key = key) = some e := by rw [hc.storage, hfind]
    rw [hfind] at h
    obtain ⟨⟨w', node₁⟩, hread, h⟩ := Option.bind_eq_some_iff.mp h
    obtain ⟨rfl, rfl⟩ := Prod.mk.inj (Option.some.inj h)
    have hread' : ((hostCalls block (t.serveOthers held)).read e.gaddr).exec c.node = some (.ok w', node₁) :=
      hc.node ▸ hostCalls_read hread
    have hexec : (index (hostCalls block (t.serveOthers held)) (Integral.size V) key).exec c =
        some (.ok w', { c with node := node₁, asked := c.asked ++ [.use e.gaddr] }) := by
      unfold index
      rw [exec_bind_ok (exec_chain _ c), hfind']
      exact exec_read hread'
    exact ⟨_, hc.of_exec (.index key) (exec_discard hexec ()) rfl hc.storage hc.amount (fresh_use hc.fresh)⟩
  | none =>
    have hfind' : (c.storage (hashBucket key)).find? (fun e => e.key = key) = none := by rw [hc.storage, hfind]
    rw [hfind] at h
    obtain ⟨⟨g, node₀⟩, hmalloc, h⟩ := Option.bind_eq_some_iff.mp h
    obtain ⟨⟨w', node₁⟩, hread, h⟩ := Option.bind_eq_some_iff.mp h
    obtain ⟨rfl, rfl⟩ := Prod.mk.inj (Option.some.inj h)
    let others : Host → Option Host := (⟨node₀, t.amountElements + 1, Function.update t.storage (hashBucket key)
      (⟨key, g⟩ :: t.storage (hashBucket key))⟩ : HashTable).serveOthers held
    have hmalloc' : ((hostCalls block others).malloc (Integral.size V)).exec c.node = some (.ok g, node₀) :=
      hc.node ▸ hostCalls_malloc hmalloc
    have hread' : ((hostCalls block others).read g).exec node₀ = some (.ok w', node₁) := hostCalls_read hread
    have hexec : (index (hostCalls block others) (Integral.size V) key).exec c =
        some (.ok w', ⟨node₁, c.amountElements + 1,
          Function.update c.storage (hashBucket key) (⟨key, g⟩ :: c.storage (hashBucket key)),
          c.asked ++ [.alloc g] ++ [.use g]⟩) := by
      unfold index
      rw [exec_bind_ok (exec_chain _ c), hfind']
      simp only
      rw [exec_bind_ok (exec_malloc hmalloc'), exec_bind_ok (exec_link _ _ _)]
      exact exec_read hread'
    refine ⟨_, hc.of_exec (.index key) (exec_discard hexec ()) rfl ?_ ?_ (hc.fresh_push hT (malloc_free hmalloc))⟩
    · rw [hc.storage]
    · rw [UInt64.ofNat_add, ← hc.amount]
      rfl

theorem unlink_eq (key : UInt32) (es : List Elem) :
    unlink key es = (es.find? fun e => e.key = key).map fun e => (e, es.eraseP fun e => e.key = key) := by
  induction es with
  | nil => rfl
  | cons e es ih =>
    by_cases hk : e.key = key
    · simp [unlink, hk]
    · rw [unlink, if_neg hk, ih]
      cases hfind : es.find? fun e => e.key = key <;> simp [hk, hfind]

theorem refines_get {r : Option V} (hc : Refines t c) (h : t.get V key held = some (r, t')) :
    ∃ c', Refines t' c' ∧ Follows (Integral.size V) c c' := by
  unfold HashTable.get at h
  cases hfind : (t.storage (hashBucket key)).find? fun e => e.key = key with
  | some e =>
    have hfind' : (c.storage (hashBucket key)).find? (fun e => e.key = key) = some e := by rw [hc.storage, hfind]
    rw [hfind] at h
    obtain ⟨⟨w, node₁⟩, hread, h⟩ := Option.bind_eq_some_iff.mp h
    obtain ⟨-, rfl⟩ := Prod.mk.inj (Option.some.inj h)
    have hread' : ((hostCalls none (t.serveOthers held)).read e.gaddr).exec c.node = some (.ok w, node₁) :=
      hc.node ▸ hostCalls_read hread
    have hexec : (get (hostCalls none (t.serveOthers held)) key).exec c =
        some (.ok (some w), { c with node := node₁, asked := c.asked ++ [.use e.gaddr] }) := by
      unfold get
      rw [exec_bind_ok (exec_chain _ c), hfind']
      exact exec_bind_ok (exec_read hread')
    exact ⟨_, hc.of_exec (.get key) (exec_discard hexec ()) rfl hc.storage hc.amount (fresh_use hc.fresh)⟩
  | none =>
    rw [hfind] at h
    cases h
    exact ⟨c, hc, Or.inl ⟨c.node, rfl⟩⟩

theorem refines_erase (hc : Refines t c) (h : t.erase key = some t') : ∃ c', Refines t' c' ∧ Follows size c c' := by
  unfold HashTable.erase at h
  cases hfind : (t.storage (hashBucket key)).find? fun e => e.key = key with
  | some e =>
    have hunlink : unlink key (c.storage (hashBucket key)) =
        some (e, (c.storage (hashBucket key)).eraseP fun e => e.key = key) := by
      rw [unlink_eq, hc.storage, hfind]
      rfl
    simp only [hfind] at h
    obtain ⟨node₁, hfree, h⟩ := Option.bind_eq_some_iff.mp h
    obtain rfl := Option.some.inj h
    have hfree' : ((hostCalls none some).free e.gaddr).exec c.node = some (.ok e.gaddr.freed, node₁) :=
      hc.node ▸ hostCalls_free hfree
    have hexec : (erase (hostCalls none some) key).exec c = some (.ok (), ⟨node₁, c.amountElements - 1,
        Function.update c.storage (hashBucket key) ((c.storage (hashBucket key)).eraseP fun e => e.key = key),
          c.asked ++ [.free e.gaddr]⟩) := by
      unfold erase
      rw [exec_bind_ok (exec_chain _ c), hunlink]
      simp only
      rw [exec_bind_ok (exec_setChain _ _ c)]
      exact exec_bind_ok (exec_free (t := { c with storage := Function.update c.storage (hashBucket key) _ }) hfree')
    obtain ⟨n, hn⟩ : ∃ n, c.amountElements = n + 1 := by
      have hmem : e ∈ c.elements := Table.mem_elements.mpr ⟨_, hc.storage ▸ List.mem_of_find?_eq_some hfind⟩
      rw [hc.conserved.amount]
      exact Nat.exists_eq_succ_of_ne_zero (List.length_pos_of_mem hmem).ne'
    refine ⟨_, hc.of_exec (.erase key) hexec rfl ?_ ?_ (fresh_concat.mpr ⟨hc.fresh, by simp⟩)⟩
    · rw [hc.storage]
    · show t.amountElements - 1 = UInt64.ofNat (c.amountElements - 1)
      rw [hc.amount, hn, UInt64.ofNat_add]
      exact UInt64.add_sub_cancel _ _
  | none =>
    simp only [hfind] at h
    cases h
    exact ⟨c, hc, Or.inl ⟨c.node, rfl⟩⟩

theorem drain_exec {b : Fin 64} {n : Host} (hes : c.storage b = es)
    (h : es.foldlM (fun node e => node.free e.gaddr) c.node = some n) : ∃ as, (Fresh c.asked → Fresh (c.asked ++ as)) ∧
      (drain (hostCalls none some) b es).exec c = some (.ok (),
        ⟨n, c.amountElements, Function.update c.storage b [], c.asked ++ as⟩) := by
  induction es generalizing c with
  | nil =>
    cases h
    have hsame : Function.update c.storage b [] = c.storage := by rw [← hes, Function.update_eq_self]
    refine ⟨[], by simp, ?_⟩
    rw [hsame, List.append_nil]
    rfl
  | cons e next ih =>
    rw [List.foldlM_cons] at h
    obtain ⟨node₁, hfree, h⟩ := Option.bind_eq_some_iff.mp h
    have hfree' : ((hostCalls none some).free e.gaddr).exec c.node = some (.ok e.gaddr.freed, node₁) :=
      hostCalls_free hfree
    obtain ⟨as, hfresh, hexec⟩ :=
      ih (c := ⟨node₁, c.amountElements, Function.update c.storage b next, c.asked ++ [.free e.gaddr]⟩)
      (by simp) h
    refine ⟨.free e.gaddr :: as, fun hf => ?_, ?_⟩
    · rw [List.append_cons]
      exact hfresh (fresh_concat.mpr ⟨hf, by simp⟩)
    · rw [drain, exec_bind_ok (exec_setChain b next c),
        exec_bind_ok (exec_free (t := { c with storage := Function.update c.storage b next }) hfree'), hexec]
      simp

theorem drainAll_exec {bs : List (Fin 64)} {n : Host} (hbs : bs.Nodup)
    (h : (bs.flatMap c.storage).foldlM (fun node e => node.free e.gaddr) c.node = some n) :
    ∃ as, (Fresh c.asked → Fresh (c.asked ++ as)) ∧
      Prog.exec (bs.forM fun b => do drain (hostCalls none some) b (← chain b)) c =
        some (.ok (), ⟨n, c.amountElements, fun b => if b ∈ bs then [] else c.storage b, c.asked ++ as⟩) := by
  induction bs generalizing c with
  | nil =>
    cases h
    refine ⟨[], by simp, ?_⟩
    simp only [List.not_mem_nil, if_false, List.append_nil]
    rfl
  | cons b bs ih =>
    obtain ⟨hb, hbs⟩ := List.nodup_cons.mp hbs
    rw [List.flatMap_cons, List.foldlM_append] at h
    obtain ⟨node₁, hdrain, h⟩ := Option.bind_eq_some_iff.mp h
    obtain ⟨as, hfresh, hexec⟩ := drain_exec rfl hdrain
    have hrest : bs.flatMap (Function.update c.storage b []) = bs.flatMap c.storage :=
      List.flatMap_congr fun b' hb' => Function.update_of_ne (ne_of_mem_of_not_mem hb' hb) _ _
    obtain ⟨as', hfresh', hexec'⟩ :=
      ih (c := ⟨node₁, c.amountElements, Function.update c.storage b [], c.asked ++ as⟩) hbs (by rw [hrest, h])
    refine ⟨as ++ as', fun hf => ?_, ?_⟩
    · rw [← List.append_assoc]
      exact hfresh' (hfresh hf)
    · have hstorage : (fun b' => if b' ∈ bs then [] else Function.update c.storage b [] b') =
          fun b' => if b' ∈ b :: bs then [] else c.storage b' := by
        funext b'
        by_cases heq : b' = b <;> simp [heq]
      refine (exec_bind_ok ((exec_bind_ok (exec_chain b c)).trans hexec)).trans ?_
      rw [hexec', hstorage, List.append_assoc]

theorem refines_clear (hc : Refines t c) (h : t.clear = some t') : ∃ c', Refines t' c' ∧ Follows size c c' := by
  obtain ⟨n, hfold, h⟩ := Option.bind_eq_some_iff.mp h
  obtain rfl := Option.some.inj h
  rw [← hc.storage, ← hc.node] at hfold
  obtain ⟨as, hfresh, hexec⟩ := drainAll_exec (List.nodup_finRange 64) hfold
  have hclear : (clear (hostCalls none some)).exec c =
      some (.ok (), ⟨n, 0, fun b => if b ∈ List.finRange 64 then [] else c.storage b, c.asked ++ as⟩) :=
        exec_bind_ok hexec
  refine ⟨_, hc.of_exec .clear hclear rfl ?_ rfl (hfresh hc.fresh)⟩
  funext b
  exact if_pos (List.mem_finRange b)

theorem refines_perform {op : TableOp V} {r : Answer V} (hT : t.Holds es) (hc : Refines t c)
    (h : t.perform op held = some (r, t')) :
    ∃ c', Refines t' c' ∧ Follows (Integral.size V) c c' := by
  cases HashTable.performed_of_perform h with
  | insert hinsert => exact refines_insert hT hc hinsert
  | erase herase => exact refines_erase hc herase
  | get hget | count hget => exact refines_get hc hget
  | size => exact ⟨c, hc, Or.inl ⟨c.node, rfl⟩⟩
  | clear hclear => exact refines_clear hc hclear

theorem refines_step (hT : t.Holds es) (hc : Refines t c) (h : t.step a = some t') :
    ∃ c', Refines t' c' ∧ Follows (Integral.size V) c c' := by
  cases a with
  | call op held =>
    obtain ⟨⟨r, u⟩, hperform, rfl⟩ := Option.map_eq_some_iff.mp h
    exact refines_perform hT hc hperform
  | assign key value block held =>
    obtain ⟨⟨w, u⟩, hindex, rfl⟩ := Option.map_eq_some_iff.mp h
    exact refines_index hT hc hindex
  | serve r =>
    obtain ⟨n, -, rfl⟩ := Option.map_eq_some_iff.mp h
    exact ⟨{ c with node := n },
      ⟨rfl, hc.storage, hc.amount, hc.fresh, ⟨⟨hc.conserved.owned, hc.conserved.placed⟩, hc.conserved.amount⟩⟩,
      Or.inl ⟨n, rfl⟩⟩

/-- Every run of the table of a host is a run of the chains whose allocations are fresh. -/
theorem refines_run {node : Host} {as : List (TableUse V)} (h : run HashTable.step (HashTable.new node) as = some t) :
    ∃ c, Refines t c ∧ Relation.ReflTransGen (Follows (Integral.size V)) (new node) c := by
  have hI : ∀ (t : HashTable) (a : TableUse V) t',
      ((∃ es, t.Holds es) ∧ ∃ c, Refines t c ∧ Relation.ReflTransGen (Follows (Integral.size V)) (new node) c) →
        t.step a = some t' →
        (∃ es, t'.Holds es) ∧ ∃ c, Refines t' c ∧ Relation.ReflTransGen (Follows (Integral.size V)) (new node) c := by
    rintro t a t' ⟨⟨es, hT⟩, c, hc, hruns⟩ hstep
    obtain ⟨c', hc', hfollows⟩ := refines_step hT hc hstep
    exact ⟨hT.step hstep, c', hc', hruns.tail hfollows⟩
  have hnew : Refines (HashTable.new node) (new node) := ⟨rfl, rfl, rfl, fresh_nil, conserved_new node⟩
  exact (run_invariant hI ⟨⟨[], HashTable.holds_new node⟩, _, hnew, .refl⟩ h).2

end CacheCoherence.Chains
