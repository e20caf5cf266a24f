import CacheCoherence.Application.Chains
import CacheCoherence.Foundation.TransitionRuns

/-! # The allocations of a hash table

Between its calls a table holds the addresses that it has got from `Malloc` and not given to `Free`, each of them
in one element of one chain.
-/
namespace CacheCoherence.Chains
open Exits Ownership Chaining TransitionRuns
open HashTable (hashBucket)

variable {ε σ W : Type}

/-- The elements are in their buckets, and their addresses are the ones that the table owns. -/
structure Held (t : Table σ) : Prop where
  owned : Owns t.asked (t.elements.map Elem.gaddr)
  placed : ∀ b, ∀ e ∈ t.storage b, hashBucket e.key = b

structure Conserved (t : Table σ) : Prop extends Held t where
  amount : t.amountElements = t.elements.length

structure Action (ε σ W : Type) where
  calls : NodeCalls ε σ W
  op : Op W

def returns (size : UInt64) (t : Table σ) (a : Action ε σ W) : Option (Table σ) :=
  match (a.op.run a.calls size).exec t with
  | some (.ok _, u) => some u
  | _ => none

section
variable {calls : NodeCalls ε σ W} {size : UInt64} {t u : Table σ} {g : GlobalAddress} {key : UInt32} {b : Fin 64}
  {e : Elem} {es c : List Elem}

theorem malloc_cases {r : Except ε GlobalAddress} (h : (malloc calls size).exec t = some (r, u)) :
    (∃ x n, r = .error x ∧ (calls.malloc size).exec t.node = some (.error x, n) ∧ u = { t with node := n }) ∨
      ∃ g n, r = .ok g ∧ (calls.malloc size).exec t.node = some (.ok g, n) ∧
        u = { t with node := n, asked := t.asked ++ [.alloc g] } := by
  rcases exec_bind_cases h with ⟨x, rfl, hx⟩ | ⟨g, v, hv, h⟩
  · obtain ⟨n, hn, rfl⟩ := onNode_cases hx
    exact Or.inl ⟨x, n, rfl, hn, rfl⟩
  · obtain ⟨n, hn, rfl⟩ := onNode_cases hv
    cases h
    exact Or.inr ⟨g, n, rfl, hn, rfl⟩

theorem free_cases {r : Except ε GlobalAddress} (h : (free calls g).exec t = some (r, u)) :
    ∃ n, u = { t with node := n, asked := t.asked ++ [.free g] } := by
  obtain ⟨n, -, rfl⟩ := onNode_cases (t := { t with asked := t.asked ++ [.free g] }) h
  exact ⟨n, rfl⟩

theorem read_cases {r : Except ε W} (h : (read calls g).exec t = some (r, u)) :
    ∃ n, u = { t with node := n, asked := t.asked ++ [.use g] } := by
  obtain ⟨n, -, rfl⟩ := onNode_cases (t := { t with asked := t.asked ++ [.use g] }) h
  exact ⟨n, rfl⟩

theorem write_cases {data : Data W} {r : Except ε GlobalAddress} (h : (write calls data).exec t = some (r, u)) :
    ∃ n, u = { t with node := n, asked := t.asked ++ [.use data.ga] } := by
  obtain ⟨n, -, rfl⟩ := onNode_cases (t := { t with asked := t.asked ++ [.use data.ga] }) h
  exact ⟨n, rfl⟩

theorem unlink_some (h : unlink key es = some (e, c)) : es.Perm (e :: c) ∧ e.key = key := by
  induction es generalizing c with
  | nil => cases h
  | cons x xs ih =>
    by_cases hk : x.key = key
    · rw [unlink, if_pos hk] at h
      cases h
      exact ⟨List.Perm.refl _, hk⟩
    · rw [unlink, if_neg hk] at h
      obtain ⟨⟨e', c'⟩, htail, heq⟩ := Option.map_eq_some_iff.mp h
      cases heq
      obtain ⟨hperm, hkey⟩ := ih htail
      exact ⟨(hperm.cons x).trans (List.Perm.swap _ _ _), hkey⟩

theorem elements_unlink (h : (t.storage b).Perm (e :: c)) :
    t.elements.Perm (e :: (List.finRange 64).flatMap (Function.update t.storage b c)) :=
  flatMap_update_perm (List.nodup_finRange 64) (List.mem_finRange b) h

theorem elements_link (t : Table σ) (b : Fin 64) (e : Elem) :
    ((List.finRange 64).flatMap (Function.update t.storage b (e :: t.storage b))).Perm (e :: t.elements) := by
  have h : ((List.finRange 64).flatMap (Function.update t.storage b (e :: t.storage b))).Perm
      (e :: (List.finRange 64).flatMap
        (Function.update (Function.update t.storage b (e :: t.storage b)) b (t.storage b))) :=
    flatMap_update_perm (List.nodup_finRange 64) (List.mem_finRange b) (by rw [Function.update_self])
  rw [Function.update_idem, Function.update_eq_self] at h
  exact h

theorem Table.mem_elements : e ∈ t.elements ↔ ∃ b, e ∈ t.storage b := by
  simp [Table.elements]

theorem mem_gaddr (h : (t.storage b).find? (fun e => e.key = key) = some e) : e.gaddr ∈ t.elements.map Elem.gaddr :=
  List.mem_map.mpr ⟨e, Table.mem_elements.mpr ⟨b, List.mem_of_find?_eq_some h⟩, rfl⟩

theorem Held.alloc (ht : Held t) (hf : Fresh (t.asked ++ [.alloc g])) (key : UInt32) (n : σ) (m : ℕ) :
    Held ⟨n, m, Function.update t.storage (hashBucket key) (⟨key, g⟩ :: t.storage (hashBucket key)),
      t.asked ++ [.alloc g]⟩ := by
  refine ⟨(ht.owned.alloc hf).perm ((elements_link t (hashBucket key) ⟨key, g⟩).symm.map Elem.gaddr), fun b e he => ?_⟩
  by_cases hb : b = hashBucket key
  · subst hb
    rcases List.mem_cons.mp (by simpa using he) with rfl | he
    · rfl
    · exact ht.placed _ e he
  · exact ht.placed b e (by simpa [hb] using he)

theorem Held.use (ht : Held t) (hg : g ∈ t.elements.map Elem.gaddr) (n : σ) :
    Held { t with node := n, asked := t.asked ++ [.use g] } :=
  ⟨ht.owned.use hg, ht.placed⟩

theorem Held.free (ht : Held t) (h : (t.storage b).Perm (e :: c)) (n : σ) (m : ℕ) :
    Held ⟨n, m, Function.update t.storage b c, t.asked ++ [.free e.gaddr]⟩ := by
  refine ⟨(ht.owned.perm ((elements_unlink h).map Elem.gaddr)).free, fun b' x hx => ?_⟩
  by_cases hb : b' = b
  · subst hb
    exact ht.placed _ x (h.mem_iff.mpr (List.mem_cons_of_mem e (by simpa using hx)))
  · exact ht.placed b' x (by simpa [hb] using hx)

theorem Held.push (ht : Held t) (hf : Fresh (t.asked ++ [Event.alloc g, .use g])) (key : UInt32) (n : σ) (m : ℕ) :
    Held ⟨n, m, Function.update t.storage (hashBucket key) (⟨key, g⟩ :: t.storage (hashBucket key)),
      t.asked ++ [Event.alloc g, .use g]⟩ := by
  have hf' : Fresh (t.asked ++ [.alloc g] ++ [.use g]) := by simpa using hf
  have hlinked := ht.alloc hf'.of_append key n m
  have hmem :
      g ∈ (Table.elements ⟨n, m, Function.update t.storage (hashBucket key) (⟨key, g⟩ :: t.storage (hashBucket key)),
      t.asked ++ [.alloc g]⟩).map Elem.gaddr :=
    List.mem_map.mpr ⟨⟨key, g⟩, (elements_link t (hashBucket key) ⟨key, g⟩).mem_iff.mpr List.mem_cons_self, rfl⟩
  simpa using hlinked.use hmem n

/-- What a call that returns has asked, and what it leaves of the table. -/
structure Keeps (t u : Table σ) : Prop where
  asked : t.asked <+: u.asked
  held : Held t → Fresh u.asked → Held u
  counted : t.amountElements = t.elements.length → u.amountElements = u.elements.length

theorem Keeps.conserved (h : Keeps t u) (ht : Conserved t) (hf : Fresh u.asked) : Conserved u :=
  ⟨h.held ht.toHeld hf, h.counted ht.amount⟩

theorem keeps_same (n : σ) : Keeps t { t with node := n } := ⟨List.prefix_refl _, fun ht _ => ⟨ht.owned, ht.placed⟩, id⟩

theorem keeps_push {v : Table σ} (hv : (malloc calls size).exec t = some (.ok g, v)) (key : UInt32) {w : Table σ}
    (hw : ∃ n, w = ⟨n, v.amountElements + 1,
      Function.update v.storage (hashBucket key) (⟨key, g⟩ :: v.storage (hashBucket key)),
      v.asked ++ [.use g]⟩) : Keeps t w := by
  rcases malloc_cases hv with ⟨x, n, hx, -⟩ | ⟨g', n, hg, -, rfl⟩
  · cases hx
  · cases hg
    obtain ⟨n', rfl⟩ := hw
    refine ⟨⟨[.alloc g, .use g], by simp⟩, fun ht hf => ?_, fun hcount => ?_⟩
    · simpa using ht.push (by simpa using hf) key n' (t.amountElements + 1)
    · have hlength := (elements_link t (hashBucket key) ⟨key, g⟩).length_eq
      rw [List.length_cons, ← hcount] at hlength
      exact hlength.symm

theorem keeps_insert {value : W} {x : Unit} (h : (insert calls size key value).exec t = some (.ok x, u)) :
    Keeps t u := by
  obtain ⟨g, v, hv, h⟩ := exec_bind_eq_ok.mp h
  rw [exec_bind_ok (exec_link key g v)] at h
  obtain ⟨y, hw⟩ := exec_discard_eq_ok h
  exact keeps_push hv key (write_cases hw)

theorem keeps_read {x : W} (hg : g ∈ t.elements.map Elem.gaddr) (h : (read calls g).exec t = some (.ok x, u)) :
    Keeps t u := by
  obtain ⟨n, rfl⟩ := read_cases h
  exact ⟨⟨[.use g], rfl⟩, fun ht _ => ht.use hg n, id⟩

theorem keeps_index {x : W} (h : (index calls size key).exec t = some (.ok x, u)) : Keeps t u := by
  unfold index at h
  rw [exec_bind_ok (exec_chain _ t)] at h
  cases hfind : (t.storage (hashBucket key)).find? fun e => e.key = key with
  | some e =>
    rw [hfind] at h
    exact keeps_read (mem_gaddr hfind) h
  | none =>
    rw [hfind] at h
    obtain ⟨g, v, hv, h⟩ := exec_bind_eq_ok.mp h
    rw [exec_bind_ok (exec_link key g v)] at h
    exact keeps_push hv key (read_cases h)

theorem keeps_get {x : Option W} (h : (get calls key).exec t = some (.ok x, u)) : Keeps t u := by
  unfold get at h
  rw [exec_bind_ok (exec_chain _ t)] at h
  cases hfind : (t.storage (hashBucket key)).find? fun e => e.key = key with
  | some e =>
    rw [hfind] at h
    obtain ⟨w, v, hv, h⟩ := exec_bind_eq_ok.mp h
    cases h
    exact keeps_read (mem_gaddr hfind) hv
  | none =>
    rw [hfind] at h
    cases h
    exact keeps_same t.node

theorem keeps_erase {x : Unit} (h : (erase calls key).exec t = some (.ok x, u)) : Keeps t u := by
  unfold erase at h
  rw [exec_bind_ok (exec_chain _ t)] at h
  cases hfind : unlink key (t.storage (hashBucket key)) with
  | none =>
    rw [hfind] at h
    cases h
    exact keeps_same t.node
  | some p =>
    obtain ⟨e, c⟩ := p
    rw [hfind] at h
    simp only at h
    rw [exec_bind_ok (exec_setChain _ _ t)] at h
    obtain ⟨g, v, hv, h⟩ := exec_bind_eq_ok.mp h
    cases h
    obtain ⟨n, rfl⟩ := free_cases hv
    have hperm := (unlink_some hfind).1
    refine ⟨⟨[.free e.gaddr], rfl⟩, fun ht _ => ht.free hperm n _, fun hcount => ?_⟩
    have hlength := (elements_unlink hperm).length_eq
    rw [List.length_cons, ← hcount] at hlength
    exact (Nat.eq_sub_of_add_eq hlength.symm).symm

theorem drain_ok {x : Unit} (h : (drain calls b es).exec t = some (.ok x, u)) (hes : t.storage b = es) :
    t.asked <+: u.asked ∧ u.storage = Function.update t.storage b [] ∧ (Held t → Held u) := by
  induction es generalizing t with
  | nil =>
    cases h
    exact ⟨List.prefix_refl _, by rw [← hes, Function.update_eq_self], id⟩
  | cons e next ih =>
    rw [drain, exec_bind_ok (exec_setChain _ _ t)] at h
    obtain ⟨g, v, hv, h⟩ := exec_bind_eq_ok.mp h
    obtain ⟨n, rfl⟩ := free_cases hv
    obtain ⟨hasked, hstorage, hheld⟩ := ih h (by simp)
    refine ⟨(List.prefix_append _ _).trans hasked, by rw [hstorage, Function.update_idem], fun ht => hheld ?_⟩
    exact ht.free (by rw [hes]) n _

theorem drain_all {bs : List (Fin 64)} {x : Unit}
    (h : Prog.exec (bs.forM fun b => do drain calls b (← chain b)) t = some (.ok x, u)) :
    t.asked <+: u.asked ∧ (∀ b, u.storage b = if b ∈ bs then [] else t.storage b) ∧ (Held t → Held u) := by
  induction bs generalizing t with
  | nil =>
    cases h
    exact ⟨List.prefix_refl _, fun b => by simp, id⟩
  | cons b bs ih =>
    obtain ⟨y, v, hv, h⟩ := exec_bind_eq_ok.mp h
    rw [exec_bind_ok (exec_chain b t)] at hv
    obtain ⟨hasked, hstorage, hheld⟩ := drain_ok hv rfl
    obtain ⟨hasked', hstorage', hheld'⟩ := ih h
    refine ⟨hasked.trans hasked', fun b' => ?_, fun ht => hheld' (hheld ht)⟩
    rw [hstorage', hstorage]
    by_cases hb : b' = b <;> simp [hb]

theorem Table.elements_eq_nil (h : ∀ b, t.storage b = []) : t.elements = [] :=
  List.flatMap_eq_nil_iff.mpr fun b _ => h b

theorem clear_ok {x : Unit} (h : (clear calls).exec t = some (.ok x, u)) : Keeps t u ∧ (∀ b, u.storage b = []) ∧
    (Held t → Held u) := by
  obtain ⟨y, v, hv, h⟩ := exec_bind_eq_ok.mp h
  cases h
  obtain ⟨hasked, hstorage, hheld⟩ := drain_all hv
  have hempty : ∀ b, v.storage b = [] := fun b => by rw [hstorage, if_pos (List.mem_finRange b)]
  have hheld' : Held t → Held { v with amountElements := 0 } := fun ht => ⟨(hheld ht).owned, (hheld ht).placed⟩
  refine ⟨⟨hasked, fun ht _ => hheld' ht, fun _ => ?_⟩, hempty, hheld'⟩
  show 0 = v.elements.length
  rw [Table.elements_eq_nil hempty, List.length_nil]

theorem keeps_run {op : Op W} {x : Unit} (h : (op.run calls size).exec t = some (.ok x, u)) : Keeps t u := by
  cases op with
  | insert key value => exact keeps_insert h
  | index key =>
    obtain ⟨w, hw⟩ := exec_discard_eq_ok h
    exact keeps_index hw
  | erase key => exact keeps_erase h
  | get key =>
    obtain ⟨w, hw⟩ := exec_discard_eq_ok h
    exact keeps_get hw
  | count key =>
    obtain ⟨w, hw⟩ := exec_discard_eq_ok h
    obtain ⟨w', u', hget, hcount⟩ := exec_bind_eq_ok.mp hw
    cases hcount
    exact keeps_get hget
  | clear => exact (clear_ok h).1

theorem keeps_returns {a : Action ε σ W} (h : returns size t a = some u) : Keeps t u := by
  unfold returns at h
  split at h
  · cases h
    exact keeps_run ‹_›
  · cases h

theorem conserved_new (n : σ) : Conserved (new n) := by
  have hnone : (new n).elements = [] := Table.elements_eq_nil fun b => rfl
  refine ⟨⟨?_, fun b e he => nomatch he⟩, by rw [hnone]; rfl⟩
  rw [hnone]
  exact owns_nil

/-- After any calls whose allocations are fresh, the chains hold exactly the addresses that are allocated and not
freed, each once and in its bucket, the counter is their number, nothing was freed or used that was not allocated at
the time, and `clear` gives everything back. -/
theorem allocations_conserved {n : σ} {as : List (Action ε σ W)} (h : run (returns size) (new n) as = some t)
    (hf : Fresh t.asked) :
    Conserved t ∧ ∀ (calls : NodeCalls ε σ W) u x, (clear calls).exec t = some (.ok x, u) →
      (∀ b, u.storage b = []) ∧ Disciplined u.asked ∧ ∀ g, ¬ Live u.asked g := by
  have hI : ∀ (t : Table σ) (a : Action ε σ W) u, (Fresh t.asked → Conserved t) → returns size t a = some u →
      Fresh u.asked → Conserved u := by
    intro t a u ht hstep hu
    have hkeeps := keeps_returns hstep
    obtain ⟨q, hq⟩ := hkeeps.asked
    exact hkeeps.conserved (ht (hq ▸ hu).of_append) hu
  have ht : Conserved t := run_invariant (I := fun t => Fresh t.asked → Conserved t) hI (fun _ => conserved_new n) h hf
  refine ⟨ht, fun calls u x hclear => ?_⟩
  obtain ⟨-, hempty, hheld⟩ := clear_ok hclear
  have howned := (hheld ht.toHeld).owned
  rw [Table.elements_eq_nil hempty] at howned
  exact ⟨hempty, howned.disciplined, fun g hg => List.not_mem_nil ((howned.live g).mpr hg)⟩

end

def quiet : Failure.Env ℕ :=
  ⟨⟨fun _ _ => false, 1, 1, 1, fun _ => 7, fun d => .ofSendable d.sga, false, []⟩,
    fun _ => ⟨fun _ _ => false, 1, 1, 1, fun _ => 7,
    fun d => .ofSendable d.sga, false, []⟩, fun _ => false, .ofSendable, []⟩

def bareNode : Failure.Server ℕ := ⟨3000, fun _ => none, .new, LockTable.empty, [], fun _ _ => false, []⟩

theorem allocations_conserved_reused : ∃ t, run (returns 8) (new bareNode)
    [⟨nodeCalls quiet (some (64, ⟨0, .unshared, 0, []⟩)), .insert 5 7⟩, ⟨nodeCalls quiet none, .erase 5⟩,
      ⟨nodeCalls quiet (some (64, ⟨1, .shared, 0, []⟩)), .index 9⟩, ⟨nodeCalls quiet none, .get 9⟩] = some t ∧
    Conserved t ∧ ∀ (calls : NodeCalls Failure.Exit (Failure.Server ℕ) ℕ) u x, (clear calls).exec t = some (.ok x, u) →
      (∀ b, u.storage b = []) ∧ Disciplined u.asked ∧ ∀ g, ¬ Live u.asked g := by
  have hasked : (run (returns 8) (new bareNode)
      [⟨nodeCalls quiet (some (64, ⟨0, .unshared, 0, []⟩)), .insert 5 7⟩, ⟨nodeCalls quiet none, .erase 5⟩,
        ⟨nodeCalls quiet (some (64, ⟨1, .shared, 0, []⟩)), .index 9⟩, ⟨nodeCalls quiet none, .get 9⟩]).map
        (fun t => decide (Fresh t.asked)) = some true := by decide +kernel
  obtain ⟨t, hrun, hfresh⟩ := Option.map_eq_some_iff.mp hasked
  have hconserved := allocations_conserved hrun (of_decide_eq_true hfresh)
  exact ⟨t, hrun, hconserved⟩

end CacheCoherence.Chains
