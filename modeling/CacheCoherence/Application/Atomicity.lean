import CacheCoherence.Application.Conservation

/-! # Calls of a hash table that throw

`insert` and `operator[]` link the element before the access that may throw, `erase` and `clear` unlink it before
`Free` and adjust the counter after it. Only an exception of `Malloc`, or of the read of an element that is there
already, leaves the table as it was.
-/
namespace CacheCoherence.Chains
open Exits Ownership TransitionRuns
open HashTable (hashBucket)

variable {ε σ W : Type}

def ends (size : UInt64) (t : Table σ) (a : Action ε σ W) : Option (Table σ) :=
  ((a.op.run a.calls size).exec t).map Prod.snd

/-- What an exception may leave: the counter is the number of elements, and but for `clear` they are the ones from
before the call. -/
structure Atomic (op : Op W) (t u : Table σ) : Prop where
  counted : u.size = u.elements.length
  stored : op ≠ .clear → u.elements.Perm t.elements

def AtomicStep (size : UInt64) (t : Table σ) (a : Action ε σ W) : Prop :=
  ∀ x u, (a.op.run a.calls size).exec t = some (.error x, u) → Atomic a.op t u

def MallocThrows (calls : NodeCalls ε σ W) (size : UInt64) (t : Table σ) : Prop :=
  ∃ x n, (calls.malloc size).exec t.node = some (.error x, n)

/-- Nothing has been linked or unlinked when the call throws. -/
def Op.FailsEarly (calls : NodeCalls ε σ W) (size : UInt64) (t : Table σ) : Op W → Prop
  | .insert _ _ => MallocThrows calls size t
  | .index key => (∃ e ∈ t.storage (hashBucket key), e.key = key) ∨ MallocThrows calls size t
  | .erase key => ∀ e ∈ t.storage (hashBucket key), e.key ≠ key
  | .get _ | .count _ => True
  | .clear => t.elements = []

def EarlyStep (size : UInt64) (t : Table σ) (a : Action ε σ W) : Prop :=
  (∃ x u, (a.op.run a.calls size).exec t = some (.error x, u)) → a.op.FailsEarly a.calls size t

section
variable {calls : NodeCalls ε σ W} {size : UInt64} {t u v : Table σ} {g : GlobalAddress} {key : UInt32} {b : Fin 64}
  {es : List Elem} {x : ε} {op : Op W} {α : Type}

theorem not_mallocThrows (h : (malloc calls size).exec t = some (.ok g, v)) : ¬ MallocThrows calls size t := by
  rintro ⟨x, n, hx⟩
  rcases malloc_cases h with ⟨y, m, hy, -⟩ | ⟨g', m, -, hm, -⟩
  · cases hy
  · rw [hx] at hm
    cases hm

theorem atomic_same (ht : t.amountElements = t.elements.length) (n : σ) (asked : List (Event GlobalAddress)) :
    Atomic op t ⟨n, t.amountElements, t.storage, asked⟩ := ⟨ht, fun _ => List.Perm.refl _⟩

theorem not_atomic_linked (hop : op ≠ .clear) (hv : (malloc calls size).exec t = some (.ok g, v)) (key : UInt32)
    (hu : u.storage = Function.update v.storage (hashBucket key) (⟨key, g⟩ :: v.storage (hashBucket key))) :
    ¬ Atomic op t u := by
  intro hatomic
  have hlength := (hatomic.stored hop).length_eq
  rcases malloc_cases hv with ⟨y, m, hy, -⟩ | ⟨g', m, -, -, rfl⟩
  · cases hy
  · have hlinked := (elements_link t (hashBucket key) ⟨key, g⟩).length_eq
    rw [Table.elements, hu] at hlength
    rw [hlength, List.length_cons] at hlinked
    omega

theorem atomic_push (ht : t.amountElements = t.elements.length) (hop : op ≠ .clear)
    {m : GlobalAddress → Prog ε (Table σ) α}
    (hm : ∀ g v u, (m g).exec v = some (.error x, u) → u.storage = v.storage)
    (h : Prog.exec (malloc calls size >>= fun g => link key g >>= fun _ => m g) t = some (.error x, u)) :
    Atomic op t u ↔ MallocThrows calls size t := by
  rcases exec_bind_eq_error.mp h with hx | ⟨g, v, hv, h⟩
  · rcases malloc_cases hx with ⟨y, n, -, hn, rfl⟩ | ⟨g, n, hg, -⟩
    · exact iff_of_true (atomic_same ht n t.asked) ⟨y, n, hn⟩
    · cases hg
  · rw [exec_bind_ok (exec_link key g v)] at h
    exact iff_of_false (not_atomic_linked hop hv key (hm g _ u h)) (not_mallocThrows hv)

theorem atomic_insert {value : W} (ht : t.amountElements = t.elements.length)
    (h : (insert calls size key value).exec t = some (.error x, u)) :
    Atomic (.insert key value) t u ↔ MallocThrows calls size t := by
  refine atomic_push ht (by simp) (m := fun g => do let _ ← write calls ⟨size, value, g⟩) (fun g v u hw => ?_) h
  obtain ⟨n, rfl⟩ := write_cases (exec_discard_eq_error hw)
  rfl

theorem atomic_index (ht : t.amountElements = t.elements.length)
    (h : (index calls size key).exec t = some (.error x, u)) :
    Atomic (.index key : Op W) t u ↔ (∃ e ∈ t.storage (hashBucket key), e.key = key) ∨ MallocThrows calls size t := by
  unfold index at h
  rw [exec_bind_ok (exec_chain _ t)] at h
  cases hfind : (t.storage (hashBucket key)).find? fun e => e.key = key with
  | some e =>
    rw [hfind] at h
    obtain ⟨n, rfl⟩ := read_cases h
    exact iff_of_true (atomic_same ht n _)
      (Or.inl ⟨e, List.mem_of_find?_eq_some hfind, by simpa using List.find?_some hfind⟩)
  | none =>
    rw [hfind] at h
    have habsent : ¬ ∃ e ∈ t.storage (hashBucket key), e.key = key := by simpa using hfind
    rw [or_iff_right habsent]
    refine atomic_push ht (by simp) (m := fun g => read calls g) (fun g v u hr => ?_) h
    obtain ⟨n, rfl⟩ := read_cases hr
    rfl

theorem atomic_erase (h : (erase calls key).exec t = some (.error x, u)) :
    Atomic (.erase key : Op W) t u ↔ ∀ e ∈ t.storage (hashBucket key), e.key ≠ key := by
  unfold erase at h
  rw [exec_bind_ok (exec_chain _ t)] at h
  cases hfind : unlink key (t.storage (hashBucket key)) with
  | none =>
    rw [hfind] at h
    cases h
  | some p =>
    obtain ⟨e, c⟩ := p
    rw [hfind] at h
    simp only at h
    rw [exec_bind_ok (exec_setChain _ _ t)] at h
    rcases exec_bind_eq_error.mp h with hx | ⟨g, v, -, hx⟩
    · obtain ⟨n, rfl⟩ := free_cases hx
      obtain ⟨hperm, hkey⟩ := unlink_some hfind
      refine iff_of_false (fun hatomic => ?_) fun habsent => habsent e (hperm.mem_iff.mpr List.mem_cons_self) hkey
      have hlength :
        ((List.finRange 64).flatMap (Function.update t.storage (hashBucket key) c)).length = t.elements.length :=
        (hatomic.stored (by simp)).length_eq
      rw [(elements_unlink hperm).length_eq, List.length_cons] at hlength
      omega
    · cases hx

theorem atomic_get (ht : t.amountElements = t.elements.length) (h : (get calls key).exec t = some (.error x, u)) :
    Atomic op t u := by
  unfold get at h
  rw [exec_bind_ok (exec_chain _ t)] at h
  cases hfind : (t.storage (hashBucket key)).find? fun e => e.key = key with
  | some e =>
    rw [hfind] at h
    rcases exec_bind_eq_error.mp h with hx | ⟨g, v, -, hx⟩
    · obtain ⟨n, rfl⟩ := read_cases hx
      exact atomic_same ht n _
    · cases hx
  | none =>
    rw [hfind] at h
    cases h

/-- An element of a bucket that `clear` has come to is gone, also when its `Free` throws; the counter waits. -/
theorem drain_shrinks {r : Except ε Unit} (h : (drain calls b es).exec t = some (r, u)) (hes : t.storage b = es) :
    u.amountElements = t.amountElements ∧
      (u.elements.length < t.elements.length ∨ r = .ok () ∧ u.elements.length = t.elements.length) := by
  induction es generalizing t with
  | nil =>
    cases h
    exact ⟨rfl, Or.inr ⟨rfl, rfl⟩⟩
  | cons e next ih =>
    have hlength := (elements_unlink (t := t) (b := b) (e := e) (c := next) (by rw [hes])).length_eq
    rw [List.length_cons] at hlength
    have hlt : ∀ (n : σ) asked,
      (Table.elements ⟨n, t.amountElements, Function.update t.storage b next, asked⟩).length < t.elements.length := by
      intro n asked
      rw [hlength]
      exact Nat.lt_succ_self _
    rw [drain, exec_bind_ok (exec_setChain _ _ t)] at h
    rcases exec_bind_cases h with ⟨x, rfl, hx⟩ | ⟨g, v, hv, h⟩
    · obtain ⟨n, rfl⟩ := free_cases hx
      exact ⟨rfl, Or.inl (hlt n _)⟩
    · obtain ⟨n, rfl⟩ := free_cases hv
      obtain ⟨hamount, hrest⟩ := ih h (by simp)
      refine ⟨hamount, Or.inl ?_⟩
      rcases hrest with hrest | ⟨-, hrest⟩
      · exact hrest.trans (hlt n _)
      · exact hrest ▸ hlt n _

theorem drainAll_shrinks {bs : List (Fin 64)} {r : Except ε Unit}
    (h : Prog.exec (bs.forM fun b => do drain calls b (← chain b)) t = some (r, u)) :
    u.amountElements = t.amountElements ∧
      (u.elements.length < t.elements.length ∨ r = .ok () ∧ u.elements.length = t.elements.length) := by
  induction bs generalizing t with
  | nil =>
    cases h
    exact ⟨rfl, Or.inr ⟨rfl, rfl⟩⟩
  | cons b bs ih =>
    rcases exec_bind_cases h with ⟨x, rfl, hx⟩ | ⟨y, v, hv, h⟩
    · rw [exec_bind_ok (exec_chain b t)] at hx
      exact drain_shrinks hx rfl
    · rw [exec_bind_ok (exec_chain b t)] at hv
      obtain ⟨hamount, hfirst⟩ := drain_shrinks hv rfl
      obtain ⟨hamount', hrest⟩ := ih h
      refine ⟨hamount'.trans hamount, ?_⟩
      rcases hfirst with hfirst | ⟨-, hfirst⟩
      · rcases hrest with hrest | ⟨-, hrest⟩
        · exact Or.inl (hrest.trans hfirst)
        · exact Or.inl (hrest ▸ hfirst)
      · exact hfirst ▸ hrest

theorem atomic_clear (ht : t.amountElements = t.elements.length) (h : (clear calls).exec t = some (.error x, u)) :
    Atomic (.clear : Op W) t u ↔ t.elements = [] := by
  rcases exec_bind_eq_error.mp h with hx | ⟨y, v, -, hx⟩
  · obtain ⟨hamount, hlt | ⟨hr, -⟩⟩ := drainAll_shrinks hx
    · refine iff_of_false (fun hatomic => ?_) fun hnone => by simp [hnone] at hlt
      have hcount := hatomic.counted
      rw [Table.size, hamount, ht] at hcount
      omega
    · cases hr
  · cases hx

theorem atomic_run (ht : t.amountElements = t.elements.length) (h : (op.run calls size).exec t = some (.error x, u)) :
    Atomic op t u ↔ op.FailsEarly calls size t := by
  cases op with
  | insert key value => exact atomic_insert ht h
  | index key => exact atomic_index ht (exec_discard_eq_error h)
  | erase key => exact atomic_erase h
  | get key => exact iff_of_true (atomic_get ht (exec_discard_eq_error h)) trivial
  | count key =>
    rcases exec_bind_eq_error.mp (exec_discard_eq_error h) with hx | ⟨w, v, -, hx⟩
    · exact iff_of_true (atomic_get ht hx) trivial
    · cases hx
  | clear => exact atomic_clear ht h

/-- In a run of calls that return or throw, every exception is atomic if and only if every one is thrown early: by
`Malloc`, or by the read of an element that is there. -/
theorem exceptions_atomic_iff {n : σ} {as : List (Action ε σ W)} :
    Meets (ends size) (AtomicStep size) (new n) as ↔ Meets (ends size) (EarlyStep size) (new n) as := by
  refine meets_congr_of_meets (I := fun t => t.amountElements = t.elements.length) ?_ ?_ (conserved_new n).amount
  · intro t a u ht hatomic h
    obtain ⟨⟨x | x, v⟩, hexec, rfl⟩ := Option.map_eq_some_iff.mp h
    · exact (hatomic x v hexec).counted
    · exact (keeps_run hexec).counted ht
  · intro t a u ht _
    constructor
    · rintro hatomic ⟨x, v, hexec⟩
      exact (atomic_run ht hexec).mp (hatomic x v hexec)
    · intro hearly x v hexec
      exact (atomic_run ht hexec).mpr (hearly ⟨x, v, hexec⟩)

end

def remoteBlock : Failure.Env ℕ := { quiet with reply := fun sga => ⟨sga.size, 64, 3000⟩ }

def unreachable : Failure.Env ℕ :=
  { quiet with net := { quiet.net with throws := fun stage op => stage == .connect && op == .connectSocket } }

/-- The block of the element is at another node, and its `Free` does not get there: the element is gone, but counted. -/
theorem erase_not_atomic : ¬ ∀ (n : Failure.Server ℕ) (as : List (Action Failure.Exit (Failure.Server ℕ) ℕ)),
    Meets (ends 8) (AtomicStep 8) (new n) as := by
  intro h
  have herase : ((ends 8 (new { bareNode with id := 1000 }) ⟨nodeCalls remoteBlock none, .insert 5 7⟩).bind fun t =>
      (((Op.erase 5).run (nodeCalls unreachable none) 8).exec t).map fun p =>
        (p.1.toBool, p.2.size, p.2.elements.length)) =
        some (false, 1, 0) := by decide +kernel
  obtain ⟨t, ht, hmap⟩ := Option.bind_eq_some_iff.mp herase
  obtain ⟨⟨r, u⟩, hu, hp⟩ := Option.map_eq_some_iff.mp hmap
  have hends : ends 8 t ⟨nodeCalls unreachable none, .erase 5⟩ = some u := by
    rw [ends, hu]
    rfl
  have hatomic :=
    ((h _ [⟨nodeCalls remoteBlock none, .insert 5 7⟩, ⟨nodeCalls unreachable none, .erase 5⟩]) t ht).2 u hends
  cases r with
  | ok x => cases hp
  | error x =>
    obtain ⟨-, hsize, hlength⟩ : _ ∧ u.size = 1 ∧ u.elements.length = 0 := by simpa using hp
    have hcount := (hatomic.1 x u hu).counted
    omega

end CacheCoherence.Chains
