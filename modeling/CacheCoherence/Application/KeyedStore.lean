import CacheCoherence.Application.Contents
import CacheCoherence.Foundation.Shadowing
import CacheCoherence.Foundation.TransitionRuns

/-! # The hash table as a keyed store

Without other clients the lock of the table's node is free whenever a call starts, so every access gets it and
the table is the list of the insertions that nothing has undone.
-/
namespace CacheCoherence
open Shadowing TransitionRuns

variable {V : Type} [Integral V]

namespace TableOp

def apply (live : List (UInt32 × V)) : TableOp V → List (UInt32 × V)
  | .insert key value _ => (key, value) :: live
  | .erase key => remove live key
  | .clear => []
  | .get _ | .count _ | .size => live

/-- The answer of a call, when these insertions have not been undone. -/
def Answers (live : List (UInt32 × V)) : TableOp V → Answer V → Prop
  | .get key, r => r = .value (lookup live key)
  | .count key, r => r = .number (lookup live key).isSome.toUInt64
  | .size, r => ∃ n, r = .number n ∧ n.toNat = live.length
  | .insert _ _ _, r | .erase _, r | .clear, r => r = .done

/-- `malloc` finds a block that is not in use, whose header shows no sharers. -/
def Fresh (t : HashTable) : TableOp V → Prop
  | .insert _ _ block => ∃ b ∈ block, b.1 ≠ 0 ∧ t.node.mem b.1 = none ∧ b.2.sharerNodes = []
  | .erase _ | .get _ | .count _ | .size | .clear => True

instance decidableFresh (t : HashTable) : (op : TableOp V) → Decidable (op.Fresh t)
  | .insert _ _ block =>
    inferInstanceAs (Decidable (∃ b ∈ block, b.1 ≠ 0 ∧ t.node.mem b.1 = none ∧ b.2.sharerNodes = []))
  | .erase _ | .get _ | .count _ | .size | .clear => isTrue trivial

def key : TableOp V → Option UInt32
  | .insert key _ _ | .erase key | .get key | .count key => some key
  | .size | .clear => none

end TableOp

namespace Host

def Unlocked (node : Host) : Prop := LockTable.grants (node.locks node.id) .exclusive = true

variable {node : Host} {gaddr : GlobalAddress} {d : SaveData UInt64}

theorem Unlocked.grants (h : node.Unlocked) (st : LockState) : (node.setLock node.id st).1 = true := by
  unfold Unlocked at h
  unfold setLock
  rw [LockTable.setLock_snd]
  cases hlock : node.locks node.id with
  | none => cases st <;> rfl
  | some existing =>
    rw [hlock] at h
    cases existing <;> cases st <;> simp_all [LockTable.grants]

theorem unlocked_release (node : Host) : (node.setLock node.id .unlocked).2.Unlocked := by
  have hgrant : (node.locks.setLock node.id .unlocked).2 = true := by rw [LockTable.setLock_snd]; rfl
  unfold Unlocked
  simp [setLock, LockTable.setLock_granted hgrant, LockTable.grants]

theorem Unlocked.acquire (h : node.Unlocked) (hid : gaddr.id = node.id) (st : LockState) :
    node.setLock gaddr.id st = (true, (node.setLock gaddr.id st).2) := Prod.ext (hid ▸ h.grants st) rfl

theorem Unlocked.read_alone (h : node.Unlocked) (hid : gaddr.id = node.id) (hd : node.mem gaddr.ptr = some d)
    (hr : d.readable = true) :
    ∃ node', node.read gaddr some = some (d.data, node') ∧ node'.Unlocked := by
  refine ⟨((node.setLock gaddr.id .sharedlock).2.setLock gaddr.id .unlocked).2, ?_, ?_⟩
  · rw [read, h.acquire hid]
    simp [performRead, isLocal, GlobalAddress.getNodeId, hid, hd, hr]
  · rw [hid]
    exact unlocked_release _

theorem Unlocked.write_alone (h : node.Unlocked) (data : Data UInt64) (hid : data.ga.id = node.id)
    (hd : node.mem data.ga.ptr ≠ none) :
    ∃ node', node.write data some = some (data.ga, node') ∧ node'.Unlocked := by
  obtain ⟨d, hd⟩ := Option.ne_none_iff_exists'.mp hd
  refine ⟨(((node.setLock data.ga.id .exclusive).2.put data.ga.ptr (SaveData.written data.data node.id)).setLock
    data.ga.id .unlocked).2, ?_, ?_⟩
  · rw [write, h.acquire hid]
    simp [isLocal, GlobalAddress.getNodeId, hid, hd]
  · rw [hid]
    exact unlocked_release _

theorem free_all {es : List Elem} (hdistinct : (es.map fun e => e.gaddr.ptr).Nodup)
    (hblock : ∀ e ∈ es, e.gaddr.id = node.id ∧ node.mem e.gaddr.ptr ≠ none) :
    ∃ node', es.foldlM (fun node e => node.free e.gaddr) node = some node' ∧ node'.locks = node.locks ∧
      node'.id = node.id := by
  induction es generalizing node with
  | nil => exact ⟨node, rfl, rfl, rfl⟩
  | cons e es ih =>
    obtain ⟨hid, hmem⟩ := hblock e List.mem_cons_self
    obtain ⟨hne, hdistinct⟩ := List.nodup_cons.mp hdistinct
    have hfree : node.free e.gaddr = some (node.put e.gaddr.ptr none) := free_iff.mpr ⟨hid, hmem, rfl⟩
    have hrest : ∀ x ∈ es, x.gaddr.id = (node.put e.gaddr.ptr none).id ∧
      (node.put e.gaddr.ptr none).mem x.gaddr.ptr ≠ none := by
      intro x hx
      obtain ⟨hxid, hxmem⟩ := hblock x (List.mem_cons_of_mem e hx)
      have hptr : x.gaddr.ptr ≠ e.gaddr.ptr := fun heq => hne (List.mem_map.mpr ⟨x, hx, heq⟩)
      exact ⟨hxid, by simpa [hptr] using hxmem⟩
    obtain ⟨node', h', hlocks, hid'⟩ := ih hdistinct hrest
    exact ⟨node', by rw [List.foldlM_cons, hfree]; exact h', hlocks, hid'⟩

end Host

namespace HashTable

def binding (node : Host) (e : Elem) : UInt32 × Option (SaveData UInt64) := (e.key, node.mem e.gaddr.ptr)

def stored (id : NodeId) (b : UInt32 × V) : UInt32 × Option (SaveData UInt64) :=
  (b.1, some (.written (Integral.cast b.2) id))

/-- The table holds these insertions, and nobody holds its lock. -/
structure Stores (t : HashTable) (live : List (UInt32 × V)) (es : List Elem) : Prop where
  unlocked : t.node.Unlocked
  elements : t.Holds es
  values : es.map (binding t.node) = live.map (stored t.node.id)

variable {t t' : HashTable} {live : List (UInt32 × V)} {es : List Elem} {key : UInt32}

theorem stores_new {node : Host} (h : node.Unlocked) : (new node).Stores ([] : List (UInt32 × V)) [] :=
  ⟨h, holds_new node, rfl⟩

theorem Stores.find? (hT : t.Stores live es) (key : UInt32) :
    (es.find? fun e => e.key = key).map (binding t.node) = (live.find? fun b => b.1 = key).map (stored t.node.id) := by
  have h := congrArg (List.find? fun b => b.1 = key) hT.values
  rw [List.find?_map, List.find?_map] at h
  exact h

theorem Stores.eraseP (hT : t.Stores live es) (key : UInt32) :
    (es.eraseP fun e => e.key = key).map (binding t.node) = (remove live key).map (stored t.node.id) := by
  have h := congrArg (List.eraseP fun b => b.1 = key) hT.values
  rw [List.eraseP_map, List.eraseP_map] at h
  exact h

theorem Keeps.binding {node node' : Host} (h : Keeps node node' es) :
    es.map (binding node') = es.map (HashTable.binding node) :=
  List.map_congr_left fun e he => by rw [HashTable.binding, h.2 e he, HashTable.binding]

theorem Stores.mem (hT : t.Stores live es) {e : Elem} (he : es.find? (fun e => e.key = key) = some e) :
    ∃ v, lookup live key = some v ∧ t.node.mem e.gaddr.ptr = some (.written (Integral.cast v) t.node.id) := by
  have h := hT.find? key
  rw [he] at h
  obtain ⟨b, hb, heq⟩ := Option.map_eq_some_iff.mp h.symm
  exact ⟨b.2, by simp [lookup, hb], (Prod.ext_iff.mp heq).2.symm⟩

theorem Stores.shows (hT : t.Stores live es) {e : Elem} (he : e ∈ es) (hmem : t.node.mem e.gaddr.ptr = some d) :
    shows t.node e = d.data := by
  have hid := (hT.elements.block e he).1
  rw [HashTable.shows, hT.unlocked.acquire hid]
  simp [hmem]

theorem Stores.get (hT : t.Stores live es) (key : UInt32) :
    ∃ t', t.get V key [] = some (lookup live key, t') ∧ t'.Stores live es := by
  have hothers : t.serveOthers [] = some := rfl
  have hgets : ∃ r t', t.get V key [] = some (r, t') ∧ t'.node.Unlocked := by
    unfold HashTable.get
    rw [hT.elements.lookup key]
    cases hfind : es.find? fun e => e.key = key with
    | none => exact ⟨none, t, rfl, hT.unlocked⟩
    | some e =>
      obtain ⟨v, -, hmem⟩ := hT.mem hfind
      have hid := (hT.elements.block e (List.mem_of_find?_eq_some hfind)).1
      obtain ⟨node', hread, hlock⟩ := hT.unlocked.read_alone hid hmem rfl
      exact ⟨some v, { t with node := node' }, by simp [hothers, hread], hlock⟩
  obtain ⟨r, t', hget, hlock⟩ := hgets
  obtain ⟨helements, hkeeps, rfl⟩ := hT.elements.get hget
  have hanswer : (es.find? fun e => e.key = key).map (fun e => Integral.reinterpret (HashTable.shows t.node e)) = lookup
    live key := by
    cases hfind : es.find? fun e => e.key = key with
    | none =>
      have h := hT.find? key
      rw [hfind] at h
      simpa [lookup, eq_comm] using h
    | some e =>
      obtain ⟨v, hv, hmem⟩ := hT.mem hfind
      simp [hT.shows (List.mem_of_find?_eq_some hfind) hmem, hv]
  rw [hanswer] at hget
  refine ⟨t', hget, hlock, helements, ?_⟩
  rw [hkeeps.binding, hkeeps.1, hT.values]

theorem Stores.insert (hT : t.Stores live es) (key : UInt32) (value : V) {ptr : UInt64} (content : SaveData UInt64)
    (hptr : ptr ≠ 0) (hfresh : t.node.mem ptr = none) :
    ∃ t' es', t.insert key value (some (ptr, content)) [] = some t' ∧ t'.Stores ((key, value) :: live) es' := by
  have hinserts : ∃ t', t.insert key value (some (ptr, content)) [] = some t' ∧ t'.node.Unlocked := by
    have hlock : (t.node.put ptr content).Unlocked := hT.unlocked
    obtain ⟨node', hwrite, hlock'⟩ :=
      hlock.write_alone ⟨Integral.size V, Integral.cast value, ⟨Integral.size V, ptr, t.node.id⟩⟩
      rfl (by simp)
    refine ⟨⟨node', t.amountElements + 1, Function.update t.storage (hashBucket key)
      (⟨key, ⟨Integral.size V, ptr, t.node.id⟩⟩ :: t.storage (hashBucket key))⟩, ?_, hlock'⟩
    have hmalloc : t.node.malloc (Integral.size V) (some (ptr, content)) =
        some (⟨Integral.size V, ptr, t.node.id⟩, t.node.put ptr content) :=
      Host.malloc_iff.mpr ⟨ptr, content, rfl, hptr, hfresh, rfl, rfl⟩
    unfold HashTable.insert
    rw [hmalloc]
    exact Option.bind_eq_some_iff.mpr ⟨_, rfl, Option.bind_eq_some_iff.mpr ⟨_, hwrite, rfl⟩⟩
  obtain ⟨t', hinsert, hlock⟩ := hinserts
  obtain ⟨buffer, content', hblock, helements, hkeeps, hmem⟩ := hT.elements.insert hinsert
  obtain ⟨rfl, rfl⟩ : ptr = buffer ∧ content = content' := by simpa using hblock
  refine ⟨t', _, hinsert, hlock, helements, ?_⟩
  rw [List.map_cons, List.map_cons, hkeeps.binding, hkeeps.1, hT.values]
  simp [HashTable.binding, stored, hmem, hT.unlocked.grants]

theorem Stores.erase (hT : t.Stores live es) (key : UInt32) :
    ∃ t' es', t.erase key = some t' ∧ t'.Stores (remove live key) es' := by
  have herases : ∃ t', t.erase key = some t' ∧ t'.node.Unlocked := by
    unfold HashTable.erase
    simp only [hT.elements.lookup key]
    cases hfind : es.find? fun e => e.key = key with
    | none => exact ⟨t, rfl, hT.unlocked⟩
    | some e =>
      obtain ⟨hid, -, hmem⟩ := hT.elements.block e (List.mem_of_find?_eq_some hfind)
      have hfree : t.node.free e.gaddr = some (t.node.put e.gaddr.ptr none) := Host.free_iff.mpr ⟨hid, hmem, rfl⟩
      exact ⟨⟨t.node.put e.gaddr.ptr none, t.amountElements - 1, Function.update t.storage (hashBucket key)
        ((t.storage (hashBucket key)).eraseP fun e => e.key = key)⟩, by simp [hfree], hT.unlocked⟩
  obtain ⟨t', herase, hlock⟩ := herases
  obtain ⟨helements, hkeeps⟩ := hT.elements.erase herase
  refine ⟨t', _, herase, hlock, helements, ?_⟩
  rw [hkeeps.binding, hkeeps.1, hT.eraseP key]

theorem Stores.clear (hT : t.Stores live es) : ∃ t', t.clear = some t' ∧ t'.Stores ([] : List (UInt32 × V)) [] := by
  have hperm := hT.elements.chained.perm (hT.elements.distinct.of_map _) (List.nodup_finRange 64) List.mem_finRange
  have hdistinct := (hperm.map fun e => e.gaddr.ptr).nodup_iff.mpr hT.elements.distinct
  have hblock : ∀ e ∈ (List.finRange 64).flatMap t.storage, e.gaddr.id = t.node.id ∧ t.node.mem e.gaddr.ptr ≠ none := by
    intro e he
    obtain ⟨hid, -, hmem⟩ := hT.elements.block e (hperm.mem_iff.mp he)
    exact ⟨hid, hmem⟩
  obtain ⟨node, hfree, hlocks, hid⟩ := Host.free_all hdistinct hblock
  refine ⟨HashTable.new node, by simp [HashTable.clear, hfree], stores_new ?_⟩
  unfold Host.Unlocked
  rw [hlocks, hid]
  exact hT.unlocked

theorem Stores.perform (hT : t.Stores live es) {op : TableOp V} (hop : op.Fresh t) :
    ∃ r t' es', t.perform op [] = some (r, t') ∧ op.Answers live r ∧ t'.Stores (op.apply live) es' := by
  cases op with
  | insert key value block =>
    obtain ⟨⟨ptr, content⟩, rfl, hptr, hfresh, -⟩ := hop
    obtain ⟨t', es', h, hT'⟩ := hT.insert key value content hptr hfresh
    exact ⟨.done, t', es', by simp [HashTable.perform, h], rfl, hT'⟩
  | erase key =>
    obtain ⟨t', es', h, hT'⟩ := hT.erase key
    exact ⟨.done, t', es', by simp [HashTable.perform, h], rfl, hT'⟩
  | get key =>
    obtain ⟨t', h, hT'⟩ := hT.get key
    exact ⟨.value (lookup live key), t', es, by simp [HashTable.perform, h], rfl, hT'⟩
  | count key =>
    obtain ⟨t', h, hT'⟩ := hT.get key
    exact ⟨.number (lookup live key).isSome.toUInt64, t', es, by simp [HashTable.perform, HashTable.count, h], rfl, hT'⟩
  | size =>
    have hlength : es.length = live.length := by simpa using congrArg List.length hT.values
    exact ⟨.number t.size, t, es, rfl, ⟨t.size, rfl, hT.elements.size.trans hlength⟩, hT⟩
  | clear =>
    obtain ⟨t', h, hT'⟩ := hT.clear
    exact ⟨.done, t', [], by simp [HashTable.perform, h], rfl, hT'⟩

def stepAlone (t : HashTable) (op : TableOp V) : Option HashTable := (t.perform op []).map Prod.snd

theorem stores_run {node : Host} (hlock : node.Unlocked) {ops : List (TableOp V)}
    (hops : Tries stepAlone (fun t op => op.Fresh t) (new node) ops) :
    ∃ t es, run stepAlone (new node) ops = some t ∧ t.Stores (ops.foldl TableOp.apply []) es := by
  have hstep : ∀ (t : HashTable) (live : List (UInt32 × V)) (op : TableOp V), (∃ es, t.Stores live es) → op.Fresh t →
      ∃ t', stepAlone t op = some t' ∧ ∃ es, t'.Stores (op.apply live) es := by
    rintro t live op ⟨es, hT⟩ hop
    obtain ⟨r, t', es', h, -, hT'⟩ := hT.perform hop
    exact ⟨t', by simp [stepAlone, h], es', hT'⟩
  obtain ⟨t, hrun, es, hT⟩ := run_simulates (f := TableOp.apply) hstep ⟨[], stores_new hlock⟩ hops
  exact ⟨t, es, hrun, hT⟩

/-- After any calls, every call returns with the answer of the insertions that no `erase` or `clear` has undone,
and a call on one key changes no answer about another. -/
theorem loss_free {node : Host} (hlock : node.Unlocked) {ops : List (TableOp V)}
    (hops : Tries stepAlone (fun t op => op.Fresh t) (new node) ops) :
    ∃ t, run stepAlone (new node) ops = some t ∧ ∀ op : TableOp V, op.Fresh t →
      ∃ r t', t.perform op [] = some (r, t') ∧ op.Answers (ops.foldl TableOp.apply []) r ∧
        ∀ key key', op.key = some key → key' ≠ key →
          (t'.get V key' []).map Prod.fst = (t.get V key' []).map Prod.fst ∧
            (t'.count V key' []).map Prod.fst = (t.count V key' []).map Prod.fst := by
  obtain ⟨t, es, hrun, hT⟩ := stores_run hlock hops
  refine ⟨t, hrun, fun op hop => ?_⟩
  obtain ⟨r, t', es', h, hr, hT'⟩ := hT.perform hop
  refine ⟨r, t', h, hr, fun key key' hkey hne => ?_⟩
  have hlookup : lookup (op.apply (ops.foldl TableOp.apply [])) key' = lookup (ops.foldl TableOp.apply []) key' := by
    cases op with
    | insert k value block =>
      obtain rfl : k = key := by simpa [TableOp.key] using hkey
      simp [TableOp.apply, lookup_cons, hne]
    | erase k =>
      obtain rfl : k = key := by simpa [TableOp.key] using hkey
      exact lookup_remove_of_ne _ hne
    | get | count => rfl
    | size | clear => simp [TableOp.key] at hkey
  obtain ⟨u, hget, -⟩ := hT.get key'
  obtain ⟨u', hget', -⟩ := hT'.get key'
  rw [hlookup] at hget'
  simp [HashTable.count, hget, hget']

theorem loss_free_sharedBucket :
    ∃ t, run stepAlone (new ⟨locknode, LockTable.empty, fun _ => none⟩)
        [.insert 2 true (some (64, ⟨0, .other 7, 0, []⟩)), .insert 12 false (some (128, ⟨5, .shared, 9, []⟩)),
          .insert 2 false (some (192, ⟨0, .unshared, 0, []⟩)), .erase 2,
          .insert 12 true (some (192, ⟨1, .exclus, 3, []⟩))] =
      some t ∧ ∀ op : TableOp Bool, op.Fresh t →
        ∃ r t', t.perform op [] = some (r, t') ∧ op.Answers [(12, true), (12, false), (2, true)] r ∧
          ∀ key key', op.key = some key → key' ≠ key →
            (t'.get Bool key' []).map Prod.fst = (t.get Bool key' []).map Prod.fst ∧
              (t'.count Bool key' []).map Prod.fst = (t.count Bool key' []).map Prod.fst := by
  have hlock : Host.Unlocked ⟨locknode, LockTable.empty, fun _ => none⟩ := rfl
  exact loss_free hlock (by decide +kernel)

end HashTable
end CacheCoherence
