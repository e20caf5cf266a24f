import CacheCoherence.Application.HashTable
import CacheCoherence.Foundation.Chaining

/-! # The contents of a hash table

The chains and the blocks of a table are a list of elements, of which every call changes one end or takes one
out. The record in the block of an element changes only when the element is inserted.
-/
namespace CacheCoherence
open Chaining

namespace Host
variable {node node' : Host} {gaddr : GlobalAddress} {held : Host → Option Host} {r : Request}

@[simp] theorem put_id (ptr : UInt64) (d : Option (SaveData UInt64)) : (node.put ptr d).id = node.id := rfl
@[simp] theorem put_mem (ptr : UInt64) (d : Option (SaveData UInt64)) :
    (node.put ptr d).mem = Function.update node.mem ptr d := rfl
@[simp] theorem put_locks (ptr : UInt64) (d : Option (SaveData UInt64)) : (node.put ptr d).locks = node.locks := rfl
@[simp] theorem setLock_id (i : UInt16) (st : LockState) : (node.setLock i st).2.id = node.id := rfl
@[simp] theorem setLock_mem (i : UInt16) (st : LockState) : (node.setLock i st).2.mem = node.mem := rfl

theorem serve_keeps (h : node.serve r = some node') : node'.id = node.id ∧ ∀ ptr, r.block ≠ some ptr →
    node'.mem ptr = node.mem ptr := by
  cases r with
  | lock l =>
    obtain rfl : (node.setLock l.id l.state).2 = node' := by simpa [serve] using h
    exact ⟨rfl, fun ptr _ => rfl⟩
  | read p srcID =>
    obtain ⟨d, hd, -, rfl⟩ : ∃ d, node.mem p = some d ∧ d.readable = true ∧ node.put p (d.register srcID) = node' := by
      simpa [serve, Option.bind_eq_some_iff] using h
    refine ⟨rfl, fun ptr hptr => Function.update_of_ne (fun heq => hptr ?_) _ _⟩
    rw [heq, Request.block]
  | write p data srcID =>
    obtain ⟨d, hd, rfl⟩ : ∃ d, node.mem p = some d ∧ node.put p (SaveData.owned data srcID) = node' := by
      simpa [serve, Option.bind_eq_some_iff] using h
    refine ⟨rfl, fun ptr hptr => Function.update_of_ne (fun heq => hptr ?_) _ _⟩
    rw [heq, Request.block]

theorem performRead_eq {d : SaveData UInt64} (h : node.performRead gaddr = some d) :
    node.mem gaddr.ptr = some d ∧ d.readable = true := by
  obtain ⟨-, d', hd, hread, rfl⟩ : node.isLocal gaddr = true ∧ ∃ d', node.mem gaddr.ptr = some d' ∧ d'.readable = true ∧
    d' = d := by
    simpa [performRead, Option.bind_eq_some_iff] using h
  exact ⟨hd, hread⟩

theorem malloc_iff {size : UInt64} {block : Option (UInt64 × SaveData UInt64)} :
    node.malloc size block = some (gaddr, node') ↔
    ∃ buffer content, block = some (buffer, content) ∧ buffer ≠ 0 ∧ node.mem buffer = none ∧
      gaddr = ⟨size, buffer, node.id⟩ ∧ node' = node.put buffer content := by
  constructor
  · intro h
    obtain ⟨⟨buffer, content⟩, hblock, ⟨hnull, hfree⟩, hgaddr, hput⟩ :
        ∃ p : UInt64 × SaveData UInt64, block = some p ∧ (p.1 ≠ 0 ∧ node.mem p.1 = none) ∧
          (⟨size, p.1, node.id⟩ : GlobalAddress) = gaddr ∧ node.put p.1 p.2 = node' := by
      simpa [malloc, Option.bind_eq_some_iff] using h
    exact ⟨buffer, content, hblock, hnull, hfree, hgaddr.symm, hput.symm⟩
  · rintro ⟨buffer, content, rfl, hnull, hfree, rfl, rfl⟩
    simp [malloc, hnull, hfree]

theorem free_iff : node.free gaddr = some node' ↔
    gaddr.id = node.id ∧ node.mem gaddr.ptr ≠ none ∧ node' = node.put gaddr.ptr none := by
  by_cases hid : gaddr.id = node.id
  · cases hmem : node.mem gaddr.ptr <;> simp [free, isLocal, GlobalAddress.getNodeId, hmem, hid, eq_comm]
  · simp [free, isLocal, GlobalAddress.getNodeId, hid]

theorem read_cases {value : UInt64} (h : node.read gaddr held = some (value, node')) :
    ((node.setLock gaddr.id .sharedlock).1 = false ∧ value = 0 ∧ node' = (node.setLock gaddr.id .sharedlock).2) ∨
      ((node.setLock gaddr.id .sharedlock).1 = true ∧
        ∃ node₁ d, held (node.setLock gaddr.id .sharedlock).2 = some node₁ ∧
        node₁.performRead gaddr = some d ∧ value = d.data ∧ node' = (node₁.setLock gaddr.id .unlocked).2) := by
  unfold read at h
  generalize node.setLock gaddr.id .sharedlock = p at h ⊢
  obtain ⟨granted, node₀⟩ := p
  cases granted with
  | false =>
    obtain ⟨rfl, rfl⟩ : 0 = value ∧ node₀ = node' := by simpa using h
    exact Or.inl ⟨rfl, rfl, rfl⟩
  | true =>
    obtain ⟨node₁, hheld, d, hd, rfl, rfl⟩ : ∃ node₁, held node₀ = some node₁ ∧ ∃ d, node₁.performRead gaddr = some d ∧
        d.data = value ∧ (node₁.setLock gaddr.id .unlocked).2 = node' := by
      simpa [Option.bind_eq_some_iff] using h
    exact Or.inr ⟨rfl, node₁, d, hheld, hd, rfl, rfl⟩

theorem write_cases {data : Data UInt64} {result : GlobalAddress} (h : node.write data held = some (result, node')) :
    ((node.setLock data.ga.id .exclusive).1 = false ∧ node' = (node.setLock data.ga.id .exclusive).2) ∨
      ((node.setLock data.ga.id .exclusive).1 = true ∧
        ∃ node₁, held (node.setLock data.ga.id .exclusive).2 = some node₁ ∧
        node' = ((node₁.put data.ga.ptr (SaveData.written data.data node₁.id)).setLock data.ga.id .unlocked).2) := by
  unfold write at h
  generalize node.setLock data.ga.id .exclusive = p at h ⊢
  obtain ⟨granted, node₀⟩ := p
  cases granted with
  | false =>
    obtain ⟨-, rfl⟩ : (⟨0, 0, 0⟩ : GlobalAddress) = result ∧ node₀ = node' := by simpa using h
    exact Or.inl ⟨rfl, rfl⟩
  | true =>
    obtain ⟨node₁, hheld, -, -, -, -, rfl⟩ : ∃ node₁, held node₀ = some node₁ ∧ node₁.isLocal data.ga = true ∧
        ∃ d, node₁.mem data.ga.ptr = some d ∧ data.ga = result ∧
          ((node₁.put data.ga.ptr (SaveData.written data.data node₁.id)).setLock data.ga.id .unlocked).2 = node' := by
      simpa [Option.bind_eq_some_iff] using h
    exact Or.inr ⟨rfl, node₁, hheld, rfl⟩

end Host

namespace HashTable

/-- The elements of the table, the newest first: their chains, their blocks and their number. -/
structure Holds (t : HashTable) (es : List Elem) : Prop where
  chained : Chained Elem.key hashBucket t.storage es
  distinct : (es.map fun e => e.gaddr.ptr).Nodup
  block : ∀ e ∈ es, e.gaddr.id = t.node.id ∧ e.gaddr.ptr ≠ 0 ∧ t.node.mem e.gaddr.ptr ≠ none
  amount : t.amountElements = UInt64.ofNat es.length

def Keeps (node node' : Host) (es : List Elem) : Prop :=
  node'.id = node.id ∧ ∀ e ∈ es, node'.mem e.gaddr.ptr = node.mem e.gaddr.ptr

variable {t t' : HashTable} {node node' : Host} {es : List Elem} {held : List Request} {key : UInt32}

theorem holds_new (node : Host) : (new node).Holds [] := ⟨chained_empty, List.nodup_nil, by simp, rfl⟩

theorem Keeps.trans {node'' : Host} (h : Keeps node node' es) (h' : Keeps node' node'' es) : Keeps node node'' es :=
  ⟨h'.1.trans h.1, fun e he => (h'.2 e he).trans (h.2 e he)⟩

theorem Keeps.put (h : Keeps node node' es) {ptr : UInt64} (hptr : ptr ∉ es.map fun e => e.gaddr.ptr)
    (d : Option (SaveData UInt64)) : Keeps node (node'.put ptr d) es := by
  refine ⟨h.1, fun e he => ?_⟩
  have hne : e.gaddr.ptr ≠ ptr := fun heq => hptr (List.mem_map.mpr ⟨e, he, heq⟩)
  rw [Host.put_mem, Function.update_of_ne hne]
  exact h.2 e he

theorem Holds.keeps (hT : t.Holds es) (h : Keeps t.node node es) : ({ t with node := node } : HashTable).Holds es := by
  refine ⟨hT.chained, hT.distinct, fun e he => ?_, hT.amount⟩
  rw [h.1, h.2 e he]
  exact hT.block e he

theorem Holds.owns (hT : t.Holds es) {e : Elem} (he : e ∈ es) : t.owns e.gaddr.ptr = true := by
  have hmem : e ∈ t.storage (hashBucket e.key) := hT.chained.mem.mpr ⟨he, rfl⟩
  exact List.any_eq_true.mpr ⟨hashBucket e.key, List.mem_finRange _, List.any_eq_true.mpr ⟨e, hmem, by simp⟩⟩

/-- Other clients do not reach the blocks of a table. -/
theorem Holds.serveOthers (hT : t.Holds es) (h : t.serveOthers held node = some node') : Keeps node node' es := by
  induction held generalizing node with
  | nil => exact Option.some.inj h ▸ ⟨rfl, fun e _ => rfl⟩
  | cons r rs ih =>
    rw [HashTable.serveOthers, List.foldlM_cons] at h
    obtain ⟨node₁, h₁, h⟩ := Option.bind_eq_some_iff.mp h
    split at h₁
    · cases h₁
    · obtain ⟨hid, hmem⟩ := Host.serve_keeps h₁
      have hkeeps : Keeps node node₁ es := by
        refine ⟨hid, fun e he => hmem _ fun hblock => ?_⟩
        have hown := hT.owns he
        simp_all
      exact hkeeps.trans (ih h)

theorem Holds.ptr_notMem (hT : t.Holds es) {e : Elem} (he : es.find? (fun e => e.key = key) = some e) :
    e.gaddr.ptr ∉ (es.eraseP fun e => e.key = key).map fun e => e.gaddr.ptr := by
  have hdistinct := hT.distinct
  clear hT
  induction es with
  | nil => simp at he
  | cons x xs ih =>
    by_cases hk : x.key = key
    · obtain rfl : x = e := by simpa [hk] using he
      simpa [hk] using (List.nodup_cons.mp hdistinct).1
    · have he' : xs.find? (fun e => e.key = key) = some e := by simpa [hk] using he
      have hx : x.gaddr.ptr ≠ e.gaddr.ptr := by
        intro heq
        refine (List.nodup_cons.mp hdistinct).1 ?_
        exact List.mem_map.mpr ⟨e, List.mem_of_find?_eq_some he', heq.symm⟩
      have hxs := ih he' (List.nodup_cons.mp hdistinct).2
      simpa [hk, hx.symm] using hxs

theorem Holds.push (hT : t.Holds es) (key : UInt32) {buffer : UInt64} (hnull : buffer ≠ 0)
    (hfree : t.node.mem buffer = none)
    (content : SaveData UInt64) (size : UInt64) :
    Keeps t.node (t.node.put buffer content) es ∧
      Holds ⟨t.node.put buffer content, t.amountElements + 1, Function.update t.storage (hashBucket key)
        (⟨key, ⟨size, buffer, t.node.id⟩⟩ :: t.storage (hashBucket key))⟩ (⟨key, ⟨size, buffer, t.node.id⟩⟩ :: es) := by
  have hfresh : buffer ∉ es.map fun e => e.gaddr.ptr := by
    intro hmem
    obtain ⟨e, he, rfl⟩ := List.mem_map.mp hmem
    exact (hT.block e he).2.2 hfree
  have hkeeps : Keeps t.node (t.node.put buffer content) es := Keeps.put ⟨rfl, fun e _ => rfl⟩ hfresh content
  refine ⟨hkeeps, ?_, List.nodup_cons.mpr ⟨hfresh, hT.distinct⟩, fun e he => ?_, ?_⟩
  · exact hT.chained.push ⟨key, ⟨size, buffer, t.node.id⟩⟩
  · rcases List.mem_cons.mp he with rfl | he
    · exact ⟨rfl, hnull, by simp⟩
    · exact (hT.keeps hkeeps).block e he
  · show t.amountElements + 1 = UInt64.ofNat (es.length + 1)
    rw [hT.amount, UInt64.ofNat_add]
    rfl

variable {V : Type} [Integral V] {value : V} {block : Option (UInt64 × SaveData UInt64)}

/-- An insertion adds an element whose block holds the value, or the fresh content when the lock is denied. -/
theorem Holds.insert (hT : t.Holds es) (h : t.insert key value block held = some t') :
    ∃ buffer content, block = some (buffer, content) ∧
      t'.Holds (⟨key, ⟨Integral.size V, buffer, t.node.id⟩⟩ :: es) ∧ Keeps t.node t'.node es ∧
      t'.node.mem buffer = some
        (if (t.node.setLock t.node.id .exclusive).1 then .written (Integral.cast value) t.node.id else content) := by
  obtain ⟨⟨gadd, node₀⟩, hmalloc, ⟨result, node₁⟩, hwrite, rfl⟩ := by
    simpa only [HashTable.insert, Option.bind_eq_bind, Option.bind_eq_some_iff, Option.some.injEq] using h
  obtain ⟨buffer, content, rfl, hnull, hfree, rfl, rfl⟩ := Host.malloc_iff.mp hmalloc
  obtain ⟨hkeeps, hpush⟩ := hT.push key hnull hfree content (Integral.size V)
  refine ⟨buffer, content, rfl, ?_⟩
  rcases Host.write_cases hwrite with ⟨hdenied, rfl⟩ | ⟨hgranted, node₂, hheld, rfl⟩
  · have hgrant : (t.node.setLock t.node.id .exclusive).1 = false := hdenied
    exact ⟨hpush.keeps ⟨rfl, fun e _ => rfl⟩, hkeeps, by simp [hgrant]⟩
  · have hgrant : (t.node.setLock t.node.id .exclusive).1 = true := hgranted
    have hothers := hpush.serveOthers hheld
    have hold : Keeps t.node node₂ es :=
      ⟨hothers.1, fun e he => (hothers.2 e (List.mem_cons_of_mem _ he)).trans (hkeeps.2 e he)⟩
    have hid : node₂.id = t.node.id := hothers.1
    have hfresh : buffer ∉ es.map fun e => e.gaddr.ptr := (List.nodup_cons.mp hpush.distinct).1
    have hkept : Keeps t.node (node₂.put buffer (SaveData.written (Integral.cast value) node₂.id)) es :=
      hold.put hfresh _
    refine ⟨⟨hpush.chained, hpush.distinct, fun e he => ?_, hpush.amount⟩, hkept, by simp [hgrant, hid]⟩
    rcases List.mem_cons.mp he with rfl | he
    · exact ⟨hid.symm, hnull, by simp⟩
    · exact (hT.keeps hkept).block e he

theorem Holds.lookup (hT : t.Holds es) (key : UInt32) :
    (t.storage (hashBucket key)).find? (fun e => e.key = key) = es.find? fun e => e.key = key :=
  hT.chained.find? key

theorem Holds.erase (hT : t.Holds es) (h : t.erase key = some t') :
    t'.Holds (es.eraseP fun e => e.key = key) ∧ Keeps t.node t'.node (es.eraseP fun e => e.key = key) := by
  unfold HashTable.erase at h
  simp only [hT.lookup key] at h
  cases hfind : es.find? fun e => e.key = key with
  | none =>
    have hnone : ∀ e ∈ es, ¬ (decide (e.key = key) = true) := by simpa using hfind
    obtain rfl : t = t' := by simpa [hfind] using h
    rw [List.eraseP_of_forall_not hnone]
    exact ⟨hT, rfl, fun e _ => rfl⟩
  | some e =>
    have hmem : e ∈ es := List.mem_of_find?_eq_some hfind
    obtain ⟨node, hfree, rfl⟩ : ∃ node, t.node.free e.gaddr = some node ∧ (⟨node, t.amountElements - 1,
        Function.update t.storage (hashBucket key) ((t.storage (hashBucket key)).eraseP fun e => e.key = key)⟩ :
          HashTable) = t' := by
      simpa [hfind, Option.bind_eq_some_iff] using h
    obtain ⟨-, -, rfl⟩ := Host.free_iff.mp hfree
    have hkept : Keeps t.node (t.node.put e.gaddr.ptr none) (es.eraseP fun e => e.key = key) :=
      Keeps.put ⟨rfl, fun e _ => rfl⟩ (hT.ptr_notMem hfind) none
    have hlength : (es.eraseP fun e => e.key = key).length + 1 = es.length := by
      have hpos : 0 < es.length := List.length_pos_of_mem hmem
      rw [List.length_eraseP_of_mem hmem (by simpa using List.find?_some hfind)]
      omega
    refine ⟨⟨hT.chained.eraseP key, ?_, fun x hx => ?_, ?_⟩, hkept⟩
    · exact hT.distinct.sublist (List.eraseP_sublist.map _)
    · rw [hkept.2 x hx]
      exact hT.block x (List.mem_of_mem_eraseP hx)
    · show t.amountElements - 1 = _
      rw [hT.amount, ← hlength, UInt64.ofNat_add]
      exact UInt64.add_sub_cancel _ _

def shows (node : Host) (e : Elem) : UInt64 :=
  if (node.setLock e.gaddr.id .sharedlock).1 then ((node.mem e.gaddr.ptr).map SaveData.data).getD 0 else 0

theorem Holds.read (hT : t.Holds es) {e : Elem} (he : e ∈ es) {w : UInt64}
    (h : t.node.read e.gaddr (t.serveOthers held) = some (w, node)) : Keeps t.node node es ∧ w = shows t.node e := by
  rcases Host.read_cases h with ⟨hdenied, rfl, rfl⟩ | ⟨hgranted, node₂, d, hheld, hd, rfl, rfl⟩
  · exact ⟨⟨rfl, fun e _ => rfl⟩, by simp [shows, hdenied]⟩
  · have hothers := hT.serveOthers hheld
    have hmem : t.node.mem e.gaddr.ptr = some d := (hothers.2 e he).symm.trans (Host.performRead_eq hd).1
    exact ⟨hothers, by simp [shows, hgranted, hmem]⟩

theorem Holds.get (hT : t.Holds es) {r : Option V} (h : t.get V key held = some (r, t')) :
    t'.Holds es ∧ Keeps t.node t'.node es ∧
      r = (es.find? fun e => e.key = key).map fun e => Integral.reinterpret (shows t.node e) := by
  unfold HashTable.get at h
  rw [hT.lookup key] at h
  cases hfind : es.find? fun e => e.key = key with
  | none =>
    obtain ⟨rfl, rfl⟩ : none = r ∧ t = t' := by simpa [hfind] using h
    exact ⟨hT, ⟨rfl, fun e _ => rfl⟩, rfl⟩
  | some e =>
    obtain ⟨w, node₁, hread, rfl, rfl⟩ : ∃ w node₁, t.node.read e.gaddr (t.serveOthers held) = some (w, node₁) ∧
        some (Integral.reinterpret w) = r ∧ ({ t with node := node₁ } : HashTable) = t' := by
      simpa [hfind, Option.bind_eq_some_iff] using h
    obtain ⟨hkeeps, rfl⟩ := hT.read (List.mem_of_find?_eq_some hfind) hread
    exact ⟨hT.keeps hkeeps, hkeeps, rfl⟩

theorem clear_holds (h : t.clear = some t') : t'.Holds [] ∧ t'.node.id = t.node.id := by
  obtain ⟨node, hfree, rfl⟩ :
    ∃ node, ((List.finRange 64).flatMap t.storage).foldlM (fun node e => node.free e.gaddr) t.node = some node ∧
      new node = t' := by
    simpa [HashTable.clear, Option.bind_eq_some_iff] using h
  refine ⟨holds_new node, ?_⟩
  show node.id = t.node.id
  clear h
  generalize (List.finRange 64).flatMap t.storage = l at hfree
  generalize t.node = node₀ at hfree ⊢
  induction l generalizing node₀ with
  | nil => exact congrArg Host.id (Option.some.inj hfree).symm
  | cons e l ih =>
    rw [List.foldlM_cons] at hfree
    obtain ⟨node₁, h₁, hfree⟩ := Option.bind_eq_some_iff.mp hfree
    obtain ⟨-, -, rfl⟩ := Host.free_iff.mp h₁
    have hid := ih (node₀.put e.gaddr.ptr none) hfree
    exact hid

inductive Performed (t : HashTable) (held : List Request) : TableOp V → Answer V → HashTable → Prop
  | insert {key : UInt32} {value : V} {block : Option (UInt64 × SaveData UInt64)} {t' : HashTable}
      (h : t.insert key value block held = some t') : Performed t held (.insert key value block) .done t'
  | erase {key : UInt32} {t' : HashTable} (h : t.erase key = some t') : Performed t held (.erase key) .done t'
  | get {key : UInt32} {v : Option V} {t' : HashTable} (h : t.get V key held = some (v, t')) :
      Performed t held (.get key) (.value v) t'
  | count {key : UInt32} {v : Option V} {t' : HashTable} (h : t.get V key held = some (v, t')) :
      Performed t held (.count key) (.number v.isSome.toUInt64) t'
  | size : Performed t held .size (.number t.size) t
  | clear {t' : HashTable} (h : t.clear = some t') : Performed t held .clear .done t'

theorem performed_of_perform {op : TableOp V} {r : Answer V} (h : t.perform op held = some (r, t')) :
    Performed t held op r t' := by
  cases op with
  | insert key value block =>
    obtain ⟨u, hinsert, hu⟩ := Option.map_eq_some_iff.mp h
    cases hu
    exact .insert hinsert
  | erase key =>
    obtain ⟨u, herase, hu⟩ := Option.map_eq_some_iff.mp h
    cases hu
    exact .erase herase
  | get key =>
    obtain ⟨⟨v, u⟩, hget, hu⟩ := Option.map_eq_some_iff.mp h
    cases hu
    exact .get hget
  | count key =>
    obtain ⟨⟨n, u⟩, hcount, hu⟩ := Option.map_eq_some_iff.mp h
    cases hu
    obtain ⟨⟨v, u'⟩, hget, hu'⟩ := Option.bind_eq_some_iff.mp hcount
    cases hu'
    exact .count hget
  | size =>
    cases h
    exact .size
  | clear =>
    obtain ⟨u, hclear, hu⟩ := Option.map_eq_some_iff.mp h
    cases hu
    exact .clear hclear

/-- The counter is the number of elements: their blocks are different addresses, and none is null. -/
theorem Holds.size (hT : t.Holds es) : t.size.toNat = es.length := by
  have hlt : es.length < 2 ^ 64 := by
    have hnull : (0 : UInt64) ∉ es.map fun e => e.gaddr.ptr := by
      intro hmem
      obtain ⟨e, he, hptr⟩ := List.mem_map.mp hmem
      exact (hT.block e he).2.1 hptr
    have hnodup := ((List.nodup_cons.mpr ⟨hnull, hT.distinct⟩).map fun a b => UInt64.toFin_inj.mp).length_le_card
    simp only [List.length_map, List.length_cons, Fintype.card_fin] at hnodup
    exact hnodup
  rw [HashTable.size, hT.amount]
  exact UInt64.toNat_ofNat_of_lt hlt

end HashTable
end CacheCoherence
