import CacheCoherence.Application.Contents
import CacheCoherence.Foundation.TransitionRuns

/-! # `operator[]` of the hash table

The operator reads the word of its element into a variable of its own and hands out a reference to that variable.
What the caller assigns to it does not get to the block of the element.
-/
namespace CacheCoherence
open TransitionRuns

namespace HashTable

def index (V : Type) [Integral V] (t : HashTable) (key : UInt32) (block : Option (UInt64 × SaveData UInt64))
    (held : List Request) : Option (UInt64 × HashTable) :=
  match (t.storage (hashBucket key)).find? fun e => e.key = key with
  | some bucket => do
    let (value, node) ← t.node.read bucket.gaddr (t.serveOthers held)
    some (value, { t with node := node })
  | none => do
    let (gadd, node) ← t.node.malloc (Integral.size V) block
    let t : HashTable := ⟨node, t.amountElements + 1,
      Function.update t.storage (hashBucket key) (⟨key, gadd⟩ :: t.storage (hashBucket key))⟩
    let (value, node) ← t.node.read gadd (t.serveOthers held)
    some (value, { t with node := node })

/-- `table[key] = value`. The variable that takes the value is gone by then. -/
def assign {V : Type} [Integral V] (t : HashTable) (key : UInt32) (_value : V)
    (block : Option (UInt64 × SaveData UInt64))
    (held : List Request) : Option HashTable := (t.index V key block held).map Prod.snd

end HashTable

inductive TableUse (V : Type) where
  | call (op : TableOp V) (held : List Request)
  | assign (key : UInt32) (value : V) (block : Option (UInt64 × SaveData UInt64)) (held : List Request)
  | serve (r : Request)
deriving DecidableEq, Repr

namespace HashTable
variable {V : Type} [Integral V]

def step (t : HashTable) : TableUse V → Option HashTable
  | .call op held => (t.perform op held).map Prod.snd
  | .assign key value block held => t.assign key value block held
  | .serve r => (t.serveOthers [r] t.node).map fun node => { t with node := node }

def Present (t : HashTable) (key : UInt32) : Prop := ∃ e ∈ t.storage (hashBucket key), e.key = key

instance (t : HashTable) (key : UInt32) : Decidable (t.Present key) :=
  inferInstanceAs (Decidable (∃ e ∈ t.storage (hashBucket key), e.key = key))

/-- The value can be looked up, the size counts it, and nothing else has changed. -/
structure Edited (t t' : HashTable) (key : UInt32) (value : V) : Prop where
  get : (t'.get V key []).map Prod.fst = some (some value)
  size : t'.size.toNat = t.size.toNat + if t.Present key then 0 else 1
  others : ∀ key' ≠ key, (t'.get V key' []).map Prod.fst = (t.get V key' []).map Prod.fst

def Edits (t : HashTable) : TableUse V → Prop
  | .assign key value block held => ∀ t' ∈ t.assign key value block held, t.Edited t' key value
  | _ => True

/-- The word that a lookup gets reads as the value anyway: that of the newest element of the key, or what the
fresh block was found with; without the SHAREDLOCK it is 0. -/
def ReadsAs (t : HashTable) : TableUse V → Prop
  | .assign key value block _ =>
    Integral.reinterpret (if (t.node.setLock t.node.id .sharedlock).1 then
      match (t.storage (hashBucket key)).find? fun e => e.key = key with
      | some e => ((t.node.mem e.gaddr.ptr).map SaveData.data).getD 0
      | none => (block.map fun b => b.2.data).getD 0
    else 0) = value
  | _ => True

end HashTable

namespace Host

def shares (node : Host) : Bool := (node.setLock node.id .sharedlock).1

variable {node node' : Host} {gaddr : GlobalAddress} {held : Host → Option Host} {value : UInt64}

theorem shares_eq (node : Host) : node.shares = LockTable.grants (node.locks node.id) .sharedlock :=
  LockTable.setLock_snd _ _ _

theorem read_shares (hid : gaddr.id = node.id) (hid' : node'.id = node.id)
    (h : node.read gaddr held = some (value, node')) :
    node'.shares = node.shares := by
  rcases read_cases h with ⟨hdenied, -, rfl⟩ | ⟨hgranted, node₁, d, -, -, -, rfl⟩
  · have hlocks : (node.locks.setLock gaddr.id .sharedlock).1 = node.locks := LockTable.setLock_denied hdenied
    rw [shares_eq, shares_eq]
    exact congrArg (fun locks : LockTable => LockTable.grants (locks node.id) .sharedlock) hlocks
  · have hopen : ((node₁.setLock gaddr.id .unlocked).2.locks gaddr.id) = some .unlocked := by
      simp [setLock, LockTable.setLock_eq, LockTable.grants]
    have hnode : node.shares = true := by rw [shares, ← hid, hgranted]
    rw [hnode, shares_eq, hid', ← hid, hopen]
    rfl

end Host

namespace HashTable
variable {V : Type} [Integral V] {t t' : HashTable} {node : Host} {es : List Elem} {held : List Request} {key : UInt32}
    {e : Elem}
  {block : Option (UInt64 × SaveData UInt64)} {w : UInt64}

/-- What a lookup answers from an element: 0 without the lock, and nothing where it goes through a null pointer. -/
def answer (V : Type) [Integral V] (node : Host) (e : Elem) : Option V :=
  if node.shares then ((node.mem e.gaddr.ptr).filter SaveData.readable).map fun d => Integral.reinterpret d.data
  else some (Integral.reinterpret 0)

theorem Holds.get_alone (hT : t.Holds es) (key : UInt32) : (t.get V key []).map Prod.fst =
    match es.find? fun e => e.key = key with
    | some e => (answer V t.node e).map some
    | none => some none := by
  unfold HashTable.get
  rw [hT.lookup key]
  cases hfind : es.find? fun e => e.key = key with
  | none => rfl
  | some e =>
    have hid : e.gaddr.id = t.node.id := (hT.block e (List.mem_of_find?_eq_some hfind)).1
    have hothers : t.serveOthers [] = some := rfl
    have hread : (t.node.read e.gaddr some).map (fun p => (Integral.reinterpret p.1 : V)) = answer V t.node e := by
      have hnode : (t.node.setLock e.gaddr.id .sharedlock).2.id = e.gaddr.id := hid.symm
      have hmem : (t.node.setLock e.gaddr.id .sharedlock).2.mem = t.node.mem := rfl
      rw [Host.read, answer, Host.shares, ← hid]
      generalize t.node.setLock e.gaddr.id .sharedlock = p at hnode hmem ⊢
      obtain ⟨granted, node₀⟩ := p
      cases granted with
      | false => rfl
      | true =>
        simp only at hnode hmem
        cases hd : t.node.mem e.gaddr.ptr with
        | none => simp [Host.performRead, hmem, hd]
        | some d =>
          cases hread : d.readable <;>
            simp [Host.performRead, Host.isLocal, GlobalAddress.getNodeId, hnode, hmem, hd, hread]
    simp only [← hread, hothers]
    cases t.node.read e.gaddr some <;> rfl

theorem Holds.read_answer (hT : t.Holds es) (he : e ∈ es)
    (h : t.node.read e.gaddr (t.serveOthers held) = some (w, node)) :
    answer V t.node e = some (Integral.reinterpret w) := by
  have hid : e.gaddr.id = t.node.id := (hT.block e he).1
  rcases Host.read_cases h with ⟨hdenied, rfl, -⟩ | ⟨hgranted, node₁, d, hheld, hd, rfl, -⟩
  · have hshares : t.node.shares = false := by rw [Host.shares, ← hid, hdenied]
    rw [answer, hshares]
    rfl
  · have hshares : t.node.shares = true := by rw [Host.shares, ← hid, hgranted]
    obtain ⟨hmem, hreadable⟩ := Host.performRead_eq hd
    rw [(hT.serveOthers hheld).2 e he] at hmem
    have hmem' : t.node.mem e.gaddr.ptr = some d := hmem
    rw [answer, hshares, if_pos rfl, hmem', Option.filter_some_pos hreadable]
    rfl

theorem answer_same {node' : Host} (h : Keeps node node' es) (hshares : node'.shares = node.shares) (he : e ∈ es) :
    answer V node' e = answer V node e := by
  rw [answer, answer, hshares, h.2 e he]

theorem Holds.index_present (hT : t.Holds es) (he : es.find? (fun e => e.key = key) = some e)
    (h : t.index V key block held = some (w, t')) :
    t'.Holds es ∧ Keeps t.node t'.node es ∧ t'.node.shares = t.node.shares ∧
      answer V t'.node e = some (Integral.reinterpret w) ∧ w = shows t.node e := by
  unfold HashTable.index at h
  simp only [hT.lookup key, he] at h
  obtain ⟨⟨w', node₁⟩, hread, h⟩ := Option.bind_eq_some_iff.mp h
  obtain ⟨rfl, rfl⟩ := Prod.mk.inj (Option.some.inj h)
  have hmem : e ∈ es := List.mem_of_find?_eq_some he
  obtain ⟨hkeeps, hw⟩ := hT.read hmem hread
  have hshares : node₁.shares = t.node.shares := Host.read_shares (hT.block e hmem).1 hkeeps.1 hread
  exact ⟨hT.keeps hkeeps, hkeeps, hshares, (answer_same hkeeps hshares hmem).trans (hT.read_answer hmem hread), hw⟩

theorem Holds.index_absent (hT : t.Holds es) (he : es.find? (fun e => e.key = key) = none)
    (h : t.index V key block held = some (w, t')) :
    ∃ buffer content, block = some (buffer, content) ∧ t'.Holds (⟨key, ⟨Integral.size V, buffer, t.node.id⟩⟩ :: es) ∧
      Keeps t.node t'.node es ∧ t'.node.shares = t.node.shares ∧
        answer V t'.node ⟨key, ⟨Integral.size V, buffer, t.node.id⟩⟩ = some (Integral.reinterpret w) ∧
          w = if t.node.shares then content.data else 0 := by
  unfold HashTable.index at h
  simp only [hT.lookup key, he] at h
  obtain ⟨⟨gadd, node₀⟩, hmalloc, h⟩ := Option.bind_eq_some_iff.mp h
  obtain ⟨⟨w', node₁⟩, hread, h⟩ := Option.bind_eq_some_iff.mp h
  obtain ⟨rfl, rfl⟩ := Prod.mk.inj (Option.some.inj h)
  obtain ⟨buffer, content, rfl, hnull, hfree, rfl, rfl⟩ := Host.malloc_iff.mp hmalloc
  obtain ⟨hkeeps, hpush⟩ := hT.push key hnull hfree content (Integral.size V)
  have hnew : (⟨key, ⟨Integral.size V, buffer, t.node.id⟩⟩ : Elem) ∈
      (⟨key, ⟨Integral.size V, buffer, t.node.id⟩⟩ :: es : List Elem) :=
    List.mem_cons_self
  obtain ⟨hkept, hw⟩ := hpush.read hnew hread
  have hshares : node₁.shares = t.node.shares := (Host.read_shares rfl hkept.1 hread).trans rfl
  refine ⟨buffer, content, rfl, hpush.keeps hkept, ⟨hkept.1, fun e he => ?_⟩, hshares, ?_, ?_⟩
  · exact (hkept.2 e (List.mem_cons_of_mem _ he)).trans (hkeeps.2 e he)
  · exact (answer_same hkept hshares hnew).trans (hpush.read_answer hnew hread)
  · rw [hw, shows, Host.put_mem, Function.update_self]
    rfl

theorem Holds.present_iff (hT : t.Holds es) : t.Present key ↔ ∃ e, es.find? (fun e => e.key = key) = some e := by
  rw [← hT.lookup key, ← Option.isSome_iff_exists, List.find?_isSome]
  simp [Present]

theorem Holds.perform (hT : t.Holds es) {op : TableOp V} {r : Answer V} (h : t.perform op held = some (r, t')) :
    ∃ es', t'.Holds es' := by
  cases performed_of_perform h with
  | insert hinsert =>
    obtain ⟨buffer, content, -, hu, -⟩ := hT.insert hinsert
    exact ⟨_, hu⟩
  | erase herase => exact ⟨_, (hT.erase herase).1⟩
  | get hget | count hget => exact ⟨_, (hT.get hget).1⟩
  | size => exact ⟨_, hT⟩
  | clear hclear => exact ⟨_, (clear_holds hclear).1⟩

theorem Holds.step (hT : t.Holds es) {a : TableUse V} (h : t.step a = some t') : ∃ es', t'.Holds es' := by
  cases a with
  | call op held =>
    obtain ⟨⟨r, u⟩, hperform, rfl⟩ := Option.map_eq_some_iff.mp h
    exact hT.perform hperform
  | assign key value block held =>
    obtain ⟨⟨w, u⟩, hindex, rfl⟩ := Option.map_eq_some_iff.mp h
    cases hfind : es.find? fun e => e.key = key with
    | some e => exact ⟨es, (hT.index_present hfind hindex).1⟩
    | none =>
      obtain ⟨buffer, content, -, hu, -⟩ := hT.index_absent hfind hindex
      exact ⟨_, hu⟩
  | serve r =>
    obtain ⟨node, hnode, rfl⟩ := Option.map_eq_some_iff.mp h
    exact ⟨es, hT.keeps (hT.serveOthers hnode)⟩

theorem Holds.assign (hT : t.Holds es) {value : V} (h : t.assign key value block held = some t') :
    t.Edited t' key value ↔ t.ReadsAs (.assign key value block held) := by
  obtain ⟨⟨w, u⟩, hindex, rfl⟩ := Option.map_eq_some_iff.mp h
  have hget : ∀ {es' e'}, u.Holds es' → es'.find? (fun e => e.key = key) = some e' →
      answer V u.node e' = some (Integral.reinterpret w) →
        (u.get V key []).map Prod.fst = some (some (Integral.reinterpret w)) := by
    intro es' e' hu hfind hw
    rw [hu.get_alone key, hfind]
    exact congrArg (Option.map some) hw
  have hothers : ∀ {es'}, u.Holds es' → Keeps t.node u.node es → u.node.shares = t.node.shares →
      (∀ key' ≠ key, es'.find? (fun e => e.key = key') = es.find? fun e => e.key = key') →
        ∀ key' ≠ key, (u.get V key' []).map Prod.fst = (t.get V key' []).map Prod.fst := by
    intro es' hu hkeeps hshares hsame key' hne
    rw [hu.get_alone key', hT.get_alone key', hsame key' hne]
    cases hfind' : es.find? fun e => e.key = key' with
    | none => rfl
    | some e' => simp only [answer_same hkeeps hshares (List.mem_of_find?_eq_some hfind')]
  cases hfind : es.find? fun e => e.key = key with
  | some e =>
    obtain ⟨hu, hkeeps, hshares, hanswer, hw⟩ := hT.index_present hfind hindex
    have hid : e.gaddr.id = t.node.id := (hT.block e (List.mem_of_find?_eq_some hfind)).1
    have hreads : t.ReadsAs (.assign key value block held) ↔ Integral.reinterpret w = value := by
      rw [ReadsAs, hT.lookup key, hfind, hw, shows, hid]
    rw [hreads]
    refine ⟨fun hedited => ?_, fun hvalue => ⟨?_, ?_, hothers hu hkeeps hshares fun _ _ => rfl⟩⟩
    · simpa using (hget hu hfind hanswer).symm.trans hedited.get
    · rw [hget hu hfind hanswer, hvalue]
    · rw [hu.size, hT.size, if_pos (hT.present_iff.mpr ⟨e, hfind⟩)]
      rfl
  | none =>
    obtain ⟨buffer, content, rfl, hu, hkeeps, hshares, hanswer, hw⟩ := hT.index_absent hfind hindex
    have hreads : t.ReadsAs (.assign key value (some (buffer, content)) held) ↔ Integral.reinterpret w = value := by
      rw [ReadsAs, hT.lookup key, hfind, hw]
      rfl
    have hfind' : (⟨key, ⟨Integral.size V, buffer, t.node.id⟩⟩ :: es : List Elem).find? (fun e => e.key = key) =
        some ⟨key, ⟨Integral.size V, buffer, t.node.id⟩⟩ := by simp
    have hother : ∀ key' ≠ key,
        (⟨key, ⟨Integral.size V, buffer, t.node.id⟩⟩ :: es : List Elem).find? (fun e => e.key = key') =
        es.find? fun e => e.key = key' := by
      intro key' hne
      have hne' : key ≠ key' := hne.symm
      simp [hne']
    rw [hreads]
    refine ⟨fun hedited => ?_, fun hvalue => ⟨?_, ?_, hothers hu hkeeps hshares hother⟩⟩
    · simpa using (hget hu hfind' hanswer).symm.trans hedited.get
    · rw [hget hu hfind' hanswer, hvalue]
    · have habsent : ¬ t.Present key := fun hp => by
        obtain ⟨e, he⟩ := hT.present_iff.mp hp
        rw [hfind] at he
        cases he
      rw [hu.size, hT.size, if_neg habsent, List.length_cons]

/-- Every assignment through `operator[]` edits the table, if and only if each assigns what a lookup reads anyway. -/
theorem assignments_edit_iff {node : Host} {as : List (TableUse V)} :
    Meets step Edits (new node) as ↔ Meets step ReadsAs (new node) as := by
  refine meets_congr (I := fun t => ∃ es, t.Holds es) ?_ ?_ ⟨[], holds_new node⟩
  · rintro t a t' ⟨es, hT⟩ h
    exact hT.step h
  · rintro t a t' ⟨es, hT⟩ h
    cases a with
    | call | serve => exact Iff.rfl
    | assign key value block held =>
      have h' : t.assign key value block held = some t' := h
      simp only [Edits, h', Option.mem_def, Option.some.injEq, forall_eq']
      exact hT.assign h'

/-- The value 7 is assigned to a key that was absent, and its block has 0. -/
theorem assignment_lost : ¬ ∀ (node : Host) (as : List (TableUse UInt64)), Meets step Edits (new node) as := by
  intro h
  have hassign :
    (assign (new ⟨3000, LockTable.empty, fun _ => none⟩) 5 (7 : UInt64) (some (64, ⟨0, .unshared, 0, []⟩)) []).map
      (fun t' => (t'.get UInt64 5 []).map Prod.fst) = some (some (some 0)) := by decide +kernel
  obtain ⟨t', ht', hget⟩ := Option.map_eq_some_iff.mp hassign
  have hedits := h ⟨3000, LockTable.empty, fun _ => none⟩ [.assign 5 7 (some (64, ⟨0, .unshared, 0, []⟩)) []] t' ht'
  have hedited := (hedits.1 t' ht').get
  rw [hget] at hedited
  cases hedited

end HashTable
end CacheCoherence
