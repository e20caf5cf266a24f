import CacheCoherence.Application.HashTable
import CacheCoherence.Failure.Access
import CacheCoherence.Foundation.Chaining
import CacheCoherence.Foundation.Ownership

/-! # The chains of a hash table

`app/HashTable.h` over a node whose calls may do anything: hand out any address, read any word, throw, or change.
Values are the words that they are cast to.
-/
namespace CacheCoherence.Chains
open Exits Ownership
open HashTable (hashBucket)

structure NodeCalls (ε σ W : Type) where
  malloc : UInt64 → Prog ε σ GlobalAddress
  free : GlobalAddress → Prog ε σ GlobalAddress
  read : GlobalAddress → Prog ε σ W
  write : Data W → Prog ε σ GlobalAddress

def nodeCalls {W : Type} [Zero W] (env : Failure.Env W) (block : Option (UInt64 × SaveData W)) :
    NodeCalls Failure.Exit (Failure.Server W) W where
  malloc size := Failure.malloc env size block
  free := Failure.free env
  read := Failure.read env
  write := Failure.write env

/-- A table, and what it has asked of its node. Every element is an object of its own in the memory of the process,
so `amountElements` does not wrap. -/
structure Table (σ : Type) where
  node : σ
  amountElements : ℕ
  storage : Fin 64 → List Elem
  asked : List (Event GlobalAddress)

variable {ε σ W α : Type}

def new (node : σ) : Table σ := ⟨node, 0, fun _ => [], []⟩

def Table.elements (t : Table σ) : List Elem := (List.finRange 64).flatMap t.storage

def Table.size (t : Table σ) : ℕ := t.amountElements

def onNode (m : Prog ε σ α) : Prog ε (Table σ) α := zoom Table.node (fun n t => { t with node := n }) id m

def ask (e : Event GlobalAddress) : Prog ε (Table σ) Unit := act fun t =>
  some (.ok (), { t with asked := t.asked ++ [e] })

def chain (b : Fin 64) : Prog ε (Table σ) (List Elem) := act fun t => some (.ok (t.storage b), t)

def setChain (b : Fin 64) (es : List Elem) : Prog ε (Table σ) Unit :=
  act fun t => some (.ok (), { t with storage := Function.update t.storage b es })

def setAmount (f : ℕ → ℕ) : Prog ε (Table σ) Unit := act fun t =>
  some (.ok (), { t with amountElements := f t.amountElements })

variable (calls : NodeCalls ε σ W) (size : UInt64)

def malloc : Prog ε (Table σ) GlobalAddress := do
  let gadd ← onNode (calls.malloc size)
  ask (.alloc gadd)
  pure gadd

def free (gaddr : GlobalAddress) : Prog ε (Table σ) GlobalAddress := do
  ask (.free gaddr)
  onNode (calls.free gaddr)

def read (gaddr : GlobalAddress) : Prog ε (Table σ) W := do
  ask (.use gaddr)
  onNode (calls.read gaddr)

def write (data : Data W) : Prog ε (Table σ) GlobalAddress := do
  ask (.use data.ga)
  onNode (calls.write data)

/-- `storage[b] = new Elem({key, gadd, storage[b]}); ++amountElements;` -/
def link (key : UInt32) (gadd : GlobalAddress) : Prog ε (Table σ) Unit := do
  setChain (hashBucket key) (⟨key, gadd⟩ :: (← chain (hashBucket key)))
  setAmount (· + 1)

def insert (key : UInt32) (value : W) : Prog ε (Table σ) Unit := do
  let gadd ← malloc calls size
  link key gadd
  let _ ← write calls ⟨size, value, gadd⟩

def unlink (key : UInt32) : List Elem → Option (Elem × List Elem)
  | [] => none
  | bucket :: next =>
    if bucket.key = key then some (bucket, next) else (unlink key next).map fun p => (p.1, bucket :: p.2)

def erase (key : UInt32) : Prog ε (Table σ) Unit := do
  match unlink key (← chain (hashBucket key)) with
  | some (bucket, es) =>
    setChain (hashBucket key) es
    let _ ← free calls bucket.gaddr
    setAmount (· - 1)
  | none => pure ()

def get (key : UInt32) : Prog ε (Table σ) (Option W) := do
  match (← chain (hashBucket key)).find? fun e => e.key = key with
  | some bucket => do pure (some (← read calls bucket.gaddr))
  | none => pure none

def count (key : UInt32) : Prog ε (Table σ) UInt64 := do pure (← get calls key).isSome.toUInt64

/-- `operator[]`: the word that the reference is made from. -/
def index (key : UInt32) : Prog ε (Table σ) W := do
  match (← chain (hashBucket key)).find? fun e => e.key = key with
  | some bucket => read calls bucket.gaddr
  | none =>
    let gadd ← malloc calls size
    link key gadd
    read calls gadd

def drain (b : Fin 64) : List Elem → Prog ε (Table σ) Unit
  | [] => pure ()
  | oldBucket :: next => do
    setChain b next
    let _ ← free calls oldBucket.gaddr
    drain b next

def clear : Prog ε (Table σ) Unit := do
  (List.finRange 64).forM fun b => do drain calls b (← chain b)
  setAmount fun _ => 0

/-- The destructor calls `clear`. -/
inductive Op (W : Type) where
  | insert (key : UInt32) (value : W)
  | index (key : UInt32)
  | erase (key : UInt32)
  | get (key : UInt32)
  | count (key : UInt32)
  | clear
deriving DecidableEq, Repr

def Op.run : Op W → Prog ε (Table σ) Unit
  | .insert key value => Chains.insert calls size key value
  | .index key => do let _ ← Chains.index calls size key
  | .erase key => Chains.erase calls key
  | .get key => do let _ ← Chains.get calls key
  | .count key => do let _ ← Chains.count calls key
  | .clear => Chains.clear calls

section
variable {calls size} {m : Prog ε σ α} {t u : Table σ} {g : GlobalAddress} {n : σ} {key : UInt32}

theorem exec_onNode {r : Except ε α} (h : m.exec t.node = some (r, n)) :
    (onNode m).exec t = some (r, { t with node := n }) := by
  rw [onNode, zoom, exec_act, h]
  cases r <;> rfl

theorem onNode_cases {r : Except ε α} (h : (onNode m).exec t = some (r, u)) :
    ∃ n, m.exec t.node = some (r, n) ∧ u = { t with node := n } := by
  obtain ⟨r₀, n, hm, rfl, rfl⟩ := exec_zoom_eq h
  refine ⟨n, ?_, rfl⟩
  cases r₀ <;> exact hm

theorem exec_malloc (h : (calls.malloc size).exec t.node = some (.ok g, n)) :
    (malloc calls size).exec t = some (.ok g, { t with node := n, asked := t.asked ++ [.alloc g] }) :=
  exec_bind_ok (exec_onNode h)

theorem exec_read {r : Except ε W} (h : (calls.read g).exec t.node = some (r, n)) :
    (read calls g).exec t = some (r, { t with node := n, asked := t.asked ++ [.use g] }) :=
  exec_onNode (t := { t with asked := t.asked ++ [.use g] }) h

theorem exec_write {data : Data W} {r : Except ε GlobalAddress} (h : (calls.write data).exec t.node = some (r, n)) :
    (write calls data).exec t = some (r, { t with node := n, asked := t.asked ++ [.use data.ga] }) :=
  exec_onNode (t := { t with asked := t.asked ++ [.use data.ga] }) h

theorem exec_free {r : Except ε GlobalAddress} (h : (calls.free g).exec t.node = some (r, n)) :
    (free calls g).exec t = some (r, { t with node := n, asked := t.asked ++ [.free g] }) :=
  exec_onNode (t := { t with asked := t.asked ++ [.free g] }) h

theorem exec_chain (b : Fin 64) (t : Table σ) :
    (chain b : Prog ε (Table σ) (List Elem)).exec t = some (.ok (t.storage b), t) := rfl

theorem exec_setChain (b : Fin 64) (es : List Elem) (t : Table σ) : (setChain b es : Prog ε (Table σ) Unit).exec t =
    some (.ok (), { t with storage := Function.update t.storage b es }) := rfl

theorem exec_link (key : UInt32) (g : GlobalAddress) (t : Table σ) : (link key g : Prog ε (Table σ) Unit).exec t =
    some (.ok (), { t with
      amountElements := t.amountElements + 1
      storage := Function.update t.storage (hashBucket key) (⟨key, g⟩ :: t.storage (hashBucket key)) }) := rfl

end
end CacheCoherence.Chains
