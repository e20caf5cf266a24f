import CacheCoherence.Connection.QueuePairs
import CacheCoherence.Foundation.Layouts
import CacheCoherence.Model.Defs
import Mathlib

/-! # What `sendAddress` posts

The length of the message is the size of the struct and of the block that the message is about. Only the struct
is the argument of the call: what follows it on the stack is sent along.
-/
namespace CacheCoherence.Messages
open Layouts QueuePairs

def bytes (sga : SendGlobalAddr) : List UInt8 :=
  littleEndian 8 sga.size.toNat ++ littleEndian 8 sga.ptr.toNat ++ littleEndian 2 sga.id.toNat ++ littleEndian 2
    sga.srcID.toNat

def sizeofSendGlobalAddr : UInt64 := 20

theorem length_bytes (sga : SendGlobalAddr) : (bytes sga).length = sizeofSendGlobalAddr.toNat := by
  simp [bytes, length_littleEndian, sizeofSendGlobalAddr]

/-- The memory from the address of a parameter on: the struct, then whatever is next to it. -/
def parameter (data : SendGlobalAddr) (stack : ℕ → UInt8) (i : ℕ) : UInt8 :=
  (bytes data)[i]?.getD (stack (i - sizeofSendGlobalAddr.toNat))

structure MemoryRegion where
  addr : ℕ → UInt8
  length : UInt64

structure Slice where
  addr : ℕ → UInt8
  length : UInt32

/-- `getSlice` casts the length to `uint32_t`. -/
def MemoryRegion.getSlice (mr : MemoryRegion) : Slice := ⟨mr.addr, mr.length.toUInt32⟩

structure WorkRequest where
  slice : Slice
  inline : Bool
  signaled : Bool
  immData : ImmData

def createWriteWithImm (slice : Slice) (immData : ImmData) : WorkRequest := ⟨slice, true, true, immData⟩

def WorkRequest.bytes (w : WorkRequest) : List UInt8 := (List.range w.slice.length.toNat).map w.slice.addr

def maxInlineSize : ℕ := 512

def bigBadBufferSize : ℕ := 1024 * 1024 * 8

abbrev AddressCall := { r : Call // r.sender = .sendAddress }

def sendAddress (data : SendGlobalAddr) (stack : ℕ → UInt8) (r : AddressCall) : WorkRequest × UInt64 :=
  let size := sizeofSendGlobalAddr + data.size
  let sendmr : MemoryRegion := ⟨parameter data stack, sizeofSendGlobalAddr + data.size⟩
  (createWriteWithImm sendmr.getSlice r.val.immData, size)

/-- What the handlers of the calls register and post: `handleAllocation` the size of a `GlobalAddress`. -/
def replySize : Call → ℕ
  | .malloc => 18
  | .read | .invalidate => 8
  | .free | .write => 20
  | .locks | .reset => 1

/-- Nothing but the argument is sent, and message and reply fit where they go. -/
structure Extent (data : SendGlobalAddr) (r : AddressCall) : Prop where
  determined : ∀ stack stack', (sendAddress data stack r).1.bytes = (sendAddress data stack' r).1.bytes
  inline : ∀ stack, (sendAddress data stack r).1.inline = true →
    sizeofSendGlobalAddr.toNat + data.size.toNat ≤ maxInlineSize
  received : sizeofSendGlobalAddr.toNat + data.size.toNat ≤ 2 * bigBadBufferSize
  replied : ∀ stack, replySize r.val ≤ (sendAddress data stack r).2.toNat

variable {data : SendGlobalAddr} {stack : ℕ → UInt8} {r : AddressCall}

theorem length_sent (data : SendGlobalAddr) (stack : ℕ → UInt8) (r : AddressCall) :
    (sendAddress data stack r).1.slice.length.toNat = (20 + data.size.toNat) % 2 ^ 64 % 2 ^ 32 := by
  simp [sendAddress, createWriteWithImm, MemoryRegion.getSlice, sizeofSendGlobalAddr]

theorem bytes_sent_of_le (h : (sendAddress data stack r).1.slice.length.toNat ≤ 20) :
    (sendAddress data stack r).1.bytes = (bytes data).take (sendAddress data stack r).1.slice.length.toNat := by
  have hlength : (bytes data).length = 20 := length_bytes data
  exact map_range_of_le (fun i => stack (i - sizeofSendGlobalAddr.toNat)) (by rwa [hlength])

theorem bytes_sent_next (h : 20 < (sendAddress data stack r).1.slice.length.toNat) :
    (sendAddress data stack r).1.bytes[20]? = some (stack 0) := by
  have hlength := length_bytes data
  have h20 : sizeofSendGlobalAddr.toNat = 20 := by decide
  have hnone : (bytes data)[20]? = none := List.getElem?_eq_none (by omega)
  rw [WorkRequest.bytes, List.getElem?_map, List.getElem?_range h]
  simp [sendAddress, createWriteWithImm, MemoryRegion.getSlice, parameter, hnone, h20]

theorem Extent.size_eq_zero (h : Extent data r) : data.size = 0 := by
  have hfit := h.inline (fun _ => 0) rfl
  have h20 : sizeofSendGlobalAddr.toNat = 20 := by decide
  rw [maxInlineSize] at hfit
  by_contra hne
  have hpos : data.size.toNat ≠ 0 := fun hzero => hne (UInt64.toNat_inj.mp hzero)
  have hlong : ∀ stack, 20 < (sendAddress data stack r).1.slice.length.toNat := by
    intro stack
    rw [length_sent]
    omega
  have hzero := bytes_sent_next (hlong fun _ => 0)
  have hone := bytes_sent_next (hlong fun _ => 1)
  rw [h.determined (fun _ => 0) fun _ => 1, hone] at hzero
  cases hzero

theorem extent_of_size_eq_zero (hsize : data.size = 0) : Extent data r := by
  have hlength : ∀ stack, (sendAddress data stack r).1.slice.length.toNat = 20 := by
    intro stack
    rw [length_sent, hsize]
    rfl
  refine ⟨fun stack stack' => ?_, fun stack _ => ?_, ?_, fun stack => ?_⟩
  · rw [bytes_sent_of_le (hlength stack).le, bytes_sent_of_le (hlength stack').le, hlength, hlength]
  · rw [hsize]
    decide
  · rw [hsize]
    decide
  · have hbuffer : (sendAddress data stack r).2.toNat = 20 := by
      simp [sendAddress, hsize, sizeofSendGlobalAddr]
    rw [hbuffer]
    cases r.val <;> decide

/-- A message is its argument alone, and fits, exactly if it is about no bytes. -/
theorem extent_iff (data : SendGlobalAddr) (r : AddressCall) : Extent data r ↔ data.size = 0 :=
  ⟨Extent.size_eq_zero, extent_of_size_eq_zero⟩

/-- A read of a block of eight bytes sends eight bytes of the stack. -/
theorem stack_sent : ¬ ∀ (data : SendGlobalAddr) (r : AddressCall), Extent data r := by
  intro h
  have hsize := (h ⟨8, 4096, 3000, 1000⟩ ⟨.read, rfl⟩).size_eq_zero
  cases hsize

end CacheCoherence.Messages
