import CacheCoherence.Connection.Messages
import Mathlib

/-! # What the two ends of a connection make of the same bytes

The packed structs of `util/defs.h` as bytes, and every request and reply as it is posted at one end and read at the
other. The write of a message leaves the rest of the buffer as it was.
-/
namespace CacheCoherence.WireFormat
open Layouts Messages QueuePairs

def uint64 : Layout UInt64 :=
  unsigned 8 UInt64.toNat UInt64.ofNat UInt64.toNat_lt fun w hw v =>
    ⟨fun h => by rw [← h, UInt64.toNat_ofNat_of_lt' hw], fun h => by rw [h, UInt64.ofNat_toNat]⟩

def uint32 : Layout UInt32 :=
  unsigned 4 UInt32.toNat UInt32.ofNat UInt32.toNat_lt fun w hw v =>
    ⟨fun h => by rw [← h, UInt32.toNat_ofNat_of_lt' hw], fun h => by rw [h, UInt32.ofNat_toNat]⟩

def uint16 : Layout UInt16 :=
  unsigned 2 UInt16.toNat UInt16.ofNat UInt16.toNat_lt fun w hw v =>
    ⟨fun h => by rw [← h, UInt16.toNat_ofNat_of_lt' hw], fun h => by rw [h, UInt16.ofNat_toNat]⟩

def uint8 : Layout UInt8 :=
  unsigned 1 UInt8.toNat UInt8.ofNat UInt8.toNat_lt fun w hw v =>
    ⟨fun h => by rw [← h, UInt8.toNat_ofNat_of_lt' hw], fun h => by rw [h, UInt8.ofNat_toNat]⟩

def boolean : Layout Bool := uint8.enumeration [false, true] (fun v => if v then 1 else 0) (by decide) (by decide)

def lockStateCode : LockState → UInt32
  | .unlocked => 0
  | .sharedlock => 1
  | .exclusive => 2

def lockState : Layout LockState :=
  uint32.enumeration [.unlocked, .sharedlock, .exclusive] lockStateCode (by intro v; cases v <;> simp)
    (by intro v w; cases v <;> cases w <;> simp [lockStateCode])

def immDataCode : ImmData → UInt32
  | .default => 0
  | .malloc => 1
  | .read => 2
  | .free => 3
  | .write => 4
  | .locks => 5
  | .reset => 6
  | .invalidate => 7

def immData : Layout ImmData :=
  uint32.enumeration [.default, .malloc, .read, .free, .write, .locks, .reset, .invalidate] immDataCode
    (by intro v; cases v <;> simp) (by intro v w; cases v <;> cases w <;> simp [immDataCode])

def sendGlobalAddr : Layout SendGlobalAddr :=
  (((uint64.pair uint64).pair uint16).pair uint16).map (fun x => some ⟨x.1.1.1, x.1.1.2, x.1.2, x.2⟩)
    (fun sga => (((sga.size, sga.ptr), sga.id), sga.srcID)) fun x v => by
      rw [Option.some.injEq]
      exact ⟨fun h => by rw [← h], fun h => by rw [h]⟩

def globalAddress : Layout GlobalAddress :=
  ((uint64.pair uint64).pair uint16).map (fun x => some ⟨x.1.1, x.1.2, x.2⟩)
    (fun ga => ((ga.size, ga.ptr), ga.id)) fun x v => by
      rw [Option.some.injEq]
      exact ⟨fun h => by rw [← h], fun h => by rw [h]⟩

def sendingData : Layout (SendingData UInt64) :=
  ((uint64.pair uint64).pair sendGlobalAddr).map (fun x => some ⟨x.1.1, x.1.2, x.2⟩)
    (fun sd => ((sd.size, sd.data), sd.sga)) fun x v => by
      rw [Option.some.injEq]
      exact ⟨fun h => by rw [← h], fun h => by rw [h]⟩

def lock : Layout Lock :=
  (uint16.pair lockState).map (fun x => some ⟨x.1, x.2⟩) (fun l => (l.id, l.state)) fun x v => by
      rw [Option.some.injEq]
      exact ⟨fun h => by rw [← h], fun h => by rw [h]⟩

def sizeof {α : Type} (l : Layout α) : UInt64 := UInt64.ofNat l.size

example : [sizeof sendGlobalAddr, sizeof globalAddress, sizeof sendingData, sizeof lock, sizeof boolean] = [20, 18, 36,
    6, 1] := by decide

structure Post where
  region : MemoryRegion
  immData : ImmData

def Post.request (p : Post) : WorkRequest := createWriteWithImm p.region.getSlice p.immData

/-- The first `length` bytes of an object, or more than it has. -/
def register {α : Type} (l : Layout α) (v : α) (stack : Memory) (length : UInt64) : MemoryRegion :=
  ⟨fun i => (l.encode v)[i]?.getD (stack (i - l.size)), length⟩

/-- Whether a region of the first length is registered, and a write of the second length from it completes. -/
abbrev Network := UInt64 → UInt32 → Bool

/-- What is posted for one buffer, and what is read from it then. -/
structure Transfer where
  Value : Type
  posts : Memory → List Post
  read : Memory → Option Value
  meant : Value

def deliver (buffer : Memory) (posts : List Post) : Memory := posts.foldl (fun m p => store m 0 p.request.bytes) buffer

/-- What is read is what was meant, and every completion has the immediate data of its request. -/
def Transfer.Agrees (net : Network) (t : Transfer) : Prop := ∀ stack buffer,
  (∀ p ∈ t.posts stack, net p.region.length p.request.slice.length = true) →
    t.read (deliver buffer (t.posts stack)) = some t.meant ∧
      ∀ p ∈ t.posts stack, ∀ wc, immData.decode (store wc 0 (immData.encode p.request.immData)) = some p.immData

abbrev LockCall := { r : Call // r.sender = .sendLock }

inductive Message where
  | address (r : AddressCall) (ga : GlobalAddress) (srcID : UInt16)
  | write (d : Data UInt64) (srcID : UInt16)
  | lock (r : LockCall) (l : Lock)
  | allocated (newgaddr : GlobalAddress) (srcID : UInt16)
  | freed (res : GlobalAddress) (srcID : UInt16)
  | fetched (data : UInt64)
  | removed (res : UInt64)
  | written (result : GlobalAddress) (srcID : UInt16)
  | invalidated (ga result : GlobalAddress) (srcID : UInt16)
  | locked (granted : Bool)
  | closed

def readAddress (recvbuf : Memory) : Option (GlobalAddress × UInt16) :=
  (sendGlobalAddr.decode recvbuf).map fun sga => (.ofSendable sga, sga.srcID)

def readWrite (recvbuf : Memory) : Option (Data UInt64 × UInt16) :=
  (sendingData.decode recvbuf).map fun sd => (.ofSendable sd, sd.sga.srcID)

def readResult (recvbuf : Memory) : Option GlobalAddress := (sendGlobalAddr.decode recvbuf).map .ofSendable

def offsetofData : ℕ := 0

def readData (recvbuf : Memory) : Option UInt64 := uint64.decode (shift offsetofData recvbuf)

def addressPost (data : SendGlobalAddr) (stack : Memory) (r : AddressCall) : Post :=
  ⟨⟨parameter data stack, sizeofSendGlobalAddr + data.size⟩, r.val.immData⟩

def addressReply (res : GlobalAddress) (srcID : UInt16) (imm : ImmData) (stack : Memory) : Post :=
  ⟨register sendGlobalAddr (res.sendable srcID) stack (sizeof sendGlobalAddr), imm⟩

/-- `handleAllocation` registers less than the struct. -/
def allocationReply (newgaddr : GlobalAddress) (srcID : UInt16) (stack : Memory) : Post :=
  ⟨register sendGlobalAddr (newgaddr.sendable srcID) stack (sizeof globalAddress), .default⟩

def Message.transfers : Message → List Transfer
  | .address r ga srcID => [⟨_, fun stack => [addressPost (ga.sendable srcID) stack r], readAddress, (ga, srcID)⟩]
  | .write d srcID =>
    [⟨_, fun stack => [⟨register sendingData (d.sendable srcID) stack (sizeof sendingData), .write⟩], readWrite,
      (d, srcID)⟩]
  | .lock r l =>
    [⟨_, fun stack => [⟨register WireFormat.lock l stack (sizeof WireFormat.lock), r.val.immData⟩],
    WireFormat.lock.decode, l⟩]
  -- `Malloc` reads the struct, the main program the address
  | .allocated newgaddr srcID =>
    [⟨_, fun stack => [allocationReply newgaddr srcID stack], readResult, newgaddr⟩,
      ⟨_, fun stack => [allocationReply newgaddr srcID stack], globalAddress.decode, newgaddr⟩]
  | .freed res srcID => [⟨_, fun stack => [addressReply res srcID .default stack], readResult, res⟩]
  | .fetched data => [⟨_, fun stack => [⟨register uint64 data stack 8, .default⟩], readData, data⟩]
  | .removed res => [⟨_, fun stack => [⟨register uint64 res stack 8, .default⟩], uint64.decode, res⟩]
  | .written result srcID => [⟨_, fun stack => [addressReply result srcID .default stack], readResult, result⟩]
  | .invalidated ga result srcID =>
    [⟨_, fun stack => [addressReply ga srcID .invalidate stack, addressReply result srcID .default stack], readResult,
      result⟩]
  | .locked granted =>
    [⟨_, fun stack => [⟨register boolean granted stack (sizeof boolean), .default⟩], boolean.decode, granted⟩]
  | .closed => [⟨_, fun stack => [⟨register boolean false stack (sizeof boolean), .reset⟩], boolean.decode, false⟩]

/-- A request about an address has the whole struct, if it is sent at all. -/
def Message.Complete (net : Network) : Message → Prop
  | .address _ ga _ =>
    net (sizeofSendGlobalAddr + ga.size) (sizeofSendGlobalAddr + ga.size).toUInt32 = true →
      20 ≤ (20 + ga.size.toNat) % 2 ^ 32
  | _ => True

variable {net : Network} {stack : Memory} {α : Type}

theorem addressPost_request (data : SendGlobalAddr) (stack : Memory) (r : AddressCall) :
    (addressPost data stack r).request = (sendAddress data stack r).1 := rfl

theorem addressPost_eq (data : SendGlobalAddr) (stack : Memory) (r : AddressCall) :
    addressPost data stack r =
      ⟨register sendGlobalAddr data stack (sizeofSendGlobalAddr + data.size), r.val.immData⟩ := rfl

theorem encode_prefix_iff (l : Layout α) (v : α) (stack : Memory) (length : UInt64) (imm : ImmData) :
    l.encode v <+: (Post.request ⟨register l v stack length, imm⟩).bytes ↔ l.size ≤ length.toUInt32.toNat := by
  rw [← l.length_encode v]
  exact prefix_map_range_iff fun i => stack (i - l.size)

theorem bytes_of_le (l : Layout α) (v : α) (stack : Memory) (length : UInt64) (imm : ImmData)
    (h : length.toUInt32.toNat ≤ l.size) :
    (Post.request ⟨register l v stack length, imm⟩).bytes = (l.encode v).take length.toUInt32.toNat :=
  map_range_of_le (fun i => stack (i - l.size)) (by rwa [l.length_encode])

theorem encode_globalAddress (ga : GlobalAddress) (srcID : UInt16) :
    sendGlobalAddr.encode (ga.sendable srcID) = globalAddress.encode ga ++ uint16.encode srcID := rfl

theorem readResult_eq (m : Memory) : readResult m = globalAddress.decode m := rfl

theorem decode_deliver (l : Layout α) (v : α) (stack buffer : Memory) (length : UInt64) (imm : ImmData)
    (h : l.size ≤ length.toUInt32.toNat) :
    l.decode (deliver buffer [⟨register l v stack length, imm⟩]) = some v :=
  l.decode_store ((encode_prefix_iff l v stack length imm).mpr h) buffer

theorem readResult_reply (res : GlobalAddress) (srcID : UInt16) (imm : ImmData) (stack buffer : Memory) :
    readResult (deliver buffer [addressReply res srcID imm stack]) = some res := by
  have hdecode :=
    decode_deliver sendGlobalAddr (res.sendable srcID) stack buffer (sizeof sendGlobalAddr) imm (by decide)
  rw [readResult, addressReply, hdecode, Option.map_some, GlobalAddress.ofSendable_sendable]

theorem decode_allocationReply (newgaddr : GlobalAddress) (srcID : UInt16) (stack buffer : Memory) :
    globalAddress.decode (deliver buffer [allocationReply newgaddr srcID stack]) = some newgaddr := by
  have hbytes := bytes_of_le sendGlobalAddr (newgaddr.sendable srcID) stack (sizeof globalAddress) .default (by decide)
  have hlength : (sizeof globalAddress).toUInt32.toNat = (globalAddress.encode newgaddr).length := by
    rw [globalAddress.length_encode]
    decide
  rw [encode_globalAddress, hlength, List.take_left] at hbytes
  exact globalAddress.decode_store (by rw [allocationReply, hbytes]) buffer

theorem agrees_of_read {t : Transfer} (h : ∀ stack buffer, t.read (deliver buffer (t.posts stack)) = some t.meant) :
    t.Agrees net := by
  intro stack buffer _
  exact ⟨h stack buffer, fun p _ wc => immData.decode_store (List.prefix_refl _) wc⟩

theorem whole_agrees (l : Layout α) (v : α) (length : UInt64) (imm : ImmData) (h : l.size ≤ length.toUInt32.toNat) :
    Transfer.Agrees net ⟨α, fun stack => [⟨register l v stack length, imm⟩], l.decode, v⟩ :=
  agrees_of_read fun stack buffer => decode_deliver l v stack buffer length imm h

theorem reply_agrees (res : GlobalAddress) (srcID : UInt16) :
    Transfer.Agrees net ⟨GlobalAddress, fun stack => [addressReply res srcID .default stack], readResult, res⟩ :=
  agrees_of_read fun stack buffer => readResult_reply res srcID .default stack buffer

theorem allocation_agrees {read : Memory → Option GlobalAddress} (newgaddr : GlobalAddress) (srcID : UInt16)
    (hread : ∀ m, read m = globalAddress.decode m) :
    Transfer.Agrees net ⟨GlobalAddress, fun stack => [allocationReply newgaddr srcID stack], read, newgaddr⟩ :=
  agrees_of_read fun stack buffer => (hread _).trans (decode_allocationReply newgaddr srcID stack buffer)

theorem invalidated_agrees (ga result : GlobalAddress) (srcID : UInt16) :
    Transfer.Agrees net ⟨GlobalAddress,
      fun stack => [addressReply ga srcID .invalidate stack, addressReply result srcID .default stack],
      readResult, result⟩ := by
  refine agrees_of_read fun stack buffer => ?_
  have hover : deliver buffer [addressReply ga srcID .invalidate stack, addressReply result srcID .default stack] =
      deliver (deliver buffer [addressReply ga srcID .invalidate stack])
        [addressReply result srcID .default stack] := by
    simp only [deliver, List.foldl_cons, List.foldl_nil]
  rw [hover]
  exact readResult_reply result srcID .default stack _

theorem data_agrees (data : UInt64) :
    Transfer.Agrees net ⟨UInt64, fun stack => [⟨register uint64 data stack 8, .default⟩], readData, data⟩ := by
  refine agrees_of_read fun stack buffer => ?_
  have hdecode := decode_deliver uint64 data stack buffer 8 .default (by decide)
  simp only [readData, offsetofData, shift_zero, hdecode]

theorem write_agrees (d : Data UInt64) (srcID : UInt16) :
    Transfer.Agrees net ⟨Data UInt64 × UInt16,
      fun stack => [⟨register sendingData (d.sendable srcID) stack (sizeof sendingData), .write⟩],
      readWrite, (d, srcID)⟩ := by
  refine agrees_of_read fun stack buffer => ?_
  have hdecode := decode_deliver sendingData (d.sendable srcID) stack buffer (sizeof sendingData) .write (by decide)
  simp only [readWrite, hdecode, Option.map_some, Data.ofSendable_sendable, Data.sendable_sga,
    GlobalAddress.sendable_srcID]

theorem eq_sendable_iff {sga : SendGlobalAddr} {ga : GlobalAddress} {srcID : UInt16} :
    (GlobalAddress.ofSendable sga, sga.srcID) = (ga, srcID) ↔ sga = ga.sendable srcID := by
  cases sga
  cases ga
  simp [GlobalAddress.ofSendable, GlobalAddress.sendable, and_assoc]

theorem size_le_iff (data : SendGlobalAddr) (stack : Memory) (r : AddressCall) :
    sendGlobalAddr.size ≤ (addressPost data stack r).request.slice.length.toNat ↔
      20 ≤ (20 + data.size.toNat) % 2 ^ 32 := by
  have hstruct : sendGlobalAddr.size = 20 := rfl
  rw [addressPost_request, length_sent, hstruct]
  omega

/-- A request about an address is read as it was meant exactly if all of the struct is sent. -/
theorem readAddress_iff (r : AddressCall) (ga : GlobalAddress) (srcID : UInt16) (stack : Memory) :
    (∀ buffer, readAddress (deliver buffer [addressPost (ga.sendable srcID) stack r]) = some (ga, srcID)) ↔
      20 ≤ (20 + ga.size.toNat) % 2 ^ 32 := by
  have hread : ∀ m, readAddress m = some (ga, srcID) ↔ sendGlobalAddr.decode m = some (ga.sendable srcID) := by
    intro m
    rw [readAddress, Option.map_eq_some_iff]
    constructor
    · rintro ⟨sga, hsga, heq⟩
      rw [hsga, eq_sendable_iff.mp heq]
    · intro hsga
      exact ⟨_, hsga, rfl⟩
  have hprefix : sendGlobalAddr.encode (ga.sendable srcID) <+: (addressPost (ga.sendable srcID) stack r).request.bytes ↔
      20 ≤ (20 + ga.size.toNat) % 2 ^ 32 := by
    rw [addressPost_eq, encode_prefix_iff]
    exact size_le_iff (ga.sendable srcID) stack r
  rw [← hprefix, ← sendGlobalAddr.decode_store_iff]
  exact forall_congr' fun buffer => hread _

theorem address_agrees_iff (net : Network) (r : AddressCall) (ga : GlobalAddress) (srcID : UInt16) :
    (∀ t ∈ (Message.address r ga srcID).transfers, t.Agrees net) ↔ (Message.address r ga srcID).Complete net := by
  simp only [Message.transfers, List.mem_singleton, forall_eq]
  constructor
  · intro h hnet
    refine (readAddress_iff r ga srcID fun _ => 0).mp fun buffer => (h (fun _ => 0) buffer fun p hp => ?_).1
    rw [List.mem_singleton.mp hp]
    exact hnet
  · intro h stack buffer hnet
    have hlong := h (hnet _ (List.mem_singleton_self _))
    exact ⟨(readAddress_iff r ga srcID stack).mpr hlong buffer,
      fun p _ wc => immData.decode_store (List.prefix_refl _) wc⟩

/-- The ends agree on every message, but for a request about an address that is cut off within the struct. -/
theorem agrees_iff (net : Network) (msg : Message) : (∀ t ∈ msg.transfers, t.Agrees net) ↔ msg.Complete net := by
  cases msg with
  | address r ga srcID => exact address_agrees_iff net r ga srcID
  | write d srcID => exact iff_of_true (List.forall_mem_singleton.mpr (write_agrees d srcID)) trivial
  | lock r l =>
    exact iff_of_true (List.forall_mem_singleton.mpr (whole_agrees lock l (sizeof lock) _ (by decide))) trivial
  | allocated newgaddr srcID =>
    refine iff_of_true (List.forall_mem_cons.mpr ⟨?_, List.forall_mem_singleton.mpr ?_⟩) trivial
    · exact allocation_agrees newgaddr srcID readResult_eq
    · exact allocation_agrees newgaddr srcID fun _ => rfl
  | freed res srcID => exact iff_of_true (List.forall_mem_singleton.mpr (reply_agrees res srcID)) trivial
  | written result srcID => exact iff_of_true (List.forall_mem_singleton.mpr (reply_agrees result srcID)) trivial
  | invalidated ga result srcID =>
    exact iff_of_true (List.forall_mem_singleton.mpr (invalidated_agrees ga result srcID)) trivial
  | fetched data => exact iff_of_true (List.forall_mem_singleton.mpr (data_agrees data)) trivial
  | removed res => exact iff_of_true (List.forall_mem_singleton.mpr (whole_agrees uint64 res 8 _ (by decide))) trivial
  | locked granted =>
    exact iff_of_true (List.forall_mem_singleton.mpr (whole_agrees boolean granted (sizeof boolean) _ (by decide)))
      trivial
  | closed =>
    exact iff_of_true (List.forall_mem_singleton.mpr (whole_agrees boolean false (sizeof boolean) _ (by decide)))
      trivial

/-- Of a READ about all but eight of `2 ^ 64` bytes only twelve bytes are sent. -/
theorem read_cut_off : ¬ ∀ (net : Network) (msg : Message), ∀ t ∈ msg.transfers, t.Agrees net := by
  intro h
  have hagrees := h (fun _ _ => true) (.address ⟨.read, rfl⟩ ⟨0xfffffffffffffff8, 4096, 3000⟩ 1000)
  have hlong := (address_agrees_iff _ _ _ _).mp hagrees rfl
  exact absurd hlong (by decide)

end CacheCoherence.WireFormat
