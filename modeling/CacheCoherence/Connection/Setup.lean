import CacheCoherence.Connection.Conversation
import CacheCoherence.Connection.WireFormat

/-! # What the ends of a connection tell each other

`connectClientSocket` and `connectAndReceive` exchange the addresses of their queue pairs over the socket. Then, for
each request, `sendAddress`, `sendData` or `sendLock` and `receive` exchange the addresses of their buffers.
-/
namespace CacheCoherence.Setup
open Layouts TransitionRuns Conversation
open Layouts (Memory)
open Transfer (Message Completed Filled)
open WireFormat (uint16 uint32 uint64)

structure Gid where
  subnetPrefix : UInt64
  interfaceId : UInt64
deriving DecidableEq, Repr

structure Address where
  gid : Gid
  qpn : UInt32
  lid : UInt16
deriving DecidableEq, Repr

structure RemoteAddress where
  address : UInt64
  rkey : UInt32
deriving DecidableEq, Repr

def gid : Layout Gid :=
  (uint64.pair uint64).map (fun x => some ⟨x.1, x.2⟩) (fun g => (g.subnetPrefix, g.interfaceId)) fun x v => by
    rw [Option.some.injEq]
    exact ⟨fun h => by rw [← h], fun h => by rw [h]⟩

def address : Layout Address :=
  ((gid.pair uint32).pair uint16).map (fun x => some ⟨x.1.1, x.1.2, x.2⟩) (fun a => ((a.gid, a.qpn), a.lid))
    fun x v => by
      rw [Option.some.injEq]
      exact ⟨fun h => by rw [← h], fun h => by rw [h]⟩

def remoteAddress : Layout RemoteAddress :=
  (uint64.pair uint32).map (fun x => some ⟨x.1, x.2⟩) (fun r => (r.address, r.rkey)) fun x v => by
    rw [Option.some.injEq]
    exact ⟨fun h => by rw [← h], fun h => by rw [h]⟩

/-- A struct that one end writes, with its padding up to `sizeof`, and where the other end reads it. -/
structure Item (α : Type) (n : ℕ) where
  value : α
  padding : List.Vector UInt8 n
  buffer : ℕ

def Item.message {α : Type} {n : ℕ} (l : Layout α) (i : Item α n) : Message :=
  ⟨l.encode i.value ++ i.padding.toList, i.buffer⟩

/-- What each end has to say: the address of its queue pair, and for each request that of a buffer. -/
structure Session where
  address : Party → Item Address 2
  regions : List (Party → Item RemoteAddress 4)

def Session.exchanges (s : Session) : List Exchange :=
  ⟨(s.address .client).message Setup.address, (s.address .server).message Setup.address⟩ ::
    s.regions.map fun r => ⟨(r .client).message remoteAddress, (r .server).message remoteAddress⟩

/-- The reads that the other end has made have given it what `x` had to say, each in its place. -/
structure Session.Told (s : Session) (x : Party) (cs : List Completed) : Prop where
  address : ∀ c, cs[0]? = some c →
    Setup.address.decode (shift (s.address x).buffer c.returned) = some (s.address x).value
  regions : ∀ k r c, s.regions[k]? = some r → cs[k + 1]? = some c →
    remoteAddress.decode (shift (r x).buffer c.returned) = some (r x).value

section
variable {α : Type} {n : ℕ} {s : Session} {x : Party} {st : State}

theorem length_message (l : Layout α) (i : Item α n) : (i.message l).bytes.length = l.size + n := by
  rw [Item.message, List.length_append, l.length_encode, List.Vector.toList_length]

theorem shift_store (m : Memory) (a : ℕ) (bs : List UInt8) : shift a (store m a bs) = store (shift a m) 0 bs := by
  funext i
  simp [shift, store]

theorem Item.decode {l : Layout α} {i : Item α n} {c : Completed} (h : Filled (i.message l) c) :
    l.decode (shift i.buffer c.returned) = some i.value := by
  rw [show c.returned = store c.called i.buffer (i.message l).bytes from h, shift_store]
  exact l.decode_store (List.prefix_append _ _) _

theorem messages_eq (s : Session) (x : Party) : s.exchanges.map (·.by x) =
    (s.address x).message Setup.address :: s.regions.map fun r => (r x).message remoteAddress := by
  rw [Session.exchanges, List.map_cons, List.map_map]
  cases x <;> rfl

theorem told_of_filled {done rest : List Message} {cs : List Completed}
    (heq : s.exchanges.map (·.by x) = done ++ rest) (h : List.Forall₂ Filled done cs) : s.Told x cs := by
  have hfilled : ∀ (k : ℕ) (m : Message) (c : Completed), (s.exchanges.map (·.by x))[k]? = some m → cs[k]? = some c →
      Filled m c := by
    intro k m c hm hc
    obtain ⟨hlength, hget⟩ := List.forall₂_iff_get.mp h
    obtain ⟨hk, rfl⟩ := List.getElem?_eq_some_iff.mp hc
    have hdone : k < done.length := hlength ▸ hk
    rw [heq, List.getElem?_append_left hdone, List.getElem?_eq_getElem hdone] at hm
    cases hm
    exact hget k hdone hk
  rw [messages_eq] at hfilled
  exact ⟨fun c hc => Item.decode (hfilled 0 _ c rfl hc),
    fun k r c hr hc => Item.decode (hfilled (k + 1) _ c (by simp [hr]) hc)⟩

theorem work_start {memory : Party → Memory} :
    (start s.exchanges memory x).work = 52 + 36 * s.regions.length := by
  have haddress : ((s.address x).message Setup.address).bytes.length = 24 := length_message _ _
  have hregion : ∀ r : Party → Item RemoteAddress 4, ((r x).message remoteAddress).bytes.length = 16 :=
    fun r => length_message _ _
  have hsum : ∀ f : (Party → Item RemoteAddress 4) → ℕ, (∀ r, f r = 18) →
      (s.regions.map f).sum = 18 * s.regions.length := by
    intro f hf
    rw [List.map_congr_left fun r _ => hf r, List.map_const', List.sum_replicate, smul_eq_mul, Nat.mul_comm]
  rw [start, Transfer.State.work, Transfer.start, messages_eq]
  simp only [Transfer.callWork, List.map_cons, List.map_map, List.sum_cons, Message.readCall, haddress]
  rw [hsum _ fun r => by simp [hregion], hsum _ fun r => by simp [Message.readCall, hregion]]
  omega

theorem fits_exchanges {room : ℕ} (h : 24 ≤ room) : Fits room s.exchanges := by
  refine ⟨by omega, fun e he => ⟨.client, ?_⟩⟩
  rcases List.mem_cons.mp he with rfl | hregion
  · exact (length_message Setup.address (s.address .client)).trans_le h
  · obtain ⟨r, -, rfl⟩ := List.mem_map.mp hregion
    exact (length_message remoteAddress (r .client)).trans_le (le_trans (by decide) h)

end

/-- Both ends are told each other's addresses in the same order, wherever the socket cuts them: the queue pairs are
connected to each other, and every request is written to the buffer that the other end has for it. The exchange of
addresses takes at most 104 steps for the set-up, and 72 more for each request; it does not get stuck in a socket that
has room for one address. -/
theorem session_told {room : ℕ} {s : Session} {memory : Party → Memory} {st : State}
    {as : List (Party × Transfer.Action)} (h : run (step room) (start s.exchanges memory) as = some st) :
    (∀ x, s.Told x (st x).completed) ∧ as.length ≤ 104 + 72 * s.regions.length ∧
      (24 ≤ room → (∀ p, step room st p = none) → ∀ x, (st x).completed.length = s.regions.length + 1) := by
  refine ⟨fun x => ?_, ?_, fun hroom hnone x => ?_⟩
  · obtain ⟨done, rest, heq, hx⟩ := exact_of_run h x
    exact told_of_filled heq hx.filled
  · have hlength := length_le_of_run h
    rw [work_start, work_start] at hlength
    omega
  · have hfilled := filled_of_stopped h (fits_exchanges hroom) hnone x
    rw [← hfilled.length_eq, messages_eq, List.length_cons, List.length_map]

def greeting : Session :=
  ⟨fun x => ⟨⟨⟨0xfe80, 7⟩, if x = .client then 17 else 18, 1⟩, ⟨[0, 0], rfl⟩, 64⟩,
    [fun x => ⟨⟨if x = .client then 0x5000 else 0x9000, if x = .client then 3 else 4⟩, ⟨[0, 0, 0, 0], rfl⟩, 96⟩]⟩

def greet : List (Party × Transfer.Action) :=
  [(.client, .callWrite), (.client, .send 10), (.server, .callWrite), (.client, .send 14), (.client, .returnWrite),
    (.server, .send 24), (.server, .returnWrite), (.client, .callRead fun _ => 0), (.client, .recv 24),
    (.client, .callWrite), (.server, .callRead fun _ => 0), (.server, .recv 24), (.client, .send 16),
    (.client, .returnWrite), (.server, .callWrite), (.server, .send 16), (.server, .returnWrite),
    (.server, .callRead fun _ => 0), (.server, .recv 16), (.client, .callRead fun _ => 0), (.client, .recv 16)]

theorem greeting_told : ∃ st, run (step 24) (start greeting.exchanges fun _ _ => 0) greet = some st ∧
    (∀ x, greeting.Told x (st x).completed) ∧ greet.length ≤ 104 + 72 * 1 ∧ ∀ x, (st x).completed.length = 2 := by
  have hrun : (run (step 24) (start greeting.exchanges fun _ _ => 0) greet).map
      (fun st => ((st .client).unsent, (st .client).unread, (st .server).unsent, (st .server).unread)) =
        some ([], [], [], []) := by decide
  obtain ⟨st, hst, hends⟩ := Option.map_eq_some_iff.mp hrun
  obtain ⟨hunsent, hrest⟩ := Prod.mk.inj hends
  obtain ⟨hunread, hrest⟩ := Prod.mk.inj hrest
  obtain ⟨hunsent', hunread'⟩ := Prod.mk.inj hrest
  have hdone : ∀ x, (st x).unsent = [] ∧ (st x).unread = [] := by
    intro x
    cases x with
    | client => exact ⟨hunsent, hunread⟩
    | server => exact ⟨hunsent', hunread'⟩
  obtain ⟨htold, hlength, hstop⟩ := session_told hst
  exact ⟨st, hst, htold, hlength, hstop le_rfl (stopped_of_done hdone)⟩

end CacheCoherence.Setup
