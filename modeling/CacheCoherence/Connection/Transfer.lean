import CacheCoherence.Connection.Tcp
import CacheCoherence.Foundation.Layouts
import CacheCoherence.Foundation.TransitionRuns

/-! # Buffers over a stream

One end of a connection writes buffers, the other reads buffers of the same sizes. Every `send` and every `recv`
moves as many bytes as it likes, between one and all that are missing, and the two ends take turns in any order. The
stream has room for all that is written.
-/
namespace CacheCoherence.Transfer
open Layouts Tcp TransitionRuns

structure Message where
  bytes : List UInt8
  buffer : ℕ
deriving DecidableEq, Repr

structure ReadCall where
  buffer : ℕ
  size : ℕ
deriving DecidableEq, Repr

def Message.readCall (m : Message) : ReadCall := ⟨m.buffer, m.bytes.length⟩

structure Completed where
  called : Memory
  returned : Memory

/-- `unsent` and `unread` are the calls that have not returned; the first of them is under way if there are
variables for it. -/
structure State where
  unsent : List (List UInt8)
  writing : Option Locals
  stream : List UInt8
  unread : List ReadCall
  reading : Option Locals
  called : Memory
  memory : Memory
  completed : List Completed

inductive Action where
  | callWrite
  | send (n : ℕ)
  | returnWrite
  | callRead (memory : Memory)
  | recv (n : ℕ)
  | returnRead

def start (messages : List Message) (memory : Memory) : State :=
  ⟨messages.map Message.bytes, none, [], messages.map Message.readCall, none, memory, memory, []⟩

def State.returnRead (s : State) : State :=
  { s with unread := s.unread.tail, reading := none, completed := s.completed ++ [⟨s.called, s.memory⟩] }

/-- The program can do what it likes with its memory between two calls of `read`. No call of `send` or `recv`
fails. -/
def step (s : State) : Action → Option State
  | .callWrite =>
    match s.writing, s.unsent with
    | none, b :: _ => some { s with writing := some ⟨0, b.length⟩ }
    | _, _ => none
  | .send n =>
    match s.writing, s.unsent with
    | some l, b :: _ =>
      if 0 < n ∧ n ≤ l.size then
        match writeRound l n with
        | .again l' => some { s with writing := some l', stream := s.stream ++ (b.drop l.current).take n }
        | .exit _ => none
      else none
    | _, _ => none
  | .returnWrite =>
    match s.writing, s.unsent with
    | some l, _ :: us => if l.size = 0 then some { s with unsent := us, writing := none } else none
    | _, _ => none
  | .callRead memory =>
    match s.reading, s.unread with
    | none, r :: _ => some { s with reading := some ⟨0, r.size⟩, called := memory, memory := memory }
    | _, _ => none
  | .recv n =>
    match s.reading, s.unread with
    | some l, r :: _ =>
      if 0 < n ∧ n ≤ l.size ∧ n ≤ s.stream.length then
        let s' := { s with
          stream := s.stream.drop n
          memory := store s.memory (r.buffer + l.current) (s.stream.take n) }
        match readRound l n with
        | .again l' => some { s' with reading := some l' }
        | .exit .returned => some s'.returnRead
        | .exit .thrown => none
      else none
    | _, _ => none
  | .returnRead =>
    match s.reading, s.unread with
    | some l, _ :: _ => if l.size = 0 then some s.returnRead else none
    | _, _ => none

def Filled (m : Message) (c : Completed) : Prop := c.returned = store c.called m.buffer m.bytes

def position (call : Option Locals) : ℕ := call.elim 0 Locals.current

def State.unsentBytes (s : State) : List UInt8 := s.unsent.flatten.drop (position s.writing)

/-- The reads of `done` have returned, and nothing of `rest` is lost: what the read under way has got of it is in its
buffer, and the rest is on its way or still to be sent. -/
structure Exact (done rest : List Message) (s : State) : Prop where
  filled : List.Forall₂ Filled done s.completed
  pending : s.stream ++ s.unsentBytes = (rest.flatMap Message.bytes).drop (position s.reading)
  reading : ∀ l, s.reading = some l →
    ∃ m ms, rest = m :: ms ∧ s.memory = store s.called m.buffer (m.bytes.take l.current)

structure Consistent (done rest : List Message) (s : State) : Prop where
  exact : Exact done rest s
  unread : s.unread = rest.map Message.readCall
  writes : ∀ l, s.writing = some l → ∃ b us, s.unsent = b :: us ∧ l.current + l.size = b.length
  reads : ∀ l, s.reading = some l → ∃ m ms, rest = m :: ms ∧ l.current + l.size = m.bytes.length

inductive Moves (s : State) : Action → State → Prop where
  | callWrite {b us} (hw : s.writing = none) (hu : s.unsent = b :: us) :
    Moves s .callWrite { s with writing := some ⟨0, b.length⟩ }
  | send {l b us n} (hw : s.writing = some l) (hu : s.unsent = b :: us) (hpos : 0 < n) (hfit : n ≤ l.size) :
    Moves s (.send n) { s with writing := some (l.advance n), stream := s.stream ++ (b.drop l.current).take n }
  | returnWrite {l b us} (hw : s.writing = some l) (hu : s.unsent = b :: us) (hsize : l.size = 0) :
    Moves s .returnWrite { s with unsent := us, writing := none }
  | callRead {r rs} (memory) (hr : s.reading = none) (hu : s.unread = r :: rs) :
    Moves s (.callRead memory) { s with reading := some ⟨0, r.size⟩, called := memory, memory := memory }
  | recv {l r rs n} (hr : s.reading = some l) (hu : s.unread = r :: rs) (hpos : 0 < n) (hmore : n < l.size)
      (hstream : n ≤ s.stream.length) :
    Moves s (.recv n) { s with
      reading := some (l.advance n), stream := s.stream.drop n
      memory := store s.memory (r.buffer + l.current) (s.stream.take n) }
  | recvLast {l r rs} (hr : s.reading = some l) (hu : s.unread = r :: rs) (hpos : 0 < l.size)
      (hstream : l.size ≤ s.stream.length) :
    Moves s (.recv l.size) (State.returnRead { s with
      stream := s.stream.drop l.size
      memory := store s.memory (r.buffer + l.current) (s.stream.take l.size) })
  | returnRead {l r rs} (hr : s.reading = some l) (hu : s.unread = r :: rs) (hsize : l.size = 0) :
    Moves s .returnRead s.returnRead

theorem writeRound_natCast (l : Locals) (n : ℕ) : writeRound l n = .again (l.advance n) := by
  simp [writeRound]

theorem readRound_natCast (l : Locals) (n : ℕ) :
    readRound l n = if n = l.size then .exit .returned else .again (l.advance n) := by
  simp [readRound]

variable {s t : State} {a : Action} {done rest : List Message} {m : Message} {l : Locals} {n : ℕ}

theorem moves_of_step (h : step s a = some t) : Moves s a t := by
  cases a with
  | callWrite =>
    simp only [step] at h
    split at h
    · rename_i b us hw hu
      cases h
      exact .callWrite hw hu
    · cases h
  | send n =>
    simp only [step, writeRound_natCast] at h
    split at h
    · rename_i l b us hw hu
      split at h
      · rename_i hn
        cases h
        exact .send hw hu hn.1 hn.2
      · cases h
    · cases h
  | returnWrite =>
    simp only [step] at h
    split at h
    · rename_i l b us hw hu
      split at h
      · rename_i hsize
        cases h
        exact .returnWrite hw hu hsize
      · cases h
    · cases h
  | callRead memory =>
    simp only [step] at h
    split at h
    · rename_i r rs hr hu
      cases h
      exact .callRead memory hr hu
    · cases h
  | recv n =>
    simp only [step, readRound_natCast] at h
    split at h
    · rename_i l r rs hr hu
      split at h
      · rename_i hn
        obtain ⟨hpos, hfit, hstream⟩ := hn
        by_cases hlast : n = l.size
        · subst hlast
          simp only [if_true, Option.some.injEq] at h
          subst h
          exact .recvLast hr hu hpos hstream
        · simp only [if_neg hlast, Option.some.injEq] at h
          subst h
          exact .recv hr hu hpos (by omega) hstream
      · cases h
    · cases h
  | returnRead =>
    simp only [step] at h
    split at h
    · rename_i l r rs hr hu
      split at h
      · rename_i hsize
        cases h
        exact .returnRead hr hu hsize
      · cases h
    · cases h

theorem step_of_moves (h : Moves s a t) : step s a = some t := by
  cases h with
  | callWrite hw hu => simp [step, hw, hu]
  | send hw hu hpos hfit => simp [step, writeRound_natCast, hw, hu, hpos, hfit]
  | returnWrite hw hu hsize => simp [step, hw, hu, hsize]
  | callRead memory hr hu => simp [step, hr, hu]
  | recv hr hu hpos hmore hstream => simp [step, readRound_natCast, hr, hu, hpos, hmore.le, hmore.ne, hstream]
  | recvLast hr hu hpos hstream => simp [step, readRound_natCast, hr, hu, hpos, hstream]
  | returnRead hr hu hsize => simp [step, hr, hu, hsize]

theorem drop_eq_append {xs ys : List UInt8} {i : ℕ} (h : i + n ≤ xs.length) :
    (xs ++ ys).drop i = (xs.drop i).take n ++ (xs ++ ys).drop (i + n) := by
  have hpiece : ((xs ++ ys).drop i).take n = (xs.drop i).take n := by
    rw [List.drop_append_of_le_length (by omega), List.take_append_of_le_length (by rw [List.length_drop]; omega)]
  rw [← hpiece, ← List.drop_drop, List.take_append_drop]

theorem consistent_start (messages : List Message) (memory : Memory) :
    Consistent [] messages (start messages memory) where
  exact := ⟨.nil, by simp [start, State.unsentBytes, position, List.flatMap], fun l h => by cases h⟩
  unread := rfl
  writes l h := by cases h
  reads l h := by cases h

theorem Consistent.received (h : Consistent done rest s) (hr : s.reading = some l) (hfit : n ≤ l.size)
    (hstream : n ≤ s.stream.length) :
    ∃ m ms, rest = m :: ms ∧ l.current + l.size = m.bytes.length ∧
      store s.memory (m.buffer + l.current) (s.stream.take n) = store s.called m.buffer (m.bytes.take (l.current + n)) ∧
      s.stream.drop n ++ s.unsentBytes = (rest.flatMap Message.bytes).drop (l.current + n) := by
  obtain ⟨m, ms, rfl, hlen⟩ := h.reads l hr
  obtain ⟨m', ms', heq, hmemory⟩ := h.exact.reading l hr
  obtain ⟨rfl, rfl⟩ := List.cons.inj heq
  have hpending := h.exact.pending
  rw [hr, position, Option.elim_some, List.flatMap_cons, drop_eq_append (n := n) (by omega),
    ← List.take_append_drop n s.stream, List.append_assoc] at hpending
  obtain ⟨hpiece, hrest⟩ := List.append_inj hpending (by
    rw [List.length_take, List.length_take, List.length_drop]
    omega)
  refine ⟨m, ms, rfl, hlen, ?_, by rw [List.flatMap_cons]; exact hrest⟩
  have hcurrent : (m.bytes.take l.current).length = l.current := by
    rw [List.length_take]
    omega
  calc store s.memory (m.buffer + l.current) (s.stream.take n)
      = store (store s.called m.buffer (m.bytes.take l.current)) (m.buffer + (m.bytes.take l.current).length)
        ((m.bytes.drop l.current).take n) := by
        rw [hmemory, hpiece, hcurrent]
    _ = store s.called m.buffer (m.bytes.take (l.current + n)) := by rw [store_append, ← List.take_add]

theorem Consistent.returnRead {ms : List Message} (h : Consistent done (m :: ms) s) {memory : Memory}
    {stream : List UInt8}
    (hmemory : memory = store s.called m.buffer m.bytes)
    (hpending : stream ++ s.unsentBytes = ((m :: ms).flatMap Message.bytes).drop m.bytes.length) :
    Consistent (done ++ [m]) ms (State.returnRead { s with stream := stream, memory := memory }) where
  exact := by
    refine ⟨?_, ?_, fun l hl => by cases hl⟩
    · exact List.rel_append h.exact.filled (.cons hmemory .nil)
    · rw [List.flatMap_cons, List.drop_left] at hpending
      exact hpending
  unread := by simp [State.returnRead, h.unread]
  writes := h.writes
  reads l hl := by cases hl

theorem Consistent.step (h : Consistent done rest s) (hm : Moves s a t) :
    ∃ done' rest', done ++ rest = done' ++ rest' ∧ Consistent done' rest' t := by
  cases hm with
  | callWrite hw hu =>
    rename_i b us
    refine ⟨done, rest, rfl, ⟨⟨h.exact.filled, ?_, h.exact.reading⟩, h.unread, fun l hl => ?_, h.reads⟩⟩
    · simpa [State.unsentBytes, position, hw] using h.exact.pending
    · cases hl
      exact ⟨b, us, hu, Nat.zero_add _⟩
  | send hw hu hpos hfit =>
    rename_i l b us n
    obtain ⟨b', us', hu', hlen⟩ := h.writes l hw
    obtain ⟨rfl, rfl⟩ := List.cons.inj (hu.symm.trans hu')
    refine ⟨done, rest, rfl, ⟨⟨h.exact.filled, ?_, h.exact.reading⟩, h.unread, fun l' hl' => ?_, h.reads⟩⟩
    · have hpending := h.exact.pending
      rw [State.unsentBytes, hw, hu, List.flatten_cons, position, Option.elim_some, drop_eq_append (n := n) (by omega)]
        at hpending
      rw [← hpending]
      simp [State.unsentBytes, position, Locals.advance, hu]
    · cases hl'
      refine ⟨b, us, hu, ?_⟩
      simp only [Locals.advance]
      omega
  | returnWrite hw hu hsize =>
    rename_i l b us
    obtain ⟨b', us', hu', hlen⟩ := h.writes l hw
    obtain ⟨rfl, rfl⟩ := List.cons.inj (hu.symm.trans hu')
    refine ⟨done, rest, rfl, ⟨⟨h.exact.filled, ?_, h.exact.reading⟩, h.unread, fun l' hl' => ?_, h.reads⟩⟩
    · have hcurrent : l.current = b.length := by omega
      have hpending := h.exact.pending
      rw [State.unsentBytes, hw, hu, List.flatten_cons, position, Option.elim_some, hcurrent, List.drop_left]
        at hpending
      exact hpending
    · cases hl'
  | callRead memory hr hu =>
    rename_i r rs
    have hunread := h.unread
    cases rest with
    | nil => simp [hu] at hunread
    | cons m ms =>
      obtain ⟨rfl, -⟩ := List.cons.inj (hu.symm.trans hunread)
      refine ⟨done, m :: ms, rfl, ⟨⟨h.exact.filled, ?_, fun l hl => ?_⟩, h.unread, h.writes, fun l hl => ?_⟩⟩
      · simpa [State.unsentBytes, position, hr] using h.exact.pending
      · cases hl
        exact ⟨m, ms, rfl, (store_nil memory m.buffer).symm⟩
      · cases hl
        exact ⟨m, ms, rfl, Nat.zero_add _⟩
  | recv hr hu hpos hmore hstream =>
    rename_i l r rs n
    obtain ⟨m, ms, rfl, hlen, hmemory, hpending⟩ := h.received hr hmore.le hstream
    obtain ⟨rfl, -⟩ := List.cons.inj (hu.symm.trans h.unread)
    refine ⟨done, m :: ms, rfl, ⟨⟨h.exact.filled, hpending, fun l' hl' => ?_⟩, h.unread, h.writes, fun l' hl' => ?_⟩⟩
    · cases hl'
      exact ⟨m, ms, rfl, hmemory⟩
    · cases hl'
      refine ⟨m, ms, rfl, ?_⟩
      simp only [Locals.advance]
      omega
  | recvLast hr hu hpos hstream =>
    rename_i l r rs
    obtain ⟨m, ms, rfl, hlen, hmemory, hpending⟩ := h.received hr le_rfl hstream
    obtain ⟨rfl, -⟩ := List.cons.inj (hu.symm.trans h.unread)
    rw [hlen] at hmemory hpending
    rw [List.take_length] at hmemory
    exact ⟨done ++ [m], ms, by simp, h.returnRead hmemory hpending⟩
  | returnRead hr hu hsize =>
    rename_i l r rs
    obtain ⟨m, ms, rfl, hlen, hmemory, hpending⟩ := h.received (n := 0) hr (Nat.zero_le _) (Nat.zero_le _)
    have hcurrent : l.current + 0 = m.bytes.length := by omega
    rw [hcurrent, List.take_length, List.take_zero, store_nil] at hmemory
    rw [hcurrent, List.drop_zero] at hpending
    exact ⟨done ++ [m], ms, by simp, h.returnRead hmemory hpending⟩

def callWork : Option Locals → List ℕ → ℕ
  | none, sizes => (sizes.map (· + 2)).sum
  | some l, sizes => l.size + 1 + (sizes.tail.map (· + 2)).sum

def State.work (s : State) : ℕ :=
  callWork s.writing (s.unsent.map List.length) + callWork s.reading (s.unread.map ReadCall.size)

theorem work_lt (h : Moves s a t) : t.work < s.work := by
  cases h with
  | callWrite hw hu =>
    simp only [State.work, callWork, hw, hu, List.map_cons, List.tail_cons, List.sum_cons]
    omega
  | send hw hu hpos hfit =>
    simp only [State.work, callWork, hw, hu, List.map_cons, List.tail_cons, Locals.advance]
    omega
  | returnWrite hw hu hsize =>
    simp only [State.work, callWork, hw, hu, List.map_cons, List.tail_cons]
    omega
  | callRead memory hr hu =>
    simp only [State.work, callWork, hr, hu, List.map_cons, List.tail_cons, List.sum_cons]
    omega
  | recv hr hu hpos hmore hstream =>
    simp only [State.work, callWork, hr, hu, List.map_cons, List.tail_cons, Locals.advance]
    omega
  | recvLast hr hu hpos hstream =>
    simp only [State.work, State.returnRead, callWork, hr, hu, List.map_cons, List.tail_cons]
    omega
  | returnRead hr hu hsize =>
    simp only [State.work, State.returnRead, callWork, hr, hu, List.map_cons, List.tail_cons]
    omega

theorem Consistent.writer_moves (h : Consistent done rest s) (hunsent : s.unsent ≠ []) : ∃ a t, Moves s a t := by
  cases hw : s.writing with
  | none =>
    obtain ⟨b, us, hu⟩ := List.exists_cons_of_ne_nil hunsent
    exact ⟨_, _, .callWrite hw hu⟩
  | some l =>
    obtain ⟨b, us, hu, -⟩ := h.writes l hw
    by_cases hsize : l.size = 0
    · exact ⟨_, _, .returnWrite hw hu hsize⟩
    · exact ⟨_, _, .send hw hu Nat.one_pos (by omega)⟩

theorem Consistent.reader_moves (h : Consistent done rest s) (hrest : rest ≠ []) : ∃ a t, Moves s a t := by
  by_cases hunsent : s.unsent = []
  · obtain ⟨m, ms, rfl⟩ := List.exists_cons_of_ne_nil hrest
    have hunread : s.unread = m.readCall :: ms.map Message.readCall := h.unread
    cases hr : s.reading with
    | none => exact ⟨_, _, .callRead s.memory hr hunread⟩
    | some l =>
      by_cases hsize : l.size = 0
      · exact ⟨_, _, .returnRead hr hunread hsize⟩
      · obtain ⟨m', ms', heq, hlen⟩ := h.reads l hr
        obtain ⟨rfl, rfl⟩ := List.cons.inj heq
        -- what is missing has been sent
        have hpending := congrArg List.length h.exact.pending
        simp only [State.unsentBytes, hunsent, hr, position, Option.elim_some, List.flatten_nil, List.drop_nil,
          List.append_nil,
          List.flatMap_cons, List.length_drop, List.length_append] at hpending
        exact ⟨_, _, .recvLast hr hunread (by omega) (by omega)⟩
  · exact h.writer_moves hunsent

/-- Every state of a transfer is exact, no transfer goes on for ever, and one that cannot go on is complete. -/
theorem transfer_exact (messages : List Message) (memory : Memory) (as : List Action) :
    Always step (fun s => ∃ done rest, messages = done ++ rest ∧ Exact done rest s) (start messages memory) as ∧
      ∀ s, run step (start messages memory) as = some s →
        as.length ≤ (start messages memory).work ∧
          ((∀ a, step s a = none) → List.Forall₂ Filled messages s.completed ∧ s.stream = []) := by
  have hinv : ∀ bs t, run step (start messages memory) bs = some t → ∃ done rest, messages = done ++ rest ∧
    Consistent done rest t := by
    intro bs t ht
    refine run_invariant (I := fun s => ∃ done rest, messages = done ++ rest ∧ Consistent done rest s)
      (fun s a u hs hu => ?_)
      ⟨[], messages, rfl, consistent_start messages memory⟩ ht
    obtain ⟨done, rest, rfl, hs⟩ := hs
    exact hs.step (moves_of_step hu)
  constructor
  · rw [always_iff_passed]
    intro bs t _ ht
    obtain ⟨done, rest, heq, h⟩ := hinv bs t ht
    exact ⟨done, rest, heq, h.exact⟩
  · intro s hs
    have hlength := length_add_le (fun _ _ _ h => work_lt (moves_of_step h)) hs
    refine ⟨by omega, fun hstuck => ?_⟩
    have hnone : ¬ ∃ a t, Moves s a t := by
      rintro ⟨a, t, hm⟩
      cases (hstuck a).symm.trans (step_of_moves hm)
    obtain ⟨done, rest, rfl, h⟩ := hinv as s hs
    obtain rfl : rest = [] := by
      by_contra hrest
      exact hnone (h.reader_moves hrest)
    rw [List.append_nil]
    exact ⟨h.exact.filled, (List.append_eq_nil_iff.mp (by simpa using h.exact.pending)).1⟩

end CacheCoherence.Transfer
