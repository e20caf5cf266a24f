import CacheCoherence.Connection.Transfer

/-! # Both ends of a stream

The ends of a connection exchange buffers over its socket: each writes one and then reads one of the other's, again
and again. Neither waits for the other before it writes, so both can stand in `write` at a time. They get out of it if
the socket has room for one of the two buffers; larger ones can block each other for ever.
-/
namespace CacheCoherence.Conversation
open Layouts Tcp TransitionRuns
open Transfer (Message Moves Consistent Exact Filled)

inductive Party where
  | client
  | server
deriving DecidableEq, Repr

def Party.other : Party → Party
  | .client => .server
  | .server => .client

structure Exchange where
  client : Message
  server : Message

def Exchange.by (e : Exchange) : Party → Message
  | .client => e.client
  | .server => e.server

abbrev State := Party → Transfer.State

def start (exchanges : List Exchange) (memory : Party → Memory) : State :=
  fun x => Transfer.start (exchanges.map (·.by x)) (memory x.other)

def line (x : Party) : Transfer.Action → Party
  | .callWrite | .send _ | .returnWrite => x
  | .callRead _ | .recv _ | .returnRead => x.other

/-- A party calls `write` when its last `read` has returned, and `read` when its last `write` has. What has been sent
and not received takes `room` bytes at most, in either direction. -/
def Turn (room : ℕ) (s : State) (x : Party) : Transfer.Action → Prop
  | .callWrite => (s x.other).reading = none ∧ (s x).unsent.length = (s x.other).unread.length
  | .callRead _ => (s x).writing = none ∧ (s x).unsent.length + 1 = (s x.other).unread.length
  | .send n => (s x).stream.length + n ≤ room
  | _ => True

instance (room : ℕ) : ∀ s x a, Decidable (Turn room s x a)
  | _, _, .callWrite | _, _, .callRead _ => inferInstanceAs (Decidable (_ ∧ _))
  | _, _, .send _ => inferInstanceAs (Decidable (_ ≤ _))
  | _, _, .returnWrite | _, _, .recv _ | _, _, .returnRead => isTrue trivial

def step (room : ℕ) (s : State) (p : Party × Transfer.Action) : Option State :=
  if Turn room s p.1 p.2 then (Transfer.step (s (line p.1 p.2)) p.2).map fun l => Function.update s (line p.1 p.2) l
  else none

@[simp] theorem other_ne (x : Party) : x.other ≠ x := by cases x <;> decide
@[simp] theorem ne_other (x : Party) : x ≠ x.other := by cases x <;> decide
@[simp] theorem other_other (x : Party) : x.other.other = x := by cases x <;> rfl

theorem eq_or_other (x y : Party) : y = x ∨ y = x.other := by cases x <;> cases y <;> decide

/-- How far a party is: `unsent` of its own line and `unread` of the other one are the calls that have not
returned. -/
structure Alternates (own back : Transfer.State) : Prop where
  behind : own.unsent.length ≤ back.unread.length
  ahead : back.unread.length ≤ own.unsent.length + 1
  writing : own.writing ≠ none → own.unsent.length = back.unread.length
  reading : back.reading ≠ none → back.unread.length = own.unsent.length + 1

structure Carries (messages : List Message) (l : Transfer.State) : Prop where
  consistent : ∃ done rest, messages = done ++ rest ∧ Consistent done rest l
  unsent : l.unsent <:+ messages.map Message.bytes

structure Inv (exchanges : List Exchange) (s : State) : Prop where
  carries : ∀ x, Carries (exchanges.map (·.by x)) (s x)
  alternates : ∀ x, Alternates (s x) (s x.other)

section
variable {room : ℕ} {exchanges : List Exchange} {memory : Party → Memory} {s t : State} {x : Party}
  {a : Transfer.Action}
  {l l' own back : Transfer.State} {messages : List Message}

theorem inv_start : Inv exchanges (start exchanges memory) where
  carries x := ⟨⟨[], _, rfl, Transfer.consistent_start _ _⟩, List.suffix_refl _⟩
  alternates x := by
    have hlength : ∀ y, (start exchanges memory y).unsent.length = exchanges.length ∧
        (start exchanges memory y).unread.length = exchanges.length := by
      intro y
      simp [start, Transfer.start]
    refine ⟨?_, ?_, fun h => absurd rfl h, fun h => absurd rfl h⟩
    · rw [(hlength x).1, (hlength x.other).2]
    · rw [(hlength x).1, (hlength x.other).2]
      exact Nat.le_succ _

theorem step_eq_some (h : step room s (x, a) = some t) :
    Turn room s x a ∧ ∃ l, Moves (s (line x a)) a l ∧ t = Function.update s (line x a) l := by
  rw [step] at h
  split at h
  · rename_i hturn
    obtain ⟨l, hl, rfl⟩ := Option.map_eq_some_iff.mp h
    exact ⟨hturn, l, Transfer.moves_of_step hl, rfl⟩
  · cases h

theorem stopped_of_done (h : ∀ x, (s x).unsent = [] ∧ (s x).unread = []) (p : Party × Transfer.Action) :
    step room s p = none := by
  by_contra hne
  obtain ⟨t, ht⟩ := Option.ne_none_iff_exists'.mp hne
  obtain ⟨x, a⟩ := p
  obtain ⟨-, l, hm, -⟩ := step_eq_some ht
  obtain ⟨hunsent, hunread⟩ := h (line x a)
  cases hm with
  | callWrite hw hu | send hw hu | returnWrite hw hu => cases hunsent.symm.trans hu
  | callRead memory hr hu | recv hr hu | recvLast hr hu | returnRead hr hu => cases hunread.symm.trans hu

theorem step_of_moves (hturn : Turn room s x a) (h : Moves (s (line x a)) a l) :
    step room s (x, a) = some (Function.update s (line x a) l) := by
  rw [step, if_pos hturn, Transfer.step_of_moves h, Option.map_some]

theorem Carries.step (h : Carries messages l) (hm : Moves l a l') : Carries messages l' := by
  obtain ⟨⟨done, rest, rfl, hc⟩, hunsent⟩ := h
  obtain ⟨done', rest', heq, hc'⟩ := hc.step hm
  refine ⟨⟨done', rest', heq, hc'⟩, ?_⟩
  cases hm with
  | returnWrite hw hu hsize => exact (List.suffix_cons _ _).trans (hu ▸ hunsent)
  | callWrite | send | callRead | recv | recvLast | returnRead => exact hunsent

theorem Alternates.step_own (h : Alternates (s x) (s x.other)) (hturn : Turn room s x a)
    (hm : Moves (s (line x a)) a l) :
    Alternates (Function.update s (line x a) l x) (Function.update s (line x a) l x.other) := by
  obtain ⟨hbehind, hahead, hwriting, hreading⟩ := h
  cases hm with
  | callWrite hw hu =>
    simp only [line, Function.update_self, Function.update_of_ne (other_ne x)]
    exact ⟨hbehind, hahead, fun _ => hturn.2, fun h => absurd hturn.1 h⟩
  | send hw hu hpos hfit =>
    have hw : (s x).writing = _ := hw
    simp only [line, Function.update_self, Function.update_of_ne (other_ne x)]
    exact ⟨hbehind, hahead, fun _ => hwriting (by simp [hw]), hreading⟩
  | returnWrite hw hu hsize =>
    have hw : (s x).writing = _ := hw
    have hu : (s x).unsent = _ := hu
    have hequal := hwriting (by simp [hw])
    have hidle : (s x.other).reading = none := by
      by_contra hr
      have := hreading hr
      omega
    rw [hu, List.length_cons] at hequal
    simp only [line, Function.update_self, Function.update_of_ne (other_ne x)]
    exact ⟨by simp only; omega, hequal.ge, fun h => absurd rfl h, fun h => absurd hidle h⟩
  | callRead memory hr hu =>
    simp only [line, Function.update_self, Function.update_of_ne (ne_other x)]
    exact ⟨hbehind, hahead, fun h => absurd hturn.1 h, fun _ => hturn.2.symm⟩
  | recv hr hu hpos hmore hstream =>
    have hr : (s x.other).reading = _ := hr
    simp only [line, Function.update_self, Function.update_of_ne (ne_other x)]
    exact ⟨hbehind, hahead, hwriting, fun _ => hreading (by simp [hr])⟩
  | recvLast hr hu hpos hstream | returnRead hr hu hsize =>
    have hr : (s x.other).reading = _ := hr
    have hu : (s x.other).unread = _ := hu
    have hnext := hreading (by simp [hr])
    have hidle : (s x).writing = none := by
      by_contra hw
      have := hwriting hw
      omega
    rw [hu, List.length_cons] at hnext
    simp only [line, Function.update_self, Function.update_of_ne (ne_other x), Transfer.State.returnRead, hu,
      List.tail_cons]
    exact ⟨by simp only; omega, by simp only; omega, fun h => absurd hidle h, fun h => absurd rfl h⟩

theorem Alternates.step_other (h : Alternates (s x.other) (s x)) (hm : Moves (s (line x a)) a l) :
    Alternates (Function.update s (line x a) l x.other) (Function.update s (line x a) l x) := by
  obtain ⟨hbehind, hahead, hwriting, hreading⟩ := h
  cases hm <;> simp only [line, Function.update_self, Function.update_of_ne (other_ne x),
    Function.update_of_ne (ne_other x)] <;> exact ⟨hbehind, hahead, hwriting, hreading⟩

theorem Inv.step (h : Inv exchanges s) (hstep : Conversation.step room s (x, a) = some t) : Inv exchanges t := by
  obtain ⟨hturn, l, hm, rfl⟩ := step_eq_some hstep
  constructor
  · intro y
    by_cases hy : y = line x a
    · subst hy
      rw [Function.update_self]
      exact (h.carries _).step hm
    · rw [Function.update_of_ne hy]
      exact h.carries y
  · intro y
    rcases eq_or_other x y with rfl | rfl
    · exact (h.alternates y).step_own hturn hm
    · rw [other_other]
      exact Alternates.step_other (by simpa using h.alternates x.other) hm

def Blocked (room : ℕ) (s : State) (x : Party) : Prop :=
  (s x).unsent.length = (s x.other).unread.length ∧ room ≤ (s x).stream.length ∧
    ∃ l, (s x).writing = some l ∧ 0 < l.size

def Starved (s : State) (x : Party) : Prop :=
  (s x).writing = none ∧ (s x).unsent.length + 1 = (s x.other).unread.length ∧ (s x.other).stream = [] ∧
    ∃ l, (s x.other).reading = some l ∧ 0 < l.size

theorem waits_of_stopped (h : Inv exchanges s) (hstop : ∀ a, step room s (x, a) = none) :
    ((s x).unsent = [] ∧ (s x.other).unread = []) ∨ Blocked room s x ∨ Starved s x := by
  have hno : ∀ a l, Turn room s x a → ¬ Moves (s (line x a)) a l := fun a l hturn hm => by
    have := hstop a
    rw [step_of_moves hturn hm] at this
    cases this
  obtain ⟨hbehind, hahead, hwriting, hreading⟩ := h.alternates x
  by_cases hequal : (s x).unsent.length = (s x.other).unread.length
  · rw [← or_assoc]
    left
    by_contra hne
    rw [not_or] at hne
    obtain ⟨hne, hfree⟩ := hne
    have hunsent : (s x).unsent ≠ [] := by
      intro hnil
      refine hne ⟨hnil, List.length_eq_zero_iff.mp ?_⟩
      rw [← hequal, hnil, List.length_nil]
    have hidle : (s x.other).reading = none := by
      by_contra hr
      have := hreading hr
      omega
    obtain ⟨b, us, hu⟩ := List.exists_cons_of_ne_nil hunsent
    cases hw : (s x).writing with
    | none => exact hno .callWrite _ ⟨hidle, hequal⟩ (.callWrite hw hu)
    | some l =>
      by_cases hsize : l.size = 0
      · exact hno .returnWrite _ trivial (.returnWrite hw hu hsize)
      · refine hfree ⟨hequal, ?_, l, hw, Nat.pos_of_ne_zero hsize⟩
        by_contra hroom
        have hfit : (s x).stream.length + 1 ≤ room := by omega
        exact hno (.send 1) _ hfit (.send hw hu Nat.one_pos (by omega))
  · right
    right
    have hnext : (s x).unsent.length + 1 = (s x.other).unread.length := by omega
    have hidle : (s x).writing = none := by
      by_contra hw
      exact hequal (hwriting hw)
    obtain ⟨r, rs, hu⟩ := List.exists_cons_of_length_pos (by omega : 0 < (s x.other).unread.length)
    cases hr : (s x.other).reading with
    | none => exact absurd (.callRead (fun _ => 0) hr hu) (hno (.callRead fun _ => 0) _ ⟨hidle, hnext⟩)
    | some l =>
      have hsize : l.size ≠ 0 := fun hsize => hno .returnRead _ trivial (.returnRead hr hu hsize)
      refine ⟨hidle, hnext, ?_, l, hr, Nat.pos_of_ne_zero hsize⟩
      by_contra hstream
      have hlen : 0 < (s x.other).stream.length := List.length_pos_iff.mpr hstream
      by_cases hlast : l.size = 1
      · have hm := Moves.recvLast hr hu (by omega) (by omega : l.size ≤ (s x.other).stream.length)
        exact hno (.recv l.size) _ trivial hm
      · exact hno (.recv 1) _ trivial (.recv hr hu Nat.one_pos (by omega) hlen)

theorem Carries.unwritten (h : Carries messages l) (hw : l.writing = none) (hstream : l.stream = []) {c : Locals}
    (hr : l.reading = some c) (hsize : 0 < c.size) : l.unread.length ≤ l.unsent.length := by
  obtain ⟨⟨done, rest, rfl, hc⟩, hunsent⟩ := h
  obtain ⟨m, ms, rfl, hlen⟩ := hc.reads c hr
  rw [hc.unread, List.length_map, List.length_cons]
  by_contra hlt
  -- then what is left to send is left after this message too
  have hsuffix : l.unsent <:+ ms.map Message.bytes := by
    refine List.suffix_of_suffix_length_le hunsent ?_ (by rw [List.length_map]; omega)
    rw [List.map_append, List.map_cons]
    exact (List.suffix_cons _ _).trans (List.suffix_append _ _)
  obtain ⟨pre, hpre⟩ := hsuffix
  have hbytes := congrArg (List.length ∘ List.flatten) hpre
  have hpending := congrArg List.length hc.exact.pending
  simp only [hstream, Transfer.State.unsentBytes, hw, hr, Transfer.position, Option.elim_none, Option.elim_some,
    List.nil_append, List.drop_zero, List.length_drop, List.flatMap_cons, List.length_append] at hpending
  simp only [Function.comp_apply, List.flatten_append, List.length_append] at hbytes
  rw [List.flatMap_def] at hpending
  omega

theorem Carries.unsent_le (h : Carries messages l) {c : Locals} (hw : l.writing = some c) (hsize : 0 < c.size) :
    l.unsent.length ≤ l.unread.length := by
  obtain ⟨⟨done, rest, rfl, hc⟩, hunsent⟩ := h
  obtain ⟨b, us, hu, hlen⟩ := hc.writes c hw
  rw [hc.unread, List.length_map]
  by_contra hlt
  -- then what is left to read is left to send after this buffer
  have hsuffix : rest.map Message.bytes <:+ us := by
    have hread : rest.map Message.bytes <:+ (done ++ rest).map Message.bytes := by
      rw [List.map_append]
      exact List.suffix_append _ _
    refine List.suffix_of_suffix_length_le hread ((List.suffix_cons b us).trans (hu ▸ hunsent)) ?_
    rw [hu, List.length_cons] at hlt
    rw [List.length_map]
    omega
  obtain ⟨pre, hpre⟩ := hsuffix
  have hbytes := congrArg (List.length ∘ List.flatten) hpre
  have hpending := congrArg List.length hc.exact.pending
  simp only [Transfer.State.unsentBytes, hw, hu, Transfer.position, Option.elim_some, List.flatten_cons,
    List.length_drop, List.length_append] at hpending
  simp only [Function.comp_apply, List.flatten_append, List.length_append] at hbytes
  rw [List.flatMap_def] at hpending
  omega

theorem Carries.stream_lt (h : Carries messages l) {c : Locals} (hw : l.writing = some c) (hsize : 0 < c.size)
    (hr : l.reading = none) (hlen : l.unsent.length = l.unread.length) :
    ∃ m, messages[messages.length - l.unsent.length]? = some m ∧ l.stream.length < m.bytes.length := by
  obtain ⟨⟨done, rest, rfl, hc⟩, hunsent⟩ := h
  obtain ⟨b, us, hu, hb⟩ := hc.writes c hw
  have hrest : l.unsent.length = rest.length := by rw [hlen, hc.unread, List.length_map]
  have hsame : l.unsent = rest.map Message.bytes := by
    rw [List.map_append] at hunsent
    exact ((List.suffix_of_suffix_length_le hunsent (List.suffix_append _ _) (by simp [hrest])).eq_of_length
      (by simp [hrest]))
  cases rest with
  | nil => simp [hu] at hrest
  | cons m ms =>
    obtain ⟨rfl, rfl⟩ := List.cons.inj (hu.symm.trans hsame)
    refine ⟨m, by simp [hrest], ?_⟩
    have hpending := congrArg List.length hc.exact.pending
    simp only [Transfer.State.unsentBytes, hw, hr, hu, Transfer.position, Option.elim_some, Option.elim_none,
      List.flatten_cons, List.flatMap_cons, List.drop_zero, List.length_drop, List.length_append] at hpending
    rw [List.flatMap_def] at hpending
    omega

/-- The socket has room for one of the buffers of each exchange. -/
def Fits (room : ℕ) (exchanges : List Exchange) : Prop :=
  0 < room ∧ ∀ e ∈ exchanges, ∃ x, (e.by x).bytes.length ≤ room

/-- Two parties that block each other stand in one exchange, and neither of its buffers has room. -/
theorem not_both_blocked (h : Inv exchanges s) (hfits : Fits room exchanges) (hx : Blocked room s x)
    (hy : Blocked room s x.other) : False := by
  obtain ⟨hequal, hfull, l, hw, hsize⟩ := hx
  obtain ⟨hequal', hfull', l', hw', hsize'⟩ := hy
  rw [other_other] at hequal'
  have hle := (h.carries x).unsent_le hw hsize
  have hle' := (h.carries x.other).unsent_le hw' hsize'
  have hidle : (s x).reading = none := by
    by_contra hr
    have hnext := (h.alternates x.other).reading
    rw [other_other] at hnext
    have := hnext hr
    omega
  have hidle' : (s x.other).reading = none := by
    by_contra hr
    have := (h.alternates x).reading hr
    omega
  obtain ⟨m, hm, hlt⟩ := (h.carries x).stream_lt hw hsize hidle (by omega)
  obtain ⟨m', hm', hlt'⟩ := (h.carries x.other).stream_lt hw' hsize' hidle' (by omega)
  have hindex : (s x.other).unsent.length = (s x).unsent.length := by omega
  rw [List.length_map, List.getElem?_map] at hm hm'
  rw [hindex] at hm'
  obtain ⟨e, he, rfl⟩ := Option.map_eq_some_iff.mp hm
  rw [he, Option.map_some, Option.some.injEq] at hm'
  obtain ⟨y, hy⟩ := hfits.2 e (List.mem_of_getElem? he)
  rcases eq_or_other x y with rfl | rfl
  · omega
  · rw [hm'] at hy
    omega

theorem Inv.writing_of_done (h : Inv exchanges s) (hnil : (s x).unsent = []) : (s x).writing = none := by
  by_contra hw
  obtain ⟨l, hl⟩ := Option.ne_none_iff_exists'.mp hw
  obtain ⟨done, rest, -, hc⟩ := (h.carries x).consistent
  obtain ⟨b, us, hu, -⟩ := hc.writes l hl
  rw [hnil] at hu
  cases hu

/-- When nobody can go on, everybody is done, if there is room. -/
theorem done_of_stopped (h : Inv exchanges s) (hfits : Fits room exchanges) (hstop : ∀ p, step room s p = none)
    (x : Party) : (s x).unsent = [] ∧ (s x.other).unread = [] := by
  have hback := waits_of_stopped h fun a => hstop (x.other, a)
  rw [other_other] at hback
  have hroom := hfits.1
  rcases waits_of_stopped h fun a => hstop (x, a) with hdone | hblocked | ⟨-, hnext, hstream, c, hr, hsize⟩
  · exact hdone
  · exfalso
    rcases hback with ⟨-, hnil⟩ | hblocked' | ⟨-, -, hstream, -⟩
    · -- all of its bytes have been read, yet some are on the way
      obtain ⟨done, rest, -, hc⟩ := (h.carries x).consistent
      rw [hc.unread, List.map_eq_nil_iff] at hnil
      have hpending := congrArg List.length hc.exact.pending
      simp only [hnil, List.flatMap_nil, List.drop_nil, List.length_nil, List.length_append] at hpending
      have := hblocked.2.1
      omega
    · exact not_both_blocked h hfits hblocked hblocked'
    · rw [other_other] at hstream
      have hfull := hblocked.2.1
      rw [hstream, List.length_nil] at hfull
      omega
  · exfalso
    rcases hback with ⟨hnil, -⟩ | hblocked | ⟨hidle, hnext', hstream', c', hr', hsize'⟩
    · have hunwritten := (h.carries x.other).unwritten (h.writing_of_done hnil) hstream hr hsize
      rw [hnil, List.length_nil] at hunwritten
      omega
    · have hfull := hblocked.2.1
      rw [hstream, List.length_nil] at hfull
      omega
    · have hunwritten := (h.carries x.other).unwritten hidle hstream hr hsize
      have hidle' : (s x).writing = none := by
        by_contra hw
        have := (h.alternates x).writing hw
        omega
      rw [other_other] at hnext' hstream' hr'
      have hunwritten' := (h.carries x).unwritten hidle' hstream' hr' hsize'
      omega

end

section
variable {room : ℕ} {exchanges : List Exchange} {memory : Party → Memory} {s : State}
  {as : List (Party × Transfer.Action)}

theorem inv_run (h : run (step room) (start exchanges memory) as = some s) : Inv exchanges s :=
  run_invariant (fun _ p _ hs ht => hs.step (x := p.1) (a := p.2) ht) inv_start h

theorem exact_of_run (h : run (step room) (start exchanges memory) as = some s) (x : Party) :
    ∃ done rest, exchanges.map (·.by x) = done ++ rest ∧ Exact done rest (s x) := by
  obtain ⟨done, rest, heq, hc⟩ := ((inv_run h).carries x).consistent
  exact ⟨done, rest, heq, hc.exact⟩

theorem length_le_of_run (h : run (step room) (start exchanges memory) as = some s) :
    as.length ≤ (start exchanges memory .client).work + (start exchanges memory .server).work := by
  have hwork := length_add_le (μ := fun s : State => (s .client).work + (s .server).work) (fun _ p _ ht => ?_) h
  · omega
  · obtain ⟨x, a⟩ := p
    obtain ⟨-, l, hm, rfl⟩ := step_eq_some ht
    have hless := Transfer.work_lt hm
    generalize line x a = y at hless
    cases y <;> simp [Function.update] <;> omega

theorem filled_of_stopped (h : run (step room) (start exchanges memory) as = some s) (hfits : Fits room exchanges)
    (hstop : ∀ p, step room s p = none) (x : Party) :
    List.Forall₂ Filled (exchanges.map (·.by x)) (s x).completed := by
  obtain ⟨done, rest, heq, hc⟩ := ((inv_run h).carries x).consistent
  have hunread := (done_of_stopped (inv_run h) hfits hstop x.other).2
  rw [other_other, hc.unread, List.map_eq_nil_iff] at hunread
  subst hunread
  rw [heq, List.append_nil]
  exact hc.exact.filled

/-- At all times every `read` that has returned, at either end, has got the buffer that the other end wrote for it.
A conversation does not go on for ever, and if one of the two buffers of each exchange fits into the socket, it does
not get stuck before all of it has been read. -/
theorem conversation_exact (h : run (step room) (start exchanges memory) as = some s) :
    (∀ x, ∃ done rest, exchanges.map (·.by x) = done ++ rest ∧ Exact done rest (s x)) ∧
      as.length ≤ (start exchanges memory .client).work + (start exchanges memory .server).work ∧
      (Fits room exchanges → (∀ p, step room s p = none) →
        ∀ x, List.Forall₂ Filled (exchanges.map (·.by x)) (s x).completed) :=
  ⟨exact_of_run h, length_le_of_run h, filled_of_stopped h⟩

end

/-- Both ends write at once, and there is room for the client's byte only: the server's second byte waits until the
client has received the first. -/
def crossing : List (Party × Transfer.Action) :=
  [(.client, .callWrite), (.server, .callWrite), (.client, .send 1), (.server, .send 1), (.client, .returnWrite),
    (.client, .callRead fun _ => 0), (.client, .recv 1), (.server, .send 1), (.server, .returnWrite),
    (.client, .recv 1), (.server, .callRead fun _ => 0), (.server, .recv 1)]

theorem crossing_exact : ∃ s, run (step 1) (start [⟨⟨[7], 0⟩, ⟨[9, 8], 0⟩⟩] fun _ _ => 0) crossing = some s ∧
    List.Forall₂ Filled [⟨[7], 0⟩] (s .client).completed ∧
    List.Forall₂ Filled [⟨[9, 8], 0⟩] (s .server).completed := by
  have hrun : (run (step 1) (start [⟨⟨[7], 0⟩, ⟨[9, 8], 0⟩⟩] fun _ _ => 0) crossing).isSome := by decide
  obtain ⟨s, hs⟩ := Option.isSome_iff_exists.mp hrun
  have hdone : ∀ x, (s x).unsent = [] ∧ (s x).unread = [] := by
    obtain rfl := Option.some.inj hs
    intro x
    cases x <;> exact ⟨rfl, rfl⟩
  have hfits : Fits 1 [⟨⟨[7], 0⟩, ⟨[9, 8], 0⟩⟩] := ⟨Nat.one_pos, fun e he => ⟨.client, by
    rw [List.mem_singleton.mp he]
    exact le_rfl⟩⟩
  have hfilled := (conversation_exact hs).2.2 hfits (stopped_of_done hdone)
  exact ⟨s, hs, hfilled .client, hfilled .server⟩

def filled (room : ℕ) (e : Exchange) (exchanges : List Exchange) (memory : Party → Memory) : State := fun x =>
  { start (e :: exchanges) memory x with
    writing := some ⟨room, (e.by x).bytes.length - room⟩
    stream := (e.by x).bytes.take room }

section
variable {room : ℕ} {e : Exchange} {exchanges : List Exchange} {memory : Party → Memory}

theorem run_filled (hroom : 0 < room) (h : ∀ x, room < (e.by x).bytes.length) :
    run (step room) (start (e :: exchanges) memory)
      [(.client, .callWrite), (.client, .send room), (.server, .callWrite), (.server, .send room)] =
        some (filled room e exchanges memory) := by
  have hc : room ≤ e.client.bytes.length := (h .client).le
  have hs : room ≤ e.server.bytes.length := (h .server).le
  simp [step, Turn, line, Transfer.step, start, Transfer.start, Exchange.by, Party.other, Function.update, hroom,
    hc, hs, Transfer.writeRound_natCast, Locals.advance]
  funext x
  cases x <;> simp [filled, start, Transfer.start, Exchange.by, Party.other]

theorem filled_stopped (h : ∀ x, room < (e.by x).bytes.length) (p : Party × Transfer.Action) :
    step room (filled room e exchanges memory) p = none := by
  by_contra hne
  obtain ⟨t, ht⟩ := Option.ne_none_iff_exists'.mp hne
  obtain ⟨x, a⟩ := p
  obtain ⟨hturn, l, hm, -⟩ := step_eq_some ht
  have hstream : ((e.by x).bytes.take room).length = room := by
    rw [List.length_take, Nat.min_eq_left (h x).le]
  cases hm with
  | callWrite hw hu => cases hw
  | send hw hu hpos hfit =>
    have hfull : ((e.by x).bytes.take room).length + _ ≤ room := hturn
    omega
  | returnWrite hw hu hsize =>
    cases hw
    have := h x
    have hsize : (e.by x).bytes.length - room = 0 := hsize
    omega
  | callRead memory hr hu => cases hturn.1
  | recv hr hu | recvLast hr hu | returnRead hr hu => cases hr

/-- Two buffers that are both too large for the socket can block the ends for ever. -/
theorem stuck_of_large (hroom : 0 < room) (h : ∀ x, room < (e.by x).bytes.length) :
    ∃ as t, run (step room) (start (e :: exchanges) memory) as = some t ∧ (∀ p, step room t p = none) ∧
      ∀ x, (t x).completed = [] :=
  ⟨_, _, run_filled hroom h, filled_stopped h, fun _ => rfl⟩

end

end CacheCoherence.Conversation
