import Mathlib.Data.List.Induction
import Mathlib.Logic.Equiv.Basic

/-! # Who owns an address

A history of allocations, releases and uses. An address is live between its allocation and its release, and an
owner that keeps a list of its live addresses in step with the history releases each of them once.
-/
namespace CacheCoherence.Ownership
variable {A : Type*}

inductive Event (A : Type*) where
  | alloc (a : A)
  | free (a : A)
  | use (a : A)
deriving DecidableEq, Repr

def Live (h : List (Event A)) (a : A) : Prop := ∃ p q, h = p ++ .alloc a :: q ∧ .free a ∉ q

/-- The event needs its address to be live. -/
def Event.Allowed (h : List (Event A)) : Event A → Prop
  | .alloc _ => True
  | .free a | .use a => Live h a

/-- Nothing is released or used that is not live. -/
def Disciplined (h : List (Event A)) : Prop := ∀ p e q, h = p ++ e :: q → e.Allowed p

def Fresh (h : List (Event A)) : Prop := ∀ p a q, h = p ++ .alloc a :: q → ¬ Live p a

/-- The live addresses are the ones on the list, and each is on it once. -/
structure Owns (h : List (Event A)) (l : List A) : Prop where
  live : ∀ a, a ∈ l ↔ Live h a
  nodup : l.Nodup
  disciplined : Disciplined h

variable {h : List (Event A)} {l l' : List A} {a b : A} {e : Event A}

theorem split_concat {p q : List (Event A)} {x : Event A} (heq : h ++ [e] = p ++ x :: q) :
    (p = h ∧ x = e ∧ q = []) ∨ ∃ q', q = q' ++ [e] ∧ h = p ++ x :: q' := by
  rcases List.eq_nil_or_concat q with rfl | ⟨q', y, rfl⟩
  · obtain ⟨rfl, hlast⟩ := List.append_inj' heq rfl
    exact Or.inl ⟨rfl, (List.cons.inj hlast).1.symm, rfl⟩
  · have heq' : h ++ [e] = (p ++ x :: q') ++ [y] := by simpa using heq
    obtain ⟨rfl, hlast⟩ := List.append_inj' heq' rfl
    obtain rfl : e = y := (List.cons.inj hlast).1
    exact Or.inr ⟨q', by simp, rfl⟩

theorem live_concat : Live (h ++ [e]) b ↔ e = .alloc b ∨ e ≠ .free b ∧ Live h b := by
  constructor
  · rintro ⟨p, q, heq, hq⟩
    rcases split_concat heq with ⟨rfl, rfl, rfl⟩ | ⟨q', rfl, rfl⟩
    · exact Or.inl rfl
    · exact Or.inr ⟨fun hfree => hq (by simp [hfree]), p, q', rfl, fun hmem => hq (List.mem_append_left _ hmem)⟩
  · rintro (rfl | ⟨hne, p, q, rfl, hq⟩)
    · exact ⟨h, [], rfl, by simp⟩
    · refine ⟨p, q ++ [e], by simp, fun hmem => ?_⟩
      rcases List.mem_append.mp hmem with hmem | hmem
      · exact hq hmem
      · exact hne (List.mem_singleton.mp hmem).symm

theorem not_live_nil : ¬ Live ([] : List (Event A)) a := by
  rintro ⟨p, q, heq, -⟩
  simp at heq

theorem Disciplined.concat (hd : Disciplined h) (he : e.Allowed h) : Disciplined (h ++ [e]) := by
  intro p x q heq
  rcases split_concat heq with ⟨rfl, rfl, -⟩ | ⟨q', -, rfl⟩
  · exact he
  · exact hd p x q' rfl

theorem fresh_nil : Fresh ([] : List (Event A)) := by
  intro p a q heq
  simp at heq

theorem fresh_concat : Fresh (h ++ [e]) ↔ Fresh h ∧ ∀ a, e = .alloc a → ¬ Live h a := by
  constructor
  · intro hf
    refine ⟨fun p a q heq => ?_, fun a ha => hf h a [] (by rw [ha])⟩
    exact hf p a (q ++ [e]) (by simp [heq])
  · rintro ⟨hf, hlast⟩ p a q heq
    rcases split_concat heq with ⟨rfl, ha, -⟩ | ⟨q', -, rfl⟩
    · exact hlast a ha.symm
    · exact hf p a q' rfl

section
variable [DecidableEq A]

instance (h : List (Event A)) (a : A) : Decidable (Live h a) :=
  decidable_of_iff
    (h.foldl (fun l e => if e = .alloc a then true else if e = .free a then false else l) false = true) <| by
    induction h using List.reverseRecOn with
    | nil => simp [not_live_nil]
    | append_singleton h e ih =>
      rw [List.foldl_append, live_concat, ← ih]
      by_cases halloc : e = .alloc a
      · simp [halloc]
      · by_cases hfree : e = .free a <;> simp [halloc, hfree]

def freshFrom (h : List (Event A)) : List (Event A) → Bool
  | [] => true
  | e :: q => (match e with | .alloc a => decide (¬ Live h a) | _ => true) && freshFrom (h ++ [e]) q

theorem fresh_append {q : List (Event A)} : Fresh (h ++ q) ↔ Fresh h ∧ freshFrom h q = true := by
  induction q generalizing h with
  | nil => simp [freshFrom]
  | cons e q ih =>
    have hcons : h ++ e :: q = h ++ [e] ++ q := by simp
    rw [hcons, ih, fresh_concat]
    cases e <;> simp [freshFrom, and_assoc]

instance (h : List (Event A)) : Decidable (Fresh h) :=
  decidable_of_iff (freshFrom [] h = true) ((and_iff_right fresh_nil).symm.trans (fresh_append (h := [])).symm)

end

theorem Fresh.of_append {h' : List (Event A)} (hf : Fresh (h ++ h')) : Fresh h := by
  rintro p a q rfl
  exact hf p a (q ++ h') (by simp)

theorem owns_nil : Owns ([] : List (Event A)) [] := by
  refine ⟨fun a => iff_of_false List.not_mem_nil not_live_nil, List.nodup_nil, fun p e q heq => ?_⟩
  simp at heq

theorem Owns.alloc (ho : Owns h l) (hf : Fresh (h ++ [.alloc a])) : Owns (h ++ [.alloc a]) (a :: l) := by
  refine ⟨fun b => ?_, List.nodup_cons.mpr ⟨fun hmem => (fresh_concat.mp hf).2 a rfl ((ho.live a).mp hmem), ho.nodup⟩,
    ho.disciplined.concat trivial⟩
  rw [live_concat, List.mem_cons, ho.live]
  simp [eq_comm]

theorem Owns.use (ho : Owns h l) (ha : a ∈ l) : Owns (h ++ [.use a]) l := by
  refine ⟨fun b => ?_, ho.nodup, ho.disciplined.concat ((ho.live a).mp ha)⟩
  rw [live_concat, ho.live]
  simp

theorem Owns.perm (ho : Owns h l) (hperm : l.Perm l') : Owns h l' :=
  ⟨fun a => hperm.mem_iff.symm.trans (ho.live a), hperm.nodup_iff.mp ho.nodup, ho.disciplined⟩

theorem Owns.free (ho : Owns h (a :: l)) : Owns (h ++ [.free a]) l := by
  obtain ⟨hnot, hnodup⟩ := List.nodup_cons.mp ho.nodup
  refine ⟨fun b => ?_, hnodup, ho.disciplined.concat ((ho.live a).mp List.mem_cons_self)⟩
  rw [live_concat, ← ho.live, List.mem_cons]
  constructor
  · intro hb
    exact Or.inr ⟨fun heq => hnot (Event.free.inj heq ▸ hb), Or.inr hb⟩
  · rintro (heq | ⟨hne, rfl | hb⟩)
    · cases heq
    · exact absurd rfl hne
    · exact hb

section
variable {I : Type*} {f : I → Option A} {i j : I}

/-- Every live address is held once, and nothing else is held. -/
structure Held (h : List (Event A)) (f : I → Option A) : Prop where
  live : ∀ i a, f i = some a → Live h a
  held : ∀ a, Live h a → ∃ i, f i = some a
  unique : ∀ i j a, f i = some a → f j = some a → i = j
  disciplined : Disciplined h

theorem held_nil : Held ([] : List (Event A)) fun _ : I => none := by
  refine ⟨fun i a h => (nomatch h), fun a h => (not_live_nil h).elim, fun i j a h => (nomatch h), fun p e q heq => ?_⟩
  simp at heq

theorem Held.use (hh : Held h f) (hi : f i = some a) : Held (h ++ [.use a]) f := by
  refine ⟨fun j b hj => ?_, fun b hb => ?_, hh.unique, hh.disciplined.concat (hh.live i a hi)⟩
  · exact live_concat.mpr (Or.inr ⟨nofun, hh.live j b hj⟩)
  · rcases live_concat.mp hb with heq | ⟨-, hb⟩
    · cases heq
    · exact hh.held b hb

theorem Held.comp (hh : Held h f) (e : Equiv.Perm I) : Held h (f ∘ e) := by
  refine ⟨fun i a hi => hh.live (e i) a hi, fun a ha => ?_, fun i j a hi hj => e.injective (hh.unique _ _ a hi hj),
    hh.disciplined⟩
  obtain ⟨i, hi⟩ := hh.held a ha
  exact ⟨e.symm i, by simpa using hi⟩

theorem Held.not_alloc (hh : Held h f) (ha : ¬ Live h a) : ¬ Held (h ++ [.alloc a]) f := by
  intro hh'
  obtain ⟨i, hi⟩ := hh'.held a (live_concat.mpr (Or.inl rfl))
  exact ha (hh.live i a hi)

variable [DecidableEq I]

theorem update_eq_some {x : Option A} (hj : Function.update f i x j = some b) : j = i ∧ x = some b ∨ j ≠ i ∧
    f j = some b := by
  by_cases heq : j = i
  · subst heq
    rw [Function.update_self] at hj
    exact Or.inl ⟨rfl, hj⟩
  · rw [Function.update_of_ne heq] at hj
    exact Or.inr ⟨heq, hj⟩

theorem Held.alloc (hh : Held h f) (hi : f i = none) (ha : ¬ Live h a) :
    Held (h ++ [.alloc a]) (Function.update f i (some a)) := by
  refine ⟨fun j b hj => ?_, fun b hb => ?_, fun j k b hj hk => ?_, hh.disciplined.concat trivial⟩
  · rcases update_eq_some hj with ⟨-, heq⟩ | ⟨-, hj⟩
    · exact live_concat.mpr (Or.inl (by rw [Option.some.inj heq]))
    · exact live_concat.mpr (Or.inr ⟨nofun, hh.live j b hj⟩)
  · rcases live_concat.mp hb with heq | ⟨-, hb⟩
    · obtain rfl := Event.alloc.inj heq
      exact ⟨i, Function.update_self i _ f⟩
    · obtain ⟨j, hj⟩ := hh.held b hb
      have hne : j ≠ i := by
        rintro rfl
        simp [hi] at hj
      exact ⟨j, by rwa [Function.update_of_ne hne]⟩
  · have hnew : ∀ k, f k ≠ some a := fun k hk => ha (hh.live k a hk)
    rcases update_eq_some hj with ⟨hji, heq⟩ | ⟨-, hj'⟩
    · rcases update_eq_some hk with ⟨hki, -⟩ | ⟨-, hk'⟩
      · exact hji.trans hki.symm
      · exact absurd (hk'.trans heq.symm) (hnew k)
    · rcases update_eq_some hk with ⟨-, heq⟩ | ⟨-, hk'⟩
      · exact absurd (hj'.trans heq.symm) (hnew j)
      · exact hh.unique j k b hj' hk'

theorem Held.free (hh : Held h f) (hi : f i = some a) : Held (h ++ [.free a]) (Function.update f i none) := by
  have hother : ∀ {j b}, Function.update f i none j = some b → j ≠ i ∧ f j = some b := by
    intro j b hj
    rcases update_eq_some hj with ⟨-, heq⟩ | hj
    · cases heq
    · exact hj
  refine ⟨fun j b hj => ?_, fun b hb => ?_, fun j k b hj hk => hh.unique j k b (hother hj).2 (hother hk).2,
    hh.disciplined.concat (hh.live i a hi)⟩
  · obtain ⟨hne, hj⟩ := hother hj
    refine live_concat.mpr (Or.inr ⟨fun heq => hne ?_, hh.live j b hj⟩)
    obtain rfl := Event.free.inj heq
    exact hh.unique j i a hj hi
  · rcases live_concat.mp hb with heq | ⟨hne, hb⟩
    · cases heq
    · obtain ⟨j, hj⟩ := hh.held b hb
      have hji : j ≠ i := by
        rintro rfl
        exact hne (by rw [Option.some.inj (hi.symm.trans hj)])
      exact ⟨j, by rwa [Function.update_of_ne hji]⟩

end

end CacheCoherence.Ownership
