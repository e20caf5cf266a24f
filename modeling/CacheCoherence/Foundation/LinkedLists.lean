import Mathlib

/-! # Linked lists in memory

Objects with an element and a pointer to the next object, at the addresses of a heap. A family of lists has a head
for each index; no object is in two of its lists.
-/
namespace CacheCoherence.LinkedLists

abbrev Ptr := Option ℕ

structure Node (E : Type) where
  elem : E
  next : Ptr
deriving DecidableEq, Repr

abbrev Heap (E : Type) := Finmap fun _ : ℕ => Node E

/-- Where new objects are put: not where there is one. -/
abbrev Allocator := { pick : Finset ℕ → ℕ // ∀ used, pick used ∉ used }

variable {E B : Type} {h h' : Heap E} {p q : Ptr} {a : ℕ} {e : E} {c old : ℕ × E} {cs xs ys : List (ℕ × E)}

/-- From `p` the pointers lead through these objects to `q`. -/
def Segment (h : Heap E) : Ptr → List (ℕ × E) → Ptr → Prop
  | p, [], q => p = q
  | p, c :: cs, q => p = some c.1 ∧ ∃ next, h.lookup c.1 = some ⟨c.2, next⟩ ∧ Segment h next cs q

theorem segment_append : Segment h p (xs ++ ys) q ↔ ∃ r, Segment h p xs r ∧ Segment h r ys q := by
  induction xs generalizing p with
  | nil => simp [Segment]
  | cons c xs ih =>
    simp only [List.cons_append, Segment, ih]
    constructor
    · rintro ⟨hp, next, hnext, r, hxs, hys⟩
      exact ⟨r, ⟨hp, next, hnext, hxs⟩, hys⟩
    · rintro ⟨r, ⟨hp, next, hnext, hxs⟩, hys⟩
      exact ⟨hp, next, hnext, r, hxs, hys⟩

theorem Segment.frame (hs : Segment h p cs q) (hsame : ∀ c ∈ cs, h'.lookup c.1 = h.lookup c.1) : Segment h' p cs q := by
  induction cs generalizing p with
  | nil => exact hs
  | cons c cs ih =>
    obtain ⟨hp, next, hnext, hrest⟩ := hs
    exact ⟨hp, next, by rw [hsame c List.mem_cons_self, hnext],
      ih hrest fun d hd => hsame d (List.mem_cons_of_mem c hd)⟩

theorem Segment.lookup (hs : Segment h p cs q) (hc : c ∈ cs) : ∃ next, h.lookup c.1 = some ⟨c.2, next⟩ := by
  induction cs generalizing p with
  | nil => cases hc
  | cons d cs ih =>
    obtain ⟨-, next, hnext, hrest⟩ := hs
    rcases List.mem_cons.mp hc with rfl | hc
    · exact ⟨next, hnext⟩
    · exact ih hrest hc

theorem Segment.unique {cs' : List (ℕ × E)} (hs : Segment h p cs none) (hs' : Segment h p cs' none) : cs = cs' := by
  induction cs generalizing p cs' with
  | nil =>
    cases cs' with
    | nil => rfl
    | cons c cs' =>
      have hp : p = none := hs
      cases hp.symm.trans hs'.1
  | cons c cs ih =>
    obtain ⟨hp, next, hnext, hrest⟩ := hs
    cases cs' with
    | nil =>
      have hp' : p = none := hs'
      cases hp'.symm.trans hp
    | cons c' cs' =>
      obtain ⟨hp', next', hnext', hrest'⟩ := hs'
      have haddress : c'.1 = c.1 := Option.some.inj (hp'.symm.trans hp)
      rw [haddress, hnext] at hnext'
      obtain ⟨helem, rfl⟩ := Node.mk.inj (Option.some.inj hnext')
      rw [ih hrest hrest', Prod.ext haddress.symm helem]

theorem Segment.nodup (hs : Segment h p cs none) : (cs.map Prod.fst).Nodup := by
  induction cs generalizing p with
  | nil => exact List.nodup_nil
  | cons c cs ih =>
    obtain ⟨hp, next, hnext, hrest⟩ := id hs
    refine List.nodup_cons.mpr ⟨fun hmem => ?_, ih hrest⟩
    obtain ⟨d, hd, haddress⟩ := List.mem_map.mp hmem
    obtain ⟨xs, ys, rfl⟩ := List.append_of_mem hd
    obtain ⟨r, -, hr⟩ := segment_append.mp hrest
    have hagain : Segment h p (d :: ys) none := by
      rw [hp, ← haddress, ← hr.1]
      exact hr
    have hlength := congrArg List.length (hagain.unique hs)
    simp only [List.length_cons, List.length_append] at hlength
    omega

theorem Segment.length_le (hs : Segment h p cs none) : cs.length ≤ h.keys.card := by
  have hmem : (cs.map Prod.fst).toFinset ⊆ h.keys := by
    intro a ha
    obtain ⟨c, hc, rfl⟩ := List.mem_map.mp (List.mem_toFinset.mp ha)
    obtain ⟨next, hnext⟩ := hs.lookup hc
    exact Finmap.mem_keys.mpr (Finmap.mem_of_lookup_eq_some hnext)
  have hcard := Finset.card_le_card hmem
  rwa [List.toFinset_card_of_nodup hs.nodup, List.length_map] at hcard

theorem Segment.splice (hs : Segment h p (xs ++ old :: c :: ys) none) {next : Ptr}
    (hnext : h.lookup c.1 = some ⟨c.2, next⟩) :
    Segment (h.insert old.1 ⟨old.2, next⟩) p (xs ++ old :: ys) none := by
  have hnodup := hs.nodup
  rw [List.map_append, List.map_cons, List.map_cons] at hnodup
  obtain ⟨r, hxs, hr, next₁, hold, hc, next₂, hnext₂, hys⟩ := segment_append.mp hs
  rw [hnext] at hnext₂
  obtain ⟨-, rfl⟩ := Node.mk.inj (Option.some.inj hnext₂)
  have hapart : ∀ d ∈ xs ++ ys, d.1 ≠ old.1 := by
    intro d hd heq
    have hmem : d.1 ∈ xs.map Prod.fst ++ (c.1 :: ys.map Prod.fst) := by
      rcases List.mem_append.mp hd with hd | hd
      · exact List.mem_append_left _ (List.mem_map_of_mem hd)
      · exact List.mem_append_right _ (List.mem_cons_of_mem _ (List.mem_map_of_mem hd))
    exact (List.nodup_middle.mp hnodup).notMem (heq ▸ hmem)
  have hsame : ∀ d ∈ xs ++ ys, (h.insert old.1 ⟨old.2, next⟩).lookup d.1 = h.lookup d.1 :=
    fun d hd => Finmap.lookup_insert_of_ne h (hapart d hd)
  refine segment_append.mpr ⟨r, hxs.frame fun d hd => hsame d (List.mem_append_left _ hd), hr, next, ?_,
    hys.frame fun d hd => hsame d (List.mem_append_right _ hd)⟩
  exact Finmap.lookup_insert h

structure Family (h : Heap E) (heads : B → Ptr) (cells : B → List (ℕ × E)) : Prop where
  linked : ∀ b, Segment h (heads b) (cells b) none
  apart : ∀ b b' x y, x ∈ cells b → y ∈ cells b' → x.1 = y.1 → b = b'

def Outside (cells : B → List (ℕ × E)) (a : ℕ) : Prop := ∀ b, ∀ x ∈ cells b, x.1 ≠ a

variable {heads : B → Ptr} {cells : B → List (ℕ × E)} {b : B}

theorem family_empty : Family (∅ : Heap E) (fun _ : B => none) fun _ => [] where
  linked _ := rfl
  apart _ _ _ _ hx _ _ := by cases hx

theorem Family.outside (hf : Family h heads cells) (ha : a ∉ h) : Outside cells a := by
  rintro b x hx rfl
  obtain ⟨next, hnext⟩ := (hf.linked b).lookup hx
  exact ha (Finmap.mem_of_lookup_eq_some hnext)

theorem Family.frame (hf : Family h heads cells) (hsame : ∀ b, ∀ c ∈ cells b, h'.lookup c.1 = h.lookup c.1) :
    Family h' heads cells where
  linked b := (hf.linked b).frame (hsame b)
  apart := hf.apart

theorem Family.delete (hf : Family h heads cells) (ha : Outside cells a) : Family (h.erase a) heads cells :=
  hf.frame fun b c hc => Finmap.lookup_erase_ne (ha b c hc)

variable [DecidableEq B]

/-- A list gets other objects, of its own or from outside, and the others keep theirs. -/
theorem Family.update (hf : Family h heads cells) (hlinked : Segment h' p cs none)
    (hown : ∀ x ∈ cs, x.1 ∈ (cells b).map Prod.fst ∨ Outside cells x.1)
    (hsame : ∀ b' ≠ b, ∀ c ∈ cells b', h'.lookup c.1 = h.lookup c.1) :
    Family h' (Function.update heads b p) (Function.update cells b cs) where
  linked b' := by
    by_cases hb : b' = b
    · subst hb
      rw [Function.update_self, Function.update_self]
      exact hlinked
    · rw [Function.update_of_ne hb, Function.update_of_ne hb]
      exact (hf.linked b').frame (hsame b' hb)
  apart b₁ b₂ x y hx hy hxy := by
    have hother : ∀ b' x y, b' ≠ b → x ∈ cs → y ∈ cells b' → x.1 ≠ y.1 := by
      intro b' x y hb' hx hy heq
      rcases hown x hx with hmem | hout
      · obtain ⟨z, hz, hzx⟩ := List.mem_map.mp hmem
        exact hb' (hf.apart b' b y z hy hz (heq.symm.trans hzx.symm))
      · exact hout b' y hy heq.symm
    by_cases h₁ : b₁ = b <;> by_cases h₂ : b₂ = b
    · rw [h₁, h₂]
    · subst h₁
      rw [Function.update_self] at hx
      rw [Function.update_of_ne h₂] at hy
      exact absurd hxy (hother b₂ x y h₂ hx hy)
    · subst h₂
      rw [Function.update_self] at hy
      rw [Function.update_of_ne h₁] at hx
      exact absurd hxy.symm (hother b₁ y x h₁ hy hx)
    · rw [Function.update_of_ne h₁] at hx
      rw [Function.update_of_ne h₂] at hy
      exact hf.apart b₁ b₂ x y hx hy hxy

theorem Family.push (hf : Family h heads cells) (ha : a ∉ h) (b : B) (e : E) :
    Family (h.insert a ⟨e, heads b⟩) (Function.update heads b (some a))
      (Function.update cells b ((a, e) :: cells b)) := by
  have hsame : ∀ b', ∀ c ∈ cells b', (h.insert a ⟨e, heads b⟩).lookup c.1 = h.lookup c.1 :=
    fun b' c hc => Finmap.lookup_insert_of_ne h (hf.outside ha b' c hc)
  refine hf.update ⟨rfl, heads b, Finmap.lookup_insert h, (hf.linked b).frame (hsame b)⟩ (fun x hx => ?_)
    fun b' _ => hsame b'
  rcases List.mem_cons.mp hx with rfl | hx
  · exact Or.inr (hf.outside ha)
  · exact Or.inl (List.mem_map_of_mem hx)

theorem Family.outside_update (hf : Family h heads cells) (hc : c ∈ cells b) (hcs : c.1 ∉ cs.map Prod.fst) :
    Outside (Function.update cells b cs) c.1 := by
  intro b' x hx heq
  by_cases hb : b' = b
  · subst hb
    rw [Function.update_self] at hx
    exact hcs (heq ▸ List.mem_map_of_mem hx)
  · rw [Function.update_of_ne hb] at hx
    exact hb (hf.apart b' b x c hx hc heq)

theorem Family.pop (hf : Family h heads cells) (hcells : cells b = c :: cs) {next : Ptr}
    (hnext : h.lookup c.1 = some ⟨c.2, next⟩) :
    Family h (Function.update heads b next) (Function.update cells b cs) ∧
      Outside (Function.update cells b cs) c.1 := by
  have hlinked := hf.linked b
  rw [hcells] at hlinked
  obtain ⟨-, next', hnext', hrest⟩ := id hlinked
  rw [hnext] at hnext'
  obtain ⟨-, rfl⟩ := Node.mk.inj (Option.some.inj hnext')
  constructor
  · refine hf.update hrest (fun x hx => Or.inl ?_) fun _ _ _ _ => rfl
    rw [hcells]
    exact List.mem_map_of_mem (List.mem_cons_of_mem c hx)
  · exact hf.outside_update (hcells ▸ List.mem_cons_self) (List.nodup_cons.mp hlinked.nodup).1

theorem Family.splice (hf : Family h heads cells) (hcells : cells b = xs ++ old :: c :: ys) {next : Ptr}
    (hnext : h.lookup c.1 = some ⟨c.2, next⟩) :
    Family (h.insert old.1 ⟨old.2, next⟩) heads (Function.update cells b (xs ++ old :: ys)) ∧
      Outside (Function.update cells b (xs ++ old :: ys)) c.1 := by
  have hlinked := hf.linked b
  rw [hcells] at hlinked
  constructor
  · have hfamily := hf.update (b := b) (hlinked.splice hnext) (fun x hx => Or.inl ?_) fun b' hb' d hd => ?_
    · rwa [Function.update_eq_self] at hfamily
    · rw [hcells, List.map_append, List.map_cons, List.map_cons]
      rcases List.mem_append.mp hx with hx | hx
      · exact List.mem_append_left _ (List.mem_map_of_mem hx)
      · rcases List.mem_cons.mp hx with rfl | hx
        · exact List.mem_append_right _ List.mem_cons_self
        · exact List.mem_append_right _ (List.mem_cons_of_mem _ (List.mem_cons_of_mem _ (List.mem_map_of_mem hx)))
    · refine Finmap.lookup_insert_of_ne h fun heq => hb' (hf.apart b' b d old hd ?_ heq)
      simp [hcells]
  · refine hf.outside_update (by simp [hcells]) fun hmem => ?_
    have hnodup := hlinked.nodup
    simp only [List.map_append, List.map_cons] at hnodup hmem
    grind

end CacheCoherence.LinkedLists
