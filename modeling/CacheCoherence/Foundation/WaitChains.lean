import Mathlib.Data.Fintype.Card
import Mathlib.Logic.Relation
import Mathlib.Order.WellFounded

/-! # Cycles of waiting

A relation in which nearly everybody waits for one hub has short cycles only. Here is what a new
edge, and what new edges into somebody who does not wait, can do to such a relation.
-/
namespace CacheCoherence.WaitChains
variable {α : Type*} {W V : α → α → Prop} {hub relay n m : α}

/-- Somebody waits for himself along a chain. -/
def Cyclic (W : α → α → Prop) : Prop := ∃ a, Relation.TransGen W a a

theorem cyclic_loop (h : W n n) : Cyclic W := ⟨n, .single h⟩

theorem cyclic_pair (h : W n m) (h' : W m n) : Cyclic W := ⟨n, .tail (.single h) h'⟩

theorem cyclic_triple {k : α} (h : W n m) (h' : W m k) (h'' : W k n) : Cyclic W :=
  ⟨n, .tail (.tail (.single h) h') h''⟩

theorem cyclic_of_sinks (h : ∀ a b, W a b → V a b ∨ ∀ c, ¬ W b c) (hc : Cyclic W) : Cyclic V := by
  obtain ⟨a, ha⟩ := hc
  have hchain : ∀ b, Relation.TransGen W a b → (∃ c, W b c) → Relation.TransGen V a b := by
    intro b hb
    induction hb with
    | single hab =>
      rintro ⟨c, hc⟩
      rcases h _ _ hab with hv | hsink
      · exact .single hv
      · exact absurd hc (hsink c)
    | tail hab hbc ih =>
      rintro ⟨d, hd⟩
      rcases h _ _ hbc with hv | hsink
      · exact (ih ⟨_, hbc⟩).tail hv
      · exact absurd hd (hsink d)
  obtain ⟨b, hb, -⟩ := Relation.TransGen.head'_iff.mp ha
  exact ⟨a, hchain a ha ⟨b, hb⟩⟩

/-- Everybody waits for one at a time: the hub for anybody, the others for the hub or the relay. -/
structure Hub (W : α → α → Prop) (hub relay : α) : Prop where
  functional : ∀ a b c, W a b → W a c → b = c
  spokes : ∀ a b, W a b → a = hub ∨ b = hub ∨ (b = relay ∧ a ≠ relay)

theorem Hub.to_hub (h : Hub W hub relay) {a : α} (ha : Relation.ReflTransGen W a hub) :
    a = hub ∨ W a hub ∨ ∃ b, W a b ∧ W b hub := by
  rcases Relation.ReflTransGen.cases_head ha with rfl | ⟨b, hab, hb⟩
  · exact Or.inl rfl
  · rcases h.spokes a b hab with rfl | rfl | ⟨rfl, -⟩
    · exact Or.inl rfl
    · exact Or.inr (Or.inl hab)
    · rcases Relation.ReflTransGen.cases_head hb with rfl | ⟨c, hbc, -⟩
      · exact Or.inr (Or.inl hab)
      · rcases h.spokes b c hbc with rfl | rfl | ⟨rfl, hne⟩
        · exact Or.inr (Or.inl hab)
        · exact Or.inr (Or.inr ⟨b, hab, hbc⟩)
        · exact absurd rfl hne

theorem Hub.cycle (h : Hub W hub relay) (hc : Cyclic W) :
    ∃ b, W hub b ∧ (b = hub ∨ W b hub ∨ ∃ c, W b c ∧ W c hub) := by
  have hhub : Relation.TransGen W hub hub := by
    obtain ⟨a, ha⟩ := hc
    obtain ⟨b, hab, hba⟩ := Relation.TransGen.head'_iff.mp ha
    rcases h.spokes a b hab with rfl | rfl | ⟨rfl, hne⟩
    · exact ha
    · exact Relation.TransGen.tail' hba hab
    · rcases Relation.ReflTransGen.cases_head hba with rfl | ⟨c, hbc, hca⟩
      · exact absurd rfl hne
      · rcases h.spokes b c hbc with rfl | rfl | ⟨rfl, hne'⟩
        · exact Relation.TransGen.tail' hba hab
        · exact (Relation.TransGen.tail' hca hab).tail hbc
        · exact absurd rfl hne'
  obtain ⟨b, hb, hrest⟩ := Relation.TransGen.head'_iff.mp hhub
  exact ⟨b, hb, h.to_hub hrest⟩

/-- When `n` begins to wait for `m`, a cycle appears exactly if `m` is `n`, or waits for `n`, or waits
for somebody who waits for `n`. -/
theorem Hub.cyclic_iff (h : Hub W hub relay) (hedge : W n m) (hold : ∀ a b, a ≠ n → (W a b ↔ V a b))
    (hV : ¬ Cyclic V) : Cyclic W ↔ m = n ∨ V m n ∨ ∃ k, V m k ∧ V k n := by
  have hnew : ∀ b, W n b → b = m := fun b hb => h.functional n b m hb hedge
  constructor
  · intro hc
    obtain ⟨b, hb, hcase⟩ := h.cycle hc
    by_cases hn : n = hub
    · subst hn
      obtain rfl := hnew b hb
      rcases hcase with hbn | hbn | ⟨c, hbc, hcn⟩
      · exact Or.inl hbn
      · by_cases hbn' : b = n
        · exact Or.inl hbn'
        · exact Or.inr (Or.inl ((hold b n hbn').mp hbn))
      · by_cases hbn' : b = n
        · exact Or.inl hbn'
        · have hv := (hold b c hbn').mp hbc
          by_cases hcn' : c = n
          · exact Or.inr (Or.inl (hcn' ▸ hv))
          · exact Or.inr (Or.inr ⟨c, hv, (hold c n hcn').mp hcn⟩)
    · have hv := (hold hub b (Ne.symm hn)).mp hb
      rcases hcase with rfl | hbh | ⟨c, hbc, hch⟩
      · exact absurd (cyclic_loop hv) hV
      · by_cases hbn : b = n
        · subst hbn
          obtain rfl := hnew hub hbh
          exact Or.inr (Or.inl hv)
        · exact absurd (cyclic_pair hv ((hold b hub hbn).mp hbh)) hV
      · by_cases hbn : b = n
        · subst hbn
          obtain rfl := hnew c hbc
          by_cases hcb : c = b
          · exact Or.inl hcb
          · exact Or.inr (Or.inr ⟨hub, (hold c hub hcb).mp hch, hv⟩)
        · have hvb := (hold b c hbn).mp hbc
          by_cases hcn : c = n
          · subst hcn
            obtain rfl := hnew hub hch
            exact Or.inr (Or.inr ⟨b, hv, hvb⟩)
          · exact absurd (cyclic_triple hv hvb ((hold c hub hcn).mp hch)) hV
  · intro hcase
    by_cases hmn : m = n
    · subst hmn
      exact cyclic_loop hedge
    · rcases hcase with rfl | hm | ⟨k, hmk, hk⟩
      · exact absurd rfl hmn
      · exact cyclic_pair hedge ((hold m n hmn).mpr hm)
      · have hw := (hold m k hmn).mpr hmk
        by_cases hkn : k = n
        · exact cyclic_pair hedge (hkn ▸ hw)
        · exact cyclic_triple hedge hw ((hold k n hkn).mpr hk)

/-- Among finitely many, every chain of waiting leads to a cycle or to one who waits for nobody. -/
theorem exists_sink_or_cycle [Finite α] (W : α → α → Prop) (a : α) :
    ∃ b, Relation.ReflTransGen W a b ∧ (Relation.TransGen W b b ∨ ∀ c, ¬ W b c) := by
  by_cases hcycle : ∃ b, Relation.ReflTransGen W a b ∧ Relation.TransGen W b b
  · obtain ⟨b, hab, hb⟩ := hcycle
    exact ⟨b, hab, Or.inl hb⟩
  · have htrans : IsTrans α fun x y => Relation.ReflTransGen W a x ∧ Relation.TransGen W y x :=
      ⟨fun x y z hxy hyz => ⟨hxy.1, hyz.2.trans hxy.2⟩⟩
    have hirrefl : Std.Irrefl fun x y => Relation.ReflTransGen W a x ∧ Relation.TransGen W y x :=
      ⟨fun x hx => hcycle ⟨x, hx⟩⟩
    have hwf := Finite.wellFounded_of_trans_of_irrefl
      fun x y => Relation.ReflTransGen W a x ∧ Relation.TransGen W y x
    obtain ⟨b, hab, hmin⟩ := hwf.has_min {b | Relation.ReflTransGen W a b} ⟨a, .refl⟩
    exact ⟨b, hab, Or.inr fun c hbc => hmin c (hab.tail hbc) ⟨hab.tail hbc, .single hbc⟩⟩

end CacheCoherence.WaitChains
