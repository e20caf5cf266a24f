import CacheCoherence.Application.Indexing
import Mathlib.Data.Finset.Card

/-! # Keys that are inserted twice

`insert` does not look for its key, so a second insertion links a second element: the first one is hidden until the
second is erased, and the size counts both.
-/
namespace CacheCoherence
open TransitionRuns

namespace HashTable
variable {V : Type} [Integral V]

def elements (t : HashTable) : List Elem := (List.finRange 64).flatMap t.storage

def addresses (t : HashTable) : Finset GlobalAddress := (t.elements.map Elem.gaddr).toFinset

def keys (t : HashTable) : Finset UInt32 := (t.elements.map Elem.key).toFinset

/-- No lookup, size or allocation tells the tables apart. -/
structure Unchanged (V : Type) [Integral V] (t t' : HashTable) : Prop where
  gets : ∀ key, (t'.get V key []).map Prod.fst = (t.get V key []).map Prod.fst
  size : t'.size = t.size
  addresses : t'.addresses = t.addresses

/-- An insertion of a key that is there changes nothing, the size is the number of keys, and an erased key is
absent. -/
def Lawful (t : HashTable) (a : TableUse V) : Prop := ∀ t', t.step a = some t' →
  (∀ key value block held, a = .call (.insert key value block) held → t.Present key → Unchanged V t t') ∧
    t'.size.toNat = t'.keys.card ∧ ∀ key held, a = .call (.erase key) held → ¬ t'.Present key

def InsertsNew (t : HashTable) : TableUse V → Prop
  | .call (.insert key _ _) _ => ¬ t.Present key
  | _ => True

variable {t t' : HashTable} {es : List Elem} {held : List Request} {key : UInt32} {a : TableUse V}

theorem Holds.present_iff_mem (hT : t.Holds es) : t.Present key ↔ key ∈ es.map Elem.key := by
  rw [List.mem_map]
  constructor
  · rintro ⟨e, he, hkey⟩
    exact ⟨e, (hT.chained.mem.mp he).1, hkey⟩
  · rintro ⟨e, he, rfl⟩
    exact ⟨e, hT.chained.mem.mpr ⟨he, rfl⟩, rfl⟩

theorem Holds.card_keys (hT : t.Holds es) (hkeys : (es.map Elem.key).Nodup) : t.keys.card = es.length := by
  have hperm : t.elements.Perm es := hT.chained.perm (hT.distinct.of_map _) (List.nodup_finRange 64) List.mem_finRange
  rw [keys, List.toFinset_eq_of_perm _ _ (hperm.map Elem.key), List.toFinset_card_of_nodup hkeys, List.length_map]

theorem notMem_eraseP (hkeys : (es.map Elem.key).Nodup) : key ∉ (es.eraseP fun e => e.key = key).map Elem.key := by
  induction es with
  | nil => simp
  | cons e es ih =>
    obtain ⟨hne, hkeys⟩ := List.nodup_cons.mp hkeys
    by_cases hk : e.key = key
    · subst hk
      simpa using hne
    · have hk' : key ≠ e.key := fun heq => hk heq.symm
      simpa [hk, hk'] using ih hkeys

theorem Holds.step_keys (hT : t.Holds es) (hkeys : (es.map Elem.key).Nodup) (ha : t.InsertsNew a)
    (h : t.step a = some t') :
    ∃ es', t'.Holds es' ∧ (es'.map Elem.key).Nodup ∧ ∀ key held, a = .call (.erase key) held →
      key ∉ es'.map Elem.key := by
  cases a with
  | assign key value block held =>
    obtain ⟨⟨w, u⟩, hindex, rfl⟩ := Option.map_eq_some_iff.mp h
    cases hfind : es.find? fun e => e.key = key with
    | some e => exact ⟨es, (hT.index_present hfind hindex).1, hkeys, by simp⟩
    | none =>
      obtain ⟨buffer, content, -, hu, -⟩ := hT.index_absent hfind hindex
      refine ⟨_, hu, List.nodup_cons.mpr ⟨?_, hkeys⟩, by simp⟩
      simpa using hfind
  | serve r =>
    obtain ⟨node, hnode, rfl⟩ := Option.map_eq_some_iff.mp h
    exact ⟨es, hT.keeps (hT.serveOthers hnode), hkeys, by simp⟩
  | call op held =>
    obtain ⟨⟨r, u⟩, hperform, rfl⟩ := Option.map_eq_some_iff.mp h
    cases performed_of_perform hperform with
    | insert hinsert =>
      obtain ⟨buffer, content, -, hu, -⟩ := hT.insert hinsert
      exact ⟨_, hu, List.nodup_cons.mpr ⟨fun hmem => ha (hT.present_iff_mem.mpr hmem), hkeys⟩, by simp⟩
    | erase herase =>
      refine ⟨_, (hT.erase herase).1, hkeys.sublist (List.eraseP_sublist.map _), fun key' held' heq => ?_⟩
      cases heq
      exact notMem_eraseP hkeys
    | get hget | count hget => exact ⟨es, (hT.get hget).1, hkeys, by simp⟩
    | size => exact ⟨es, hT, hkeys, by simp⟩
    | clear hclear =>
      exact ⟨[], (clear_holds hclear).1, List.nodup_nil, by simp⟩

theorem Holds.insert_size {value : V} {block : Option (UInt64 × SaveData UInt64)} (hT : t.Holds es)
    (h : t.insert key value block held = some t') : t'.size.toNat = t.size.toNat + 1 := by
  obtain ⟨buffer, content, -, hu, -⟩ := hT.insert h
  rw [hu.size, hT.size, List.length_cons]

theorem lawful_iff (hT : t.Holds es) (hkeys : (es.map Elem.key).Nodup) (h : t.step a = some t') : t.Lawful a ↔
    t.InsertsNew a := by
  constructor
  · intro hlaw
    obtain ⟨hunchanged, -, -⟩ := hlaw t' h
    cases a with
    | assign | serve => trivial
    | call op held =>
      cases op with
      | erase | get | count | size | clear => trivial
      | insert key value block =>
        intro hpresent
        obtain ⟨⟨r, u⟩, hperform, rfl⟩ := Option.map_eq_some_iff.mp h
        obtain ⟨u', hinsert, hu'⟩ := Option.map_eq_some_iff.mp hperform
        cases hu'
        have hsize := hT.insert_size hinsert
        rw [(hunchanged key value block held rfl hpresent).size] at hsize
        omega
  · intro hnew t'' h''
    obtain ⟨es', hT', hkeys', herased⟩ := hT.step_keys hkeys hnew h''
    refine ⟨?_, by rw [hT'.size, hT'.card_keys hkeys'],
      fun key held heq hpresent => herased key held heq (hT'.present_iff_mem.mp hpresent)⟩
    rintro key value block held rfl hpresent
    exact absurd hpresent hnew

/-- In every run, insertions leave present keys alone, the size is the number of keys and erased keys are absent, if
and only if no key is inserted while it is there. -/
theorem insertions_lawful_iff {node : Host} {as : List (TableUse V)} :
    Meets step Lawful (new node) as ↔ Meets step InsertsNew (new node) as := by
  refine meets_congr_of_meets (I := fun t => ∃ es, t.Holds es ∧ (es.map Elem.key).Nodup) ?_ ?_ ⟨[], holds_new node,
    List.nodup_nil⟩
  · rintro t a t' ⟨es, hT, hkeys⟩ hlaw h
    obtain ⟨es', hT', hkeys', -⟩ := hT.step_keys hkeys ((lawful_iff hT hkeys h).mp hlaw) h
    exact ⟨es', hT', hkeys'⟩
  · rintro t a t' ⟨es, hT, hkeys⟩ h
    exact lawful_iff hT hkeys h

theorem insertion_repeated : ¬ ∀ (node : Host) (as : List (TableUse UInt64)), Meets step Lawful (new node) as := by
  intro h
  have htwice :
      ((step (new ⟨3000, LockTable.empty, fun _ => none⟩)
        (.call (.insert 5 (7 : UInt64) (some (64, ⟨0, .unshared, 0, []⟩))) [])).bind
      fun t => (step t (.call (.insert 5 (8 : UInt64) (some (128, ⟨0, .unshared, 0, []⟩))) [])).map fun t' =>
        (decide (t.Present 5), t.size, t'.size)) = some (true, 1, 2) := by decide +kernel
  obtain ⟨t, ht, hmap⟩ := Option.bind_eq_some_iff.mp htwice
  obtain ⟨t', ht', hsizes⟩ := Option.map_eq_some_iff.mp hmap
  obtain ⟨hpresent, hsize, hsize'⟩ : t.Present 5 ∧ t.size = 1 ∧ t'.size = 2 := by simpa using hsizes
  have hlaw := ((h _ [.call (.insert 5 7 (some (64, ⟨0, .unshared, 0, []⟩))) [],
    .call (.insert 5 8 (some (128, ⟨0, .unshared, 0, []⟩))) []]) t ht).2 t' ht'
  have hunchanged := (hlaw.1 t' ht').1 5 8 _ [] rfl hpresent
  rw [hunchanged.size, hsize] at hsize'
  cases hsize'

end HashTable
end CacheCoherence
