import Mathlib.Data.List.Infix

/-! # Runs of a partial step function

A schedule is a list of actions; a step may refuse an action. The rules here turn a fact
about one step into a fact about every state that a schedule passes.
-/
namespace CacheCoherence.TransitionRuns
variable {S A : Type*} (step : S → A → Option S)

/-- The state in which a schedule ends, when each of its actions is accepted in turn. -/
def run : S → List A → Option S
  | s, [] => some s
  | s, a :: as => (step s a).bind fun t => run t as

/-- `P` holds in every state the schedule passes, the first one included. -/
def Always (P : S → Prop) : S → List A → Prop
  | s, [] => P s
  | s, a :: as => P s ∧ ∀ t, step s a = some t → Always P t as

/-- Every step that the schedule takes meets the condition `C` in the state it starts from. -/
def Meets (C : S → A → Prop) : S → List A → Prop
  | _, [] => True
  | s, a :: as => ∀ t, step s a = some t → C s a ∧ Meets C t as

/-- Every action of the schedule meets the condition `C` in the state in which it is tried. -/
def Tries (C : S → A → Prop) : S → List A → Prop
  | _, [] => True
  | s, a :: as => C s a ∧ ∀ t, step s a = some t → Tries C t as

@[simp] theorem run_nil (s : S) : run step s [] = some s := rfl

@[simp] theorem run_cons (s : S) (a : A) (as : List A) :
    run step s (a :: as) = (step s a).bind fun t => run step t as := rfl

theorem run_append (s : S) (as bs : List A) :
    run step s (as ++ bs) = (run step s as).bind fun t => run step t bs := by
  induction as generalizing s with
  | nil => rfl
  | cons a as ih =>
    cases h : step s a with
    | none => simp [h]
    | some t => simp [h, ih]

variable {step}

theorem run_cons_some {s u : S} {a : A} {as : List A} (h : run step s (a :: as) = some u) :
    ∃ t, step s a = some t ∧ run step t as = some u :=
  Option.bind_eq_some_iff.mp h

/-- An inductive predicate holds at the end of every schedule. -/
theorem run_invariant {I : S → Prop} (hI : ∀ s a t, I s → step s a = some t → I t)
    {s t : S} {as : List A} (hs : I s) (h : run step s as = some t) : I t := by
  induction as generalizing s with
  | nil => exact Option.some.inj h ▸ hs
  | cons a as ih =>
    obtain ⟨u, hu, h⟩ := run_cons_some h
    exact ih (hI s a u hs hu) h

theorem run_invariant_of_meets {I : S → Prop} {C : S → A → Prop}
    (hI : ∀ s a t, I s → C s a → step s a = some t → I t)
    {s t : S} {as : List A} (hs : I s) (hC : Meets step C s as) (h : run step s as = some t) : I t := by
  induction as generalizing s with
  | nil => exact Option.some.inj h ▸ hs
  | cons a as ih =>
    obtain ⟨u, hu, h⟩ := run_cons_some h
    obtain ⟨hc, hC⟩ := hC u hu
    exact ih (hI s a u hs hc hu) hC h

theorem run_turns {P : S → Prop} {s t : S} {as : List A} (hs : ¬ P s) (h : run step s as = some t) (ht : P t) :
    ∃ pre a post u v, as = pre ++ a :: post ∧ run step s pre = some u ∧ step u a = some v ∧ ¬ P u ∧ P v := by
  induction as generalizing s with
  | nil =>
    cases h
    exact absurd ht hs
  | cons a as ih =>
    obtain ⟨u, hu, h⟩ := run_cons_some h
    by_cases hPu : P u
    · exact ⟨[], a, as, s, u, rfl, rfl, hu, hs, hPu⟩
    · obtain ⟨pre, b, post, v, w, rfl, hv, hw⟩ := ih hPu h
      exact ⟨a :: pre, b, post, v, w, rfl, by simp [hu, hv], hw⟩

theorem meets_mono {C D : S → A → Prop} (h : ∀ s a, C s a → D s a) {s : S} {as : List A}
    (hC : Meets step C s as) : Meets step D s as := by
  induction as generalizing s with
  | nil => trivial
  | cons a as ih =>
    intro t ht
    exact ⟨h s a (hC t ht).1, ih (hC t ht).2⟩

/-- Two conditions are met by the same schedules when they agree wherever a predicate holds that the steps keep
as long as they meet the conditions. -/
theorem meets_congr_of_meets {I : S → Prop} {C D : S → A → Prop}
    (hI : ∀ s a t, I s → C s a → step s a = some t → I t)
    (h : ∀ s a t, I s → step s a = some t → (C s a ↔ D s a)) {s : S} {as : List A} (hs : I s) :
    Meets step C s as ↔ Meets step D s as := by
  induction as generalizing s with
  | nil => exact Iff.rfl
  | cons a as ih =>
    constructor
    · intro hC t ht
      obtain ⟨hc, hC⟩ := hC t ht
      exact ⟨(h s a t hs ht).mp hc, (ih (hI s a t hs hc ht)).mp hC⟩
    · intro hD t ht
      obtain ⟨hd, hD⟩ := hD t ht
      have hc : C s a := (h s a t hs ht).mpr hd
      exact ⟨hc, (ih (hI s a t hs hc ht)).mpr hD⟩

theorem meets_congr {I : S → Prop} {C D : S → A → Prop} (hI : ∀ s a t, I s → step s a = some t → I t)
    (h : ∀ s a t, I s → step s a = some t → (C s a ↔ D s a)) {s : S} {as : List A} (hs : I s) :
    Meets step C s as ↔ Meets step D s as :=
  meets_congr_of_meets (fun s a t hs _ ht => hI s a t hs ht) h hs

theorem length_add_le {μ : S → ℕ} (hμ : ∀ s a t, step s a = some t → μ t < μ s)
    {s t : S} {as : List A} (h : run step s as = some t) : as.length + μ t ≤ μ s := by
  induction as generalizing s with
  | nil =>
    cases h
    simp
  | cons a as ih =>
    obtain ⟨u, hu, h⟩ := run_cons_some h
    have hlt := hμ s a u hu
    have hrest := ih h
    rw [List.length_cons]
    omega

/-- A total machine `f` that the steps follow: a schedule is accepted as long as its actions meet `C`, and
ends in a state that the machine describes. -/
theorem run_simulates {G : Type*} {f : G → A → G} {I : S → G → Prop} {C : S → A → Prop}
    (hI : ∀ s g a, I s g → C s a → ∃ t, step s a = some t ∧ I t (f g a))
    {s : S} {g : G} {as : List A} (hs : I s g) (h : Tries step C s as) :
    ∃ t, run step s as = some t ∧ I t (as.foldl f g) := by
  induction as generalizing s g with
  | nil => exact ⟨s, rfl, hs⟩
  | cons a as ih =>
    obtain ⟨t, ht, hIt⟩ := hI s g a hs h.1
    obtain ⟨u, hu, hIu⟩ := ih hIt (h.2 t ht)
    exact ⟨u, by simp [ht, hu], hIu⟩

theorem meets_of_forall {p : A → Prop} {s : S} {as : List A} (h : ∀ a ∈ as, p a) :
    Meets step (fun _ a => p a) s as := by
  induction as generalizing s with
  | nil => trivial
  | cons a as ih =>
    intro t _
    exact ⟨h a List.mem_cons_self, ih fun b hb => h b (List.mem_cons_of_mem _ hb)⟩

theorem meets_and {C D : S → A → Prop} {s : S} {as : List A} (hC : Meets step C s as)
    (hD : Meets step D s as) : Meets step (fun s a => C s a ∧ D s a) s as := by
  induction as generalizing s with
  | nil => trivial
  | cons a as ih =>
    intro t ht
    exact ⟨⟨(hC t ht).1, (hD t ht).1⟩, ih (hC t ht).2 (hD t ht).2⟩

theorem meets_append {C : S → A → Prop} {s : S} {as bs : List A} (has : Meets step C s as)
    (hbs : ∀ t, run step s as = some t → Meets step C t bs) : Meets step C s (as ++ bs) := by
  induction as generalizing s with
  | nil => exact hbs s rfl
  | cons a as ih =>
    intro t ht
    exact ⟨(has t ht).1, ih (has t ht).2 fun u hu => hbs u (by simp [ht, hu])⟩

instance decidableMeets {C : S → A → Prop} [∀ s a, Decidable (C s a)] :
    ∀ (s : S) (as : List A), Decidable (Meets step C s as)
  | _, [] => isTrue trivial
  | s, a :: as =>
    match h : step s a with
    | none => isTrue fun t ht => by simp [h] at ht
    | some t =>
      have : Decidable (Meets step C t as) := decidableMeets t as
      decidable_of_iff (C s a ∧ Meets step C t as) (by simp [Meets, h])

instance decidableTries {C : S → A → Prop} [∀ s a, Decidable (C s a)] :
    ∀ (s : S) (as : List A), Decidable (Tries step C s as)
  | _, [] => isTrue trivial
  | s, a :: as =>
    match h : step s a with
    | none => decidable_of_iff (C s a) (by simp [Tries, h])
    | some t =>
      have : Decidable (Tries step C t as) := decidableTries t as
      decidable_of_iff (C s a ∧ Tries step C t as) (by simp [Tries, h])

theorem always_iff_passed {P : S → Prop} {s : S} {as : List A} :
    Always step P s as ↔ ∀ pre t, pre <+: as → run step s pre = some t → P t := by
  induction as generalizing s with
  | nil =>
    constructor
    · intro h pre t hp ht
      rw [List.prefix_nil.mp hp] at ht
      exact Option.some.inj ht ▸ h
    · intro h
      exact h [] s (List.prefix_refl _) rfl
  | cons a as ih =>
    constructor
    · rintro ⟨hs, h⟩ pre t hp ht
      cases pre with
      | nil => exact Option.some.inj ht ▸ hs
      | cons b pre =>
        obtain ⟨rfl, hpre⟩ := List.cons_prefix_cons.mp hp
        obtain ⟨u, hu, ht⟩ := run_cons_some ht
        exact ih.mp (h u hu) pre t hpre ht
    · intro h
      refine ⟨h [] s List.nil_prefix rfl, fun u hu => ih.mpr fun pre t hp ht => ?_⟩
      exact h (a :: pre) t (List.cons_prefix_cons.mpr ⟨rfl, hp⟩) (by simp [hu, ht])

/-- When, among the states of a schedule that are good so far, a step by an action of the kind `p`
leads to a good state exactly if it meets `C`, a schedule of such actions stays good exactly if all of
its steps meet `C`. -/
theorem always_iff_meets_of {p : A → Prop} {J P : S → Prop} {C : S → A → Prop}
    (keep : ∀ s a t, p a → J s → P s → step s a = some t → P t → J t)
    (exact_step : ∀ s a t, p a → J s → P s → step s a = some t → (P t ↔ C s a))
    {s : S} {as : List A} (hp : ∀ a ∈ as, p a) (hJ : J s) (hP : P s) :
    Always step P s as ↔ Meets step C s as := by
  induction as generalizing s with
  | nil => exact ⟨fun _ => trivial, fun _ => hP⟩
  | cons a as ih =>
    have ha : p a := hp a List.mem_cons_self
    have has : ∀ b ∈ as, p b := fun b hb => hp b (List.mem_cons_of_mem a hb)
    constructor
    · rintro ⟨-, h⟩ t ht
      have hPt : P t := by
        cases as with
        | nil => exact h t ht
        | cons b bs => exact (h t ht).1
      exact ⟨(exact_step s a t ha hJ hP ht).mp hPt, (ih has (keep s a t ha hJ hP ht hPt) hPt).mp (h t ht)⟩
    · intro h
      refine ⟨hP, fun t ht => ?_⟩
      have hPt : P t := (exact_step s a t ha hJ hP ht).mpr (h t ht).1
      exact (ih has (keep s a t ha hJ hP ht hPt) hPt).mpr (h t ht).2

theorem always_iff_meets {J P : S → Prop} {C : S → A → Prop}
    (keep : ∀ s a t, J s → P s → step s a = some t → P t → J t)
    (exact_step : ∀ s a t, J s → P s → step s a = some t → (P t ↔ C s a))
    {s : S} {as : List A} (hJ : J s) (hP : P s) : Always step P s as ↔ Meets step C s as :=
  always_iff_meets_of (p := fun _ => True) (fun s a t _ => keep s a t) (fun s a t _ => exact_step s a t)
    (fun _ _ => trivial) hJ hP

end CacheCoherence.TransitionRuns
