import CacheCoherence.Foundation.TransitionRuns

/-! # Traces of an abstract system

An abstract system takes steps that are labelled by what can be observed of them. A concrete machine with a log is
refined into it when whatever a step appends to the log is a trace of the abstract system.
-/
namespace CacheCoherence.Traces
open TransitionRuns

section
variable {M L : Type*} (Does : M → L → M → Prop)

/-- The abstract system goes from one state to another and shows the list of labels. -/
inductive Trace : M → List L → M → Prop where
  | nil (x : M) : Trace x [] x
  | cons {x y z : M} {l : L} {ls : List L} : Does x l y → Trace y ls z → Trace x (l :: ls) z

variable {Does} {x y z : M} {l : L} {ls ks : List L}

theorem Trace.single (h : Does x l y) : Trace Does x [l] y := .cons h (.nil y)

theorem Trace.append (h : Trace Does x ls y) (h' : Trace Does y ks z) : Trace Does x (ls ++ ks) z := by
  induction h with
  | nil => exact h'
  | cons hl _ ih => exact .cons hl (ih h')

theorem Trace.split (h : Trace Does x (ls ++ l :: ks) z) :
    ∃ y y', Trace Does x ls y ∧ Does y l y' ∧ Trace Does y' ks z := by
  induction ls generalizing x with
  | nil =>
    cases h with
    | cons hl hks => exact ⟨_, _, .nil x, hl, hks⟩
  | cons k ls ih =>
    cases h with
    | cons hk hrest =>
      obtain ⟨y, y', hls, hl, hks⟩ := ih hrest
      exact ⟨y, y', .cons hk hls, hl, hks⟩

theorem Trace.invariant {I : M → Prop} (hI : ∀ x l y, I x → Does x l y → I y) (hx : I x) (h : Trace Does x ls y) :
    I y := by
  induction h with
  | nil => exact hx
  | cons hl _ ih => exact ih (hI _ _ _ hx hl)

end

section
variable {S A M L : Type*} {step : S → A → Option S} {Does : M → L → M → Prop} {R : S → M → Prop}

/-- Forward simulation: when the events of each step are a trace between related states, those of a run are. -/
theorem run_refines (log : S → List L) (hstep : ∀ s x a t, R s x → step s a = some t →
      ∃ es y, log t = log s ++ es ∧ Trace Does x es y ∧ R t y)
    {s t : S} {x : M} {as : List A} (hR : R s x) (h : run step s as = some t) :
    ∃ es y, log t = log s ++ es ∧ Trace Does x es y ∧ R t y := by
  induction as generalizing s x with
  | nil =>
    cases h
    exact ⟨[], x, by simp, .nil x, hR⟩
  | cons a as ih =>
    obtain ⟨u, hu, h⟩ := run_cons_some h
    obtain ⟨es, y, hlog, htrace, hRu⟩ := hstep s x a u hR hu
    obtain ⟨fs, z, hlog', htrace', hRt⟩ := ih hRu h
    exact ⟨es ++ fs, z, by rw [hlog', hlog, List.append_assoc], htrace.append htrace', hRt⟩

end
end CacheCoherence.Traces
