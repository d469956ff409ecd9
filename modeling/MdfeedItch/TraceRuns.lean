import Mathlib.Data.List.Induction
import Mathlib.Tactic.Common

/-! # Runs of a deterministic step function that emits effects

`run` feeds a list of inputs to a step function and concatenates the emitted
effects. An invariant of the pair (state, effects so far) that one step preserves
holds after every run; the inputs may be restricted to those with a property. -/
namespace MdfeedItch.TraceRuns

variable {σ ι ω : Type*} (step : σ → ι → σ × List ω)

/-- The final state and all emitted effects, oldest first. -/
def run (s : σ) : List ι → σ × List ω
  | [] => (s, [])
  | i :: is =>
    let first := step s i
    let rest := run first.1 is
    (rest.1, first.2 ++ rest.2)

@[simp] theorem run_nil (s : σ) : run step s [] = (s, []) := rfl

theorem run_append (s : σ) (is js : List ι) :
    run step s (is ++ js) = ((run step (run step s is).1 js).1,
      (run step s is).2 ++ (run step (run step s is).1 js).2) := by
  induction is generalizing s with
  | nil => rfl
  | cons i is ih => simp only [List.cons_append, run, ih, List.append_assoc]

/-- The last input of a run acts on the state the others reach. -/
theorem run_concat (s : σ) (is : List ι) (i : ι) :
    run step s (is ++ [i]) = ((step (run step s is).1 i).1,
      (run step s is).2 ++ (step (run step s is).1 i).2) := by
  rw [run_append]
  simp [run]

/-- The steps of a run, by position. -/
theorem forall_step_iff {P : List ι → ι → Prop} {is : List ι} :
    (∀ pre i, pre ++ [i] <+: is → P pre i) ↔ ∀ n (h : n < is.length), P (is.take n) is[n] := by
  constructor
  · intro h n hn
    refine h _ _ ?_
    rw [List.take_append_getElem hn]
    exact List.take_prefix (n + 1) is
  · intro h pre i hpre
    obtain ⟨rest, rfl⟩ := hpre
    have := h pre.length (by simp)
    simpa using this

/-- The steps of a run with one more input. -/
theorem forall_step_concat {P : List ι → ι → Prop} {is : List ι} {j : ι} :
    (∀ pre i, pre ++ [i] <+: is ++ [j] → P pre i) ↔ (∀ pre i, pre ++ [i] <+: is → P pre i) ∧ P is j := by
  constructor
  · intro h
    exact ⟨fun pre i hpre => h pre i (hpre.trans (List.prefix_append is [j])), h is j (List.prefix_refl _)⟩
  · rintro ⟨hbefore, hlast⟩ pre i hpre
    rcases List.prefix_concat_iff.mp hpre with heq | hpre
    · obtain ⟨rfl, hi⟩ := List.append_inj' heq rfl
      cases hi
      exact hlast
    · exact hbefore pre i hpre

/-- The states of a run, by position. -/
theorem forall_prefix_iff {P : List ι → Prop} {is : List ι} :
    (∀ pre, pre <+: is → P pre) ↔ ∀ n, n ≤ is.length → P (is.take n) := by
  constructor
  · intro h n _
    exact h _ (List.take_prefix n is)
  · intro h pre hpre
    rw [List.prefix_iff_eq_take.mp hpre]
    exact h _ hpre.length_le

/-- An invariant of state and history that every admissible input preserves
holds after every run on admissible inputs. -/
theorem run_invariant {I : σ → List ω → Prop} {P : ι → Prop}
    (hstep : ∀ s t i, P i → I s t → I (step s i).1 (t ++ (step s i).2))
    {s : σ} (h : I s []) (is : List ι) (hP : ∀ i ∈ is, P i) :
    I (run step s is).1 (run step s is).2 := by
  induction is using List.reverseRecOn with
  | nil => exact h
  | append_singleton is i ih =>
    rw [run_concat]
    exact hstep _ _ i (hP i (by simp)) (ih (fun j hj => hP j (by simp [hj])))

/-- The same for conditions that read the state an input meets. -/
theorem run_invariant_of_steps {I : σ → List ω → Prop} {P : σ → ι → Prop}
    (hstep : ∀ s t i, P s i → I s t → I (step s i).1 (t ++ (step s i).2))
    {s : σ} (h : I s []) (is : List ι)
    (hP : ∀ js i, js ++ [i] <+: is → P (run step s js).1 i) :
    I (run step s is).1 (run step s is).2 := by
  induction is using List.reverseRecOn with
  | nil => exact h
  | append_singleton is i ih =>
    rw [run_concat]
    refine hstep _ _ i (hP is i (List.prefix_refl _)) (ih ?_)
    intro js j hj
    exact hP js j (hj.trans (List.prefix_append is [i]))

/-! ## Simulation

An abstract machine takes for every input the steps that it observes of it, which
may be none. -/

section Simulation
variable {α ε : Type*} (obs : σ → ι → List ε)

/-- What is observed of a run. -/
def observed (s : σ) : List ι → List ε
  | [] => []
  | i :: is => obs s i ++ observed (step s i).1 is

theorem observed_concat (s : σ) (is : List ι) (i : ι) :
    observed step obs s (is ++ [i]) = observed step obs s is ++ obs (run step s is).1 i := by
  induction is generalizing s with
  | nil => simp [observed]
  | cons j is ih =>
    simp only [List.cons_append, observed, ih, List.append_assoc]
    rfl

/-- Related states, with the effects so far, stay related along every run whose
inputs are admissible where they occur. -/
theorem run_simulates {astep : α → ε → α} {R : σ → List ω → α → Prop} {P : σ → ι → Prop}
    (hstep : ∀ s t a i, P s i → R s t a → R (step s i).1 (t ++ (step s i).2) ((obs s i).foldl astep a))
    {s : σ} {a : α} (h : R s [] a) (is : List ι) (hP : ∀ js i, js ++ [i] <+: is → P (run step s js).1 i) :
    R (run step s is).1 (run step s is).2 ((observed step obs s is).foldl astep a) := by
  induction is using List.reverseRecOn with
  | nil => exact h
  | append_singleton is i ih =>
    rw [run_concat, observed_concat, List.foldl_append]
    refine hstep _ _ _ i (hP is i (List.prefix_refl _)) (ih ?_)
    intro js j hj
    exact hP js j (hj.trans (List.prefix_append is [i]))

end Simulation

end MdfeedItch.TraceRuns
