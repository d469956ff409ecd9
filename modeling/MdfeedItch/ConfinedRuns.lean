import MdfeedItch.TraceRuns

/-! # Runs whose inputs have owners

Every input has an owner, and every owner has a part of the state. When an input
changes the part of its owner only, and changes it in a way that depends on that
part only, each owner sees a run as if the inputs of the others were not there. So
two runs agree on the part of every owner that they give the same inputs in the
same order. -/
namespace MdfeedItch.TraceRuns

variable {σ ι ω L : Type*} [DecidableEq L]

/-- Inputs keep to the part of their owner. `Agree l` compares states on the part of
`l`, `mine l` selects its effects; inputs may be restricted to those with `P`, states
to those with `Inv`. -/
structure Confined (step : σ → ι → σ × List ω) (owner : ι → L) (Agree : L → σ → σ → Prop)
    (mine : L → ω → Bool)
    (P : ι → Prop) (Inv : σ → Prop) : Prop where
  equiv : ∀ l, Equivalence (Agree l)
  inv : ∀ {s i}, P i → Inv s → Inv (step s i).1
  elsewhere : ∀ {s i l}, P i → Inv s → owner i ≠ l →
    Agree l (step s i).1 s ∧ (step s i).2.filter (mine l) = []
  here : ∀ {s s' i}, P i → Inv s → Inv s' → Agree (owner i) s s' →
    Agree (owner i) (step s i).1 (step s' i).1 ∧
    (step s i).2.filter (mine (owner i)) = (step s' i).2.filter (mine (owner i))

namespace Confined
variable {step : σ → ι → σ × List ω} {owner : ι → L} {Agree : L → σ → σ → Prop} {mine : L → ω → Bool}
  {P : ι → Prop}
  {Inv : σ → Prop} (h : Confined step owner Agree mine P Inv)
include h

/-- An owner sees a run as the run of its own inputs. -/
theorem run_own (l : L) {s s' : σ} (hs : Inv s) (hs' : Inv s') (hagree : Agree l s s') (is : List ι)
    (hP : ∀ i ∈ is, P i) :
    Agree l (run step s is).1 (run step s' (is.filter (fun i => owner i = l))).1 ∧
      (run step s is).2.filter (mine l) =
        (run step s' (is.filter (fun i => owner i = l))).2.filter (mine l) := by
  induction is generalizing s s' with
  | nil => exact ⟨hagree, rfl⟩
  | cons i is ih =>
    have hi : P i := hP i (by simp)
    have hrest : ∀ j ∈ is, P j := fun j hj => hP j (by simp [hj])
    by_cases hl : owner i = l
    · subst hl
      obtain ⟨hstep, heffects⟩ := h.here hi hs hs' hagree
      obtain ⟨hafter, hlater⟩ := ih (h.inv hi hs) (h.inv hi hs') hstep hrest
      rw [List.filter_cons_of_pos (by simp)]
      refine ⟨hafter, ?_⟩
      rw [run, run, List.filter_append, List.filter_append, heffects, hlater]
    · obtain ⟨hstep, heffects⟩ := h.elsewhere hi hs hl
      obtain ⟨hafter, hlater⟩ := ih (h.inv hi hs) hs' ((h.equiv l).trans hstep hagree) hrest
      rw [List.filter_cons_of_neg (by simp [hl])]
      refine ⟨hafter, ?_⟩
      rw [run, List.filter_append, heffects, List.nil_append, hlater]

/-- Two runs that give an owner the same inputs in the same order look the same to it. -/
theorem run_interleaved (l : L) {s : σ} (hs : Inv s) {is js : List ι} (his : ∀ i ∈ is, P i)
    (hjs : ∀ j ∈ js, P j)
    (hown : is.filter (fun i => owner i = l) = js.filter (fun j => owner j = l)) :
    Agree l (run step s is).1 (run step s js).1 ∧
      (run step s is).2.filter (mine l) = (run step s js).2.filter (mine l) := by
  have hrefl := (h.equiv l).refl s
  obtain ⟨hleft, hlefts⟩ := h.run_own l hs hs hrefl is his
  obtain ⟨hright, hrights⟩ := h.run_own l hs hs hrefl js hjs
  rw [hown] at hleft hlefts
  exact ⟨(h.equiv l).trans hleft ((h.equiv l).symm hright), hlefts.trans hrights.symm⟩

omit [DecidableEq L] in
theorem run_inv {s : σ} (hs : Inv s) (is : List ι) (hP : ∀ i ∈ is, P i) : Inv (run step s is).1 :=
  run_invariant step (I := fun s _ => Inv s) (fun _ _ _ hi hinv => h.inv hi hinv) hs is hP

end Confined

end MdfeedItch.TraceRuns
