import Mathlib.Data.List.Pairwise
import Mathlib.Tactic.Common

/-! # Consecutive intervals

A list of inclusive ranges of natural numbers tiles `[a, b)` when each starts
right behind the one before. Then the ranges are pairwise disjoint and together
contain exactly the numbers of `[a, b)`. -/
namespace MdfeedItch.IntervalTiling

inductive Tiles : ℕ → List (ℕ × ℕ) → ℕ → Prop
  | nil (a : ℕ) : Tiles a [] a
  | cons {a y b : ℕ} {ps : List (ℕ × ℕ)} (hle : a ≤ y) (rest : Tiles (y + 1) ps b) : Tiles a ((a, y) :: ps) b

namespace Tiles
variable {a b c : ℕ} {ps qs : List (ℕ × ℕ)}

theorem single {y : ℕ} (h : a ≤ y) : Tiles a [(a, y)] (y + 1) := .cons h (.nil _)

theorem append (h : Tiles a ps b) (h' : Tiles b qs c) : Tiles a (ps ++ qs) c := by
  induction h with
  | nil a => exact h'
  | cons hle rest ih => exact .cons hle (ih h')

theorem le (h : Tiles a ps b) : a ≤ b := by
  induction h with
  | nil a => exact Nat.le_refl a
  | cons hle rest ih => omega

theorem covers (h : Tiles a ps b) (n : ℕ) : (∃ p ∈ ps, p.1 ≤ n ∧ n ≤ p.2) ↔ a ≤ n ∧ n < b := by
  induction h with
  | nil a =>
    simp only [List.not_mem_nil, false_and, exists_false, false_iff]
    omega
  | @cons a y b ps hle rest ih =>
    have hend := rest.le
    simp only [List.mem_cons, exists_eq_or_imp, ih]
    constructor
    · rintro (⟨h, h'⟩ | ⟨h, h'⟩) <;> omega
    · rintro ⟨h, h'⟩
      rcases Nat.lt_or_ge y n with hy | hy
      · exact Or.inr ⟨hy, h'⟩
      · exact Or.inl ⟨h, hy⟩

theorem bounds (h : Tiles a ps b) : ∀ p ∈ ps, a ≤ p.1 ∧ p.1 ≤ p.2 := by
  induction h with
  | nil a => simp
  | @cons a y b ps hle rest ih =>
    intro p hp
    rcases List.mem_cons.mp hp with rfl | hp
    · exact ⟨Nat.le_refl a, hle⟩
    · obtain ⟨hlo, hord⟩ := ih p hp
      exact ⟨by omega, hord⟩

/-- Earlier ranges end before later ones start. -/
theorem pairwise (h : Tiles a ps b) : ps.Pairwise (fun p q => p.2 < q.1) := by
  induction h with
  | nil a => exact List.Pairwise.nil
  | @cons a y b ps hle rest ih =>
    refine List.Pairwise.cons (fun q hq => ?_) ih
    have hlo := (rest.bounds q hq).1
    dsimp only
    omega

end Tiles

end MdfeedItch.IntervalTiling
