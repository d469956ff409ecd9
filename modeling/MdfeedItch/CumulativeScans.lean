import Mathlib.Algebra.BigOperators.Group.Finset.Basic
import Mathlib.Algebra.Ring.Nat
import Mathlib.Data.List.Nodup
import Mathlib.Data.List.Range
import Mathlib.Tactic.Common

/-! # Running sums over a list of cells

`reach f target running` walks over a list and adds up `f` until the running sum
comes up to the target; it answers the element where that happens. That element has
a weight of its own, and a larger target is reached no earlier. -/
namespace MdfeedItch.CumulativeScans

variable {α : Type*} {f : α → ℕ}

def reach (f : α → ℕ) (target : ℕ) : ℕ → List α → Option α
  | _, [] => none
  | running, a :: rest => if target ≤ running + f a then some a else reach f target (running + f a) rest

theorem reach_isSome {target running : ℕ} {xs : List α} (hne : xs ≠ [])
    (h : target ≤ running + (xs.map f).sum) : ∃ a, reach f target running xs = some a := by
  induction xs generalizing running with
  | nil => exact absurd rfl hne
  | cons a rest ih =>
    rw [List.map_cons, List.sum_cons, ← Nat.add_assoc] at h
    rw [reach]
    by_cases hhere : target ≤ running + f a
    · exact ⟨a, if_pos hhere⟩
    · have hrest : rest ≠ [] := by
        rintro rfl
        exact hhere h
      rw [if_neg hhere]
      exact ih hrest h

/-- A target that has been reached already is reached at the first element. -/
theorem reach_of_le {target running : ℕ} (h : target ≤ running) (a : α) (rest : List α) :
    reach f target running (a :: rest) = some a := if_pos (h.trans (Nat.le_add_right _ _))

/-- The sum grows where it reaches the target. -/
theorem weight_pos_of_reach {target running : ℕ} {xs : List α} (h : running < target) {a : α}
    (ha : reach f target running xs = some a) : 0 < f a := by
  induction xs generalizing running with
  | nil => cases ha
  | cons b rest ih =>
    rw [reach] at ha
    split_ifs at ha with hhere
    · cases ha
      omega
    · exact ih (Nat.not_le.mp hhere) ha

theorem mem_of_reach {target running : ℕ} {xs : List α} {a : α} (ha : reach f target running xs = some a) :
    a ∈ xs := by
  induction xs generalizing running with
  | nil => cases ha
  | cons b rest ih =>
    rw [reach] at ha
    split_ifs at ha with hhere
    · cases ha
      exact List.mem_cons_self
    · exact List.mem_cons_of_mem b (ih ha)

/-- A larger target is reached at the same element or a later one. -/
theorem reach_mono {r : α → α → Prop} (hrefl : ∀ a, r a a) {target target' running : ℕ} {xs : List α}
    (hsorted : xs.Pairwise r) (h : target ≤ target') {a b : α} (ha : reach f target running xs = some a)
    (hb : reach f target' running xs = some b) : r a b := by
  induction xs generalizing running with
  | nil => cases ha
  | cons c rest ih =>
    obtain ⟨hfirst, hrest⟩ := List.pairwise_cons.mp hsorted
    rw [reach] at ha hb
    split_ifs at ha hb with hhere hhere' hhere'
    · cases ha
      cases hb
      exact hrefl _
    · cases ha
      exact hfirst b (mem_of_reach hb)
    · omega
    · exact ih hrest ha hb

/-- The cells of a table with rows of length `m`, row by row. -/
def rowMajor (n m : ℕ) : List (ℕ × ℕ) := (List.range n).flatMap (fun b => (List.range m).map (Prod.mk b))

def position (m : ℕ) (c : ℕ × ℕ) : ℕ := c.1 * m + c.2

theorem mem_rowMajor {n m : ℕ} {c : ℕ × ℕ} : c ∈ rowMajor n m ↔ c.1 < n ∧ c.2 < m := by
  obtain ⟨b, s⟩ := c
  simp [rowMajor]

theorem position_injective {m : ℕ} {c d : ℕ × ℕ} (hc : c.2 < m) (hd : d.2 < m)
    (h : position m c = position m d) : c = d := by
  have hcol {c : ℕ × ℕ} (hc : c.2 < m) : position m c % m = c.2 := by
    rw [position, Nat.mul_add_mod_self_right, Nat.mod_eq_of_lt hc]
  have hrow {c : ℕ × ℕ} (hc : c.2 < m) : position m c / m = c.1 := by
    rw [position, Nat.mul_comm, Nat.mul_add_div (by omega), Nat.div_eq_of_lt hc, Nat.add_zero]
  exact Prod.ext (by rw [← hrow hc, h, hrow hd]) (by rw [← hcol hc, h, hcol hd])

/-- The positions of the cells count up. -/
theorem map_position_rowMajor (n m : ℕ) : (rowMajor n m).map (position m) = List.range (n * m) := by
  induction n with
  | zero => simp [rowMajor]
  | succ n ih =>
    have hrow : (List.range m).map (fun s => position m (n, s)) = (List.range m).map (n * m + ·) := rfl
    rw [rowMajor, List.range_succ, List.flatMap_append, List.map_append, Nat.succ_mul, List.range_add, ← ih, rowMajor]
    simpa [List.map_map] using hrow

theorem pairwise_rowMajor (n m : ℕ) : (rowMajor n m).Pairwise (fun c d => position m c < position m d) := by
  have h := List.pairwise_lt_range (n := n * m)
  rw [← map_position_rowMajor, List.pairwise_map] at h
  exact h

theorem nodup_rowMajor (n m : ℕ) : (rowMajor n m).Nodup :=
  (pairwise_rowMajor n m).imp (fun h heq => by rw [heq] at h; exact Nat.lt_irrefl _ h)

/-- Counted over cells that it lies in, a list is counted once. -/
theorem sum_map_count [i : BEq α] [LawfulBEq α] {cells l : List α} (hnodup : cells.Nodup) (h : ∀ a ∈ l, a ∈ cells) :
    (cells.map (fun c => l.count c)).sum = l.length := by
  classical
  obtain rfl := lawful_beq_subsingleton i instBEqOfDecidableEq
  rw [← List.sum_toFinset _ hnodup]
  have hcard := Multiset.sum_count_eq_card (s := cells.toFinset) (m := l) (fun a ha => by simpa using h a (by simpa using ha))
  simpa using hcard

end MdfeedItch.CumulativeScans
