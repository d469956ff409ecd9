import Mathlib.Data.List.Chain
import Mathlib.Data.List.Range
import Mathlib.Tactic.Common

/-! # The holes of an increasing list of numbers

A hole is an inclusive range of numbers between two neighbours of the list. Together
the holes of an increasing list contain exactly the numbers between its first and its
last one that it leaves out. -/
namespace MdfeedItch.SequenceHoles

def holes : List ℕ → List (ℕ × ℕ)
  | a :: b :: rest => if a + 1 < b then (a + 1, b - 1) :: holes (b :: rest) else holes (b :: rest)
  | _ => []

@[simp] theorem holes_nil : holes [] = [] := rfl

@[simp] theorem holes_singleton (a : ℕ) : holes [a] = [] := rfl

/-- The holes are those of the two parts and the one where they meet. -/
theorem holes_append (before after : List ℕ) (a b : ℕ) :
    holes (before ++ [a] ++ b :: after) = holes (before ++ [a]) ++
      ((if a + 1 < b then [(a + 1, b - 1)] else []) ++ holes (b :: after)) := by
  induction before with
  | nil =>
    simp only [List.nil_append, List.singleton_append, holes]
    split_ifs <;> rfl
  | cons c before ih =>
    cases before with
    | nil =>
      simp only [List.nil_append, List.cons_append, holes] at ih ⊢
      split_ifs <;> simp
    | cons d before =>
      simp only [List.cons_append] at ih ⊢
      rw [holes, holes, ih]
      split_ifs <;> rfl

/-- One more number, with the hole below it. -/
theorem holes_concat {ns : List ℕ} {a : ℕ} (hlast : ns.getLast? = some a) (b : ℕ) :
    holes (ns ++ [b]) = holes ns ++ if a + 1 < b then [(a + 1, b - 1)] else [] := by
  obtain ⟨before, rfl⟩ := List.getLast?_eq_some_iff.mp hlast
  rw [holes_append, holes_singleton, List.append_nil]

theorem holes_of_concat {ns : List ℕ} {b : ℕ} (h : holes (ns ++ [b]) = []) : holes ns = [] := by
  cases hlast : ns.getLast? with
  | none => rw [List.getLast?_eq_none_iff.mp hlast, holes_nil]
  | some a =>
    rw [holes_concat hlast] at h
    exact (List.append_eq_nil_iff.mp h).1

theorem holes_range' (a n : ℕ) : holes (List.range' a n) = [] := by
  induction n generalizing a with
  | zero => rfl
  | succ n ih =>
    cases n with
    | zero => rfl
    | succ n =>
      rw [List.range'_succ, List.range'_succ, holes, if_neg (Nat.lt_irrefl _), ← List.range'_succ]
      exact ih (a + 1)

theorem le_of_mem_holes {ns : List ℕ} {r : ℕ × ℕ} (hr : r ∈ holes ns) : r.1 ≤ r.2 := by
  induction ns with
  | nil => cases hr
  | cons a ns ih =>
    cases ns with
    | nil => cases hr
    | cons b rest =>
      rw [holes] at hr
      split_ifs at hr with hhole
      · rcases List.mem_cons.mp hr with rfl | hr
        · dsimp only
          omega
        · exact ih hr
      · exact ih hr

/-- The first number of an increasing list is below the others, the last one above them. -/
theorem first_le {ns : List ℕ} {first : ℕ} (hinc : ns.Pairwise (· < ·)) (hfirst : ns.head? = some first) {n : ℕ}
    (hn : n ∈ ns) : first ≤ n := by
  obtain ⟨rest, rfl⟩ := List.head?_eq_some_iff.mp hfirst
  rcases List.mem_cons.mp hn with rfl | hn
  · exact Nat.le_refl n
  · exact Nat.le_of_lt (List.rel_of_pairwise_cons hinc hn)

theorem le_last {ns : List ℕ} {last : ℕ} (hinc : ns.Pairwise (· < ·)) (hlast : ns.getLast? = some last) {n : ℕ}
    (hn : n ∈ ns) : n ≤ last := by
  obtain ⟨before, rfl⟩ := List.getLast?_eq_some_iff.mp hlast
  rcases List.mem_append.mp hn with hn | hn
  · exact Nat.le_of_lt ((List.pairwise_append.mp hinc).2.2 n hn last (List.mem_singleton_self last))
  · exact Nat.le_of_eq (List.mem_singleton.mp hn)

/-- The holes of an increasing list contain exactly the numbers between its ends that it leaves out. -/
theorem mem_holes {ns : List ℕ} {first last : ℕ} (hinc : ns.Pairwise (· < ·)) (hfirst : ns.head? = some first)
    (hlast : ns.getLast? = some last) (n : ℕ) :
    (∃ r ∈ holes ns, r.1 ≤ n ∧ n ≤ r.2) ↔ first ≤ n ∧ n ≤ last ∧ n ∉ ns := by
  induction ns generalizing first with
  | nil => cases hfirst
  | cons a ns ih =>
    cases hfirst
    cases ns with
    | nil =>
      cases hlast
      simp only [holes_singleton, List.not_mem_nil, false_and, exists_false, List.getLast_singleton,
        List.mem_singleton, false_iff]
      omega
    | cons b rest =>
      obtain ⟨habove, hinc⟩ := List.pairwise_cons.mp hinc
      rw [List.getLast?_cons_cons] at hlast
      have hab : a < b := habove b (List.mem_cons_self ..)
      have hbl : b ≤ last := le_last hinc hlast (List.mem_cons_self ..)
      have hout : n < b → n ∉ b :: rest := fun hlt hmem => by
        have := first_le hinc rfl hmem
        omega
      have hsplit : a ≤ n ∧ n ≤ last ∧ n ∉ a :: b :: rest ↔
          (a + 1 ≤ n ∧ n ≤ b - 1) ∨ b ≤ n ∧ n ≤ last ∧ n ∉ b :: rest := by
        rw [List.mem_cons, not_or]
        constructor
        · rintro ⟨hlo, hhi, hne, hmem⟩
          rcases Nat.lt_or_ge n b with hlt | hge
          · exact Or.inl ⟨by omega, by omega⟩
          · exact Or.inr ⟨hge, hhi, hmem⟩
        · rintro (⟨hlo, hhi⟩ | ⟨hlo, hhi, hmem⟩)
          · exact ⟨by omega, by omega, by omega, hout (by omega)⟩
          · exact ⟨by omega, hhi, by omega, hmem⟩
      rw [hsplit, ← ih hinc rfl hlast, holes]
      split_ifs with hhole
      · rw [List.exists_mem_cons_iff]
      · exact (or_iff_right (by omega)).symm

theorem hole_lt_last {ns : List ℕ} {last : ℕ} (hinc : ns.Pairwise (· < ·)) (hlast : ns.getLast? = some last)
    {r : ℕ × ℕ} (hr : r ∈ holes ns) : r.1 < last := by
  obtain ⟨first, hfirst⟩ : ∃ first, ns.head? = some first := by
    cases ns with
    | nil => cases hlast
    | cons a ns => exact ⟨a, rfl⟩
  have hin := (mem_holes hinc hfirst hlast r.1).mp ⟨r, hr, Nat.le_refl _, le_of_mem_holes hr⟩
  exact lt_of_le_of_ne hin.2.1 (fun heq => hin.2.2 (heq ▸ List.mem_of_getLast? hlast))

/-- What a consecutive list keeps outside of a range. -/
theorem filter_range' {lo hi : ℕ} (hle : lo ≤ hi + 1) (n : ℕ) :
    (List.range' 1 n).filter (fun s => s < lo ∨ hi < s) =
      List.range' 1 (min n (lo - 1)) ++ List.range' (hi + 1) (n - hi) := by
  induction n with
  | zero => simp
  | succ n ih =>
    rw [List.range'_1_concat, List.filter_append, ih, List.filter_singleton]
    rcases Nat.lt_or_ge (1 + n) lo with hlow | hlow
    · -- the next number is below the range, and nothing lies above it
      have hnone : n - hi = 0 ∧ n + 1 - hi = 0 := by omega
      have hmin : min n (lo - 1) = n ∧ min (n + 1) (lo - 1) = n + 1 := by omega
      rw [hnone.1, hnone.2, hmin.1, hmin.2, List.range'_1_concat]
      simp [hlow]
    · have hmin : min (n + 1) (lo - 1) = min n (lo - 1) := by omega
      rw [hmin, List.append_assoc]
      congr 1
      rcases Nat.lt_or_ge hi (1 + n) with hhigh | hhigh
      · have hnext : n + 1 - hi = (n - hi) + 1 := by omega
        have hlast : hi + 1 + (n - hi) = 1 + n := by omega
        rw [hnext, List.range'_1_concat, hlast]
        simp [hhigh]
      · have hnone : n - hi = 0 ∧ n + 1 - hi = 0 := by omega
        have hout : ¬ (1 + n < lo ∨ hi < 1 + n) := by omega
        rw [hnone.1, hnone.2, decide_eq_false hout]
        rfl

/-- Then the range is the one hole, if numbers are kept on both sides of it. -/
theorem holes_filter_range' {lo hi : ℕ} (hle : lo ≤ hi + 1) (n : ℕ) :
    holes ((List.range' 1 n).filter (fun s => s < lo ∨ hi < s)) =
      if 1 < lo ∧ lo ≤ hi ∧ hi < n then [(lo, hi)] else [] := by
  rw [filter_range' hle]
  by_cases hbelow : 1 < lo ∧ 0 < n
  · obtain ⟨k, hk⟩ : ∃ k, min n (lo - 1) = k + 1 := ⟨min n (lo - 1) - 1, by omega⟩
    rw [hk, List.range'_1_concat]
    rcases Nat.eq_zero_or_pos (n - hi) with hnone | habove
    · rw [hnone, List.range'_zero, List.append_nil, ← List.range'_1_concat, holes_range', if_neg (by omega)]
    · obtain ⟨m, hm⟩ : ∃ m, n - hi = m + 1 := ⟨n - hi - 1, by omega⟩
      have hlo : 1 + k = lo - 1 := by omega
      rw [hm, List.range'_succ, holes_append, ← List.range'_succ, holes_range', ← List.range'_1_concat,
        holes_range', List.nil_append, List.append_nil, hlo]
      by_cases hrange : lo ≤ hi
      · rw [if_pos (by omega), if_pos (by omega)]
        simp
        omega
      · rw [if_neg (by omega), if_neg (by omega)]
  · have hnone : min n (lo - 1) = 0 := by omega
    rw [hnone, List.range'_zero, List.nil_append, holes_range', if_neg (by omega)]

end MdfeedItch.SequenceHoles
