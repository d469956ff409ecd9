import MdfeedItch.HistogramPercentiles
import Mathlib.Algebra.BigOperators.Group.List.Basic
import Mathlib.Data.UInt

/-! # Merged histograms

`Histogram::merge` and `Histogram::reset`. Histograms are a commutative monoid under
`merge`, and to record a value is to merge the histogram of that value; so a
histogram depends only on the values that went into it, however they were split and
merged. -/
namespace MdfeedItch

/-- `std::min`. -/
def smaller (a b : UInt64) : UInt64 := if b < a then b else a

/-- `std::max`. -/
def larger (a b : UInt64) : UInt64 := if a < b then b else a

theorem smaller_toNat (a b : UInt64) : (smaller a b).toNat = min a.toNat b.toNat := by
  rw [smaller, apply_ite UInt64.toNat]
  split_ifs with h <;> rw [UInt64.lt_iff_toNat_lt] at h <;> omega

theorem larger_toNat (a b : UInt64) : (larger a b).toNat = max a.toNat b.toNat := by
  rw [larger, apply_ite UInt64.toNat]
  split_ifs with h <;> rw [UInt64.lt_iff_toNat_lt] at h <;> omega

theorem smaller_le (a b : UInt64) : smaller a b ≤ a ∧ smaller a b ≤ b := by
  simp only [UInt64.le_iff_toNat_le, smaller_toNat]
  omega

theorem le_larger (a b : UInt64) : a ≤ larger a b ∧ b ≤ larger a b := by
  simp only [UInt64.le_iff_toNat_le, larger_toNat]
  omega

theorem smaller_last (v : UInt64) : smaller 18446744073709551615 v = v := by
  have hv := v.toNat_lt
  have hlast : (18446744073709551615 : UInt64).toNat = 2 ^ 64 - 1 := rfl
  rw [← UInt64.toNat_inj, smaller_toNat, hlast]
  omega

theorem larger_zero (v : UInt64) : larger 0 v = v := by
  have hzero : (0 : UInt64).toNat = 0 := rfl
  rw [← UInt64.toNat_inj, larger_toNat, hzero, Nat.zero_max]

namespace Histogram

def merge (h other : Histogram) : Histogram where
  counts := h.counts.zipWith (· + ·) other.counts
  count := h.count + other.count
  total := h.total + other.total
  min := smaller h.min other.min
  max := larger h.max other.max

def reset (h : Histogram) : Histogram where
  counts := h.counts.map (fun _ => 0)
  count := 0
  total := 0
  min := 18446744073709551615
  max := 0

@[ext] theorem ext {h k : Histogram} (hcounts : h.counts = k.counts) (hcount : h.count = k.count)
    (htotal : h.total = k.total) (hmin : h.min.toNat = k.min.toNat) (hmax : h.max.toNat = k.max.toNat) : h = k := by
  cases h
  cases k
  simp only [mk.injEq]
  exact ⟨hcounts, hcount, htotal, UInt64.toNat_inj.mp hmin, UInt64.toNat_inj.mp hmax⟩

theorem merge_comm (h k : Histogram) : h.merge k = k.merge h := by
  refine ext ?_ (UInt64.add_comm _ _) (UInt64.add_comm _ _) ?_ ?_
  · refine Vector.ext (fun i hi => ?_)
    simp only [merge, Vector.getElem_zipWith, UInt64.add_comm]
  · simp only [merge, smaller_toNat, Nat.min_comm]
  · simp only [merge, larger_toNat, Nat.max_comm]

theorem merge_assoc (h k l : Histogram) : (h.merge k).merge l = h.merge (k.merge l) := by
  refine ext ?_ (UInt64.add_assoc _ _ _) (UInt64.add_assoc _ _ _) ?_ ?_
  · refine Vector.ext (fun i hi => ?_)
    simp only [merge, Vector.getElem_zipWith, UInt64.add_assoc]
  · simp only [merge, smaller_toNat, Nat.min_assoc]
  · simp only [merge, larger_toNat, Nat.max_assoc]

theorem merge_new (h : Histogram) : h.merge new = h := by
  have hmin := h.min.toNat_lt
  refine ext ?_ (UInt64.add_zero _) (UInt64.add_zero _) ?_ ?_
  · refine Vector.ext (fun i hi => ?_)
    simp only [merge, new, Vector.getElem_zipWith, Vector.getElem_replicate, UInt64.add_zero]
  · have hlast : (18446744073709551615 : UInt64).toNat = 2 ^ 64 - 1 := rfl
    simp only [merge, new, smaller_toNat, hlast]
    omega
  · have hzero : (0 : UInt64).toNat = 0 := rfl
    simp only [merge, new, larger_toNat, hzero, Nat.max_zero]

theorem reset_eq_new (h : Histogram) : h.reset = new := by
  refine ext ?_ rfl rfl rfl rfl
  refine Vector.ext (fun i hi => ?_)
  simp only [reset, new, Vector.getElem_map, Vector.getElem_replicate]

instance : Zero Histogram := ⟨new⟩
instance : Add Histogram := ⟨merge⟩

instance : AddCommMonoid Histogram where
  add_assoc := merge_assoc
  add_comm := merge_comm
  add_zero := merge_new
  zero_add h := (merge_comm new h).trans (merge_new h)
  nsmul := nsmulRec

theorem counts_record (h : Histogram) (v : UInt64) :
    (h.record v).counts = h.counts.zipWith (· + ·) (new.record v).counts := by
  refine Vector.ext (fun i hi => ?_)
  have hnone : new.counts.get (cellOf v) + 1 = 1 := by
    rw [show new.counts.get (cellOf v) = 0 from Vector.getElem_replicate _, UInt64.zero_add]
  have hother : new.counts[i] = 0 := Vector.getElem_replicate _
  rw [Vector.getElem_zipWith, record, record, Vector.getElem_set, Vector.getElem_set, hnone, hother]
  split_ifs with hcell
  · subst hcell
    rfl
  · rw [UInt64.add_zero]

/-- To record a value is to merge the histogram that has this value only. -/
theorem record_eq_merge (h : Histogram) (v : UInt64) : h.record v = h.merge (new.record v) := by
  refine ext (counts_record h v) ?_ ?_ ?_ ?_
  · show h.count + 1 = h.count + (0 + 1)
    rw [UInt64.zero_add]
  · show h.total + v = h.total + (0 + v)
    rw [UInt64.zero_add]
  · change (smaller h.min v).toNat = (smaller h.min (smaller 18446744073709551615 v)).toNat
    rw [smaller_last]
  · change (larger h.max v).toNat = (larger h.max (larger 0 v)).toNat
    rw [larger_zero]

theorem recordAll_eq_sum (values : List UInt64) : recordAll values = (values.map new.record).sum := by
  induction values using List.reverseRecOn with
  | nil => rfl
  | append_singleton values v ih =>
    rw [recordAll_concat, record_eq_merge, ih, List.map_append, List.sum_append, List.map_singleton, List.sum_singleton]
    rfl

theorem recordAll_append (values more : List UInt64) :
    recordAll (values ++ more) = (recordAll values).merge (recordAll more) := by
  rw [recordAll_eq_sum, recordAll_eq_sum, recordAll_eq_sum, List.map_append, List.sum_append]
  rfl

theorem recordAll_perm {values more : List UInt64} (h : values.Perm more) : recordAll values = recordAll more := by
  rw [recordAll_eq_sum, recordAll_eq_sum]
  exact (h.map _).sum_eq

end Histogram

/-- How a histogram comes about. -/
inductive HistogramUse
  | fresh
  | record (before : HistogramUse) (value : UInt64)
  | merge (before other : HistogramUse)
  | reset (before : HistogramUse)

namespace HistogramUse

def run : HistogramUse → Histogram
  | fresh => Histogram.new
  | record before value => before.run.record value
  | merge before other => before.run.merge other.run
  | reset before => before.run.reset

/-- The values recorded since the last reset, on both sides of a merge. -/
def values : HistogramUse → List UInt64
  | fresh => []
  | record before value => before.values ++ [value]
  | merge before other => before.values ++ other.values
  | reset _ => []

theorem run_eq_recordAll (u : HistogramUse) : u.run = Histogram.recordAll u.values := by
  induction u with
  | fresh => rfl
  | record before value ih => rw [run, ih, values, Histogram.recordAll_concat]
  | merge before other ih ih' => rw [run, ih, ih', values, Histogram.recordAll_append]
  | reset before ih => exact before.run.reset_eq_new

end HistogramUse

namespace Histogram

theorem recordAll_total (values : List UInt64) : (recordAll values).total = values.sum := by
  induction values using List.reverseRecOn with
  | nil => rfl
  | append_singleton values v ih =>
    rw [recordAll_concat, List.sum_append, List.sum_singleton, ← ih]
    rfl

/-- The extremes bound the values, and are values unless there are none. -/
theorem recordAll_extremes (values : List UInt64) :
    (∀ v ∈ values, (recordAll values).min ≤ v ∧ v ≤ (recordAll values).max) ∧
    (values ≠ [] → (recordAll values).min ∈ values ∧ (recordAll values).max ∈ values) := by
  induction values using List.reverseRecOn with
  | nil => exact ⟨by simp, fun h => absurd rfl h⟩
  | append_singleton values v ih =>
    obtain ⟨hbounds, hmem⟩ := ih
    rw [recordAll_concat]
    change (∀ w ∈ values ++ [v], smaller (recordAll values).min v ≤ w ∧ w ≤ larger (recordAll values).max v) ∧
      (values ++ [v] ≠ [] → smaller (recordAll values).min v ∈ values ++ [v] ∧
        larger (recordAll values).max v ∈ values ++ [v])
    refine ⟨fun w hw => ?_, fun _ => ?_⟩
    · obtain ⟨hlow, hlow'⟩ := smaller_le (recordAll values).min v
      obtain ⟨hhigh, hhigh'⟩ := le_larger (recordAll values).max v
      rcases List.mem_append.mp hw with hw | hw
      · exact ⟨UInt64.le_trans hlow (hbounds w hw).1, UInt64.le_trans (hbounds w hw).2 hhigh⟩
      · rw [List.mem_singleton.mp hw]
        exact ⟨hlow', hhigh'⟩
    · by_cases hnil : values = []
      · subst hnil
        change smaller 18446744073709551615 v ∈ [v] ∧ larger 0 v ∈ [v]
        rw [smaller_last, larger_zero]
        exact ⟨List.mem_singleton_self v, List.mem_singleton_self v⟩
      · obtain ⟨hmin, hmax⟩ := hmem hnil
        rw [smaller, larger]
        refine ⟨?_, ?_⟩
        · split_ifs
          · exact List.mem_concat_self
          · exact List.mem_append_left _ hmin
        · split_ifs
          · exact List.mem_concat_self
          · exact List.mem_append_left _ hmax

end Histogram

/-- A histogram is what its values make it, in whatever order they are recorded and however they are
split over histograms that are merged: those before a reset are gone, and the rest are the histogram
that records them one after the other, with their number, their sum and their extremes. -/
theorem merged_histogram_of_values (u : HistogramUse) (values : List UInt64) (hvalues : u.values.Perm values) :
    u.run = Histogram.recordAll values ∧
    u.run.count = UInt64.ofNat values.length ∧ u.run.total = values.sum ∧
    (∀ v ∈ values, u.run.min ≤ v ∧ v ≤ u.run.max) ∧
    (values ≠ [] → u.run.min ∈ values ∧ u.run.max ∈ values) := by
  have hrun : u.run = Histogram.recordAll values :=
    u.run_eq_recordAll.trans (Histogram.recordAll_perm hvalues)
  rw [hrun]
  exact ⟨rfl, Histogram.recordAll_count values, Histogram.recordAll_total values, Histogram.recordAll_extremes values⟩

/-- Two shards, one of them used before. -/
theorem merged_shards :
    let u := HistogramUse.merge (.record .fresh 7) (.record (.reset (.record .fresh 5)) 3)
    u.run = Histogram.recordAll [3, 7] ∧ u.run.total = 10 := by
  intro u
  have hperm : u.values.Perm [3, 7] := List.Perm.swap 3 7 []
  obtain ⟨hrun, -, htotal, -⟩ := merged_histogram_of_values u [3, 7] hperm
  exact ⟨hrun, htotal⟩

end MdfeedItch
