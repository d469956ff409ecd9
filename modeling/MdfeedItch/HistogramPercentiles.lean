import MdfeedItch.HistogramBuckets

/-! # Percentiles of recorded values

Every cell counts the values with its bucket index, so the scan of `percentile` adds
up all values in the end. It stops at a cell that has some as soon as its target is
positive; a target of zero is met at the first cell, whatever it holds. -/
namespace MdfeedItch
open CumulativeScans

/-- The lower bounds of cells are in the order of the cells. -/
theorem bucketLowerBound_mono {c d : ℕ × ℕ} (hc : c.1 < 32 ∧ c.2 < 64) (hd : d.1 < 32 ∧ d.2 < 64)
    (h : position 64 c ≤ position 64 d) : bucketLowerBound c.1 c.2 ≤ bucketLowerBound d.1 d.2 := by
  rw [UInt64.le_iff_toNat_le, bucketLowerBound_toNat hc.1 hc.2, bucketLowerBound_toNat hd.1 hd.2]
  rw [position, position] at h
  rcases Nat.lt_trichotomy c.1 d.1 with hlt | heq | hgt
  · -- the next bucket starts above all of this one
    have hnext : 128 * 2 ^ c.1 ≤ (64 + d.2) * 2 ^ d.1 := by
      calc 128 * 2 ^ c.1 = 64 * 2 ^ (c.1 + 1) := by ring
        _ ≤ (64 + d.2) * 2 ^ d.1 := Nat.mul_le_mul (by omega) (Nat.pow_le_pow_right (by norm_num) hlt)
    have hhere : (64 + c.2) * 2 ^ c.1 ≤ 128 * 2 ^ c.1 := Nat.mul_le_mul_right _ (by omega)
    have hpos : 0 < 2 ^ c.1 := by positivity
    rw [if_neg (by omega : d.1 ≠ 0)]
    split_ifs <;> omega
  · have hsub : c.2 ≤ d.2 := by omega
    rw [heq]
    split_ifs
    · omega
    · exact Nat.mul_le_mul_right _ (by omega)
  · omega

namespace Histogram

def cell (h : Histogram) (c : ℕ × ℕ) : UInt64 := h.counts[position kSubBuckets c]?.getD 0

theorem mem_cells {c : ℕ × ℕ} : c ∈ cells ↔ c.1 < kBuckets ∧ c.2 < kSubBuckets := by
  rw [cells, mem_rowMajor]

theorem pairwise_cells : cells.Pairwise (fun c d => position kSubBuckets c < position kSubBuckets d) := by
  rw [cells]
  exact pairwise_rowMajor kBuckets kSubBuckets

theorem nodup_cells : cells.Nodup := by
  rw [cells]
  exact nodup_rowMajor kBuckets kSubBuckets

theorem cellOf_eq_iff {v : UInt64} {c : ℕ × ℕ} (hc : c ∈ cells) :
    (cellOf v).val = position kSubBuckets c ↔ bucketIndex v = c := by
  constructor
  · exact position_injective (bucketIndex_lt v).2 (mem_cells.mp hc).2
  · rintro rfl
    rfl

theorem cell_record (h : Histogram) (v : UInt64) {c : ℕ × ℕ} (hc : c ∈ cells) :
    (h.record v).cell c = h.cell c + if bucketIndex v = c then 1 else 0 := by
  rw [cell, record, Vector.getElem?_set, cell]
  by_cases hsame : bucketIndex v = c
  · have hpos := (cellOf_eq_iff hc).mpr hsame
    have hold : h.counts[(cellOf v).val]? = some (h.counts.get (cellOf v)) :=
      Vector.getElem?_eq_getElem (cellOf v).isLt
    rw [if_pos hpos, if_pos hsame, ← hpos, hold]
    rfl
  · rw [if_neg (mt (cellOf_eq_iff hc).mp hsame), if_neg hsame, UInt64.add_zero]

theorem recordAll_concat (values : List UInt64) (v : UInt64) :
    recordAll (values ++ [v]) = (recordAll values).record v := by
  rw [recordAll, List.foldl_append]
  rfl

theorem recordAll_cell (values : List UInt64) {c : ℕ × ℕ} (hc : c ∈ cells) :
    (recordAll values).cell c = UInt64.ofNat ((values.map bucketIndex).count c) := by
  induction values using List.reverseRecOn with
  | nil =>
    rw [cell, recordAll, List.foldl_nil, new, Vector.getElem?_replicate]
    split_ifs <;> rfl
  | append_singleton values v ih =>
    rw [recordAll_concat, cell_record _ _ hc, ih, List.map_append, List.count_append, UInt64.ofNat_add]
    congr 1
    rw [List.map_singleton, List.count_singleton]
    by_cases hsame : bucketIndex v = c
    · simp [hsame]
    · simp [hsame]

theorem recordAll_count (values : List UInt64) : (recordAll values).count = UInt64.ofNat values.length := by
  induction values using List.reverseRecOn with
  | nil => rfl
  | append_singleton values v ih =>
    rw [recordAll_concat, List.length_append, UInt64.ofNat_add, ← ih]
    rfl

/-- As long as the running count does not wrap, the loops look for the first cell that reaches the target. -/
theorem scan_eq_reach (h : Histogram) (target running : UInt64) (cs : List (ℕ × ℕ))
    (hfit : running.toNat + (cs.map (fun c => (h.cell c).toNat)).sum < 2 ^ 64) :
    h.scan target running cs =
      (reach (fun c => (h.cell c).toNat) target.toNat running.toNat cs).map (fun c => bucketLowerBound c.1 c.2) := by
  induction cs generalizing running with
  | nil => rfl
  | cons c cs ih =>
    obtain ⟨b, s⟩ := c
    rw [List.map_cons, List.sum_cons] at hfit
    have hsum : (running + h.cell (b, s)).toNat = running.toNat + (h.cell (b, s)).toNat := by
      rw [UInt64.toNat_add, Nat.mod_eq_of_lt (by omega)]
    have hnext := ih (running + h.cell (b, s)) (by rw [hsum]; omega)
    rw [scan, reach]
    change (if target ≤ running + h.cell (b, s) then _ else h.scan target (running + h.cell (b, s)) cs) = _
    rw [hnext, hsum]
    have hle : target ≤ running + h.cell (b, s) ↔ target.toNat ≤ running.toNat + (h.cell (b, s)).toNat := by
      rw [UInt64.le_iff_toNat_le, hsum]
    by_cases hhere : target ≤ running + h.cell (b, s)
    · rw [if_pos hhere, if_pos (hle.mp hhere)]
      rfl
    · rw [if_neg hhere, if_neg (mt hle.mpr hhere)]

/-- The weights of the cells are the numbers of values in them. -/
theorem cell_toNat {values : List UInt64} (hlen : values.length < 2 ^ 64) {c : ℕ × ℕ} (hc : c ∈ cells) :
    ((recordAll values).cell c).toNat = (values.map bucketIndex).count c := by
  have hle : (values.map bucketIndex).count c ≤ values.length :=
    List.count_le_length.trans (List.length_map bucketIndex).le
  rw [recordAll_cell values hc, UInt64.toNat_ofNat', Nat.mod_eq_of_lt (by omega)]

/-- Together the cells hold all values. -/
theorem sum_cells {values : List UInt64} (hlen : values.length < 2 ^ 64) :
    (cells.map (fun c => ((recordAll values).cell c).toNat)).sum = values.length := by
  have hall : ∀ c ∈ values.map bucketIndex, c ∈ cells := by
    intro c hc
    obtain ⟨v, -, rfl⟩ := List.mem_map.mp hc
    exact mem_cells.mpr (bucketIndex_lt v)
  have hcounts : cells.map (fun c => ((recordAll values).cell c).toNat) =
      cells.map (fun c => (values.map bucketIndex).count c) :=
    List.map_congr_left (fun c hc => cell_toNat hlen hc)
  calc _ = (cells.map (fun c => (values.map bucketIndex).count c)).sum := congrArg List.sum hcounts
    _ = (values.map bucketIndex).length := sum_map_count nodup_cells hall
    _ = values.length := List.length_map bucketIndex

/-- The target of a percentile: so many values lie in the cells up to the answer. -/
def targetOf (values : List UInt64) (p : ℚ) : ℕ := ⌊p * values.length⌋₊

section Percentile
variable {values : List UInt64} {p : ℚ}

theorem targetOf_le (hp : p ≤ 1) : targetOf values p ≤ values.length := by
  refine Nat.floor_le_of_le ?_
  exact mul_le_of_le_one_left (Nat.cast_nonneg _) hp

/-- The answer is the lower bound of the cell where the target is reached. -/
theorem percentile_eq (hne : values ≠ []) (hlen : values.length < 2 ^ 64) (h0 : 0 ≤ p) (h1 : p ≤ 1) :
    ∃ c ∈ cells, reach (fun c => ((recordAll values).cell c).toNat) (targetOf values p) 0 cells = some c ∧
      (recordAll values).percentile p = bucketLowerBound c.1 c.2 := by
  have hcount : (recordAll values).count.toNat = values.length := by
    rw [recordAll_count, UInt64.toNat_ofNat', Nat.mod_eq_of_lt hlen]
  have hsome : (recordAll values).count ≠ 0 := fun hz => by
    rw [hz] at hcount
    exact hne (List.length_eq_zero_iff.mp hcount.symm)
  have htarget : (UInt64.ofNat (targetOf values p)).toNat = targetOf values p := by
    rw [UInt64.toNat_ofNat', Nat.mod_eq_of_lt ((targetOf_le h1).trans_lt hlen)]
  have hsum := sum_cells hlen
  have htotal : targetOf values p ≤ 0 + (cells.map (fun c => ((recordAll values).cell c).toNat)).sum := by
    rw [hsum, Nat.zero_add]
    exact targetOf_le h1
  obtain ⟨c, hreach⟩ := reach_isSome (by decide : cells ≠ []) htotal
  refine ⟨c, mem_of_reach hreach, hreach, ?_⟩
  have hscan := scan_eq_reach (recordAll values) (UInt64.ofNat (targetOf values p)) 0 cells
    (by rw [hsum]; exact (Nat.zero_add _).trans_lt hlen)
  have hzero : (0 : UInt64).toNat = 0 := rfl
  rw [htarget, hzero, hreach, Option.map_some] at hscan
  rw [percentile, if_neg hsome]
  dsimp only
  rw [if_neg (not_lt.mpr h0), if_neg (not_lt.mpr h1), hcount]
  rw [targetOf] at hscan
  rw [hscan, Option.getD_some]

/-- A positive target is reached where a value has been recorded. -/
theorem percentile_recorded (hne : values ≠ []) (hlen : values.length < 2 ^ 64) (h0 : 0 ≤ p) (h1 : p ≤ 1)
    (htarget : 0 < targetOf values p) : ∃ v ∈ values, (recordAll values).percentile p = representative v := by
  obtain ⟨c, hc, hreach, hans⟩ := percentile_eq hne hlen h0 h1
  have hpos := weight_pos_of_reach htarget hreach
  rw [cell_toNat hlen hc] at hpos
  obtain ⟨v, hv, rfl⟩ := List.mem_map.mp (List.count_pos_iff.mp hpos)
  exact ⟨v, hv, hans⟩

/-- A target of zero is reached at the first cell. -/
theorem percentile_low (hne : values ≠ []) (hlen : values.length < 2 ^ 64) (h0 : 0 ≤ p) (h1 : p ≤ 1)
    (htarget : targetOf values p = 0) : (recordAll values).percentile p = 1 := by
  obtain ⟨c, -, hreach, hans⟩ := percentile_eq hne hlen h0 h1
  obtain ⟨rest, hcells⟩ : ∃ rest, cells = (0, 0) :: rest := ⟨_, rfl⟩
  rw [htarget, hcells, reach_of_le (Nat.le_refl 0)] at hreach
  cases hreach
  exact hans

theorem percentile_mono (hne : values ≠ []) (hlen : values.length < 2 ^ 64) (h0 : 0 ≤ p) {q : ℚ} (hpq : p ≤ q)
    (h1 : q ≤ 1) : (recordAll values).percentile p ≤ (recordAll values).percentile q := by
  obtain ⟨c, hc, hreach, hp⟩ := percentile_eq hne hlen h0 (hpq.trans h1)
  obtain ⟨d, hd, hreach', hq⟩ := percentile_eq hne hlen (h0.trans hpq) h1
  have htarget : targetOf values p ≤ targetOf values q :=
    Nat.floor_mono (mul_le_mul_of_nonneg_right hpq (Nat.cast_nonneg _))
  have hpos := reach_mono (r := fun c d => position kSubBuckets c ≤ position kSubBuckets d) (fun c => Nat.le_refl _)
    (pairwise_cells.imp Nat.le_of_lt) htarget hreach hreach'
  rw [hp, hq]
  exact bucketLowerBound_mono (mem_cells.mp hc) (mem_cells.mp hd) hpos

/-- The first cell holds 0 and 1, and 64 from the seam. -/
theorem representative_eq_one_iff {v : UInt64} : representative v = 1 ↔ v ≤ 1 ∨ v = 64 := by
  have hrange := @keepTop_range v.toNat
  rw [← UInt64.toNat_inj, UInt64.le_iff_toNat_le, ← UInt64.toNat_inj, representative_toNat]
  have hone : (1 : UInt64).toNat = 1 := rfl
  have hsixtyfour : (64 : UInt64).toNat = 64 := rfl
  rw [hone, hsixtyfour]
  split_ifs <;> omega

theorem targetOf_pos_iff : 0 < targetOf values p ↔ 1 ≤ p * values.length := Nat.floor_pos

end Percentile

/-- A percentile is a bucket with a recorded value, and percentiles are in order, exactly when its
target is positive or the first cell holds a recorded value. -/
theorem percentile_recorded_iff (values : List UInt64) (hne : values ≠ []) (hlen : values.length < 2 ^ 64) (p : ℚ)
    (h0 : 0 ≤ p) (h1 : p ≤ 1) :
    ((∃ v ∈ values, (recordAll values).percentile p = bucketLowerBound (bucketIndex v).1 (bucketIndex v).2) ∧
      ∀ q, p ≤ q → q ≤ 1 → (recordAll values).percentile p ≤ (recordAll values).percentile q) ↔
    1 ≤ p * values.length ∨ ∃ v ∈ values, v ≤ 1 ∨ v = 64 := by
  rw [and_iff_left (fun q hpq hq => percentile_mono hne hlen h0 hpq hq), ← targetOf_pos_iff]
  change (∃ v ∈ values, (recordAll values).percentile p = representative v) ↔ _
  by_cases htarget : 0 < targetOf values p
  · exact iff_of_true (percentile_recorded hne hlen h0 h1 htarget) (Or.inl htarget)
  · rw [percentile_low hne hlen h0 h1 (Nat.eq_zero_of_not_pos htarget), or_iff_right htarget]
    refine exists_congr (fun v => and_congr_right (fun _ => ?_))
    rw [eq_comm, representative_eq_one_iff]

/-- The median of two values. -/
theorem percentile_recorded_median :
    (∃ v ∈ [(5 : UInt64), 1000], (recordAll [5, 1000]).percentile (1 / 2) =
      bucketLowerBound (bucketIndex v).1 (bucketIndex v).2) ∧
    ∀ q, 1 / 2 ≤ q → q ≤ 1 → (recordAll [5, 1000]).percentile (1 / 2) ≤ (recordAll [5, 1000]).percentile q :=
  (percentile_recorded_iff [5, 1000] (by simp) (by simp) (1 / 2) (by norm_num) (by norm_num)).mpr
    (Or.inl (by norm_num))

/-- The lowest percentile of the one value 5. -/
theorem percentile_zero_unrecorded : ¬ ∀ (values : List UInt64) (p q : ℚ), values ≠ [] → values.length < 2 ^ 64 →
    0 ≤ p → p ≤ q → q ≤ 1 →
      (∃ v ∈ values, (recordAll values).percentile p = bucketLowerBound (bucketIndex v).1 (bucketIndex v).2) ∧
        (recordAll values).percentile p ≤ (recordAll values).percentile q := by
  intro h
  obtain ⟨v, hv, hans⟩ := (h [5] 0 1 (by simp) (by simp) le_rfl zero_le_one le_rfl).1
  rw [percentile_low (by simp) (by simp) le_rfl zero_le_one (by simp [targetOf])] at hans
  obtain rfl := List.mem_singleton.mp hv
  exact absurd hans (by decide)

end Histogram

end MdfeedItch
