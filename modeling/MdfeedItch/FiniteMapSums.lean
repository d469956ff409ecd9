import Mathlib.Algebra.BigOperators.Group.Finset.Basic
import Mathlib.Algebra.Order.BigOperators.Group.Finset
import Mathlib.Algebra.Order.Ring.Nat
import Mathlib.Data.List.Sort

/-! # Sums over the values of a finite map

A value-weighted sum of an extensional tree map is the sum of the weights found
by lookup, over any finite set that contains the keys. Hence it depends on the
lookups only, and one insertion or removal moves it by one weight. -/
namespace MdfeedItch.FiniteMapSums
open Std

variable {K V W : Type*} {cmp : K → K → Ordering} {cmp' : K → K → Ordering}
variable [TransCmp cmp] [LawfulEqCmp cmp] [TransCmp cmp'] [LawfulEqCmp cmp']

theorem lookup_insert [DecidableEq K] (m : ExtTreeMap K V cmp) (k x : K) (v : V) :
    (m.insert k v)[x]? = if x = k then some v else m[x]? := by
  by_cases h : x = k
  · subst h; simp
  · have hk : ¬ k = x := fun he => h he.symm
    simp [ExtTreeMap.getElem?_insert, h, hk]

theorem lookup_erase [DecidableEq K] (m : ExtTreeMap K V cmp) (k x : K) :
    (m.erase k)[x]? = if x = k then none else m[x]? := by
  by_cases h : x = k
  · subst h; simp
  · have hk : ¬ k = x := fun he => h he.symm
    simp [ExtTreeMap.getElem?_erase, h, hk]

/-- Storing a value under its key changes nothing exactly when it is there. -/
theorem insert_eq_self_iff [DecidableEq K] {m : ExtTreeMap K V cmp} {k : K} {v : V} :
    m.insert k v = m ↔ m[k]? = some v := by
  constructor
  · intro h
    rw [← h, lookup_insert, if_pos rfl]
  · intro h
    apply ExtTreeMap.ext_getElem?
    intro x
    rw [lookup_insert]
    split_ifs with hx
    · rw [hx, h]
    · rfl

/-- An entry that is replaced need not be kept. -/
theorem insert_of_agree [DecidableEq K] {m m' : ExtTreeMap K V cmp} {k : K} (v : V)
    (h : ∀ x, x ≠ k → m'[x]? = m[x]?) : m'.insert k v = m.insert k v := by
  apply ExtTreeMap.ext_getElem?
  intro x
  rw [lookup_insert, lookup_insert]
  split_ifs with hx
  · rfl
  · exact h x hx

theorem lookup_insertIfNew [DecidableEq K] (m : ExtTreeMap K V cmp) (k x : K) (v : V) :
    (m.insertIfNew k v)[x]? = if x = k ∧ m[k]? = none then some v else m[x]? := by
  have hmem : cmp k x = .eq ∧ ¬ k ∈ m ↔ x = k ∧ m[k]? = none := by
    rw [ExtTreeMap.mem_iff_isSome_getElem?, Option.not_isSome_iff_eq_none, LawfulEqCmp.compare_eq_iff_eq, eq_comm]
  rw [ExtTreeMap.getElem?_insertIfNew]
  exact if_congr hmem rfl rfl

/-- Insertion of a list of entries, where equal keys come with equal values. -/
theorem lookup_foldl_insert [DecidableEq K] {R : Type*} (m : ExtTreeMap K V cmp) (k : R → K) (v : R → V) (x : K) (y : V) {rs : List R}
    (hv : ∀ r ∈ rs, ∀ r' ∈ rs, k r = k r' → v r = v r') :
    (rs.foldl (fun m r => m.insert (k r) (v r)) m)[x]? = some y ↔
      (∃ r ∈ rs, k r = x ∧ v r = y) ∨ (∀ r ∈ rs, k r ≠ x) ∧ m[x]? = some y := by
  induction rs using List.reverseRecOn with
  | nil => simp
  | append_singleton rs r ih =>
    have hrest : ∀ a ∈ rs, ∀ b ∈ rs, k a = k b → v a = v b := fun a ha b hb => hv a (by simp [ha]) b (by simp [hb])
    rw [List.foldl_append, List.foldl_cons, List.foldl_nil, lookup_insert]
    by_cases hx : x = k r
    · rw [if_pos hx, Option.some_inj]
      constructor
      · intro hy
        exact Or.inl ⟨r, by simp, hx.symm, hy⟩
      · rintro (⟨a, ha, hax, hay⟩ | ⟨hnone, -⟩)
        · rw [← hay]
          exact hv r (by simp) a ha (hx.symm.trans hax.symm)
        · exact absurd hx.symm (hnone r (by simp))
    · rw [if_neg hx, ih hrest]
      simp only [List.mem_append, List.mem_singleton, or_and_right, exists_or, or_imp, forall_and, exists_eq_left, forall_eq]
      simp [Ne.symm hx]

/-- The sum of the weights of all values in the map. -/
def sumOver (m : ExtTreeMap K V cmp) (f : V → ℕ) : ℕ := (m.toList.map (fun e => f e.2)).sum

/-- The weight found at a key; an absent key weighs nothing. -/
def weightAt (m : ExtTreeMap K V cmp) (f : V → ℕ) (k : K) : ℕ := (m[k]?).elim 0 f

omit [LawfulEqCmp cmp] in
theorem weightAt_some {m : ExtTreeMap K V cmp} {k : K} {v : V} (h : m[k]? = some v) (f : V → ℕ) :
    weightAt m f k = f v := by simp [weightAt, h]

omit [LawfulEqCmp cmp] in
theorem weightAt_none {m : ExtTreeMap K V cmp} {k : K} (h : m[k]? = none) (f : V → ℕ) :
    weightAt m f k = 0 := by simp [weightAt, h]

theorem weightAt_insert (m : ExtTreeMap K V cmp) (f : V → ℕ) [DecidableEq K] (k x : K) (v : V) :
    weightAt (m.insert k v) f x = if x = k then f v else weightAt m f x := by
  rw [weightAt, lookup_insert]
  split_ifs <;> rfl

theorem weightAt_erase (m : ExtTreeMap K V cmp) (f : V → ℕ) [DecidableEq K] (k x : K) :
    weightAt (m.erase k) f x = if x = k then 0 else weightAt m f x := by
  rw [weightAt, lookup_erase]
  split_ifs <;> rfl

/-- Any finite set containing the keys computes the sum from the lookups. -/
theorem sumOver_eq_sum_weightAt [DecidableEq K] (m : ExtTreeMap K V cmp) (f : V → ℕ) (s : Finset K)
    (hs : ∀ k v, m[k]? = some v → k ∈ s) : sumOver m f = ∑ k ∈ s, weightAt m f k := by
  have hlookup : m.toList.map (fun e => f e.2) = m.keys.map (weightAt m f) := by
    rw [← ExtTreeMap.map_fst_toList_eq_keys, List.map_map]
    apply List.map_congr_left
    intro e he
    exact (weightAt_some (ExtTreeMap.mem_toList_iff_getElem?_eq_some.mp he) f).symm
  have hsub : m.keys.toFinset ⊆ s := by
    intro k hk
    have hm : k ∈ m := ExtTreeMap.mem_keys.mp (List.mem_toFinset.mp hk)
    exact hs k m[k] (ExtTreeMap.getElem?_eq_some_getElem hm)
  rw [sumOver, hlookup, ← List.sum_toFinset _ ExtTreeMap.nodup_keys]
  apply Finset.sum_subset hsub
  intro k _ hk
  have hm : k ∉ m := fun hm => hk (List.mem_toFinset.mpr (ExtTreeMap.mem_keys.mpr hm))
  exact weightAt_none (ExtTreeMap.getElem?_eq_none hm) f

private theorem mem_keyset [DecidableEq K] {m : ExtTreeMap K V cmp} {k : K} {v : V}
    (h : m[k]? = some v) : k ∈ m.keys.toFinset := by
  have hm : k ∈ m := ExtTreeMap.mem_iff_isSome_getElem?.mpr (by simp [h])
  exact List.mem_toFinset.mpr (ExtTreeMap.mem_keys.mpr hm)

/-- Two maps whose weights agree key by key have the same sum, whatever their values are. -/
theorem sumOver_congr [DecidableEq K] (m : ExtTreeMap K V cmp) (m' : ExtTreeMap K W cmp')
    (f : V → ℕ) (g : W → ℕ) (h : ∀ k, weightAt m f k = weightAt m' g k) :
    sumOver m f = sumOver m' g := by
  let s := m.keys.toFinset ∪ m'.keys.toFinset
  rw [sumOver_eq_sum_weightAt m f s (fun k v hk => Finset.mem_union_left _ (mem_keyset hk)),
    sumOver_eq_sum_weightAt m' g s (fun k v hk => Finset.mem_union_right _ (mem_keyset hk))]
  exact Finset.sum_congr rfl (fun k _ => h k)

/-- Rewriting one key moves the sum by the difference of the two weights there. -/
theorem sumOver_update [DecidableEq K] (m : ExtTreeMap K V cmp) (m' : ExtTreeMap K W cmp')
    (f : V → ℕ) (g : W → ℕ) (k : K) (h : ∀ x, x ≠ k → weightAt m f x = weightAt m' g x) :
    sumOver m f + weightAt m' g k = sumOver m' g + weightAt m f k := by
  let s := insert k (m.keys.toFinset ∪ m'.keys.toFinset)
  have hm : ∀ x v, m[x]? = some v → x ∈ s := fun x v hx =>
    Finset.mem_insert_of_mem (Finset.mem_union_left _ (mem_keyset hx))
  have hm' : ∀ x v, m'[x]? = some v → x ∈ s := fun x v hx =>
    Finset.mem_insert_of_mem (Finset.mem_union_right _ (mem_keyset hx))
  have hk : k ∈ s := Finset.mem_insert_self k _
  have hrest : ∑ x ∈ s.erase k, weightAt m f x = ∑ x ∈ s.erase k, weightAt m' g x :=
    Finset.sum_congr rfl (fun x hx => h x (Finset.ne_of_mem_erase hx))
  rw [sumOver_eq_sum_weightAt m f s hm, sumOver_eq_sum_weightAt m' g s hm',
    ← Finset.add_sum_erase s _ hk, ← Finset.add_sum_erase s (weightAt m' g) hk, hrest]
  omega

theorem sumOver_insert [DecidableEq K] (m : ExtTreeMap K V cmp) (f : V → ℕ) (k : K) (v : V) :
    sumOver (m.insert k v) f + weightAt m f k = sumOver m f + f v := by
  have h := sumOver_update (m.insert k v) m f f k (fun x hx => by simp [weightAt_insert, hx])
  rwa [weightAt_insert, if_pos rfl] at h

theorem sumOver_erase [DecidableEq K] (m : ExtTreeMap K V cmp) (f : V → ℕ) (k : K) :
    sumOver (m.erase k) f + weightAt m f k = sumOver m f := by
  have h := sumOver_update (m.erase k) m f f k (fun x hx => by simp [weightAt_erase, hx])
  rwa [weightAt_erase, if_pos rfl, Nat.add_zero] at h

omit [LawfulEqCmp cmp] in
@[simp] theorem sumOver_empty (f : V → ℕ) : sumOver (∅ : ExtTreeMap K V cmp) f = 0 := by
  have h : (∅ : ExtTreeMap K V cmp).toList = [] := ExtTreeMap.toList_eq_nil_iff.mpr rfl
  simp [sumOver, h]

theorem weightAt_le_sumOver [DecidableEq K] (m : ExtTreeMap K V cmp) (f : V → ℕ) (k : K) :
    weightAt m f k ≤ sumOver m f := by
  have h := sumOver_erase m f k
  omega

theorem le_sumOver [DecidableEq K] {m : ExtTreeMap K V cmp} {k : K} {v : V} (h : m[k]? = some v)
    (f : V → ℕ) : f v ≤ sumOver m f := weightAt_some h f ▸ weightAt_le_sumOver m f k

/-- Weights that balance key by key have balanced sums. -/
theorem sumOver_balance [DecidableEq K] (m n m' n' : ExtTreeMap K V cmp) (f : V → ℕ)
    (h : ∀ k, weightAt m f k + weightAt n f k = weightAt m' f k + weightAt n' f k) :
    sumOver m f + sumOver n f = sumOver m' f + sumOver n' f := by
  let s := (m.keys.toFinset ∪ n.keys.toFinset) ∪ (m'.keys.toFinset ∪ n'.keys.toFinset)
  rw [sumOver_eq_sum_weightAt m f s (fun k v hk => Finset.mem_union_left _ (Finset.mem_union_left _ (mem_keyset hk))),
    sumOver_eq_sum_weightAt n f s (fun k v hk => Finset.mem_union_left _ (Finset.mem_union_right _ (mem_keyset hk))),
    sumOver_eq_sum_weightAt m' f s (fun k v hk => Finset.mem_union_right _ (Finset.mem_union_left _ (mem_keyset hk))),
    sumOver_eq_sum_weightAt n' f s (fun k v hk => Finset.mem_union_right _ (Finset.mem_union_right _ (mem_keyset hk))),
    ← Finset.sum_add_distrib, ← Finset.sum_add_distrib]
  exact Finset.sum_congr rfl (fun k _ => h k)

omit [LawfulEqCmp cmp] in
/-- Sums over one map can be taken in any order. -/
theorem sumOver_sum {ι : Type*} (m : ExtTreeMap K V cmp) (is : List ι) (f : ι → V → ℕ) :
    (is.map (fun i => sumOver m (f i))).sum = sumOver m (fun v => (is.map (fun i => f i v)).sum) := by
  induction is with
  | nil => simp [sumOver]
  | cons i is ih =>
    rw [List.map_cons, List.sum_cons, ih]
    exact List.sum_map_add.symm

omit [LawfulEqCmp cmp] in
/-- Weights of at most one add up to at most the number of keys. -/
theorem sumOver_le_length (m : ExtTreeMap K V cmp) (f : V → ℕ) (h : ∀ v, f v ≤ 1) : sumOver m f ≤ m.keys.length := by
  have hsum : sumOver m f ≤ (m.toList.map (fun _ => 1)).sum := List.sum_le_sum (fun e _ => h e.2)
  have hlen : (m.toList.map (fun _ => 1)).sum = m.keys.length := by
    rw [← ExtTreeMap.map_fst_toList_eq_keys, List.length_map, List.map_const', List.sum_replicate]
    exact Nat.mul_one _
  exact hsum.trans_eq hlen

/-- A sum is positive exactly when some value in the map has a positive weight. -/
theorem sumOver_pos_iff [DecidableEq K] (m : ExtTreeMap K V cmp) (f : V → ℕ) :
    0 < sumOver m f ↔ ∃ (k : K) (v : V), m[k]? = some v ∧ 0 < f v := by
  constructor
  · intro h
    by_contra hno
    have hzero : sumOver m f = 0 := by
      refine List.sum_eq_zero ?_
      intro n hn
      obtain ⟨e, he, rfl⟩ := List.mem_map.mp hn
      have hv := ExtTreeMap.mem_toList_iff_getElem?_eq_some.mp he
      by_contra hne
      exact hno ⟨e.1, e.2, hv, Nat.pos_of_ne_zero hne⟩
    omega
  · rintro ⟨k, v, hv, hf⟩
    exact hf.trans_le (le_sumOver hv f)

end MdfeedItch.FiniteMapSums
