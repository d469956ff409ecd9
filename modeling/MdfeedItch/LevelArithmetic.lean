import MdfeedItch.SymbolBookAggregation

/-! # When the 32-bit level totals lose a level

The new total of a level is computed in 64 bits and stored in 32. The ladders
therefore carry the sums modulo `2 ^ 32`, and a level disappears or shows zero
shares exactly when a withdrawal or a visible level meets a multiple of `2 ^ 32`. -/
namespace MdfeedItch
open Std FiniteMapSums

/-- `invariants_ok()` holds and every price with live orders has a level counting them. -/
def SymbolBook.LevelsKept (b : SymbolBook) : Prop :=
  b.invariantsOk = true ∧ ∀ buy p, 0 < levelCount b.orders buy p →
    ∃ lvl, b.level buy p = some lvl ∧ lvl.orderCount.toNat = levelCount b.orders buy p

/-- A price is among the `depth` best prices with live orders. -/
def Visible (depth : ℕ) (t : OrderTable) (buy : Bool) (p : Price) : Prop :=
  ∃ prices : List Price, prices.Pairwise (Better buy) ∧ (∀ q, q ∈ prices ↔ 0 < levelCount t buy q) ∧
    p ∈ prices.take depth

/-- The reference map of a sequence of calls never meets a multiple of `2 ^ 32`:
not as the number of orders at a price, not as the shares of a visible price, and
not between the shares at a price before and after a withdrawal that leaves
orders there. -/
structure WrapFree (depth : ℕ) (ops : List BookOp) : Prop where
  counts : ∀ pre, pre <+: ops → CountsFit (OrderTable.stepAll pre)
  visible : ∀ pre, pre <+: ops → ∀ buy p, Visible depth (OrderTable.stepAll pre) buy p →
    levelQty (OrderTable.stepAll pre) buy p % 2 ^ 32 ≠ 0
  withdrawals : ∀ pre op, pre ++ [op] <+: ops →
    KeepsLevels (OrderTable.stepAll pre) ((OrderTable.stepAll pre).withdraw op)

namespace SymbolBook
open OrderTable

theorem execAll_concat (depth : ℕ) (ops : List BookOp) (op : BookOp) :
    execAll depth (ops ++ [op]) = (execAll depth ops).exec op := by simp [execAll]

theorem stepAll_concat (ops : List BookOp) (op : BookOp) : stepAll (ops ++ [op]) = (stepAll ops).step op := by
  simp [stepAll]

theorem execAll_orders (depth : ℕ) (ops : List BookOp) :
    (execAll depth ops).orders = stepAll ops ∧ (stepAll ops).QtyPos := by
  induction ops using List.reverseRecOn with
  | nil => exact ⟨rfl, (new_aggregated depth).qtyPos⟩
  | append_singleton ops op ih =>
    obtain ⟨ho, hpos⟩ := ih
    rw [execAll_concat, stepAll_concat]
    refine ⟨?_, hpos.step op⟩
    rw [← ho]
    exact exec_orders (ho ▸ hpos) op

theorem execAll_depth (depth : ℕ) (ops : List BookOp) : (execAll depth ops).depth = depth := by
  induction ops using List.reverseRecOn with
  | nil => rfl
  | append_singleton ops op ih => rw [execAll_concat, exec_depth, ih]

private theorem toNat_ofNat_ne_zero {n : ℕ} : UInt32.ofNat n ≠ 0 ↔ n % 2 ^ 32 ≠ 0 := by
  rw [Ne, ← UInt32.toNat_inj, UInt32.toNat_ofNat']
  rfl

/-- `invariants_ok()` read side by side. -/
theorem invariantsOk_iff (b : SymbolBook) : b.invariantsOk = true ↔
    ∀ buy, (b.top buy).length ≤ b.depth ∧ (b.top buy).IsChain (fun l r => Better buy l.price r.price) ∧
      ∀ lvl ∈ b.top buy, lvl.orderCount ≠ 0 ∧ lvl.totalQty ≠ 0 := by
  simp only [invariantsOk, Bool.and_eq_true, decide_eq_true_eq, List.all_eq_true, Bool.forall_bool, top,
    Better, Bool.false_eq_true, if_false, if_true, gt_iff_lt]
  tauto

/-- In a book whose ladders carry the sums, levels are kept exactly when no counter
and no visible total is a multiple of `2 ^ 32`. -/
theorem Aggregated.levelsKept_iff {b : SymbolBook} (h : b.Aggregated) : b.LevelsKept ↔
    CountsFit b.orders ∧ ∀ buy p, Visible b.depth b.orders buy p → levelQty b.orders buy p % 2 ^ 32 ≠ 0 := by
  constructor
  · rintro ⟨hok, hlevels⟩
    refine ⟨?_, ?_⟩
    · intro buy p
      rcases Nat.eq_zero_or_pos (levelCount b.orders buy p) with hz | hlive
      · omega
      · obtain ⟨prices, _, _, _, hlevel⟩ := h.carries.side buy
        obtain ⟨lvl, hlvl, hcount⟩ := hlevels buy p hlive
        rw [hlevel p, if_neg (Nat.pos_iff_ne_zero.mp hlive)] at hlvl
        cases hlvl
        rw [← hcount]
        exact UInt32.toNat_lt _
    · rintro buy p ⟨prices, hsort, hmem, hp⟩
      obtain ⟨prices', hsort', hmem', htop, _⟩ := h.carries.side buy
      have heq : prices = prices' := hsort.eq_of_mem_iff hsort' (fun q => (hmem q).trans (hmem' q).symm)
      subst heq
      have hshown := ((invariantsOk_iff b).mp hok buy).2.2 (levelFor (levelQty b.orders buy)
        (levelCount b.orders buy) p) (by rw [htop]; exact List.mem_map_of_mem hp)
      exact toNat_ofNat_ne_zero.mp hshown.2
  · rintro ⟨hfit, hvis⟩
    refine ⟨(invariantsOk_iff b).mpr ?_, ?_⟩
    · intro buy
      obtain ⟨prices, hsort, hmem, htop, _⟩ := h.carries.side buy
      rw [htop]
      refine ⟨by simp, ?_, ?_⟩
      · rw [List.isChain_map]
        exact (hsort.sublist (List.take_sublist _ _)).isChain
      · intro lvl hlvl
        obtain ⟨p, hp, rfl⟩ := List.mem_map.mp hlvl
        have hlive := (hmem p).mp (List.mem_of_mem_take hp)
        have hlt := hfit buy p
        exact ⟨toNat_ofNat_ne_zero.mpr (by omega), toNat_ofNat_ne_zero.mpr (hvis buy p ⟨prices, hsort, hmem, hp⟩)⟩
    · intro buy p hlive
      obtain ⟨_, _, _, _, hlevel⟩ := h.carries.side buy
      refine ⟨_, (hlevel p).trans (if_neg (Nat.pos_iff_ne_zero.mp hlive)), ?_⟩
      exact UInt32.toNat_ofNat_of_lt' (hfit buy p)

/-- Live orders rest at a price that has no level. -/
def LosesLevel (b : SymbolBook) : Prop := ∃ buy p, 0 < levelCount b.orders buy p ∧ b.level buy p = none

theorem LosesLevel.not_kept {b : SymbolBook} (h : b.LosesLevel) : ¬ b.LevelsKept := by
  rintro ⟨_, hlevels⟩
  obtain ⟨buy, p, hlive, hnone⟩ := h
  obtain ⟨lvl, hlvl, _⟩ := hlevels buy p hlive
  simp [hnone] at hlvl

private theorem levelDelta_other {cmp : Price → Price → Ordering} [TransCmp cmp] [LawfulEqCmp cmp]
    {levels levels' : ExtTreeMap Price PriceLevel cmp} {price p : Price} {dq dc : ℤ}
    (h : levelDelta levels price dq dc = some levels') (hp : p ≠ price) : levels'[p]? = levels[p]? := by
  unfold levelDelta at h
  split at h
  · split_ifs at h
    cases h
    rw [lookup_insert, if_neg hp]
  · dsimp only at h
    split_ifs at h
    · cases h
      rw [lookup_erase, if_neg hp]
    · cases h
      rw [lookup_insert, if_neg hp]

/-- A delta leaves the levels of every other price and of the other side alone. -/
theorem applyLevelDelta_level_other (b : SymbolBook) {side : Side} {price : Price} (dq dc : ℤ)
    {buy : Bool} {p : Price} (h : buy ≠ side.isBuy ∨ p ≠ price) :
    (b.applyLevelDelta side price dq dc).level buy p = b.level buy p := by
  unfold applyLevelDelta
  cases hs : side.isBuy with
  | true =>
    rw [if_pos rfl]
    cases hd : levelDelta b.bidLevels price dq dc with
    | none => rfl
    | some levels =>
      cases buy with
      | false => rfl
      | true => exact levelDelta_other hd (h.resolve_left (by simp [hs]))
  | false =>
    rw [if_neg (by decide)]
    cases hd : levelDelta b.askLevels price dq dc with
    | none => rfl
    | some levels =>
      cases buy with
      | true => rfl
      | false => exact levelDelta_other hd (h.resolve_left (by simp [hs]))

/-- A positive delta at a price without a level counts only itself. -/
theorem applyLevelDelta_level_new {b : SymbolBook} {side : Side} {price : Price} {dq : ℤ} (dc : ℤ)
    (h : b.level side.isBuy price = none) (hpos : 0 < dq) :
    (b.applyLevelDelta side price dq dc).level side.isBuy price =
      some ⟨price, UInt32.ofInt dq, UInt32.ofInt dc⟩ := by
  have hle : ¬ dq ≤ 0 := by omega
  unfold applyLevelDelta
  cases hs : side.isBuy with
  | true =>
    rw [hs] at h
    replace h : b.bidLevels[price]? = none := h
    simp [levelDelta, h, hle, level]
  | false =>
    rw [hs] at h
    replace h : b.askLevels[price]? = none := h
    simp [levelDelta, h, hle, level]

/-- A withdrawal across a multiple of `2 ^ 32` erases the level it touches. -/
theorem Carries.lost {b : SymbolBook} {old new : OrderTable} {side : Side} {price : Price} {dq dc : ℤ}
    (h : b.Carries old) (hc : LevelChange old new side.isBuy price dq dc)
    (hlive : 0 < levelCount old side.isBuy price) (hcross : ¬ KeepsLevels old new) :
    0 < levelCount new side.isBuy price ∧
      (b.applyLevelDelta side price dq dc).level side.isBuy price = none := by
  unfold KeepsLevels at hcross
  push Not at hcross
  obtain ⟨buy, p, hless, hrest, hcross⟩ := hcross
  have hat : buy = side.isBuy ∧ p = price := by
    by_contra hne
    have := (hc.elsewhere buy p (by tauto)).1
    omega
  obtain ⟨rfl, rfl⟩ := hat
  have hq := hc.qty_at
  rw [show (levelQty new side.isBuy p : ℤ) - levelQty old side.isBuy p = dq by omega] at hcross
  refine ⟨hrest, ?_⟩
  unfold SymbolBook.applyLevelDelta
  have hn := hc.count_at
  cases hs : side.isBuy with
  | true =>
    rw [hs] at hlive hq hn hcross
    rw [if_pos rfl, levelDelta_update h.bids hlive hq hn, if_pos (Or.inl hcross)]
    simp [level]
  | false =>
    rw [hs] at hlive hq hn hcross
    rw [if_neg (by decide), levelDelta_update h.asks hlive hq hn, if_pos (Or.inl hcross)]
    simp [level]

theorem deleteOrder_loses {b : SymbolBook} (h : b.Aggregated) (id : OrderId) (ts : Timestamp)
    (hcross : ¬ KeepsLevels b.orders (b.orders.erase id)) : (b.deleteOrder id ts).2.LosesLevel := by
  cases hid : b.orders[id]? with
  | none =>
    rw [OrderTable.erase_of_none hid] at hcross
    exact absurd (fun _ _ hlt => absurd hlt (lt_irrefl _)) hcross
  | some o =>
    have hb := h.carries.of_eq { b with orders := b.orders.erase id } rfl rfl rfl rfl rfl
    obtain ⟨hlive, hnone⟩ := hb.lost (LevelChange.erase hid) (live_at hid) hcross
    refine ⟨o.side.isBuy, o.price, ?_, ?_⟩
    · rw [deleteOrder_orders]
      exact hlive
    · simp only [deleteOrder, hid]
      exact hnone

theorem modifyOrder_loses {b : SymbolBook} (h : b.Aggregated) (id : OrderId) (newQty : Quantity)
    (ts : Timestamp) (hcross : ¬ KeepsLevels b.orders (b.orders.resize id newQty ts)) :
    (b.modifyOrder id newQty ts).2.LosesLevel := by
  unfold OrderTable.resize at hcross
  cases hid : b.orders[id]? with
  | none =>
    simp only [hid] at hcross
    exact absurd (fun _ _ hlt => absurd hlt (lt_irrefl _)) hcross
  | some o =>
    have hset := LevelChange.set hid newQty ts
    have horders := modifyOrder_orders h.qtyPos id newQty ts
    simp only [OrderTable.resize, hid] at hcross horders
    have hsame : ¬ (newQty.toNat : ℤ) - o.qty.toNat = 0 := by
      intro hsame
      have hpos := h.qtyPos id o hid
      have hne : newQty ≠ 0 := fun hz => by simp [hz] at hsame; omega
      rw [hsame] at hset
      rw [if_neg hne] at hcross
      exact hcross (fun buy p hlt => absurd hlt (by rw [hset.unchanged.1]; exact lt_irrefl _))
    by_cases hz : newQty = 0
    · rw [if_pos hz] at hcross horders
      have hb := h.carries.of_eq { b with orders := b.orders.erase id } rfl rfl rfl rfl rfl
      obtain ⟨hlive, hnone⟩ := hb.lost (LevelChange.erase hid) (live_at hid) hcross
      refine ⟨o.side.isBuy, o.price, by rw [horders]; exact hlive, ?_⟩
      simp only [modifyOrder, hid, if_neg hsame, if_pos hz]
      exact hnone
    · rw [if_neg hz] at hcross horders
      have hb := h.carries.of_eq { b with
        orders := b.orders.insert id ⟨⟨o.side, o.price, newQty⟩, ts⟩ } rfl rfl rfl rfl rfl
      obtain ⟨hlive, hnone⟩ := hb.lost hset (live_at hid) hcross
      refine ⟨o.side.isBuy, o.price, by rw [horders]; exact hlive, ?_⟩
      simp only [modifyOrder, hid, if_neg hsame, if_neg hz]
      exact hnone

/-- An order added afterwards cannot hide the loss: at the lost price it is
counted alone although others rest there. -/
theorem LosesLevel.addOrder {b : SymbolBook} (h : b.LosesLevel) (id : OrderId) (side : Side) (price : Price)
    (qty : Quantity) (ts : Timestamp) : ¬ (b.addOrder id side price qty ts).LevelsKept := by
  obtain ⟨buy, p, hlive, hnone⟩ := h
  unfold SymbolBook.addOrder
  split_ifs with hz
  · exact LosesLevel.not_kept ⟨buy, p, hlive, hnone⟩
  · cases hid : b.orders[id]? with
    | some o => exact LosesLevel.not_kept ⟨buy, p, hlive, hnone⟩
    | none =>
      have hins : LevelChange b.orders (b.orders.insert id ⟨⟨side, price, qty⟩, ts⟩) side.isBuy price qty.toNat 1 :=
        LevelChange.insert hid ⟨⟨side, price, qty⟩, ts⟩
      by_cases hat : buy = side.isBuy ∧ p = price
      · obtain ⟨rfl, rfl⟩ := hat
        rintro ⟨_, hlevels⟩
        rw [applyLevelDelta_orders] at hlevels
        have hcount := hins.count_at
        obtain ⟨lvl, hlvl, hlc⟩ := hlevels side.isBuy p (by dsimp only; omega)
        have hpos : 0 < (qty.toNat : ℤ) := by
          have : qty.toNat ≠ 0 := fun hq => hz (UInt32.toNat_inj.mp hq)
          omega
        have hone : (UInt32.ofInt 1).toNat = 1 := rfl
        have hfresh := applyLevelDelta_level_new (b := { b with
          orders := b.orders.insert id ⟨⟨side, p, qty⟩, ts⟩, lastTs := ts }) 1 hnone hpos
        rw [hfresh] at hlvl
        cases hlvl
        dsimp only at hlc
        omega
      · have hoff : buy ≠ side.isBuy ∨ p ≠ price := by tauto
        refine LosesLevel.not_kept ⟨buy, p, ?_, ?_⟩
        · rw [applyLevelDelta_orders]
          rw [← (hins.elsewhere buy p hoff).2] at hlive
          exact hlive
        · rw [applyLevelDelta_level_other _ _ _ hoff]
          exact hnone

theorem Aggregated.exec_not_kept {b : SymbolBook} (h : b.Aggregated) (op : BookOp)
    (hcross : ¬ KeepsLevels b.orders (b.orders.withdraw op)) : ¬ (b.exec op).LevelsKept := by
  cases op with
  | add id side price qty ts => exact absurd (fun _ _ hlt => absurd hlt (lt_irrefl _)) hcross
  | modify id newQty ts => exact (modifyOrder_loses h id newQty ts hcross).not_kept
  | reduce id delta ts =>
    simp only [OrderTable.withdraw, OrderTable.step] at hcross
    simp only [SymbolBook.exec, reduceOrder]
    cases hid : b.orders[id]? with
    | none =>
      rw [hid] at hcross
      exact absurd (fun _ _ hlt => absurd hlt (lt_irrefl _)) hcross
    | some o =>
      rw [hid] at hcross
      exact (modifyOrder_loses h id _ ts hcross).not_kept
  | delete id ts => exact (deleteOrder_loses h id ts hcross).not_kept
  | replace oldId newId newPrice newQty ts =>
    simp only [SymbolBook.exec, replaceOrder]
    cases hid : b.orders[oldId]? with
    | none =>
      simp only [OrderTable.withdraw, OrderTable.erase_of_none hid] at hcross
      exact absurd (fun _ _ hlt => absurd hlt (lt_irrefl _)) hcross
    | some o =>
      exact (deleteOrder_loses h oldId ts hcross).addOrder newId o.side newPrice newQty ts

/-- A run that keeps its levels, or meets no multiple of `2 ^ 32`, stays aggregated. -/
theorem execAll_aggregated (depth : ℕ) (ops : List BookOp)
    (hfit : ∀ pre op, pre ++ [op] <+: ops → CountsFit (stepAll pre))
    (hkeep : ∀ pre op, pre ++ [op] <+: ops → KeepsLevels (stepAll pre) ((stepAll pre).withdraw op)) :
    (execAll depth ops).Aggregated := by
  induction ops using List.reverseRecOn with
  | nil => exact new_aggregated depth
  | append_singleton ops op ih =>
    have hprev := ih (fun pre o hpre => hfit pre o (hpre.trans (List.prefix_append ops [op])))
      (fun pre o hpre => hkeep pre o (hpre.trans (List.prefix_append ops [op])))
    obtain ⟨horders, _⟩ := execAll_orders depth ops
    rw [execAll_concat]
    refine hprev.exec op ?_ ?_
    · rw [horders]; exact hfit ops op (List.prefix_refl _)
    · rw [horders]; exact hkeep ops op (List.prefix_refl _)

/-- A run whose sums fit in 32 bits stays aggregated. -/
theorem execAll_fits {depth : ℕ} {ops : List BookOp}
    (hsums : ∀ pre, pre <+: ops → ∀ buy p, levelQty (execAll depth pre).orders buy p < 2 ^ 32) :
    (execAll depth ops).Aggregated := by
  have hsmall {pre op} (hpre : pre ++ [op] <+: ops) : ∀ buy p, levelQty (stepAll pre) buy p < 2 ^ 32 := by
    rw [← (execAll_orders depth pre).1]
    exact hsums pre ((List.prefix_append _ _).trans hpre)
  apply execAll_aggregated depth ops
  · intro pre op hpre
    exact CountsFit.of_small (execAll_orders depth pre).2 (hsmall hpre)
  · intro pre op hpre
    exact KeepsLevels.of_small ((execAll_orders depth pre).2.withdraw op) (hsmall hpre)

/-- A run that keeps its levels in every state has met no withdrawal that loses one. -/
theorem withdrawals_of_kept (depth : ℕ) (ops : List BookOp)
    (hkept : ∀ pre, pre <+: ops → (execAll depth pre).LevelsKept) :
    (∀ pre op, pre ++ [op] <+: ops → CountsFit (stepAll pre)) ∧
      ∀ pre op, pre ++ [op] <+: ops → KeepsLevels (stepAll pre) ((stepAll pre).withdraw op) := by
  induction ops using List.reverseRecOn with
  | nil =>
    refine ⟨fun pre op hpre => ?_, fun pre op hpre => ?_⟩
    · simp at hpre
    · simp at hpre
  | append_singleton ops op ih =>
    obtain ⟨hfit, hkeep⟩ := ih (fun pre hpre => hkept pre (hpre.trans (List.prefix_append ops [op])))
    have hagg := execAll_aggregated depth ops hfit hkeep
    obtain ⟨horders, _⟩ := execAll_orders depth ops
    -- the last call is judged in the state the others reach, which still carries the sums
    have hlastFit : CountsFit (stepAll ops) := by
      rw [← horders]
      exact (hagg.levelsKept_iff.mp (hkept ops (List.prefix_append ops [op]))).1
    have hlastKeep : KeepsLevels (stepAll ops) ((stepAll ops).withdraw op) := by
      by_contra hcross
      rw [← horders] at hcross
      have hlast := hkept (ops ++ [op]) (List.prefix_refl _)
      rw [execAll_concat] at hlast
      exact hagg.exec_not_kept op hcross hlast
    refine ⟨fun pre o hpre => ?_, fun pre o hpre => ?_⟩
    · rcases List.prefix_concat_iff.mp hpre with heq | hpre
      · obtain ⟨rfl, -⟩ := List.append_inj' heq rfl
        exact hlastFit
      · exact hfit pre o hpre
    · rcases List.prefix_concat_iff.mp hpre with heq | hpre
      · obtain ⟨rfl, hop⟩ := List.append_inj' heq rfl
        cases hop
        exact hlastKeep
      · exact hkeep pre o hpre

/-- Levels are kept in every state of a run exactly when the sums over its live
orders never meet a multiple of `2 ^ 32`. -/
theorem levelsKept_iff_wrapFree (depth : ℕ) (ops : List BookOp) :
    (∀ pre, pre <+: ops → (execAll depth pre).LevelsKept) ↔ WrapFree depth ops := by
  have here : ∀ pre, (execAll depth pre).Aggregated → ((execAll depth pre).LevelsKept ↔
      CountsFit (stepAll pre) ∧
        ∀ buy p, Visible depth (stepAll pre) buy p → levelQty (stepAll pre) buy p % 2 ^ 32 ≠ 0) := by
    intro pre hagg
    have hiff := hagg.levelsKept_iff
    rwa [(execAll_orders depth pre).1, execAll_depth] at hiff
  have within : ∀ {pre : List BookOp}, pre <+: ops → ∀ {P : List BookOp → BookOp → Prop},
      (∀ pre op, pre ++ [op] <+: ops → P pre op) → ∀ p op, p ++ [op] <+: pre → P p op :=
    fun hpre _ h p op hp => h p op (hp.trans hpre)
  constructor
  · intro hkept
    obtain ⟨hfit, hkeep⟩ := withdrawals_of_kept depth ops hkept
    have hstate : ∀ pre, pre <+: ops → _ := fun pre hpre =>
      (here pre (execAll_aggregated depth pre (within hpre hfit) (within hpre hkeep))).mp (hkept pre hpre)
    exact ⟨fun pre hpre => (hstate pre hpre).1, fun pre hpre => (hstate pre hpre).2, hkeep⟩
  · intro hfree pre hpre
    have hfit : ∀ p op, p ++ [op] <+: ops → CountsFit (stepAll p) := fun p op hp =>
      hfree.counts p ((List.prefix_append p [op]).trans hp)
    have hagg := execAll_aggregated depth pre (within hpre hfit) (within hpre hfree.withdrawals)
    exact (here pre hagg).mpr ⟨hfree.counts pre hpre, hfree.visible pre hpre⟩

/-- Two bids of `2 ^ 32` shares together are shown as a level of zero shares. -/
theorem levels_lost : ∃ depth ops, ¬ ∀ pre, pre <+: ops → (execAll depth pre).LevelsKept := by
  refine ⟨10, [.add 1 Side.buy 100 4294967295 0, .add 2 Side.buy 100 1 0], fun hkept => ?_⟩
  have hok := (hkept _ (List.prefix_refl _)).1
  exact absurd hok (by decide)

end SymbolBook

end MdfeedItch
