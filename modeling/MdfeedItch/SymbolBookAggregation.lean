import MdfeedItch.SymbolBookLevels

/-! # Every call keeps the ladders in step with the live orders

`Aggregated` is the invariant of a `SymbolBook`: both ladders reflect the sums
over the order table and both slices are their first levels. A call keeps it
when fewer than `2 ^ 32` orders rest at a price and the call does not withdraw
shares across a multiple of `2 ^ 32` from a price where others still rest. -/
namespace MdfeedItch
open Std

/-- Best price first: the higher bid, the lower ask. -/
def Better (buy : Bool) (p q : Price) : Prop := if buy then q < p else p < q

theorem Better.irrefl (buy : Bool) (p : Price) : ¬ Better buy p p := by
  cases buy <;> simp [Better]

theorem Better.trans {buy : Bool} {p q r : Price} (h : Better buy p q) (h' : Better buy q r) : Better buy p r := by
  cases buy with
  | false => exact UInt32.lt_trans h h'
  | true => exact UInt32.lt_trans h' h

instance (buy : Bool) : Std.Irrefl (Better buy) := ⟨Better.irrefl buy⟩
instance (buy : Bool) : Std.Asymm (Better buy) := ⟨fun p _ h h' => Better.irrefl buy p (h.trans h')⟩

theorem Better.nodup {buy : Bool} {prices : List Price} (h : prices.Pairwise (Better buy)) : prices.Nodup := by
  refine List.Pairwise.imp ?_ h
  rintro p q hpq rfl
  exact Better.irrefl buy p hpq

/-- A slice shows the first `depth` of the prices with live orders, best price
first, each with the exact number of shares and orders resting there. -/
def ShowsBest (buy : Bool) (depth : ℕ) (qty count : Price → ℕ) (top : List PriceLevel) : Prop :=
  ∃ prices : List Price, prices.Pairwise (Better buy) ∧ (∀ p, p ∈ prices ↔ 0 < count p) ∧
    top.map PriceLevel.price = prices.take depth ∧
    ∀ lvl ∈ top, lvl.totalQty.toNat = qty lvl.price ∧ lvl.orderCount.toNat = count lvl.price

section Ladder
variable {cmp : Price → Price → Ordering} [TransCmp cmp] [LawfulEqCmp cmp]
variable {levels : ExtTreeMap Price PriceLevel cmp} {qty count : Price → ℕ}

omit [LawfulEqCmp cmp] in
theorem Reflects.empty (h : ∀ p, count p = 0) : Reflects (∅ : ExtTreeMap Price PriceLevel cmp) qty count := by
  intro p
  simp [h p]

theorem Reflects.mem_keys (h : Reflects levels qty count) (p : Price) : p ∈ levels.keys ↔ 0 < count p := by
  rw [ExtTreeMap.mem_keys, ExtTreeMap.mem_iff_isSome_getElem?, h p]
  split_ifs with hz
  · simp [hz]
  · simp [Nat.pos_of_ne_zero hz]

/-- A faithful ladder lists, price by price, the level of the sums there. -/
theorem Reflects.topLevels_eq (h : Reflects levels qty count) (depth : ℕ) :
    topLevels levels depth = (levels.keys.take depth).map (levelFor qty count) := by
  have hlist : levels.toList = levels.keys.map (fun p => (p, levelFor qty count p)) := by
    rw [← ExtTreeMap.map_fst_toList_eq_keys, List.map_map]
    refine (List.map_id _).symm.trans (List.map_congr_left ?_)
    intro e he
    have hlvl := ExtTreeMap.mem_toList_iff_getElem?_eq_some.mp he
    rw [h e.1] at hlvl
    split_ifs at hlvl
    exact Prod.ext rfl (Option.some.inj hlvl).symm
  rw [topLevels, hlist, ← List.map_take, List.map_map]
  rfl

end Ladder

namespace SymbolBook

/-- The level of a price on the bid (`true`) or ask side. -/
def level (b : SymbolBook) (buy : Bool) (p : Price) : Option PriceLevel :=
  if buy then b.bidLevels[p]? else b.askLevels[p]?

/-- `bids().levels` or `asks().levels`. -/
def top (b : SymbolBook) (buy : Bool) : List PriceLevel := if buy then b.topBids else b.topAsks

/-- Both ladders and both slices carry the sums of an order table. -/
structure Carries (b : SymbolBook) (t : OrderTable) : Prop where
  bids : Reflects b.bidLevels (levelQty t true) (levelCount t true)
  asks : Reflects b.askLevels (levelQty t false) (levelCount t false)
  topBids : b.topBids = topLevels b.bidLevels b.depth
  topAsks : b.topAsks = topLevels b.askLevels b.depth

/-- One side of such a book: the best-first list of the prices with live orders,
its first levels in the slice, and the level of each price. -/
theorem Carries.side {b : SymbolBook} {t : OrderTable} (h : b.Carries t) (buy : Bool) :
    ∃ prices : List Price, prices.Pairwise (Better buy) ∧ (∀ p, p ∈ prices ↔ 0 < levelCount t buy p) ∧
      b.top buy = (prices.take b.depth).map (levelFor (levelQty t buy) (levelCount t buy)) ∧
      ∀ p, b.level buy p =
        if levelCount t buy p = 0 then none else some (levelFor (levelQty t buy) (levelCount t buy) p) := by
  cases buy with
  | true =>
    refine ⟨b.bidLevels.keys, ExtTreeMap.ordered_keys.imp ?_, h.bids.mem_keys, ?_, h.bids⟩
    · intro p q hpq
      exact compare_eq_lt.mp hpq
    · exact h.topBids.trans (h.bids.topLevels_eq b.depth)
  | false =>
    refine ⟨b.askLevels.keys, ExtTreeMap.ordered_keys.imp ?_, h.asks.mem_keys, ?_, h.asks⟩
    · intro p q hpq
      exact compare_eq_lt.mp hpq
    · exact h.topAsks.trans (h.asks.topLevels_eq b.depth)

/-- With sums below `2 ^ 32` a slice shows the live orders exactly. -/
theorem Carries.showsBest {b : SymbolBook} {t : OrderTable} (h : b.Carries t) (buy : Bool)
    (hqty : ∀ p, levelQty t buy p < 2 ^ 32) (hcount : ∀ p, levelCount t buy p < 2 ^ 32) :
    ShowsBest buy b.depth (levelQty t buy) (levelCount t buy) (b.top buy) := by
  obtain ⟨prices, hsort, hmem, htop, _⟩ := h.side buy
  refine ⟨prices, hsort, hmem, ?_, ?_⟩
  · rw [htop, List.map_map]
    exact List.map_id _
  · intro lvl hlvl
    rw [htop] at hlvl
    obtain ⟨p, _, rfl⟩ := List.mem_map.mp hlvl
    exact ⟨UInt32.toNat_ofNat_of_lt' (hqty p), UInt32.toNat_ofNat_of_lt' (hcount p)⟩

structure Aggregated (b : SymbolBook) : Prop where
  qtyPos : b.orders.QtyPos
  carries : b.Carries b.orders

@[simp] theorem applyLevelDelta_orders (b : SymbolBook) (side : Side) (price : Price) (dq dc : ℤ) :
    (b.applyLevelDelta side price dq dc).orders = b.orders := by
  unfold applyLevelDelta
  split <;> split <;> rfl

@[simp] theorem applyLevelDelta_depth (b : SymbolBook) (side : Side) (price : Price) (dq dc : ℤ) :
    (b.applyLevelDelta side price dq dc).depth = b.depth := by
  unfold applyLevelDelta
  split <;> split <;> rfl

/-- The ladders see the order table only through its sums. -/
theorem Carries.of_eq {b : SymbolBook} {t : OrderTable} (h : b.Carries t) (b' : SymbolBook) (hbid : b'.bidLevels = b.bidLevels)
    (hask : b'.askLevels = b.askLevels) (htb : b'.topBids = b.topBids) (hta : b'.topAsks = b.topAsks)
    (hd : b'.depth = b.depth) : b'.Carries t := by
  refine ⟨?_, ?_, ?_, ?_⟩
  · rw [hbid]; exact h.bids
  · rw [hask]; exact h.asks
  · rw [htb, hbid, hd]; exact h.topBids
  · rw [hta, hask, hd]; exact h.topAsks

/-- `apply_level_delta` follows a change of the order table. -/
theorem Carries.applyLevelDelta {b : SymbolBook} {old new : OrderTable} {side : Side} {price : Price}
    {dq dc : ℤ} (h : b.Carries old) (hc : LevelChange old new side.isBuy price dq dc)
    (hnew : levelCount old side.isBuy price = 0 → 0 < dq ∧ 0 < dc)
    (hkeep : 0 < levelCount old side.isBuy price → 0 < levelCount new side.isBuy price →
      StaysPositive (levelQty old side.isBuy price) dq ∧
      StaysPositive (levelCount old side.isBuy price) dc) :
    (b.applyLevelDelta side price dq dc).Carries new := by
  have hfresh : levelCount old side.isBuy price = 0 →
      levelQty old side.isBuy price = 0 ∧ 0 < dq ∧ 0 < dc := fun hz => ⟨levelQty_eq_zero hz, hnew hz⟩
  have hother : ∀ buy, buy ≠ side.isBuy →
      levelQty new buy = levelQty old buy ∧ levelCount new buy = levelCount old buy := fun buy hb =>
    ⟨funext fun p => (hc.elsewhere buy p (Or.inl hb)).1, funext fun p => (hc.elsewhere buy p (Or.inl hb)).2⟩
  have hoff : ∀ p, p ≠ price → levelQty new side.isBuy p = levelQty old side.isBuy p ∧
      levelCount new side.isBuy p = levelCount old side.isBuy p := fun p hp =>
    hc.elsewhere side.isBuy p (Or.inr hp)
  cases hs : side.isBuy with
  | true =>
    rw [hs] at hc hfresh hkeep hoff hother
    obtain ⟨levels, hl, hr⟩ := h.bids.levelDelta hc.qty_at hc.count_at hoff hfresh hkeep
    obtain ⟨hq, hn⟩ := hother false (by decide)
    simp only [SymbolBook.applyLevelDelta, hs, if_true, hl]
    exact ⟨hr, by rw [hq, hn]; exact h.asks, rfl, h.topAsks⟩
  | false =>
    rw [hs] at hc hfresh hkeep hoff hother
    obtain ⟨levels, hl, hr⟩ := h.asks.levelDelta hc.qty_at hc.count_at hoff hfresh hkeep
    obtain ⟨hq, hn⟩ := hother true (by decide)
    simp only [SymbolBook.applyLevelDelta, hs, Bool.false_eq_true, if_false, hl]
    exact ⟨by rw [hq, hn]; exact h.bids, hr, h.topBids, rfl⟩

theorem new_aggregated (depth : ℕ) : (new depth).Aggregated := by
  have hnone : ∀ buy p, levelCount (∅ : OrderTable) buy p = 0 := fun buy p => FiniteMapSums.sumOver_empty _
  refine ⟨fun id o ho => ?_, Reflects.empty (hnone true), Reflects.empty (hnone false), ?_, ?_⟩
  · simp [new] at ho
  · simp [new, topLevels, ExtTreeMap.toList_eq_nil_iff.mpr rfl]
  · simp [new, topLevels, ExtTreeMap.toList_eq_nil_iff.mpr rfl]

end SymbolBook

/-- At every price fewer orders rest than the 32-bit counter can hold. -/
def CountsFit (t : OrderTable) : Prop := ∀ buy p, levelCount t buy p < 2 ^ 32

/-- Where shares are withdrawn and orders remain, the sum stays above the largest
multiple of `2 ^ 32` that did not exceed it before. -/
def KeepsLevels (old new : OrderTable) : Prop :=
  ∀ buy p, levelQty new buy p < levelQty old buy p → 0 < levelCount new buy p →
    StaysPositive (levelQty old buy p) (levelQty new buy p - levelQty old buy p)

/-- Sums that fit in 32 bits never fall across a multiple of `2 ^ 32`. -/
theorem KeepsLevels.of_small {old new : OrderTable} (hpos : new.QtyPos)
    (hsmall : ∀ buy p, levelQty old buy p < 2 ^ 32) : KeepsLevels old new := by
  intro buy p _ hlive
  have hle := levelCount_le_levelQty hpos buy p
  have hlt := hsmall buy p
  unfold StaysPositive
  omega

theorem CountsFit.of_small {t : OrderTable} (hpos : t.QtyPos)
    (hsmall : ∀ buy p, levelQty t buy p < 2 ^ 32) : CountsFit t := fun buy p =>
  (levelCount_le_levelQty hpos buy p).trans_lt (hsmall buy p)

namespace SymbolBook

theorem addOrder_orders (b : SymbolBook) (id : OrderId) (side : Side) (price : Price) (qty : Quantity)
    (ts : Timestamp) : (b.addOrder id side price qty ts).orders = b.orders.place id ⟨⟨side, price, qty⟩, ts⟩ := by
  unfold addOrder OrderTable.place
  by_cases hz : qty = 0
  · simp [hz]
  · cases hid : b.orders[id]? with
    | none => simp [hz]
    | some o => simp [hz]

/-- Adding an order never loses a level. -/
theorem Aggregated.addOrder {b : SymbolBook} (h : b.Aggregated) (id : OrderId) (side : Side) (price : Price)
    (qty : Quantity) (ts : Timestamp) : (b.addOrder id side price qty ts).Aggregated := by
  refine ⟨?_, ?_⟩
  · rw [addOrder_orders]
    exact h.qtyPos.place id _
  · rw [addOrder_orders]
    unfold SymbolBook.addOrder OrderTable.place
    by_cases hz : qty = 0
    · simpa [hz] using h.carries
    · cases hid : b.orders[id]? with
      | some o => simpa [hz] using h.carries
      | none =>
        simp only [hz, false_or, Option.isSome_none, Bool.false_eq_true, if_false]
        have hqty : 0 < (qty.toNat : ℤ) := by
          have : qty.toNat ≠ 0 := fun hq => hz (UInt32.toNat_inj.mp hq)
          omega
        have hb := h.carries.of_eq { b with
          orders := b.orders.insert id ⟨⟨side, price, qty⟩, ts⟩, lastTs := ts } rfl rfl rfl rfl rfl
        refine hb.applyLevelDelta (LevelChange.insert hid ⟨⟨side, price, qty⟩, ts⟩) ?_ ?_
        · intro _
          exact ⟨hqty, by norm_num⟩
        · intro _ _
          exact ⟨by unfold StaysPositive; omega, by unfold StaysPositive; omega⟩

/-- A change at a price with live orders keeps the ladders when the counter fits
and no withdrawal crosses a multiple of `2 ^ 32`. -/
theorem Carries.follow {b : SymbolBook} {old new : OrderTable} {side : Side} {price : Price} {dq dc : ℤ}
    (h : b.Carries old) (hc : LevelChange old new side.isBuy price dq dc)
    (hlive : 0 < levelCount old side.isBuy price) (hfit : CountsFit old) (hdq : dq ≠ 0)
    (hkeep : KeepsLevels old new) : (b.applyLevelDelta side price dq dc).Carries new := by
  refine h.applyLevelDelta hc (fun hz => absurd hz (Nat.pos_iff_ne_zero.mp hlive)) ?_
  intro _ hstays
  have hq := hc.qty_at
  have hn := hc.count_at
  have hlt := hfit side.isBuy price
  refine ⟨?_, by unfold StaysPositive; omega⟩
  rcases lt_or_gt_of_ne hdq with hneg | hpos
  · have hk := hkeep side.isBuy price (by omega) hstays
    rwa [show (levelQty new side.isBuy price : ℤ) - levelQty old side.isBuy price = dq by omega] at hk
  · unfold StaysPositive
    omega

theorem deleteOrder_orders (b : SymbolBook) (id : OrderId) (ts : Timestamp) :
    (b.deleteOrder id ts).2.orders = b.orders.erase id := by
  unfold deleteOrder
  cases hid : b.orders[id]? with
  | none => exact (OrderTable.erase_of_none hid).symm
  | some o => simp

theorem Aggregated.deleteOrder {b : SymbolBook} (h : b.Aggregated) (id : OrderId) (ts : Timestamp)
    (hfit : CountsFit b.orders) (hkeep : KeepsLevels b.orders (b.orders.erase id)) :
    (b.deleteOrder id ts).2.Aggregated := by
  refine ⟨?_, ?_⟩
  · rw [deleteOrder_orders]
    exact h.qtyPos.erase id
  · rw [deleteOrder_orders]
    unfold SymbolBook.deleteOrder
    cases hid : b.orders[id]? with
    | none =>
      rw [OrderTable.erase_of_none hid]
      exact h.carries
    | some o =>
      have hpos := h.qtyPos id o hid
      have hb := h.carries.of_eq { b with orders := b.orders.erase id } rfl rfl rfl rfl rfl
      exact (hb.follow (LevelChange.erase hid) (live_at hid) hfit (by omega) hkeep).of_eq _ rfl rfl rfl rfl rfl

theorem modifyOrder_orders {b : SymbolBook} (h : b.orders.QtyPos) (id : OrderId) (newQty : Quantity)
    (ts : Timestamp) : (b.modifyOrder id newQty ts).2.orders = b.orders.resize id newQty ts := by
  unfold modifyOrder OrderTable.resize
  cases hid : b.orders[id]? with
  | none => rfl
  | some o =>
    have hpos := h id o hid
    by_cases hsame : (newQty.toNat : ℤ) - o.qty.toNat = 0
    · have heq : newQty = o.qty := UInt32.toNat_inj.mp (by omega)
      have hne : o.qty ≠ 0 := fun hz => by simp [hz] at hpos
      simp [heq, hne]
    · by_cases hz : newQty = 0
      · have hne : o.qty.toNat ≠ 0 := by omega
        simp [hz, hne]
      · simp [hsame, hz]

theorem Aggregated.modifyOrder {b : SymbolBook} (h : b.Aggregated) (id : OrderId) (newQty : Quantity)
    (ts : Timestamp) (hfit : CountsFit b.orders)
    (hkeep : KeepsLevels b.orders (b.orders.resize id newQty ts)) :
    (b.modifyOrder id newQty ts).2.Aggregated := by
  refine ⟨?_, ?_⟩
  · rw [modifyOrder_orders h.qtyPos]
    exact h.qtyPos.resize id newQty ts
  · rw [modifyOrder_orders h.qtyPos]
    unfold SymbolBook.modifyOrder
    unfold OrderTable.resize at hkeep ⊢
    cases hid : b.orders[id]? with
    | none => exact h.carries
    | some o =>
      have hpos := h.qtyPos id o hid
      have hset := LevelChange.set hid newQty ts
      simp only [hid] at hkeep ⊢
      by_cases hsame : (newQty.toNat : ℤ) - o.qty.toNat = 0
      · -- only the timestamp changes, so every sum is the old one
        have hne : newQty ≠ 0 := fun hz => by simp [hz] at hsame; omega
        rw [hsame] at hset
        obtain ⟨hq, hn⟩ := hset.unchanged
        simp only [hsame, if_true, hne, if_false]
        exact ⟨by rw [hq, hn]; exact h.carries.bids, by rw [hq, hn]; exact h.carries.asks,
          h.carries.topBids, h.carries.topAsks⟩
      · simp only [hsame, if_false]
        by_cases hz : newQty = 0
        · simp only [hz, if_true] at hkeep ⊢
          have hb := h.carries.of_eq { b with orders := b.orders.erase id } rfl rfl rfl rfl rfl
          exact (hb.follow (LevelChange.erase hid) (live_at hid) hfit (by omega) hkeep).of_eq _ rfl rfl rfl rfl rfl
        · simp only [hz, if_false] at hkeep ⊢
          have hb := h.carries.of_eq { b with
            orders := b.orders.insert id ⟨⟨o.side, o.price, newQty⟩, ts⟩ } rfl rfl rfl rfl rfl
          exact (hb.follow hset (live_at hid) hfit hsame hkeep).of_eq _ rfl rfl rfl rfl rfl

theorem addOrder_depth (b : SymbolBook) (id : OrderId) (side : Side) (price : Price) (qty : Quantity)
    (ts : Timestamp) : (b.addOrder id side price qty ts).depth = b.depth := by
  unfold SymbolBook.addOrder
  split_ifs
  · rfl
  · split <;> simp

theorem deleteOrder_depth (b : SymbolBook) (id : OrderId) (ts : Timestamp) :
    (b.deleteOrder id ts).2.depth = b.depth := by
  unfold SymbolBook.deleteOrder
  split <;> simp

theorem modifyOrder_depth (b : SymbolBook) (id : OrderId) (newQty : Quantity) (ts : Timestamp) :
    (b.modifyOrder id newQty ts).2.depth = b.depth := by
  unfold SymbolBook.modifyOrder
  split
  · rfl
  · dsimp only
    split_ifs <;> simp

/-- No call changes the depth of a book. -/
theorem exec_depth (b : SymbolBook) (op : BookOp) : (b.exec op).depth = b.depth := by
  cases op with
  | add id side price qty ts => exact addOrder_depth b id side price qty ts
  | modify id newQty ts => exact modifyOrder_depth b id newQty ts
  | reduce id delta ts =>
    simp only [SymbolBook.exec, reduceOrder]
    split
    · rfl
    · exact modifyOrder_depth b id _ ts
  | delete id ts => exact deleteOrder_depth b id ts
  | replace oldId newId newPrice newQty ts =>
    simp only [SymbolBook.exec, replaceOrder]
    split
    · rfl
    · rw [addOrder_depth, deleteOrder_depth]

/-- The order table follows the reference map, whatever the ladders do. -/
theorem exec_orders {b : SymbolBook} (h : b.orders.QtyPos) (op : BookOp) :
    (b.exec op).orders = b.orders.step op := by
  cases op with
  | add id side price qty ts => exact addOrder_orders b id side price qty ts
  | modify id newQty ts => exact modifyOrder_orders h id newQty ts
  | reduce id delta ts =>
    simp only [exec, reduceOrder, OrderTable.step]
    cases b.orders[id]? with
    | none => rfl
    | some o => exact modifyOrder_orders h id _ ts
  | delete id ts => exact deleteOrder_orders b id ts
  | replace oldId newId newPrice newQty ts =>
    simp only [exec, replaceOrder, OrderTable.step]
    cases b.orders[oldId]? with
    | none => rfl
    | some o =>
      dsimp only
      rw [addOrder_orders, deleteOrder_orders]

/-- A call keeps the invariant unless it withdraws shares across a multiple of
`2 ^ 32` from a price where other orders rest. -/
theorem Aggregated.exec {b : SymbolBook} (h : b.Aggregated) (op : BookOp) (hfit : CountsFit b.orders)
    (hkeep : KeepsLevels b.orders (b.orders.withdraw op)) : (b.exec op).Aggregated := by
  cases op with
  | add id side price qty ts => exact h.addOrder id side price qty ts
  | modify id newQty ts => exact h.modifyOrder id newQty ts hfit hkeep
  | reduce id delta ts =>
    simp only [SymbolBook.exec, reduceOrder]
    simp only [OrderTable.withdraw, OrderTable.step] at hkeep
    cases hid : b.orders[id]? with
    | none => exact h
    | some o =>
      rw [hid] at hkeep
      exact h.modifyOrder id _ ts hfit hkeep
  | delete id ts => exact h.deleteOrder id ts hfit hkeep
  | replace oldId newId newPrice newQty ts =>
    simp only [SymbolBook.exec, replaceOrder]
    cases hid : b.orders[oldId]? with
    | none => exact h
    | some o => exact (h.deleteOrder oldId ts hfit hkeep).addOrder newId o.side newPrice newQty ts

end SymbolBook

end MdfeedItch
