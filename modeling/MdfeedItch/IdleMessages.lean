import MdfeedItch.SnapshotDepth

/-! # Messages that change nothing

`apply` returns true for every Add and for every message whose order it finds. Some
of them leave the books exactly as they were: an Add that is ignored, an Execute or
Cancel of no shares and a Replace by the same order, at the time that is on record. -/
namespace MdfeedItch
open Std FiniteMapSums

section Ladder
variable {cmp : Price → Price → Ordering} [TransCmp cmp]

/-- Shares that leave a price and come back leave no trace there: they are all that
its level holds, or the level holds more shares and more orders. -/
def Restores (levels : ExtTreeMap Price PriceLevel cmp) (price : Price) (qty : Quantity) : Prop :=
  levels[price]? = some ⟨price, qty, 1⟩ ∨ ∃ pl, levels[price]? = some pl ∧ qty < pl.totalQty ∧ 1 < pl.orderCount

/-- The ladder after `apply_level_delta`, also where it returns early. -/
def afterDelta (levels : ExtTreeMap Price PriceLevel cmp) (price : Price) (dq dc : ℤ) :
    ExtTreeMap Price PriceLevel cmp := (levelDelta levels price dq dc).getD levels

variable [LawfulEqCmp cmp]

theorem ofInt_toNat (v : UInt32) : UInt32.ofInt v.toNat = v := by
  rw [ofInt_eq_ofNat rfl, UInt32.ofNat_toNat]

theorem ofInt_sub {a b : UInt32} (h : b ≤ a) : UInt32.ofInt (a.toNat + -b.toNat) = a - b := by
  have hle := UInt32.le_iff_toNat_le.mp h
  rw [← ofInt_toNat (a - b), UInt32.toNat_sub_of_le _ _ h]
  congr 1
  omega

theorem toNat_sub_add {a b : UInt32} (h : b ≤ a) : ((a - b).toNat : ℤ) + b.toNat = a.toNat := by
  have hle := UInt32.le_iff_toNat_le.mp h
  rw [UInt32.toNat_sub_of_le _ _ h]
  omega

/-- A level that outlives the withdrawal is as before afterwards. -/
theorem afterDelta_back_kept {levels : ExtTreeMap Price PriceLevel cmp} {price : Price} {qty : Quantity}
    {pl : PriceLevel} (hpl : levels[price]? = some pl) (hq : qty < pl.totalQty) (hc : 1 < pl.orderCount) :
    afterDelta (afterDelta levels price (-qty.toNat) (-1)) price qty.toNat 1 = levels := by
  have hq' := UInt32.lt_iff_toNat_lt.mp hq
  have hc' : 1 < pl.orderCount.toNat := UInt32.lt_iff_toNat_lt.mp hc
  have hcount : UInt32.ofInt (pl.orderCount.toNat + -1) = pl.orderCount - 1 := ofInt_sub (UInt32.le_of_lt hc)
  have hcounts : ((pl.orderCount - 1).toNat : ℤ) + 1 = pl.orderCount.toNat := toNat_sub_add (UInt32.le_of_lt hc)
  have hfirst : afterDelta levels price (-qty.toNat) (-1) =
      levels.insert price ⟨pl.price, pl.totalQty - qty, pl.orderCount - 1⟩ := by
    rw [afterDelta, levelDelta, hpl]
    dsimp only
    rw [if_neg (by omega), ofInt_sub (UInt32.le_of_lt hq), hcount, Option.getD_some]
  have hnext : (levels.insert price ⟨pl.price, pl.totalQty - qty, pl.orderCount - 1⟩)[price]? =
      some ⟨pl.price, pl.totalQty - qty, pl.orderCount - 1⟩ := by rw [lookup_insert, if_pos rfl]
  rw [hfirst, afterDelta, levelDelta, hnext]
  dsimp only
  rw [toNat_sub_add (UInt32.le_of_lt hq), hcounts, if_neg (by omega), Option.getD_some, ofInt_toNat, ofInt_toNat]
  calc _ = levels.insert price pl := insert_of_agree pl (fun p hp => by rw [lookup_insert, if_neg hp])
    _ = levels := insert_eq_self_iff.mpr hpl

/-- A level that does not is made anew. -/
theorem afterDelta_back_new {levels : ExtTreeMap Price PriceLevel cmp} {price : Price} {qty : Quantity}
    (hq : 0 < qty.toNat) (h : ∀ pl, levels[price]? = some pl → ¬ (qty < pl.totalQty ∧ 1 < pl.orderCount)) :
    afterDelta (afterDelta levels price (-qty.toNat) (-1)) price qty.toNat 1 =
      levels.insert price ⟨price, qty, 1⟩ := by
  obtain ⟨hgone, hother⟩ : (afterDelta levels price (-qty.toNat) (-1))[price]? = none ∧
      ∀ p, p ≠ price → (afterDelta levels price (-qty.toNat) (-1))[p]? = levels[p]? := by
    cases hpl : levels[price]? with
    | none =>
      have hsame : afterDelta levels price (-qty.toNat) (-1) = levels := by
        rw [afterDelta, levelDelta, hpl]
        dsimp only
        rw [if_pos (by omega), Option.getD_none]
      rw [hsame]
      exact ⟨hpl, fun p _ => rfl⟩
    | some pl =>
      have hlow : (pl.totalQty.toNat : ℤ) + -qty.toNat ≤ 0 ∨ (pl.orderCount.toNat : ℤ) + -1 ≤ 0 := by
        have hnot := h pl hpl
        rw [UInt32.lt_iff_toNat_lt, UInt32.lt_iff_toNat_lt] at hnot
        have hone : (1 : UInt32).toNat = 1 := rfl
        omega
      have herase : afterDelta levels price (-qty.toNat) (-1) = levels.erase price := by
        rw [afterDelta, levelDelta, hpl]
        dsimp only
        rw [if_pos hlow, Option.getD_some]
      rw [herase]
      refine ⟨by rw [lookup_erase, if_pos rfl], fun p hp => ?_⟩
      rw [lookup_erase, if_neg hp]
  rw [afterDelta, levelDelta, hgone]
  dsimp only
  rw [if_neg (by omega), Option.getD_some, ofInt_toNat]
  exact insert_of_agree _ hother

theorem afterDelta_back_iff {levels : ExtTreeMap Price PriceLevel cmp} {price : Price} {qty : Quantity}
    (hq : 0 < qty.toNat) :
    afterDelta (afterDelta levels price (-qty.toNat) (-1)) price qty.toNat 1 = levels ↔
      Restores levels price qty := by
  by_cases hkept : ∃ pl, levels[price]? = some pl ∧ qty < pl.totalQty ∧ 1 < pl.orderCount
  · obtain ⟨pl, hpl, hlt, hc⟩ := hkept
    exact iff_of_true (afterDelta_back_kept hpl hlt hc) (Or.inr ⟨pl, hpl, hlt, hc⟩)
  · rw [afterDelta_back_new hq (fun pl hpl hlt => hkept ⟨pl, hpl, hlt⟩), insert_eq_self_iff, Restores,
      or_iff_left hkept]

end Ladder

namespace SymbolBook

/-- The visible levels are those of the ladders, and live orders have shares. -/
structure Fresh (b : SymbolBook) : Prop where
  qtyPos : b.orders.QtyPos
  topBids : b.topBids = topLevels b.bidLevels b.depth
  topAsks : b.topAsks = topLevels b.askLevels b.depth

theorem Aggregated.fresh {b : SymbolBook} (h : b.Aggregated) : b.Fresh :=
  ⟨h.qtyPos, h.carries.topBids, h.carries.topAsks⟩

/-- The ladders after `apply_level_delta`; the early return has refreshed levels already. -/
theorem Fresh.applyLevelDelta_eq {b : SymbolBook} (h : b.Fresh) (side : Side) (price : Price) (dq dc : ℤ) :
    b.applyLevelDelta side price dq dc =
      if side.isBuy then { b with
        bidLevels := afterDelta b.bidLevels price dq dc
        topBids := topLevels (afterDelta b.bidLevels price dq dc) b.depth }
      else { b with
        askLevels := afterDelta b.askLevels price dq dc
        topAsks := topLevels (afterDelta b.askLevels price dq dc) b.depth } := by
  unfold applyLevelDelta afterDelta
  split_ifs
  · cases levelDelta b.bidLevels price dq dc with
    | none => rw [Option.getD_none, ← h.topBids]
    | some levels => rfl
  · cases levelDelta b.askLevels price dq dc with
    | none => rw [Option.getD_none, ← h.topAsks]
    | some levels => rfl

theorem Fresh.applyLevelDelta {b : SymbolBook} (h : b.Fresh) (side : Side) (price : Price) (dq dc : ℤ) :
    (b.applyLevelDelta side price dq dc).Fresh := by
  rw [h.applyLevelDelta_eq]
  split_ifs
  · exact ⟨h.qtyPos, rfl, h.topAsks⟩
  · exact ⟨h.qtyPos, h.topBids, rfl⟩

/-- Other orders and another time do not touch the levels. -/
theorem Fresh.retime {b : SymbolBook} (h : b.Fresh) {orders : OrderTable} (hpos : orders.QtyPos) (ts : Timestamp) :
    ({ b with orders := orders, lastTs := ts } : SymbolBook).Fresh := ⟨hpos, h.topBids, h.topAsks⟩

/-- What all operations do: the orders, then a level, then the time. -/
theorem Fresh.shift {b : SymbolBook} (h : b.Fresh) {orders : OrderTable} (hpos : orders.QtyPos) (side : Side)
    (price : Price) (dq dc : ℤ) (ts : Timestamp) :
    ({ ({ b with orders := orders } : SymbolBook).applyLevelDelta side price dq dc with
      lastTs := ts } : SymbolBook).Fresh := by
  have hnext := (h.retime hpos b.lastTs).applyLevelDelta side price dq dc
  exact hnext.retime hnext.qtyPos ts

theorem Fresh.addOrder {b : SymbolBook} (h : b.Fresh) (id : OrderId) (side : Side) (price : Price) (qty : Quantity)
    (ts : Timestamp) : (b.addOrder id side price qty ts).Fresh := by
  unfold SymbolBook.addOrder
  split_ifs with hz
  · exact h
  · split
    · exact h
    · exact (h.retime (h.qtyPos.insert id hz) ts).applyLevelDelta side price _ _

theorem Fresh.deleteOrder {b : SymbolBook} (h : b.Fresh) (id : OrderId) (ts : Timestamp) :
    (b.deleteOrder id ts).2.Fresh := by
  unfold SymbolBook.deleteOrder
  split
  · exact h
  · exact h.shift (h.qtyPos.erase id) _ _ _ _ ts

theorem Fresh.modifyOrder {b : SymbolBook} (h : b.Fresh) (id : OrderId) (newQty : Quantity) (ts : Timestamp) :
    (b.modifyOrder id newQty ts).2.Fresh := by
  unfold SymbolBook.modifyOrder
  split
  · exact h
  · next o ho =>
    have hpos : o.qty ≠ 0 := fun hz => by
      have hlive := h.qtyPos id o ho
      rw [hz] at hlive
      exact absurd hlive (by decide)
    dsimp only
    split_ifs with hsame hzero
    · exact h.retime (h.qtyPos.insert (o := { o with ts := ts }) id hpos) ts
    · exact h.shift (h.qtyPos.erase id) _ _ _ _ ts
    · exact h.shift (h.qtyPos.insert (o := ⟨⟨o.side, o.price, newQty⟩, ts⟩) id hzero) _ _ _ _ ts

theorem Fresh.exec {b : SymbolBook} (h : b.Fresh) (op : BookOp) : (b.exec op).Fresh := by
  cases op with
  | add id side price qty ts => exact h.addOrder id side price qty ts
  | modify id newQty ts => exact h.modifyOrder id newQty ts
  | delete id ts => exact h.deleteOrder id ts
  | reduce id delta ts =>
    simp only [SymbolBook.exec, reduceOrder]
    split
    · exact h
    · exact h.modifyOrder id _ ts
  | replace oldId newId newPrice newQty ts =>
    simp only [SymbolBook.exec, replaceOrder]
    split
    · exact h
    · exact (h.deleteOrder oldId ts).addOrder newId _ newPrice newQty ts

theorem addOrder_eq_self {b : SymbolBook} {id : OrderId} {side : Side} {price : Price} {qty : Quantity}
    {ts : Timestamp} : b.addOrder id side price qty ts = b ↔ qty = 0 ∨ b.hasOrder id := by
  constructor
  · intro h
    have horders := congrArg (fun b => b.orders[id]?) h
    simp only [addOrder_orders, OrderTable.place] at horders
    split_ifs at horders with hskip
    · exact hskip
    · rw [lookup_insert, if_pos rfl] at horders
      exact Or.inr (by rw [hasOrder, ← horders, Option.isSome_some])
  · rintro (hz | hlive)
    · exact if_pos hz
    · obtain ⟨o, ho⟩ := Option.isSome_iff_exists.mp hlive
      unfold addOrder
      rw [ho]
      split_ifs <;> rfl

/-- Taking shares off an order changes its shares, or its time and that of the book. -/
theorem reduceOrder_eq_self {b : SymbolBook} (h : b.Fresh) {id : OrderId} {o : OrderState}
    (ho : b.orders[id]? = some o) (shares : Quantity) (ts : Timestamp) :
    (b.reduceOrder id shares ts).2 = b ↔ shares = 0 ∧ o.ts = ts ∧ b.lastTs = ts := by
  have hpos := h.qtyPos id o ho
  by_cases hz : shares = 0
  · rw [and_iff_right hz]
    have hqty : (if o.qty ≤ shares then 0 else o.qty - shares) = o.qty := by
      rw [if_neg, hz, UInt32.sub_zero]
      rw [hz, UInt32.le_iff_toNat_le]
      exact Nat.not_le.mpr hpos
    have hsame : (b.reduceOrder id shares ts).2 =
        { b with orders := b.orders.insert id { o with ts := ts }, lastTs := ts } := by
      simp only [reduceOrder, ho, hqty, modifyOrder, sub_self, if_true]
    rw [hsame]
    constructor
    · intro heq
      have horders := congrArg (fun b => b.orders[id]?) heq
      dsimp only at horders
      rw [lookup_insert, if_pos rfl, ho, Option.some_inj] at horders
      exact ⟨(congrArg OrderState.ts horders).symm, (congrArg SymbolBook.lastTs heq).symm⟩
    · rintro ⟨hts, hlast⟩
      subst hts
      rw [insert_eq_self_iff.mpr ho, ← hlast]
  · refine iff_of_false (fun heq => ?_) (fun hall => hz hall.1)
    have horders := congrArg (fun b => b.orders[id]?) heq
    have hexec := exec_orders h.qtyPos (.reduce id shares ts)
    rw [SymbolBook.exec] at hexec
    simp only [hexec, OrderTable.step, ho, OrderTable.resize] at horders
    split_ifs at horders with hall hzero hzero
    · rw [lookup_erase, if_pos rfl] at horders
      cases horders
    · exact hzero rfl
    · rw [lookup_erase, if_pos rfl] at horders
      cases horders
    · rw [lookup_insert, if_pos rfl, Option.some_inj] at horders
      have hqty : o.qty - shares = o.qty := congrArg (fun o => o.qty) horders
      have hnat := congrArg UInt32.toNat hqty
      rw [UInt32.toNat_sub_of_le _ _ (UInt32.le_of_lt (UInt32.not_le.mp hall))] at hnat
      exact hz (UInt32.toNat_inj.mp (show shares.toNat = 0 by omega))

/-- The level of an order on its side gets over losing and regaining its shares. -/
def RestoresLevel (b : SymbolBook) (side : Side) (price : Price) (qty : Quantity) : Prop :=
  if side.isBuy then Restores b.bidLevels price qty else Restores b.askLevels price qty

theorem applyLevelDelta_retime (b : SymbolBook) (orders : OrderTable) (ts : Timestamp) (side : Side) (price : Price)
    (dq dc : ℤ) : ({ b with orders := orders, lastTs := ts } : SymbolBook).applyLevelDelta side price dq dc =
      { b.applyLevelDelta side price dq dc with orders := orders, lastTs := ts } := by
  unfold applyLevelDelta
  split_ifs
  · dsimp only
    cases levelDelta b.bidLevels price dq dc <;> rfl
  · dsimp only
    cases levelDelta b.askLevels price dq dc <;> rfl

/-- An order that is replaced by itself goes through its level only. -/
theorem replaceOrder_self {b : SymbolBook} {id : OrderId} {side : Side} {price : Price} {qty : Quantity}
    {ts : Timestamp} (hqty : qty ≠ 0) (ho : b.orders[id]? = some ⟨⟨side, price, qty⟩, ts⟩) :
    (b.replaceOrder id id price qty ts).2 =
      { (b.applyLevelDelta side price (-qty.toNat) (-1)).applyLevelDelta side price qty.toNat 1 with lastTs := ts } := by
  have hdelete : (b.deleteOrder id ts).2 =
      { b.applyLevelDelta side price (-qty.toNat) (-1) with orders := b.orders.erase id, lastTs := ts } := by
    simp only [deleteOrder, ho]
    rw [applyLevelDelta_retime b (b.orders.erase id) b.lastTs]
  have hgone : (b.orders.erase id)[id]? = none := by rw [lookup_erase, if_pos rfl]
  have hback : (b.orders.erase id).insert id ⟨⟨side, price, qty⟩, ts⟩ = b.orders := by
    calc _ = b.orders.insert id ⟨⟨side, price, qty⟩, ts⟩ :=
          insert_of_agree _ (fun x hx => by rw [lookup_erase, if_neg hx])
      _ = b.orders := insert_eq_self_iff.mpr ho
  have horders : ((b.applyLevelDelta side price (-qty.toNat) (-1)).applyLevelDelta side price qty.toNat 1).orders =
      b.orders := by rw [applyLevelDelta_orders, applyLevelDelta_orders]
  simp only [replaceOrder, ho, hdelete, addOrder, hqty, if_false, hgone, hback]
  rw [applyLevelDelta_retime (b.applyLevelDelta side price (-qty.toNat) (-1)) b.orders ts, ← horders]

theorem Fresh.restoresLevel_iff {b : SymbolBook} (h : b.Fresh) {side : Side} {price : Price} {qty : Quantity}
    (hqty : 0 < qty.toNat) {ts : Timestamp} (hts : b.lastTs = ts) :
    ({ (b.applyLevelDelta side price (-qty.toNat) (-1)).applyLevelDelta side price qty.toNat 1 with
      lastTs := ts } : SymbolBook) = b ↔ b.RestoresLevel side price qty := by
  have hnext := h.applyLevelDelta side price (-qty.toNat) (-1)
  rw [hnext.applyLevelDelta_eq, h.applyLevelDelta_eq, RestoresLevel]
  split_ifs
  · rw [← afterDelta_back_iff hqty]
    constructor
    · intro heq
      exact congrArg SymbolBook.bidLevels heq
    · intro heq
      dsimp only
      rw [heq, ← h.topBids, ← hts]
  · rw [← afterDelta_back_iff hqty]
    constructor
    · intro heq
      exact congrArg SymbolBook.askLevels heq
    · intro heq
      dsimp only
      rw [heq, ← h.topAsks, ← hts]

/-- A Replace leaves the book alone when it asks for what is there. -/
theorem replaceOrder_eq_self {b : SymbolBook} (h : b.Fresh) {id newId : OrderId} {o : OrderState}
    (ho : b.orders[id]? = some o) (price : Price) (qty : Quantity) (ts : Timestamp) :
    (b.replaceOrder id newId price qty ts).2 = b ↔
      newId = id ∧ o = ⟨⟨o.side, price, qty⟩, ts⟩ ∧ b.lastTs = ts ∧ b.RestoresLevel o.side price qty := by
  have hpos := h.qtyPos id o ho
  by_cases hasked : newId = id ∧ o = ⟨⟨o.side, price, qty⟩, ts⟩
  · obtain ⟨rfl, hstate⟩ := hasked
    rw [hstate] at ho hpos
    have hqty : qty ≠ 0 := fun hz => by
      rw [hz] at hpos
      exact absurd hpos (Nat.lt_irrefl 0)
    rw [replaceOrder_self hqty ho, and_iff_right rfl, and_iff_right hstate]
    constructor
    · intro heq
      have hts : b.lastTs = ts := (congrArg SymbolBook.lastTs heq).symm
      exact ⟨hts, (h.restoresLevel_iff hpos hts).mp heq⟩
    · rintro ⟨hts, hrestores⟩
      exact (h.restoresLevel_iff hpos hts).mpr hrestores
  · refine iff_of_false (fun heq => ?_) (fun hall => hasked ⟨hall.1, hall.2.1⟩)
    have horders := congrArg (fun b => b.orders[id]?) heq
    have hexec := exec_orders h.qtyPos (.replace id newId price qty ts)
    rw [SymbolBook.exec] at hexec
    simp only [hexec, OrderTable.step, ho] at horders
    by_cases hnew : newId = id
    · subst hnew
      rw [OrderTable.place, lookup_erase, if_pos rfl] at horders
      split_ifs at horders with hskip
      · rw [lookup_erase, if_pos rfl] at horders
        cases horders
      · rw [lookup_insert, if_pos rfl, Option.some_inj] at horders
        exact hasked ⟨rfl, horders.symm⟩
    · rw [OrderTable.place_erase_other _ hnew] at horders
      cases horders

end SymbolBook

namespace DepthBook

/-- The messages that are treated as a change and change nothing: an Add that the book
of its symbol ignores, no shares taken off an order, and an order replaced by itself,
each at the time on record. -/
def Idle (d : DepthBook) : BookAction → Prop
  | .add m => d.orderToSymbol[m.orderId]? = some (symbolKey m.symbol) ∧
    (m.shares = 0 ∨ (d.bookAt (symbolKey m.symbol)).hasOrder m.orderId)
  | .reduce id shares ts => ∃ key o, d.orderToSymbol[id]? = some key ∧ (d.bookAt key).orders[id]? = some o ∧
    shares = 0 ∧ o.ts = ts ∧ (d.bookAt key).lastTs = ts
  | .delete _ _ => False
  | .replace m => ∃ key o, d.orderToSymbol[m.originalOrderId]? = some key ∧
    (d.bookAt key).orders[m.originalOrderId]? = some o ∧ m.newOrderId = m.originalOrderId ∧
      o = ⟨⟨o.side, m.price, m.shares⟩, m.ts⟩ ∧ (d.bookAt key).lastTs = m.ts ∧
        (d.bookAt key).RestoresLevel o.side m.price m.shares

/-- A change is reported and nothing has changed. -/
def ReportsNothing (d : DepthBook) (r : ApplyResult) : Prop := r.changed = true ∧ r.book = d

variable {d : DepthBook}

theorem setBook_eq_self {key : SymbolKey} {b b' : SymbolBook} {index : ExtTreeMap OrderId SymbolKey}
    (hb : d.books[key]? = some b) :
    ({ d.setBook key b' with orderToSymbol := index } : DepthBook) = d ↔ b' = b ∧ index = d.orderToSymbol := by
  constructor
  · intro h
    have hbooks := congrArg (fun d => d.books[key]?) h
    simp only [DepthBook.setBook, lookup_insert, if_true, hb, Option.some_inj] at hbooks
    exact ⟨hbooks, congrArg DepthBook.orderToSymbol h⟩
  · rintro ⟨rfl, rfl⟩
    rw [DepthBook.setBook, insert_eq_self_iff.mpr hb]

theorem reportsNothing_refused : ¬ d.ReportsNothing ⟨false, d, none⟩ := fun h => Bool.noConfusion h.1

theorem applyAdd_idle (h : d.WellKeyed) (m : AddOrderMsg) : d.ReportsNothing (d.applyAdd m) ↔ d.Idle (.add m) := by
  rw [ReportsNothing, Idle, and_iff_right (show (d.applyAdd m).changed = true from rfl)]
  by_cases hid : d.orderToSymbol[m.orderId]? = some (symbolKey m.symbol)
  · obtain ⟨sym, -, -, -, hbook⟩ := h.route hid
    have hfor : d.bookFor m.symbol = d := by
      unfold bookFor
      dsimp only
      rw [hbook]
    have hself := @SymbolBook.addOrder_eq_self (d.bookAt (symbolKey m.symbol)) m.orderId m.side m.price m.shares m.ts
    rw [and_iff_right hid, ← hself]
    simp only [applyAdd, hfor, setBook_orderToSymbol]
    rw [setBook_eq_self hbook, insert_eq_self_iff, and_iff_left hid]
  · refine iff_of_false (fun hsame => ?_) (fun hidle => hid hidle.1)
    have hindex : (d.applyAdd m).book.orderToSymbol[m.orderId]? = some (symbolKey m.symbol) := by simp [applyAdd]
    rw [hsame] at hindex
    exact hid hindex

theorem applyReduce_idle (h : d.WellKeyed) (hfresh : ∀ key, (d.bookAt key).Fresh) (id : OrderId) (shares : Quantity)
    (ts : Timestamp) : d.ReportsNothing (d.applyReduce id shares ts) ↔ d.Idle (.reduce id shares ts) := by
  unfold applyReduce Idle
  cases hid : d.orderToSymbol[id]? with
  | none =>
    rw [route_none hid]
    exact iff_of_false reportsNothing_refused (by simp [hid])
  | some key =>
    obtain ⟨sym, hroute, -, -, hbook⟩ := h.route hid
    rw [hroute]
    simp only [SymbolBook.reduceOrder_fst, hid, Option.some_inj, exists_and_left, exists_eq_left']
    cases ho : (d.bookAt key).orders[id]? with
    | none =>
      rw [SymbolBook.hasOrder_eq_false.mpr ho]
      exact iff_of_false reportsNothing_refused (by simp)
    | some o =>
      have hlive : (d.bookAt key).hasOrder id = true := by rw [SymbolBook.hasOrder, ho, Option.isSome_some]
      have hself := SymbolBook.reduceOrder_eq_self (hfresh key) ho shares ts
      simp only [hlive, if_true, ReportsNothing, true_and, Option.some_inj, exists_eq_left', ← hself]
      by_cases hleft : ((d.bookAt key).reduceOrder id shares ts).2.hasOrder id = true
      · rw [if_pos hleft]
        exact (setBook_eq_self hbook).trans (and_iff_left rfl)
      · rw [if_neg hleft]
        refine (setBook_eq_self hbook).trans (iff_of_false (fun hsame => hleft ?_) (fun hsame => hleft ?_))
        · rw [hsame.1, hlive]
        · rw [hsame, hlive]

theorem applyDelete_idle (h : d.WellKeyed) (id : OrderId) (ts : Timestamp) :
    d.ReportsNothing (d.applyDelete id ts) ↔ d.Idle (.delete id ts) := by
  refine iff_of_false ?_ not_false
  unfold applyDelete
  cases hid : d.orderToSymbol[id]? with
  | none =>
    rw [route_none hid]
    exact reportsNothing_refused
  | some key =>
    obtain ⟨sym, hroute, -, -, hbook⟩ := h.route hid
    rw [hroute]
    dsimp only
    split_ifs with hdeleted
    · rintro ⟨-, hsame⟩
      have hbooks := (setBook_eq_self hbook).mp hsame
      rw [SymbolBook.deleteOrder_fst, SymbolBook.hasOrder, ← hbooks.1, SymbolBook.deleteOrder_orders, lookup_erase,
        if_pos rfl] at hdeleted
      cases hdeleted
    · exact reportsNothing_refused

theorem applyReplace_idle (h : d.WellKeyed) (hfresh : ∀ key, (d.bookAt key).Fresh) (m : OrderReplaceMsg) :
    d.ReportsNothing (d.applyReplace m) ↔ d.Idle (.replace m) := by
  unfold applyReplace Idle
  cases hid : d.orderToSymbol[m.originalOrderId]? with
  | none =>
    rw [route_none hid]
    exact iff_of_false reportsNothing_refused (by simp [hid])
  | some key =>
    obtain ⟨sym, hroute, -, -, hbook⟩ := h.route hid
    rw [hroute]
    simp only [hid, Option.some_inj, exists_and_left, exists_eq_left']
    cases ho : (d.bookAt key).orders[m.originalOrderId]? with
    | none => exact iff_of_false reportsNothing_refused (by simp)
    | some o =>
      have hself := @SymbolBook.replaceOrder_eq_self _ (hfresh key) _ m.newOrderId _ ho m.price m.shares m.ts
      have hreplaced : ((d.bookAt key).replaceOrder m.originalOrderId m.newOrderId m.price m.shares m.ts).2 =
          ((d.bookAt key).deleteOrder m.originalOrderId m.ts).2.addOrder m.newOrderId o.side m.price m.shares m.ts := by
        simp only [SymbolBook.replaceOrder, ho]
      rw [hreplaced] at hself
      simp only [ReportsNothing, true_and, Option.some_inj, exists_eq_left']
      rw [setBook_eq_self hbook, hself, and_iff_left_iff_imp]
      rintro ⟨hnew, -⟩
      rw [hnew]
      calc _ = d.orderToSymbol.insert m.originalOrderId key :=
            insert_of_agree key (fun x hx => by rw [lookup_erase, if_neg hx])
        _ = d.orderToSymbol := insert_eq_self_iff.mpr hid

/-- A message changes nothing although a change is reported exactly when it is idle. -/
theorem apply_idle (h : d.WellKeyed) (hfresh : ∀ key, (d.bookAt key).Fresh) (m : AnyMessage) :
    d.ReportsNothing (d.apply m) ↔ ∃ a, m.action = some a ∧ d.Idle a := by
  have hnone : (∃ a, (none : Option BookAction) = some a ∧ d.Idle a) ↔ False := by simp
  have hsome : ∀ b : BookAction, (∃ a, some b = some a ∧ d.Idle a) ↔ d.Idle b := by simp
  cases m with
  | systemEvent m | stockDirectory m | trade m => exact (iff_of_false reportsNothing_refused id).trans hnone.symm
  | addOrder m => exact (applyAdd_idle h m).trans (hsome _).symm
  | addOrderMPID m => exact (applyAdd_idle h m.base).trans (hsome _).symm
  | orderExecuted m | orderExecutedWithPrice m | orderCancel m =>
    exact (applyReduce_idle h hfresh _ _ _).trans (hsome _).symm
  | orderDelete m => exact (applyDelete_idle h _ _).trans (hsome _).symm
  | orderReplace m => exact (applyReplace_idle h hfresh m).trans (hsome _).symm

theorem fresh_call (h : d.WellKeyed) (hfresh : ∀ key, (d.bookAt key).Fresh) (c : BookCall) :
    ∀ key, ((d.call c).bookAt key).Fresh := by
  intro key
  cases c with
  | message m =>
    have hm := apply_follows h m
    unfold call
    dsimp only
    cases ha : m.action with
    | none =>
      rw [ha] at hm
      rw [hm]
      exact hfresh key
    | some a =>
      rw [ha] at hm
      rw [hm.books, bookAfter]
      cases d.callAt key a with
      | none => exact hfresh key
      | some op => exact (hfresh key).exec op
  | symbol sym =>
    rw [call, bookFor_bookAt]
    exact hfresh key
  | snapshot snap =>
    rw [call, install_bookAt]
    split_ifs
    · exact (rebuild_kept snap).1.fresh
    · exact hfresh key

theorem calls_fresh (depth : ℕ) (cs : List BookCall) : ∀ key, ((calls depth cs).bookAt key).Fresh := by
  induction cs using List.reverseRecOn with
  | nil =>
    intro key
    have hnew : (calls depth []).bookAt key = SymbolBook.new depth := by simp [calls, new, bookAt]
    rw [hnew]
    exact (SymbolBook.new_aggregated depth).fresh
  | append_singleton cs c ih =>
    rw [calls_concat]
    exact fresh_call (calls_wellKeyed depth cs) ih c

/-- Whatever calls a book has seen, a reported change is one unless the message is idle. -/
theorem changes_iff_not_idle (depth : ℕ) (cs : List BookCall) (m : AnyMessage) :
    (((calls depth cs).apply m).changed = true → ((calls depth cs).apply m).book ≠ calls depth cs) ↔
      ¬ ∃ a, m.action = some a ∧ (calls depth cs).Idle a := by
  rw [← apply_idle (calls_wellKeyed depth cs) (calls_fresh depth cs) m, ReportsNothing, not_and]

/-- An Add that is sent twice. -/
theorem repeated_add_reported : ¬ ∀ (depth : ℕ) (msgs : List AnyMessage) (m : AnyMessage),
    ((applyAll depth msgs).apply m).changed = true → ((applyAll depth msgs).apply m).book ≠ applyAll depth msgs := by
  intro h
  let m : AnyMessage := .addOrder ⟨1, 0, 0, 7, Side.buy, 100, Vector.replicate 8 65, 50⟩
  exact h 10 [m] m rfl (by decide)

end DepthBook

end MdfeedItch
