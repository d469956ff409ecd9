import MdfeedItch.OrderIndex

/-! # When a Replace loses its order

A Replace is a deletion followed by an addition, and the addition is ignored when
the new id is already live in the book. The arm reports a change all the same. -/
namespace MdfeedItch
open Std FiniteMapSums

namespace DepthBook

def replacement (m : OrderReplaceMsg) (prev : OrderState) : RestingOrder := ⟨prev.side, m.price, m.shares⟩

structure Finds (d : DepthBook) (m : OrderReplaceMsg) (key : SymbolKey) (prev : OrderState) : Prop where
  routed : d.orderToSymbol[m.originalOrderId]? = some key
  live : (d.bookAt key).orders[m.originalOrderId]? = some prev

structure Replaced (d : DepthBook) (m : OrderReplaceMsg) (key : SymbolKey) (prev : OrderState)
    (d' : DepthBook) : Prop where
  placed : ((d'.bookAt key).orders[m.newOrderId]?).map OrderState.toRestingOrder = some (replacement m prev)
  removed : m.newOrderId ≠ m.originalOrderId → (d'.bookAt key).orders[m.originalOrderId]? = none
  named : ∃ sym, d.symbolIndex[key]? = some sym ∧ symbolKey sym = key ∧
    d'.symbolForOrder m.newOrderId = some sym

/-- Either the Replace is carried out and reported, or it is refused and nothing changes. -/
def AllOrNothing (d : DepthBook) (m : OrderReplaceMsg) : Prop :=
  ((d.apply (.orderReplace m)).changed = true →
    ∃ key prev, d.Finds m key prev ∧ d.Replaced m key prev (d.apply (.orderReplace m)).book) ∧
  ((d.apply (.orderReplace m)).changed = false → (d.apply (.orderReplace m)).book = d)

/-- The new id is another live order of the same book, and not the order asked for. -/
def Blocked (d : DepthBook) (m : OrderReplaceMsg) : Prop :=
  ∃ key prev o, d.Finds m key prev ∧ m.newOrderId ≠ m.originalOrderId ∧
    (d.bookAt key).orders[m.newOrderId]? = some o ∧ o.toRestingOrder ≠ replacement m prev

theorem Finds.unique {d : DepthBook} {m : OrderReplaceMsg} {key key' : SymbolKey} {prev prev' : OrderState}
    (h : d.Finds m key prev) (h' : d.Finds m key' prev') : key = key' ∧ prev = prev' := by
  have hkey : key = key' := Option.some.inj (h.routed.symm.trans h'.routed)
  subst hkey
  exact ⟨rfl, Option.some.inj (h.live.symm.trans h'.live)⟩

theorem replace_refused {d : DepthBook} (hk : d.WellKeyed) {m : OrderReplaceMsg}
    (h : ∀ key prev, ¬ d.Finds m key prev) : d.apply (.orderReplace m) = ⟨false, d, none⟩ := by
  rw [apply, applyReplace]
  cases hid : d.orderToSymbol[m.originalOrderId]? with
  | none => rw [route_none hid]
  | some key =>
    obtain ⟨sym, hroute, -, -, -⟩ := hk.route hid
    rw [hroute]
    cases hlive : (d.bookAt key).orders[m.originalOrderId]? with
    | none => simp only [hlive]
    | some prev => exact absurd ⟨hid, hlive⟩ (h key prev)

theorem replace_found {d : DepthBook} (hk : d.WellKeyed) {m : OrderReplaceMsg} {key : SymbolKey}
    {prev : OrderState} (h : d.Finds m key prev) :
    (d.apply (.orderReplace m)).changed = true ∧
      ((d.apply (.orderReplace m)).book.bookAt key).orders =
        OrderTable.place ((d.bookAt key).orders.erase m.originalOrderId) m.newOrderId
          ⟨replacement m prev, m.ts⟩ ∧
      ∃ sym, d.symbolIndex[key]? = some sym ∧ symbolKey sym = key ∧
        (d.apply (.orderReplace m)).book.symbolForOrder m.newOrderId = some sym := by
  obtain ⟨sym, hroute, hsym, hindex, -⟩ := hk.route h.routed
  rw [apply, applyReplace, hroute]
  simp only [h.live]
  refine ⟨trivial, ?_, sym, hindex, hsym, ?_⟩
  · rw [bookAt_index, setBook_bookAt, if_pos rfl, SymbolBook.addOrder_orders, SymbolBook.deleteOrder_orders]
    rfl
  · simp [symbolForOrder, setBook, hindex]

theorem place_erased {t : OrderTable} {original new : OrderId} {o : OrderState} (hqty : o.qty ≠ 0) :
    ((OrderTable.place (t.erase original) new o)[new]?).map OrderState.toRestingOrder =
      if new ≠ original then ((t[new]?).map OrderState.toRestingOrder).or (some o.toRestingOrder)
      else some o.toRestingOrder := by
  unfold OrderTable.place
  rw [lookup_erase]
  by_cases hnew : new = original
  · simp [hnew, hqty]
  · simp only [hnew, hqty, ne_eq, not_false_iff, if_true, if_false, false_or]
    cases hold : t[new]? with
    | none => simp
    | some old => simp [lookup_erase, hnew, hold]

/-- A blocked Replace drops the original order, leaves the one in its way as it
was, and reports a change. -/
theorem blocked_loses {d : DepthBook} (hk : d.WellKeyed) {m : OrderReplaceMsg} (hm : m.shares ≠ 0)
    {key : SymbolKey} {prev o : OrderState} (h : d.Finds m key prev) (hnew : m.newOrderId ≠ m.originalOrderId)
    (ho : (d.bookAt key).orders[m.newOrderId]? = some o) :
    (d.apply (.orderReplace m)).changed = true ∧
      ((d.apply (.orderReplace m)).book.bookAt key).orders[m.originalOrderId]? = none ∧
      (((d.apply (.orderReplace m)).book.bookAt key).orders[m.newOrderId]?).map OrderState.toRestingOrder =
        some o.toRestingOrder := by
  obtain ⟨hchanged, horders, -⟩ := replace_found hk h
  refine ⟨hchanged, ?_, ?_⟩
  · rw [horders]
    exact OrderTable.place_erase_other _ hnew
  · rw [horders, place_erased hm, if_pos hnew, ho]
    rfl

theorem unblocked_replaced {d : DepthBook} (hk : d.WellKeyed) {m : OrderReplaceMsg} (hm : m.shares ≠ 0)
    {key : SymbolKey} {prev : OrderState} (h : d.Finds m key prev) (hfree : ¬ d.Blocked m) :
    d.Replaced m key prev (d.apply (.orderReplace m)).book := by
  obtain ⟨-, horders, hnamed⟩ := replace_found hk h
  refine ⟨?_, fun hnew => ?_, hnamed⟩
  · rw [horders, place_erased hm]
    split_ifs with hnew
    · cases ho : (d.bookAt key).orders[m.newOrderId]? with
      | none => rfl
      | some o =>
        -- the order in the way is the one asked for, or the Replace were blocked
        by_contra hne
        exact hfree ⟨key, prev, o, h, hnew, ho, fun heq => hne (congrArg some heq)⟩
    · rfl
  · rw [horders]
    exact OrderTable.place_erase_other _ hnew

theorem replace_allOrNothing {d : DepthBook} (hk : d.WellKeyed) {m : OrderReplaceMsg} (hm : m.shares ≠ 0) :
    d.AllOrNothing m ↔ ¬ d.Blocked m := by
  constructor
  · rintro ⟨hdone, -⟩ ⟨key, prev, o, hfinds, hnew, ho, hne⟩
    obtain ⟨hchanged, -, hkept⟩ := blocked_loses hk hm hfinds hnew ho
    obtain ⟨key', prev', hfinds', hreplaced⟩ := hdone hchanged
    obtain ⟨rfl, rfl⟩ := hfinds.unique hfinds'
    exact hne (Option.some.inj (hkept.symm.trans hreplaced.placed))
  · intro hfree
    by_cases hfinds : ∃ key prev, d.Finds m key prev
    · obtain ⟨key, prev, h⟩ := hfinds
      refine ⟨fun _ => ⟨key, prev, h, unblocked_replaced hk hm h hfree⟩, fun hsame => ?_⟩
      rw [(replace_found hk h).1] at hsame
      cases hsame
    · push Not at hfinds
      have hrefused := replace_refused hk hfinds
      refine ⟨fun h => ?_, fun _ => by rw [hrefused]⟩
      rw [hrefused] at h
      cases h

/-- After any messages, a Replace of shares is carried out or refused as a whole
exactly when its new id is not another order of the same book. -/
theorem replace_allOrNothing_iff (depth : ℕ) (msgs : List AnyMessage) (m : OrderReplaceMsg)
    (hm : m.shares ≠ 0) :
    (applyAll depth msgs).AllOrNothing m ↔ ¬ (applyAll depth msgs).Blocked m :=
  replace_allOrNothing (applyAll_wellKeyed depth msgs).1 hm

def twoOrdersSymbol : Symbol := #v[65, 65, 80, 76, 32, 32, 32, 32]

def twoOrders : List AnyMessage :=
  [.addOrder ⟨1, 0, 0, 1, Side.buy, 100, twoOrdersSymbol, 50⟩,
    .addOrder ⟨1, 0, 0, 2, Side.sell, 30, twoOrdersSymbol, 60⟩]

theorem free_id_replaced : (applyAll 10 twoOrders).AllOrNothing ⟨1, 0, 0, 1, 3, 40, 55⟩ := by
  refine (replace_allOrNothing_iff 10 twoOrders ⟨1, 0, 0, 1, 3, 40, 55⟩ (by decide)).mpr ?_
  rintro ⟨key, prev, o, hfinds, -, ho, -⟩
  have hkey : (applyAll 10 twoOrders).orderToSymbol[(1 : OrderId)]? = some (symbolKey twoOrdersSymbol) := by
    decide
  cases Option.some.inj (hkey.symm.trans hfinds.routed)
  have hfree : ((applyAll 10 twoOrders).bookAt (symbolKey twoOrdersSymbol)).hasOrder 3 = false := by decide
  have hnone := SymbolBook.hasOrder_eq_false.mp hfree
  cases hnone.symm.trans ho

/-- Order 1 replaced by order 2: a change is reported and order 1 is lost. -/
theorem live_id_blocks : ¬ ∀ (depth : ℕ) (msgs : List AnyMessage) (m : OrderReplaceMsg), m.shares ≠ 0 →
    (applyAll depth msgs).AllOrNothing m := by
  intro h
  refine (replace_allOrNothing (applyAll_wellKeyed 10 twoOrders).1 (by decide)).mp
    (h 10 twoOrders ⟨1, 0, 0, 1, 2, 40, 55⟩ (by decide)) ?_
  exact ⟨symbolKey twoOrdersSymbol, ⟨⟨Side.buy, 50, 100⟩, 0⟩, ⟨⟨Side.sell, 60, 30⟩, 0⟩,
    ⟨by decide, by decide⟩, by decide, by decide, by decide⟩

end DepthBook

end MdfeedItch
