import MdfeedItch.ByteLayout
import MdfeedItch.DepthBookRouting
import MdfeedItch.TraceRuns

/-! # The books as an aggregation of one flat order map

The purpose of a `DepthBook`: a single map from order ids to resting orders, shown
price level by price level. `Refines` ties the order tables and the index to the
map; one message keeps it when it brings no live id back to life and the shares
at every price of one side fit in 32 bits. -/
namespace MdfeedItch
open Std FiniteMapSums

structure FlatOrder extends RestingOrder where
  symbol : Symbol
  deriving DecidableEq, Repr

/-- Every key is the key of a symbol. -/
theorem symbolKey_surjective : Function.Surjective symbolKey := by
  intro key
  have hlen : (ByteLayout.toBytes symbolLen key.toNat).length = symbolLen := ByteLayout.length_toBytes _ _
  refine ⟨⟨(ByteLayout.toBytes symbolLen key.toNat).toArray, by simp⟩, ?_⟩
  have hvalue : ByteCursor.ofBytes (ByteLayout.toBytes symbolLen key.toNat) = key.toNat := by
    rw [ByteLayout.ofBytes_toBytes]
    exact Nat.mod_eq_of_lt key.toNat_lt
  rw [symbolKey, Vector.toList_mk, hvalue, UInt64.ofNat_toNat]

abbrev FlatMap := ExtTreeMap OrderId FlatOrder

namespace FlatMap

/-- A new order rests unless it has no shares. -/
def enter (t : FlatMap) (id : OrderId) (o : FlatOrder) : FlatMap := if o.qty = 0 then t else t.insert id o

/-- Shares leave an order; the last one takes the order along. -/
def withdraw (t : FlatMap) (id : OrderId) (shares : Quantity) : FlatMap :=
  match t[id]? with
  | none => t
  | some o => if o.qty ≤ shares then t.erase id else t.insert id ⟨⟨o.side, o.price, o.qty - shares⟩, o.symbol⟩

def act (t : FlatMap) : BookAction → FlatMap
  | .add m => t.enter m.orderId ⟨⟨m.side, m.price, m.shares⟩, m.symbol⟩
  | .reduce id shares _ => t.withdraw id shares
  | .delete id _ => t.erase id
  | .replace m =>
    match t[m.originalOrderId]? with
    | none => t
    | some o => enter (t.erase m.originalOrderId) m.newOrderId ⟨⟨o.side, m.price, m.shares⟩, o.symbol⟩

/-- What a message means for the live orders. -/
def apply (t : FlatMap) (m : AnyMessage) : FlatMap := m.action.elim t t.act

def applyAll (msgs : List AnyMessage) : FlatMap := msgs.foldl apply ∅

theorem applyAll_concat (msgs : List AnyMessage) (m : AnyMessage) :
    applyAll (msgs ++ [m]) = (applyAll msgs).apply m := by simp [applyAll]

/-- Shares of a symbol's live orders at a price of one side. -/
def qtyAt (t : FlatMap) (sym : Symbol) (buy : Bool) (p : Price) : ℕ :=
  sumOver t (fun o => if o.symbol = sym then o.qtyOn buy p else 0)

/-- Number of a symbol's live orders at a price of one side. -/
def countAt (t : FlatMap) (sym : Symbol) (buy : Bool) (p : Price) : ℕ :=
  sumOver t (fun o => if o.symbol = sym then o.countOn buy p else 0)

/-- The message introduces no id that is live; a Replace may keep the id it replaces. -/
def Introduces (t : FlatMap) (m : AnyMessage) : Prop :=
  match m.action with
  | some (.add a) => t[a.orderId]? = none
  | some (.replace r) => t[r.newOrderId]? = none ∨ r.newOrderId = r.originalOrderId
  | _ => True

instance (t : FlatMap) (m : AnyMessage) : Decidable (t.Introduces m) :=
  match h : m.action with
  | none => .isTrue (by simp [Introduces, h])
  | some (.add a) => decidable_of_iff (t[a.orderId]? = none) (by simp [Introduces, h])
  | some (.reduce ..) => .isTrue (by simp [Introduces, h])
  | some (.delete ..) => .isTrue (by simp [Introduces, h])
  | some (.replace r) =>
    decidable_of_iff (t[r.newOrderId]? = none ∨ r.newOrderId = r.originalOrderId) (by simp [Introduces, h])

/-- Nowhere do the live shares exceed what a level can hold. -/
def SumsFit (t : FlatMap) : Prop := ∀ sym buy p, t.qtyAt sym buy p < 2 ^ 32

theorem SumsFit.of_total {t : FlatMap} (h : sumOver t (fun o => o.qty.toNat) < 2 ^ 32) : t.SumsFit := by
  intro sym buy p
  refine (List.sum_le_sum fun e _ => ?_).trans_lt h
  dsimp only [RestingOrder.qtyOn]
  split_ifs <;> omega

end FlatMap

/-- An order table holds the orders of the map that belong under a key. -/
def Rows (orders : OrderTable) (t : FlatMap) (key : SymbolKey) : Prop :=
  ∀ id : OrderId, (orders[id]?).map OrderState.toRestingOrder =
    ((t[id]?).filter (fun o => symbolKey o.symbol = key)).map FlatOrder.toRestingOrder

namespace Rows
variable {orders : OrderTable} {t : FlatMap} {key : SymbolKey}

theorem of_none (h : Rows orders t key) {id : OrderId} (hid : t[id]? = none) : orders[id]? = none := by
  have := h id
  simpa [hid] using this

theorem of_here (h : Rows orders t key) {id : OrderId} {o : FlatOrder} (hid : t[id]? = some o)
    (hkey : symbolKey o.symbol = key) : ∃ ts, orders[id]? = some ⟨o.toRestingOrder, ts⟩ := by
  have hrow := h id
  rw [hid, Option.filter_some, if_pos (by simpa using hkey), Option.map_some] at hrow
  obtain ⟨s, hs, hso⟩ := Option.map_eq_some_iff.mp hrow
  exact ⟨s.ts, by rw [hs, ← hso]⟩

theorem of_elsewhere (h : Rows orders t key) {id : OrderId} {o : FlatOrder} (hid : t[id]? = some o)
    (hkey : symbolKey o.symbol ≠ key) : orders[id]? = none := by
  have hrow := h id
  rw [hid, Option.filter_some, if_neg (by simpa using hkey), Option.map_none] at hrow
  exact Option.map_eq_none_iff.mp hrow

/-- Equal rows have equal sums. -/
theorem sums (h : Rows orders t key) (f : RestingOrder → ℕ) :
    sumOver orders (fun o => f o.toRestingOrder) =
      sumOver t (fun o => if symbolKey o.symbol = key then f o.toRestingOrder else 0) := by
  apply sumOver_congr
  intro id
  cases hid : t[id]? with
  | none => rw [weightAt_none (h.of_none hid), weightAt_none hid]
  | some o =>
    by_cases hkey : symbolKey o.symbol = key
    · obtain ⟨ts, hs⟩ := h.of_here hid hkey
      rw [weightAt_some hs, weightAt_some hid, if_pos hkey]
    · rw [weightAt_none (h.of_elsewhere hid hkey), weightAt_some hid, if_neg hkey]

theorem levelQty {sym : Symbol} (h : Rows orders t (symbolKey sym)) (buy : Bool) :
    levelQty orders buy = t.qtyAt sym buy := by
  funext p
  have hsum := h.sums (RestingOrder.qtyOn buy p)
  simp only [symbolKey_injective.eq_iff] at hsum
  exact hsum

theorem levelCount {sym : Symbol} (h : Rows orders t (symbolKey sym)) (buy : Bool) :
    levelCount orders buy = t.countAt sym buy := by
  funext p
  have hsum := h.sums (RestingOrder.countOn buy p)
  simp only [symbolKey_injective.eq_iff] at hsum
  exact hsum

theorem erase (h : Rows orders t key) (id : OrderId) : Rows (orders.erase id) (t.erase id) key := by
  intro x
  rw [lookup_erase, lookup_erase]
  split_ifs
  · rfl
  · exact h x

/-- Removing an order of another book changes no row here. -/
theorem erase_elsewhere (h : Rows orders t key) {id : OrderId} (hid : orders[id]? = none) :
    Rows orders (t.erase id) key := by
  intro x
  rw [lookup_erase]
  split_ifs with hx
  · rw [hx, hid]
    rfl
  · exact h x

theorem insert_here (h : Rows orders t key) (id : OrderId) {o : FlatOrder} (hkey : symbolKey o.symbol = key)
    (ts : Timestamp) : Rows (orders.insert id ⟨o.toRestingOrder, ts⟩) (t.insert id o) key := by
  intro x
  rw [lookup_insert, lookup_insert]
  split_ifs
  · simp [hkey]
  · exact h x

theorem insert_elsewhere (h : Rows orders t key) {id : OrderId} {o : FlatOrder} (hkey : symbolKey o.symbol ≠ key)
    (hid : orders[id]? = none) : Rows orders (t.insert id o) key := by
  intro x
  rw [lookup_insert]
  split_ifs with hx
  · rw [hx, hid]
    simp [hkey]
  · exact h x

/-- `add_order` under a dead id is `enter`. -/
theorem place (h : Rows orders t key) {id : OrderId} {o : FlatOrder} (hkey : symbolKey o.symbol = key)
    (ts : Timestamp) (hid : orders[id]? = none) : Rows (orders.place id ⟨o.toRestingOrder, ts⟩) (t.enter id o) key := by
  unfold OrderTable.place FlatMap.enter
  simp only [hid, Option.isSome_none, Bool.false_eq_true, or_false]
  split_ifs
  · exact h
  · exact h.insert_here id hkey ts

theorem enter_elsewhere (h : Rows orders t key) {id : OrderId} {o : FlatOrder} (hkey : symbolKey o.symbol ≠ key)
    (hid : orders[id]? = none) : Rows orders (t.enter id o) key := by
  unfold FlatMap.enter
  split_ifs
  · exact h
  · exact h.insert_elsewhere hkey hid

/-- `reduce_order` of a live order is `withdraw`. -/
theorem reduce (h : Rows orders t key) {id : OrderId} {o : FlatOrder} (hid : t[id]? = some o)
    (hkey : symbolKey o.symbol = key) (shares : Quantity) (ts : Timestamp) :
    Rows (orders.step (.reduce id shares ts)) (t.withdraw id shares) key := by
  obtain ⟨ts', hs⟩ := h.of_here hid hkey
  simp only [OrderTable.step, OrderTable.resize, FlatMap.withdraw, hs, hid]
  by_cases hle : o.qty ≤ shares
  · simp only [hle, if_true]
    exact h.erase id
  · have hne : o.qty - shares ≠ 0 := by
      intro hz
      have hlt := UInt32.not_le.mp hle
      have hsub := UInt32.toNat_sub_of_le o.qty shares (UInt32.le_of_lt hlt)
      rw [hz, UInt32.toNat_zero] at hsub
      have := UInt32.lt_iff_toNat_lt.mp hlt
      omega
    simp only [hle, if_false, hne]
    exact h.insert_here id (o := ⟨⟨o.side, o.price, o.qty - shares⟩, o.symbol⟩) hkey ts

end Rows

/-- The books and the index hold exactly the orders of the map. -/
structure Holds (d : DepthBook) (t : FlatMap) : Prop where
  keyed : d.WellKeyed
  positive : ∀ key, (d.bookAt key).orders.QtyPos
  rows : ∀ key, Rows (d.bookAt key).orders t key
  routed : ∀ (id : OrderId) (o : FlatOrder), t[id]? = some o → d.orderToSymbol[id]? = some (symbolKey o.symbol)

theorem bookAt_new (depth : ℕ) (key : SymbolKey) : (DepthBook.new depth).bookAt key = SymbolBook.new depth := by
  simp [DepthBook.new, DepthBook.bookAt]

namespace Holds
open DepthBook
variable {d d' : DepthBook} {t t' : FlatMap} {a : BookAction}

theorem of_new (depth : ℕ) : Holds (DepthBook.new depth) ∅ := by
  refine ⟨new_wellKeyed depth, fun key => ?_, fun key id => ?_, fun id o ho => ?_⟩
  · rw [bookAt_new]
    exact (SymbolBook.new_aggregated depth).qtyPos
  · rw [bookAt_new]
    simp [SymbolBook.new]
  · simp at ho

/-- One call on the book of a symbol. -/
theorem after_call (h : Holds d t) (hf : d.Follows a d') (sym : Symbol) (op : BookOp)
    (hcall : ∀ key, d.callAt key a = if symbolKey sym = key then some op else none)
    (hrows : Rows ((d.bookAt (symbolKey sym)).orders.step op) t' (symbolKey sym))
    (hother : ∀ key, symbolKey sym ≠ key → Rows (d.bookAt key).orders t' key)
    (hrouted : ∀ (id : OrderId) (o : FlatOrder), t'[id]? = some o → d'.orderToSymbol[id]? = some (symbolKey o.symbol)) :
    Holds d' t' := by
  have hhere : (d'.bookAt (symbolKey sym)).orders = (d.bookAt (symbolKey sym)).orders.step op := by
    rw [hf.books, bookAfter, hcall, if_pos rfl]
    exact SymbolBook.exec_orders (h.positive _) op
  have haway : ∀ key, symbolKey sym ≠ key → d'.bookAt key = d.bookAt key := by
    intro key hne
    rw [hf.books, bookAfter, hcall, if_neg hne]
  have hbook : ∀ key, (d'.bookAt key).orders.QtyPos ∧ Rows (d'.bookAt key).orders t' key := by
    intro key
    by_cases hne : symbolKey sym = key
    · rw [← hne, hhere]
      exact ⟨(h.positive _).step op, hrows⟩
    · rw [haway key hne]
      exact ⟨h.positive key, hother key hne⟩
  exact ⟨hf.keyed, fun key => (hbook key).1, fun key => (hbook key).2, hrouted⟩

/-- A message that names an order living nowhere. -/
theorem after_dead (h : Holds d t) (hf : d.Follows a d') {x : OrderId} (ha : a.names = some x)
    (hx : t[x]? = none) : Holds d' t := by
  obtain ⟨hbooks, hindex⟩ := DepthBook.after_dead ha
    (fun key => SymbolBook.hasOrder_eq_false.mpr ((h.rows key).of_none hx))
  have hsame : ∀ key, d'.bookAt key = d.bookAt key := fun key => (hf.books key).trans (hbooks key)
  refine ⟨hf.keyed, fun key => ?_, fun key => ?_, fun id o ho => ?_⟩
  · rw [hsame]
    exact h.positive key
  · rw [hsame]
    exact h.rows key
  · rw [hf.index, hindex]
    exact h.routed id o ho

theorem after_add (h : Holds d t) {m : AddOrderMsg} (hf : d.Follows (.add m) d')
    (hdead : t[m.orderId]? = none) : Holds d' (t.act (.add m)) := by
  refine h.after_call hf m.symbol _ (fun key => rfl) ?_ (fun key hne => ?_) (fun id o ho => ?_)
  · exact (h.rows _).place (o := ⟨⟨m.side, m.price, m.shares⟩, m.symbol⟩) rfl m.ts ((h.rows _).of_none hdead)
  · exact (h.rows key).enter_elsewhere hne ((h.rows key).of_none hdead)
  · rw [hf.index, indexAfter]
    simp only [FlatMap.act, FlatMap.enter] at ho
    split_ifs at ho with hzero
    · rw [if_neg (by rintro rfl; simp [hdead] at ho)]
      exact h.routed id o ho
    · rw [lookup_insert] at ho
      split_ifs at ho ⊢
      · cases ho
        rfl
      · exact h.routed id o ho

theorem after_reduce (h : Holds d t) {x : OrderId} {shares : Quantity} {ts : Timestamp}
    (hf : d.Follows (.reduce x shares ts) d') : Holds d' (t.act (.reduce x shares ts)) := by
  cases hx : t[x]? with
  | none =>
    have hact : t.act (.reduce x shares ts) = t := by simp [FlatMap.act, FlatMap.withdraw, hx]
    rw [hact]
    exact h.after_dead hf rfl hx
  | some o =>
    have hindex := h.routed x o hx
    have hhere := (h.rows (symbolKey o.symbol)).reduce hx rfl shares ts
    refine h.after_call hf o.symbol (.reduce x shares ts) (fun key => ?_) hhere
      (fun key hne => ?_) (fun id o' ho => ?_)
    · simp [callAt, hindex]
    · have hnone := (h.rows key).of_elsewhere hx hne
      simp only [FlatMap.act, FlatMap.withdraw, hx]
      split_ifs
      · exact (h.rows key).erase_elsewhere hnone
      · exact (h.rows key).insert_elsewhere hne hnone
    · rw [hf.index, indexAfter, hindex]
      dsimp only
      by_cases hid : id = x
      · -- the order survives, so its book still holds it and the entry stays
        subst hid
        have hsym : o'.symbol = o.symbol := by
          simp only [FlatMap.act, FlatMap.withdraw, hx] at ho
          split_ifs at ho
          · simp at ho
          · simp only [lookup_insert, if_true] at ho
            cases ho
            rfl
        obtain ⟨ts', hs⟩ := hhere.of_here ho (congrArg symbolKey hsym)
        have hlive : (d.bookAfter (.reduce id shares ts) (symbolKey o.symbol)).hasOrder id = true := by
          rw [bookAfter, callAt, if_pos hindex, SymbolBook.hasOrder,
            SymbolBook.exec_orders (h.positive _), hs]
          rfl
        rw [if_neg (by simp [hlive]), hindex, hsym]
      · rw [if_neg (by simp [hid])]
        refine h.routed id o' ?_
        simp only [FlatMap.act, FlatMap.withdraw, hx] at ho
        split_ifs at ho
        · rwa [lookup_erase, if_neg hid] at ho
        · rwa [lookup_insert, if_neg hid] at ho

theorem after_delete (h : Holds d t) {x : OrderId} {ts : Timestamp}
    (hf : d.Follows (.delete x ts) d') : Holds d' (t.act (.delete x ts)) := by
  cases hx : t[x]? with
  | none =>
    have hact : t.act (.delete x ts) = t := by
      apply ExtTreeMap.ext_getElem?
      intro id
      rw [FlatMap.act, lookup_erase]
      split_ifs with hid
      · rw [hid, hx]
      · rfl
    rw [hact]
    exact h.after_dead hf rfl hx
  | some o =>
    have hindex := h.routed x o hx
    refine h.after_call hf o.symbol (.delete x ts) (fun key => ?_)
      ((h.rows _).erase x) (fun key hne => ?_) (fun id o' ho => ?_)
    · simp [callAt, hindex]
    · exact (h.rows key).erase_elsewhere ((h.rows key).of_elsewhere hx hne)
    · rw [FlatMap.act, lookup_erase] at ho
      split_ifs at ho with hid
      rw [hf.index, indexAfter, hindex]
      dsimp only
      rw [if_neg (by simp [hid])]
      exact h.routed id o' ho

theorem after_replace (h : Holds d t) {m : OrderReplaceMsg} (hf : d.Follows (.replace m) d')
    (hdead : t[m.newOrderId]? = none ∨ m.newOrderId = m.originalOrderId) : Holds d' (t.act (.replace m)) := by
  cases hx : t[m.originalOrderId]? with
  | none =>
    have hact : t.act (.replace m) = t := by simp [FlatMap.act, hx]
    rw [hact]
    exact h.after_dead hf rfl hx
  | some o =>
    have hindex := h.routed _ o hx
    have hact : t.act (.replace m) = FlatMap.enter (t.erase m.originalOrderId) m.newOrderId
        ⟨⟨o.side, m.price, m.shares⟩, o.symbol⟩ := by simp [FlatMap.act, hx]
    have hnew : (t.erase m.originalOrderId)[m.newOrderId]? = none := by
      rw [lookup_erase]
      rcases hdead with hnone | heq
      · rw [hnone, ite_self]
      · rw [if_pos heq]
    obtain ⟨ts', hs⟩ := (h.rows (symbolKey o.symbol)).of_here hx rfl
    have herased := (h.rows (symbolKey o.symbol)).erase m.originalOrderId
    rw [hact]
    refine h.after_call hf o.symbol
      (.replace m.originalOrderId m.newOrderId m.price m.shares m.ts) (fun key => ?_) ?_
      (fun key hne => ?_) (fun id o' ho => ?_)
    · simp [callAt, hindex]
    · simp only [OrderTable.step, hs]
      exact herased.place (o := ⟨⟨o.side, m.price, m.shares⟩, o.symbol⟩) rfl m.ts (herased.of_none hnew)
    · have haway := (h.rows key).erase_elsewhere ((h.rows key).of_elsewhere hx hne)
      exact haway.enter_elsewhere hne (haway.of_none hnew)
    · have hlive : (d.bookAt (symbolKey o.symbol)).hasOrder m.originalOrderId = true := by
        simp [SymbolBook.hasOrder, hs]
      rw [hf.index, indexAfter, hindex]
      dsimp only
      rw [if_pos hlive]
      unfold FlatMap.enter at ho
      by_cases hid : id = m.newOrderId
      · subst hid
        rw [if_pos rfl]
        split_ifs at ho
        · rw [hnew] at ho
          cases ho
        · simp only [lookup_insert, if_true] at ho
          cases ho
          rfl
      · have hold : (t.erase m.originalOrderId)[id]? = some o' := by
          split_ifs at ho
          · exact ho
          · rwa [lookup_insert, if_neg hid] at ho
        rw [lookup_erase] at hold
        split_ifs at hold with horig
        rw [if_neg hid, if_neg horig]
        exact h.routed id o' hold

theorem apply (h : Holds d t) (m : AnyMessage) (hnew : t.Introduces m) : Holds (d.apply m).book (t.apply m) := by
  have hm := apply_follows h.keyed m
  unfold FlatMap.apply
  unfold FlatMap.Introduces at hnew
  cases ha : m.action with
  | none =>
    rw [ha] at hm
    rw [hm]
    exact h
  | some a =>
    rw [ha] at hm hnew
    cases a with
    | add m => exact h.after_add hm hnew
    | reduce id shares ts => exact h.after_reduce hm
    | delete id ts => exact h.after_delete hm
    | replace m => exact h.after_replace hm hnew

/-- A message that names a live order finds it. -/
theorem reaches (h : Holds d t) {x : OrderId} {o : FlatOrder} (hx : t[x]? = some o) :
    ∃ sym, d.route x = some (symbolKey o.symbol, sym, d.bookAt (symbolKey o.symbol)) ∧
      ∃ ts, (d.bookAt (symbolKey o.symbol)).orders[x]? = some ⟨o.toRestingOrder, ts⟩ := by
  obtain ⟨sym, hroute, -, -, -⟩ := h.keyed.route (h.routed x o hx)
  exact ⟨sym, hroute, (h.rows _).of_here hx rfl⟩

theorem applyReduce_changed (h : Holds d t) {x : OrderId} {o : FlatOrder} (hx : t[x]? = some o) (shares : Quantity)
    (ts : Timestamp) : (d.applyReduce x shares ts).changed = true := by
  obtain ⟨sym, hroute, ts', hs⟩ := h.reaches hx
  have hfound : ((d.bookAt (symbolKey o.symbol)).reduceOrder x shares ts).1 = true := by
    rw [SymbolBook.reduceOrder_fst, SymbolBook.hasOrder, hs]
    rfl
  rw [applyReduce, hroute]
  exact congrArg ApplyResult.changed (if_pos hfound)

theorem applyDelete_changed (h : Holds d t) {x : OrderId} {o : FlatOrder} (hx : t[x]? = some o) (ts : Timestamp) :
    (d.applyDelete x ts).changed = true := by
  obtain ⟨sym, hroute, ts', hs⟩ := h.reaches hx
  have hfound : ((d.bookAt (symbolKey o.symbol)).deleteOrder x ts).1 = true := by
    rw [SymbolBook.deleteOrder_fst, SymbolBook.hasOrder, hs]
    rfl
  rw [applyDelete, hroute]
  exact congrArg ApplyResult.changed (if_pos hfound)

theorem applyReplace_changed (h : Holds d t) {m : OrderReplaceMsg} {o : FlatOrder} (hx : t[m.originalOrderId]? = some o) :
    (d.applyReplace m).changed = true := by
  obtain ⟨sym, hroute, ts, hs⟩ := h.reaches hx
  simp only [applyReplace, hroute, hs]

/-- Every message that acts on the books changes them, if the order that it names is live. -/
theorem changed (h : Holds d t) {m : AnyMessage} {a : BookAction} (ha : m.action = some a)
    (hlive : ∀ x, a.names = some x → ∃ o, t[x]? = some o) : (d.apply m).changed = true := by
  cases m with
  | addOrder m => rfl
  | addOrderMPID m => rfl
  | orderExecuted m | orderExecutedWithPrice m | orderCancel m =>
    cases ha
    obtain ⟨o, ho⟩ := hlive _ rfl
    exact h.applyReduce_changed ho _ _
  | orderDelete m =>
    cases ha
    obtain ⟨o, ho⟩ := hlive _ rfl
    exact h.applyDelete_changed ho _
  | orderReplace m =>
    cases ha
    obtain ⟨o, ho⟩ := hlive _ rfl
    exact h.applyReplace_changed ho
  | trade m | systemEvent m | stockDirectory m => cases ha

end Holds

/-- The books and the index hold exactly the orders of the map, aggregated. -/
structure Refines (d : DepthBook) (t : FlatMap) : Prop where
  keyed : d.WellKeyed
  depths : ∀ key, (d.bookAt key).depth = d.depth
  aggregated : ∀ key, (d.bookAt key).Aggregated
  rows : ∀ key, Rows (d.bookAt key).orders t key
  routed : ∀ (id : OrderId) (o : FlatOrder), t[id]? = some o → d.orderToSymbol[id]? = some (symbolKey o.symbol)

namespace Refines
open DepthBook
variable {d d' : DepthBook} {t t' : FlatMap} {a : BookAction}

theorem of_new (depth : ℕ) : Refines (DepthBook.new depth) ∅ := by
  obtain ⟨hkeyed, -, hrows, hrouted⟩ := Holds.of_new depth
  refine ⟨hkeyed, fun key => ?_, fun key => ?_, hrows, hrouted⟩
  · rw [bookAt_new]
    rfl
  · rw [bookAt_new]
    exact SymbolBook.new_aggregated depth

theorem holds (h : Refines d t) : Holds d t := ⟨h.keyed, fun key => (h.aggregated key).qtyPos, h.rows, h.routed⟩

/-- A book whose shares fit stays aggregated under any call. -/
theorem exec (h : Refines d t) (hfit : t.SumsFit) (key : SymbolKey) (op : BookOp) : ((d.bookAt key).exec op).Aggregated := by
  obtain ⟨sym, rfl⟩ := symbolKey_surjective key
  have hagg := h.aggregated (symbolKey sym)
  have hsmall : ∀ buy p, levelQty (d.bookAt (symbolKey sym)).orders buy p < 2 ^ 32 := by
    intro buy p
    rw [(h.rows (symbolKey sym)).levelQty]
    exact hfit sym buy p
  exact hagg.exec op (CountsFit.of_small hagg.qtyPos hsmall) (KeepsLevels.of_small (hagg.qtyPos.withdraw op) hsmall)

/-- The orders after a message are those of the map; its books stay aggregated. -/
theorem of_holds (h : Refines d t) (hfit : t.SumsFit) (hf : d.Follows a d') (hd' : Holds d' t') : Refines d' t' := by
  have hbook : ∀ key, (d'.bookAt key).depth = d.depth ∧ (d'.bookAt key).Aggregated := by
    intro key
    rw [hf.books, bookAfter]
    cases d.callAt key a with
    | none => exact ⟨h.depths key, h.aggregated key⟩
    | some op => exact ⟨(SymbolBook.exec_depth _ op).trans (h.depths key), h.exec hfit key op⟩
  exact ⟨hd'.keyed, fun key => (hbook key).1.trans hf.depth.symm, fun key => (hbook key).2, hd'.rows, hd'.routed⟩

theorem apply (h : Refines d t) (hfit : t.SumsFit) (m : AnyMessage) (hnew : t.Introduces m) :
    Refines (d.apply m).book (t.apply m) := by
  have hm := apply_follows h.keyed m
  have hheld := h.holds.apply m hnew
  cases ha : m.action with
  | none =>
    rw [ha] at hm
    rw [FlatMap.apply, hm, ha]
    exact h
  | some a =>
    rw [ha] at hm
    exact h.of_holds hfit hm hheld

theorem applyAll (depth : ℕ) (msgs : List AnyMessage)
    (hnew : ∀ pre m, pre ++ [m] <+: msgs → (FlatMap.applyAll pre).Introduces m)
    (hfit : ∀ pre, pre <+: msgs → (FlatMap.applyAll pre).SumsFit) :
    Refines (DepthBook.applyAll depth msgs) (FlatMap.applyAll msgs) := by
  induction msgs using List.reverseRecOn with
  | nil => exact of_new depth
  | append_singleton msgs m ih =>
    have hsub : msgs <+: msgs ++ [m] := List.prefix_append msgs [m]
    have hprev := ih (fun pre m' hpre => hnew pre m' (hpre.trans hsub)) (fun pre hpre => hfit pre (hpre.trans hsub))
    rw [applyAll_concat, FlatMap.applyAll_concat]
    exact hprev.apply (hfit msgs hsub) m (hnew msgs m (List.prefix_refl _))

theorem lookup (h : Refines d t) {id : OrderId} {o : FlatOrder} (ho : t[id]? = some o) :
    d.symbolForOrder id = some o.symbol := by
  have hindex := h.routed id o ho
  obtain ⟨sym, -, hkey, hsym, -⟩ := h.keyed.route hindex
  rw [symbolForOrder, hindex]
  exact hsym.trans (congrArg some (symbolKey_injective hkey))

theorem showsBest (h : Refines d t) (hfit : t.SumsFit) (sym : Symbol) (buy : Bool) :
    ShowsBest buy d.depth (t.qtyAt sym buy) (t.countAt sym buy) ((d.bookAt (symbolKey sym)).top buy) := by
  have hagg := h.aggregated (symbolKey sym)
  have hrows := h.rows (symbolKey sym)
  rw [← h.depths (symbolKey sym), ← hrows.levelQty, ← hrows.levelCount]
  have hqty : ∀ p, levelQty (d.bookAt (symbolKey sym)).orders buy p < 2 ^ 32 := by
    intro p
    rw [hrows.levelQty]
    exact hfit sym buy p
  exact hagg.carries.showsBest buy hqty (fun p => (levelCount_le_levelQty hagg.qtyPos buy p).trans_lt (hqty p))

end Refines

/-- What the accessors of the books show is the map, aggregated to a depth. -/
structure Shows (d : DepthBook) (depth : ℕ) (t : FlatMap) : Prop where
  bids : ∀ sym, ShowsBest true depth (t.qtyAt sym true) (t.countAt sym true) (d.snapshot sym).bids
  asks : ∀ sym, ShowsBest false depth (t.qtyAt sym false) (t.countAt sym false) (d.snapshot sym).asks
  orders : ∀ sym, Rows (d.bookAt (symbolKey sym)).orders t (symbolKey sym)
  lookup : ∀ (id : OrderId) (o : FlatOrder), t[id]? = some o → d.symbolForOrder id = some o.symbol

/-- Messages that introduce no live id, over shares that fit in 32 bits, leave
exactly the levels, orders and routes of the flat map. -/
theorem applyAll_shows (depth : ℕ) (msgs : List AnyMessage)
    (hnew : ∀ pre m, pre ++ [m] <+: msgs → (FlatMap.applyAll pre).Introduces m)
    (hfit : ∀ pre, pre <+: msgs → (FlatMap.applyAll pre).SumsFit) :
    Shows (DepthBook.applyAll depth msgs) depth (FlatMap.applyAll msgs) := by
  have h := Refines.applyAll depth msgs hnew hfit
  have hshown : ∀ sym buy, ShowsBest buy depth ((FlatMap.applyAll msgs).qtyAt sym buy)
      ((FlatMap.applyAll msgs).countAt sym buy)
      (((DepthBook.applyAll depth msgs).bookAt (symbolKey sym)).top buy) := by
    intro sym buy
    have hbest := h.showsBest (hfit msgs (List.prefix_refl msgs)) sym buy
    rwa [(DepthBook.applyAll_wellKeyed depth msgs).2] at hbest
  refine ⟨fun sym => ?_, fun sym => ?_, fun sym => h.rows _, fun id o ho => h.lookup ho⟩
  · rw [(DepthBook.snapshot_sides _ sym).1]
    exact hshown sym true
  · rw [(DepthBook.snapshot_sides _ sym).2]
    exact hshown sym false

section Example

private def aapl : Symbol := makeSymbol [65, 65, 80, 76]

/-- Two bids and an ask; one bid is executed in part, then replaced at the price of the other. -/
private def session : List AnyMessage :=
  [.addOrder ⟨1, 0, 10, 1, Side.buy, 100, aapl, 5000⟩,
   .addOrder ⟨1, 0, 11, 2, Side.buy, 50, aapl, 4900⟩,
   .addOrderMPID ⟨⟨1, 0, 12, 3, Side.sell, 70, aapl, 5100⟩, #v[0, 0, 0, 0]⟩,
   .orderExecuted ⟨1, 0, 13, 1, 40, 900⟩,
   .orderReplace ⟨1, 0, 14, 1, 4, 60, 4900⟩,
   .orderDelete ⟨1, 0, 15, 9⟩]

theorem session_shows : Shows (DepthBook.applyAll 1 session) 1 (FlatMap.applyAll session) ∧
    ((DepthBook.applyAll 1 session).snapshot aapl).bids = [⟨4900, 110, 2⟩] := by
  refine ⟨applyAll_shows 1 session ?_ ?_, by decide⟩
  · rw [TraceRuns.forall_step_iff]
    decide
  · have hsmall : ∀ n, n ≤ session.length →
        sumOver (FlatMap.applyAll (session.take n)) (fun o => o.qty.toNat) < 2 ^ 32 := by decide
    exact TraceRuns.forall_prefix_iff.mpr (fun n hn => FlatMap.SumsFit.of_total (hsmall n hn))

end Example

end MdfeedItch
