import MdfeedItch.DepthBook
import MdfeedItch.SymbolBookAggregation

/-! # What one message does to the books and to the index

A message makes at most one call, on the book of its symbol or on the book the
index names for its order. `apply_bookAt` gives every book after a message,
`apply_index` every index entry; later modules reason from these two. -/
namespace MdfeedItch
open Std FiniteMapSums

/-- The messages by their effect on a book, however many type codes share it. -/
inductive BookAction
  | add (m : AddOrderMsg)
  | reduce (id : OrderId) (shares : Quantity) (ts : Timestamp)
  | delete (id : OrderId) (ts : Timestamp)
  | replace (m : OrderReplaceMsg)
  deriving DecidableEq, Repr

def AnyMessage.action : AnyMessage → Option BookAction
  | .addOrder m => some (.add m)
  | .addOrderMPID m => some (.add m.base)
  | .orderExecuted m => some (.reduce m.orderId m.executedShares m.ts)
  | .orderExecutedWithPrice m => some (.reduce m.base.orderId m.base.executedShares m.base.ts)
  | .orderCancel m => some (.reduce m.orderId m.canceledShares m.ts)
  | .orderDelete m => some (.delete m.orderId m.ts)
  | .orderReplace m => some (.replace m)
  | .trade _ | .systemEvent _ | .stockDirectory _ => none

/-- The order that an action looks up before it touches a book. -/
def BookAction.names : BookAction → Option OrderId
  | .add _ => none
  | .reduce id _ _ => some id
  | .delete id _ => some id
  | .replace m => some m.originalOrderId

namespace SymbolBook

theorem hasOrder_eq_false {b : SymbolBook} {id : OrderId} : b.hasOrder id = false ↔ b.orders[id]? = none := by
  rw [hasOrder, Option.isSome_eq_false_iff, Option.isNone_iff_eq_none]

theorem modifyOrder_fst (b : SymbolBook) (id : OrderId) (newQty : Quantity) (ts : Timestamp) :
    (b.modifyOrder id newQty ts).1 = b.hasOrder id := by
  unfold modifyOrder hasOrder
  split
  · simp [*]
  · dsimp only
    split_ifs <;> simp [*]

theorem reduceOrder_fst (b : SymbolBook) (id : OrderId) (shares : Quantity) (ts : Timestamp) :
    (b.reduceOrder id shares ts).1 = b.hasOrder id := by
  unfold reduceOrder
  split
  · simp [hasOrder, *]
  · rw [modifyOrder_fst]

theorem deleteOrder_fst (b : SymbolBook) (id : OrderId) (ts : Timestamp) :
    (b.deleteOrder id ts).1 = b.hasOrder id := by
  unfold deleteOrder hasOrder
  split <;> simp [*]

/-- A call naming an order that is not live leaves the book as it is. -/
theorem exec_absent {b : SymbolBook} {id : OrderId} (h : b.hasOrder id = false) :
    (∀ shares ts, b.exec (.reduce id shares ts) = b) ∧ (∀ ts, b.exec (.delete id ts) = b) ∧
      ∀ newId price shares ts, b.exec (.replace id newId price shares ts) = b := by
  rw [hasOrder_eq_false] at h
  refine ⟨fun shares ts => ?_, fun ts => ?_, fun newId price shares ts => ?_⟩
  · simp [exec, reduceOrder, h]
  · simp [exec, deleteOrder, h]
  · simp [exec, replaceOrder, h]

end SymbolBook

namespace DepthBook

/-- The three maps speak about the same symbols. -/
structure WellKeyed (d : DepthBook) : Prop where
  tracked : ∀ key : SymbolKey, (d.books[key]?).isSome ↔ (d.symbolIndex[key]?).isSome
  symbol : ∀ (key : SymbolKey) (sym : Symbol), d.symbolIndex[key]? = some sym → symbolKey sym = key
  routed : ∀ (id : OrderId) (key : SymbolKey), d.orderToSymbol[id]? = some key → (d.books[key]?).isSome

theorem new_wellKeyed (depth : ℕ) : (new depth).WellKeyed := by
  refine ⟨fun key => ?_, fun key sym h => ?_, fun id key h => ?_⟩
  · simp [new]
  · simp [new] at h
  · simp [new] at h

theorem bookAt_of_some {d : DepthBook} {key : SymbolKey} {b : SymbolBook} (h : d.books[key]? = some b) :
    d.bookAt key = b := by simp [bookAt, h]

/-- The accessors show the slices of the symbol's book. -/
theorem snapshot_sides (d : DepthBook) (sym : Symbol) :
    (d.snapshot sym).bids = (d.bookAt (symbolKey sym)).top true ∧
      (d.snapshot sym).asks = (d.bookAt (symbolKey sym)).top false := by
  unfold snapshot bookAt
  cases d.books[symbolKey sym]? with
  | none => exact ⟨rfl, rfl⟩
  | some b => exact ⟨rfl, rfl⟩

/-- An id with an index entry is routed to the book stored under its key. -/
theorem WellKeyed.route {d : DepthBook} (h : d.WellKeyed) {id : OrderId} {key : SymbolKey}
    (hid : d.orderToSymbol[id]? = some key) :
    ∃ sym, d.route id = some (key, sym, d.bookAt key) ∧ symbolKey sym = key ∧
      d.symbolIndex[key]? = some sym ∧ d.books[key]? = some (d.bookAt key) := by
  have hbook := h.routed id key hid
  obtain ⟨b, hb⟩ := Option.isSome_iff_exists.mp hbook
  obtain ⟨sym, hsym⟩ := Option.isSome_iff_exists.mp ((h.tracked key).mp hbook)
  rw [bookAt_of_some hb]
  refine ⟨sym, ?_, h.symbol key sym hsym, hsym, hb⟩
  simp [DepthBook.route, hid, hsym, hb]

theorem route_none {d : DepthBook} {id : OrderId} (hid : d.orderToSymbol[id]? = none) : d.route id = none := by
  simp [DepthBook.route, hid]

@[simp] theorem setBook_bookAt (d : DepthBook) (key k : SymbolKey) (b : SymbolBook) :
    (d.setBook key b).bookAt k = if key = k then b else d.bookAt k := by
  unfold bookAt setBook
  rw [lookup_insert]
  simp only [eq_comm]
  split_ifs <;> rfl

@[simp] theorem setBook_depth (d : DepthBook) (key : SymbolKey) (b : SymbolBook) :
    (d.setBook key b).depth = d.depth := rfl

@[simp] theorem setBook_orderToSymbol (d : DepthBook) (key : SymbolKey) (b : SymbolBook) :
    (d.setBook key b).orderToSymbol = d.orderToSymbol := rfl

/-- Books are looked up by key only, whatever the index says. -/
@[simp] theorem bookAt_index (d : DepthBook) (index : ExtTreeMap OrderId SymbolKey) (k : SymbolKey) :
    ({ d with orderToSymbol := index } : DepthBook).bookAt k = d.bookAt k := rfl

@[simp] theorem bookFor_depth (d : DepthBook) (sym : Symbol) : (d.bookFor sym).depth = d.depth := by
  unfold bookFor
  dsimp only
  split <;> rfl

@[simp] theorem bookFor_orderToSymbol (d : DepthBook) (sym : Symbol) :
    (d.bookFor sym).orderToSymbol = d.orderToSymbol := by
  unfold bookFor
  dsimp only
  split <;> rfl

@[simp] theorem bookFor_bookAt (d : DepthBook) (sym : Symbol) (k : SymbolKey) :
    (d.bookFor sym).bookAt k = d.bookAt k := by
  unfold bookFor
  dsimp only
  cases hb : d.books[symbolKey sym]? with
  | some b => rfl
  | none =>
    have hset := setBook_bookAt d (symbolKey sym) k (SymbolBook.new d.depth)
    refine hset.trans ?_
    split_ifs with he
    · rw [← he, bookAt, hb]
      rfl
    · rfl

/-- The call a message makes on the book under a key. -/
def callAt (d : DepthBook) (key : SymbolKey) : BookAction → Option BookOp
  | .add m => if symbolKey m.symbol = key then some (.add m.orderId m.side m.price m.shares m.ts) else none
  | .reduce id shares ts => if d.orderToSymbol[id]? = some key then some (.reduce id shares ts) else none
  | .delete id ts => if d.orderToSymbol[id]? = some key then some (.delete id ts) else none
  | .replace m =>
    if d.orderToSymbol[m.originalOrderId]? = some key then
      some (.replace m.originalOrderId m.newOrderId m.price m.shares m.ts)
    else none

/-- The book under a key after a message. -/
def bookAfter (d : DepthBook) (a : BookAction) (key : SymbolKey) : SymbolBook :=
  match d.callAt key a with
  | none => d.bookAt key
  | some op => (d.bookAt key).exec op

/-- The index entry of an id after a message. -/
def indexAfter (d : DepthBook) (a : BookAction) (id : OrderId) : Option SymbolKey :=
  match a with
  | .add m => if id = m.orderId then some (symbolKey m.symbol) else d.orderToSymbol[id]?
  | .reduce x _ _ | .delete x _ =>
    match d.orderToSymbol[x]? with
    | none => d.orderToSymbol[id]?
    | some key =>
      if id = x ∧ (d.bookAt key).hasOrder x ∧ ¬ (d.bookAfter a key).hasOrder x then none
      else d.orderToSymbol[id]?
  | .replace m =>
    match d.orderToSymbol[m.originalOrderId]? with
    | none => d.orderToSymbol[id]?
    | some key =>
      if (d.bookAt key).hasOrder m.originalOrderId then
        if id = m.newOrderId then some key
        else if id = m.originalOrderId then none
        else d.orderToSymbol[id]?
      else d.orderToSymbol[id]?

/-- An index entry is an old one, that of an Add, or the one that a Replace hands on. -/
theorem indexAfter_origin {d : DepthBook} {a : BookAction} {id : OrderId} {key : SymbolKey}
    (h : d.indexAfter a id = some key) : d.orderToSymbol[id]? = some key ∨
      (∃ m, a = .add m ∧ symbolKey m.symbol = key) ∨ ∃ m, a = .replace m ∧ d.orderToSymbol[m.originalOrderId]? = some key := by
  cases a with
  | add m =>
    simp only [indexAfter] at h
    split_ifs at h
    · exact Or.inr (Or.inl ⟨m, rfl, Option.some.inj h⟩)
    · exact Or.inl h
  | reduce x shares ts =>
    simp only [indexAfter] at h
    cases hx : d.orderToSymbol[x]? with
    | none => exact Or.inl (by simpa only [hx] using h)
    | some k =>
      simp only [hx] at h
      split_ifs at h
      exact Or.inl h
  | delete x ts =>
    simp only [indexAfter] at h
    cases hx : d.orderToSymbol[x]? with
    | none => exact Or.inl (by simpa only [hx] using h)
    | some k =>
      simp only [hx] at h
      split_ifs at h
      exact Or.inl h
  | replace m =>
    simp only [indexAfter] at h
    cases hx : d.orderToSymbol[m.originalOrderId]? with
    | none => exact Or.inl (by simpa only [hx] using h)
    | some k =>
      simp only [hx] at h
      split_ifs at h
      · exact Or.inr (Or.inr ⟨m, rfl, hx.trans h⟩)
      · exact Or.inl h
      · exact Or.inl h

/-! ## The three maps stay keyed alike -/

theorem WellKeyed.setBook {d : DepthBook} (h : d.WellKeyed) {key : SymbolKey} (b : SymbolBook)
    (hkey : (d.books[key]?).isSome) : (d.setBook key b).WellKeyed := by
  have hsome : ∀ k : SymbolKey, ((d.books.insert key b)[k]?).isSome ↔ (d.books[k]?).isSome := by
    intro k
    rw [lookup_insert]
    split_ifs with he
    · rw [he]
      simp [hkey]
    · rfl
  refine ⟨fun k => ?_, h.symbol, fun id k hid => ?_⟩
  · exact (hsome k).trans (h.tracked k)
  · exact (hsome k).mpr (h.routed id k hid)

theorem WellKeyed.bookFor {d : DepthBook} (h : d.WellKeyed) (sym : Symbol) :
    (d.bookFor sym).WellKeyed ∧ ((d.bookFor sym).books[symbolKey sym]?).isSome := by
  unfold DepthBook.bookFor
  dsimp only
  cases hb : d.books[symbolKey sym]? with
  | some b => exact ⟨h, by simp [hb]⟩
  | none =>
    have hnew : d.symbolIndex[symbolKey sym]? = none := by
      have := h.tracked (symbolKey sym)
      simpa [hb] using this
    refine ⟨⟨fun k => ?_, fun k s hs => ?_, fun id k hid => ?_⟩, ?_⟩
    · simp only [DepthBook.setBook, lookup_insert, lookup_insertIfNew, hnew, and_true]
      split_ifs
      · simp
      · exact h.tracked k
    · simp only [lookup_insertIfNew, hnew, and_true] at hs
      split_ifs at hs with he
      · cases hs
        exact he.symm
      · exact h.symbol k s hs
    · simp only [DepthBook.setBook, lookup_insert]
      split_ifs
      · rfl
      · exact h.routed id k hid
    · simp [DepthBook.setBook]

theorem WellKeyed.reindex {d : DepthBook} (h : d.WellKeyed) (index : ExtTreeMap OrderId SymbolKey)
    (hindex : ∀ (id : OrderId) (key : SymbolKey), index[id]? = some key → (d.books[key]?).isSome) :
    ({ d with orderToSymbol := index } : DepthBook).WellKeyed := ⟨h.tracked, h.symbol, hindex⟩

/-- The state after a message, seen book by book and id by id. -/
structure Follows (d : DepthBook) (a : BookAction) (d' : DepthBook) : Prop where
  keyed : d'.WellKeyed
  depth : d'.depth = d.depth
  books : ∀ key, d'.bookAt key = d.bookAfter a key
  index : ∀ id : OrderId, d'.orderToSymbol[id]? = d.indexAfter a id

theorem applyAdd_follows {d : DepthBook} (h : d.WellKeyed) (m : AddOrderMsg) :
    d.Follows (.add m) (d.applyAdd m).book := by
  obtain ⟨hkeyed, htracked⟩ := h.bookFor m.symbol
  have hset := hkeyed.setBook ((d.bookAt (symbolKey m.symbol)).addOrder m.orderId m.side m.price m.shares m.ts) htracked
  refine ⟨?_, ?_, fun key => ?_, fun id => ?_⟩
  · simp only [applyAdd, bookFor_bookAt]
    refine hset.reindex _ (fun id key hid => ?_)
    rw [lookup_insert] at hid
    split_ifs at hid
    · cases hid
      simp [DepthBook.setBook]
    · exact hset.routed id key hid
  · simp [applyAdd]
  · simp only [applyAdd, bookFor_bookAt, bookAt_index, setBook_bookAt, bookAfter, callAt]
    split_ifs with he
    · rw [he]
      rfl
    · rfl
  · simp [applyAdd, lookup_insert, indexAfter]

/-- A message naming an id without an index entry does nothing. -/
theorem follows_unrouted {d : DepthBook} (h : d.WellKeyed) {a : BookAction} {x : OrderId}
    (ha : a.names = some x) (hx : d.orderToSymbol[x]? = none) : d.Follows a d := by
  refine ⟨h, rfl, fun key => ?_, fun id => ?_⟩
  · cases a <;> cases ha <;> simp [bookAfter, callAt, hx]
  · cases a <;> cases ha <;> simp [indexAfter, hx]

/-- Nor does a message naming an order that no book holds, whatever the index says. -/
theorem after_dead {d : DepthBook} {a : BookAction} {x : OrderId} (ha : a.names = some x)
    (hx : ∀ key, (d.bookAt key).hasOrder x = false) :
    (∀ key, d.bookAfter a key = d.bookAt key) ∧ ∀ id : OrderId, d.indexAfter a id = d.orderToSymbol[id]? := by
  have hcalls := fun key => SymbolBook.exec_absent (hx key)
  refine ⟨fun key => ?_, fun id => ?_⟩
  · by_cases hkey : d.orderToSymbol[x]? = some key
    · cases a with
      | add m => cases ha
      | reduce id shares ts =>
        cases ha
        simpa [bookAfter, callAt, hkey] using (hcalls key).1 shares ts
      | delete id ts =>
        cases ha
        simpa [bookAfter, callAt, hkey] using (hcalls key).2.1 ts
      | replace m =>
        cases ha
        simpa [bookAfter, callAt, hkey] using (hcalls key).2.2 _ _ _ _
    · cases a <;> cases ha <;> simp [bookAfter, callAt, hkey]
  · cases hkey : d.orderToSymbol[x]? with
    | none => cases a <;> cases ha <;> simp [indexAfter, hkey]
    | some key => cases a <;> cases ha <;> simp [indexAfter, hkey, hx]

/-- A message that makes one call on a tracked book and rewrites the index accordingly. -/
theorem follows_call {d : DepthBook} (h : d.WellKeyed) {a : BookAction} {key : SymbolKey} {b : SymbolBook}
    {index : ExtTreeMap OrderId SymbolKey} (hkey : (d.books[key]?).isSome) (hb : d.bookAfter a key = b)
    (hother : ∀ k, key ≠ k → d.bookAfter a k = d.bookAt k)
    (hindex : ∀ id : OrderId, index[id]? = d.indexAfter a id)
    (hrouted : ∀ (id : OrderId) (k : SymbolKey), index[id]? = some k → k = key ∨ d.orderToSymbol[id]? = some k) :
    d.Follows a { d.setBook key b with orderToSymbol := index } := by
  have hset := h.setBook b hkey
  refine ⟨hset.reindex index (fun id k hid => ?_), rfl, fun k => ?_, hindex⟩
  · rcases hrouted id k hid with rfl | hold
    · simp [DepthBook.setBook]
    · exact hset.routed id k hold
  · rw [bookAt_index, setBook_bookAt]
    split_ifs with hk
    · rw [← hk, hb]
    · exact (hother k hk).symm

/-- A message that calls a book where its order is not live does nothing. -/
theorem follows_absent {d : DepthBook} (h : d.WellKeyed) {a : BookAction} {key : SymbolKey}
    (hb : d.bookAfter a key = d.bookAt key) (hother : ∀ k, key ≠ k → d.bookAfter a k = d.bookAt k)
    (hindex : ∀ id : OrderId, d.indexAfter a id = d.orderToSymbol[id]?) : d.Follows a d := by
  refine ⟨h, rfl, fun k => ?_, fun id => (hindex id).symm⟩
  by_cases hk : key = k
  · rw [← hk, hb]
  · exact (hother k hk).symm

theorem applyReduce_follows {d : DepthBook} (h : d.WellKeyed) (x : OrderId) (shares : Quantity) (ts : Timestamp) :
    d.Follows (.reduce x shares ts) (d.applyReduce x shares ts).book := by
  cases hx : d.orderToSymbol[x]? with
  | none =>
    rw [applyReduce, route_none hx]
    exact follows_unrouted h rfl hx
  | some key =>
    obtain ⟨sym, hroute, -, -, hbook⟩ := h.route hx
    have hafter : d.bookAfter (.reduce x shares ts) key = ((d.bookAt key).reduceOrder x shares ts).2 := by
      simp [bookAfter, callAt, hx, SymbolBook.exec]
    have hother : ∀ k, key ≠ k → d.bookAfter (.reduce x shares ts) k = d.bookAt k := by
      intro k hk
      simp [bookAfter, callAt, hx, hk]
    simp only [applyReduce, hroute, SymbolBook.reduceOrder_fst]
    cases hlive : (d.bookAt key).hasOrder x with
    | true =>
      rw [if_pos rfl, ← hafter]
      cases hleft : (d.bookAfter (.reduce x shares ts) key).hasOrder x with
      | true =>
        rw [if_pos rfl]
        refine follows_call h (by simp [hbook]) rfl hother (fun id => ?_) (fun id k hid => Or.inr hid)
        simp [indexAfter, hx, hleft]
      | false =>
        rw [if_neg (by decide)]
        refine follows_call h (by simp [hbook]) rfl hother (fun id => ?_) (fun id k hid => ?_)
        · simp [indexAfter, hx, hleft, hlive, lookup_erase]
        · simp only [setBook_orderToSymbol, lookup_erase] at hid
          split_ifs at hid
          exact Or.inr hid
    | false =>
      rw [if_neg (by decide)]
      refine follows_absent h (hafter.trans ?_) hother (fun id => ?_)
      · exact (SymbolBook.exec_absent hlive).1 shares ts
      · simp [indexAfter, hx, hlive]

theorem applyDelete_follows {d : DepthBook} (h : d.WellKeyed) (x : OrderId) (ts : Timestamp) :
    d.Follows (.delete x ts) (d.applyDelete x ts).book := by
  cases hx : d.orderToSymbol[x]? with
  | none =>
    rw [applyDelete, route_none hx]
    exact follows_unrouted h rfl hx
  | some key =>
    obtain ⟨sym, hroute, -, -, hbook⟩ := h.route hx
    have hafter : d.bookAfter (.delete x ts) key = ((d.bookAt key).deleteOrder x ts).2 := by
      simp [bookAfter, callAt, hx, SymbolBook.exec]
    have hother : ∀ k, key ≠ k → d.bookAfter (.delete x ts) k = d.bookAt k := by
      intro k hk
      simp [bookAfter, callAt, hx, hk]
    have hgone : (d.bookAfter (.delete x ts) key).hasOrder x = false := by
      rw [hafter, SymbolBook.hasOrder, SymbolBook.deleteOrder_orders, lookup_erase, if_pos rfl]
      rfl
    simp only [applyDelete, hroute, SymbolBook.deleteOrder_fst]
    cases hlive : (d.bookAt key).hasOrder x with
    | true =>
      rw [if_pos rfl]
      refine follows_call h (by simp [hbook]) hafter hother (fun id => ?_) (fun id k hid => ?_)
      · simp [indexAfter, hx, hgone, hlive, lookup_erase]
      · rw [lookup_erase] at hid
        split_ifs at hid
        exact Or.inr hid
    | false =>
      rw [if_neg (by decide)]
      refine follows_absent h (hafter.trans ?_) hother (fun id => ?_)
      · exact (SymbolBook.exec_absent hlive).2.1 ts
      · simp [indexAfter, hx, hlive]

theorem applyReplace_follows {d : DepthBook} (h : d.WellKeyed) (m : OrderReplaceMsg) :
    d.Follows (.replace m) (d.applyReplace m).book := by
  cases hx : d.orderToSymbol[m.originalOrderId]? with
  | none =>
    rw [applyReplace, route_none hx]
    exact follows_unrouted h rfl hx
  | some key =>
    obtain ⟨sym, hroute, -, -, hbook⟩ := h.route hx
    have hother : ∀ k, key ≠ k → d.bookAfter (.replace m) k = d.bookAt k := by
      intro k hk
      simp [bookAfter, callAt, hx, hk]
    simp only [applyReplace, hroute]
    cases hprev : (d.bookAt key).orders[m.originalOrderId]? with
    | some prev =>
      have hlive : (d.bookAt key).hasOrder m.originalOrderId = true := by simp [SymbolBook.hasOrder, hprev]
      have hafter : d.bookAfter (.replace m) key = ((d.bookAt key).deleteOrder m.originalOrderId m.ts).2.addOrder
          m.newOrderId prev.side m.price m.shares m.ts := by
        simp [bookAfter, callAt, hx, SymbolBook.exec, SymbolBook.replaceOrder, hprev]
      refine follows_call h (by simp [hbook]) hafter hother (fun id => ?_) (fun id k hid => ?_)
      · rw [lookup_insert, lookup_erase]
        simp [indexAfter, hx, hlive]
      · rw [lookup_insert, lookup_erase] at hid
        split_ifs at hid with hnew
        · exact Or.inl (Option.some.inj hid).symm
        · exact Or.inr hid
    | none =>
      have hlive : (d.bookAt key).hasOrder m.originalOrderId = false := SymbolBook.hasOrder_eq_false.mpr hprev
      refine follows_absent h ?_ hother (fun id => ?_)
      · simp only [bookAfter, callAt, hx, if_true]
        exact (SymbolBook.exec_absent hlive).2.2 _ _ _ _
      · simp [indexAfter, hx, hlive]

/-- A message without an effect on books leaves the state as it is; every other
one calls at most one book and rewrites the index as `indexAfter` says. -/
theorem apply_follows {d : DepthBook} (h : d.WellKeyed) (m : AnyMessage) :
    match m.action with
    | none => (d.apply m).book = d
    | some a => d.Follows a (d.apply m).book := by
  cases m with
  | systemEvent m => rfl
  | stockDirectory m => rfl
  | trade m => rfl
  | addOrder m => exact applyAdd_follows h m
  | addOrderMPID m => exact applyAdd_follows h m.base
  | orderExecuted m => exact applyReduce_follows h _ _ _
  | orderExecutedWithPrice m => exact applyReduce_follows h _ _ _
  | orderCancel m => exact applyReduce_follows h _ _ _
  | orderDelete m => exact applyDelete_follows h _ _
  | orderReplace m => exact applyReplace_follows h m

theorem apply_wellKeyed {d : DepthBook} (h : d.WellKeyed) (m : AnyMessage) :
    (d.apply m).book.WellKeyed ∧ (d.apply m).book.depth = d.depth := by
  have hm := apply_follows h m
  cases ha : m.action with
  | none =>
    rw [ha] at hm
    rw [hm]
    exact ⟨h, rfl⟩
  | some a =>
    rw [ha] at hm
    exact ⟨hm.keyed, hm.depth⟩

/-! ## The symbols that have a book -/

theorem route_some {d : DepthBook} {id : OrderId} {key : SymbolKey} {sym : Symbol} {b : SymbolBook}
    (h : d.route id = some (key, sym, b)) : (d.books[key]?).isSome := by
  unfold route at h
  cases hid : d.orderToSymbol[id]? with
  | none =>
    rw [hid] at h
    cases h
  | some k =>
    cases hsym : d.symbolIndex[k]? with
    | none =>
      simp only [hid, hsym] at h
      cases h
    | some s =>
      simp only [hid, hsym] at h
      obtain ⟨b', hb, hpair⟩ := Option.map_eq_some_iff.mp h
      cases hpair
      rw [hb]
      rfl

theorem setBook_tracked {d : DepthBook} {key : SymbolKey} (h : (d.books[key]?).isSome) (b : SymbolBook) (k : SymbolKey) :
    ((d.setBook key b).books[k]?).isSome = (d.books[k]?).isSome := by
  rw [DepthBook.setBook, lookup_insert]
  split_ifs with hk
  · rw [hk, h]
    rfl
  · rfl

theorem bookFor_tracked (d : DepthBook) (sym : Symbol) (key : SymbolKey) :
    ((d.bookFor sym).books[key]?).isSome ↔ (d.books[key]?).isSome ∨ symbolKey sym = key := by
  unfold DepthBook.bookFor
  dsimp only
  cases hb : d.books[symbolKey sym]? with
  | some b =>
    constructor
    · exact Or.inl
    · rintro (hold | rfl)
      · exact hold
      · rw [hb]
        rfl
  | none =>
    rw [DepthBook.setBook, lookup_insert]
    split_ifs with hk
    · simp [hk]
    · simp [Ne.symm hk]

theorem applyAdd_tracked (d : DepthBook) (m : AddOrderMsg) (key : SymbolKey) :
    ((d.applyAdd m).book.books[key]?).isSome ↔ (d.books[key]?).isSome ∨ symbolKey m.symbol = key := by
  rw [← bookFor_tracked]
  simp only [applyAdd, DepthBook.setBook, lookup_insert]
  split_ifs with hk
  · exact iff_of_true rfl ((bookFor_tracked d m.symbol key).mpr (Or.inr hk.symm))
  · rfl

theorem applyReduce_tracked (d : DepthBook) (id : OrderId) (shares : Quantity) (ts : Timestamp) (key : SymbolKey) :
    ((d.applyReduce id shares ts).book.books[key]?).isSome = (d.books[key]?).isSome := by
  unfold applyReduce
  cases hroute : d.route id with
  | none => rfl
  | some r =>
    obtain ⟨k, sym, b⟩ := r
    have hset := setBook_tracked (route_some hroute) (b.reduceOrder id shares ts).2 key
    dsimp only
    split_ifs
    · exact hset
    · exact hset
    · rfl

theorem applyDelete_tracked (d : DepthBook) (id : OrderId) (ts : Timestamp) (key : SymbolKey) :
    ((d.applyDelete id ts).book.books[key]?).isSome = (d.books[key]?).isSome := by
  unfold applyDelete
  cases hroute : d.route id with
  | none => rfl
  | some r =>
    obtain ⟨k, sym, b⟩ := r
    have hset := setBook_tracked (route_some hroute) (b.deleteOrder id ts).2 key
    dsimp only
    split_ifs
    · exact hset
    · rfl

theorem applyReplace_tracked (d : DepthBook) (m : OrderReplaceMsg) (key : SymbolKey) :
    ((d.applyReplace m).book.books[key]?).isSome = (d.books[key]?).isSome := by
  unfold applyReplace
  cases hroute : d.route m.originalOrderId with
  | none => rfl
  | some r =>
    obtain ⟨k, sym, b⟩ := r
    dsimp only
    cases b.orders[m.originalOrderId]? with
    | none => rfl
    | some prev => exact setBook_tracked (route_some hroute) _ key

/-- A symbol has a book from its first Add on. -/
theorem apply_tracked (d : DepthBook) (m : AnyMessage) (key : SymbolKey) : ((d.apply m).book.books[key]?).isSome ↔
    (d.books[key]?).isSome ∨ ∃ a, m.action = some (.add a) ∧ symbolKey a.symbol = key := by
  have hsame {p : Prop} (hm : ∀ a, m.action ≠ some (.add a)) : p ↔ p ∨ ∃ a, m.action = some (.add a) ∧ symbolKey a.symbol = key :=
    ⟨Or.inl, fun h => h.elim id (fun ⟨a, ha, _⟩ => absurd ha (hm a))⟩
  have hadd {p : Prop} {r : AddOrderMsg} (hm : m.action = some (.add r)) : (p ∨ symbolKey r.symbol = key) ↔
      p ∨ ∃ a, m.action = some (.add a) ∧ symbolKey a.symbol = key := by
    rw [hm]
    simp
  cases m with
  | addOrder m => exact (applyAdd_tracked d m key).trans (hadd rfl)
  | addOrderMPID m => exact (applyAdd_tracked d m.base key).trans (hadd rfl)
  | orderExecuted m | orderExecutedWithPrice m | orderCancel m =>
    rw [apply, applyReduce_tracked]
    exact hsame (fun a ha => by cases ha)
  | orderDelete m =>
    rw [apply, applyDelete_tracked]
    exact hsame (fun a ha => by cases ha)
  | orderReplace m =>
    rw [apply, applyReplace_tracked]
    exact hsame (fun a ha => by cases ha)
  | trade m | systemEvent m | stockDirectory m => exact hsame (fun a ha => by cases ha)

theorem applyAll_concat (depth : ℕ) (msgs : List AnyMessage) (m : AnyMessage) :
    applyAll depth (msgs ++ [m]) = ((applyAll depth msgs).apply m).book := by simp [applyAll]

theorem applyAll_wellKeyed (depth : ℕ) (msgs : List AnyMessage) :
    (applyAll depth msgs).WellKeyed ∧ (applyAll depth msgs).depth = depth := by
  induction msgs using List.reverseRecOn with
  | nil => exact ⟨new_wellKeyed depth, rfl⟩
  | append_singleton msgs m ih =>
    obtain ⟨hkeyed, hdepth⟩ := ih
    rw [applyAll_concat]
    obtain ⟨hkeyed', hdepth'⟩ := apply_wellKeyed hkeyed m
    exact ⟨hkeyed', hdepth'.trans hdepth⟩

end DepthBook

end MdfeedItch
