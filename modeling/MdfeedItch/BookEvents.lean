import MdfeedItch.BookDirectory

/-! # What `apply` reports about a message

The result of `apply` is false only for messages that leave everything as it was.
Otherwise one book has changed, and the snapshot of this book is handed out. -/
namespace MdfeedItch
open Std FiniteMapSums

namespace DepthBook

/-- The symbol of an Add, or the one that the index gives for the order of the message. -/
def addressee (d : DepthBook) : BookAction → Option Symbol
  | .add m => some m.symbol
  | .reduce id _ _ => d.symbolForOrder id
  | .delete id _ => d.symbolForOrder id
  | .replace m => d.symbolForOrder m.originalOrderId

/-- The callback got the book of the symbol as it is afterwards, and no other book changed. -/
structure Announces (d : DepthBook) (sym : Symbol) (ts : Timestamp) (r : ApplyResult) : Prop where
  event : ∃ b, r.book.find sym = some b ∧ r.event = some ⟨sym, b.topBids, b.topAsks, ts⟩
  others : ∀ other, other ≠ sym → r.book.find other = d.find other

/-- A result says whether something was called on a book, and for which symbol. -/
structure Truthful (d : DepthBook) (m : AnyMessage) (r : ApplyResult) : Prop where
  refused : r.changed = false → r.book = d ∧ r.event = none
  emitted : r.changed = true → ∃ a sym, m.action = some a ∧ d.addressee a = some sym ∧ d.Announces sym m.ts r

variable {d : DepthBook} {m : AnyMessage}

theorem Truthful.of_refused : d.Truthful m ⟨false, d, none⟩ := ⟨fun _ => ⟨rfl, rfl⟩, fun h => Bool.noConfusion h⟩

theorem Truthful.of_announces {a : BookAction} {sym : Symbol} {d' : DepthBook} {event : Option DepthSnapshot}
    (ha : m.action = some a) (hsym : d.addressee a = some sym) (h : d.Announces sym m.ts ⟨true, d', event⟩) :
    d.Truthful m ⟨true, d', event⟩ := ⟨fun hfalse => Bool.noConfusion hfalse, fun _ => ⟨a, sym, ha, hsym, h⟩⟩

/-- An assignment to one book and to the index. -/
theorem announces_setBook (d : DepthBook) (sym : Symbol) (b : SymbolBook) (index : ExtTreeMap OrderId SymbolKey)
    (ts : Timestamp) :
    let d' : DepthBook := { d.setBook (symbolKey sym) b with orderToSymbol := index }
    d.Announces sym ts ⟨true, d', d'.emitSnapshot sym ts⟩ := by
  intro d'
  have hsym : d'.find sym = some b := (lookup_insert d.books (symbolKey sym) (symbolKey sym) b).trans (if_pos rfl)
  refine ⟨⟨b, hsym, congrArg (Option.map _) hsym⟩, fun other hother => ?_⟩
  have hkey : symbolKey other ≠ symbolKey sym := symbolKey_injective.ne hother
  exact (lookup_insert d.books (symbolKey sym) (symbolKey other) b).trans (if_neg hkey)

theorem Announces.of_bookFor {sym : Symbol} {ts : Timestamp} {r : ApplyResult} (h : (d.bookFor sym).Announces sym ts r) :
    d.Announces sym ts r := by
  refine ⟨h.event, fun other hother => (h.others other hother).trans ?_⟩
  exact bookFor_lookup_other d (symbolKey_injective.ne hother)

/-- The symbol of a routed order. -/
theorem WellKeyed.route_symbol (h : d.WellKeyed) {id : OrderId} {key : SymbolKey} {sym : Symbol} {b : SymbolBook}
    (hroute : d.route id = some (key, sym, b)) : key = symbolKey sym ∧ d.symbolForOrder id = some sym := by
  cases hid : d.orderToSymbol[id]? with
  | none =>
    rw [route_none hid] at hroute
    cases hroute
  | some k =>
    obtain ⟨s, hroute', hkey, hsym, -⟩ := h.route hid
    cases hroute.symm.trans hroute'
    refine ⟨hkey.symm, ?_⟩
    unfold symbolForOrder
    rw [hid]
    exact hsym

theorem applyAdd_truthful (d : DepthBook) {r : AddOrderMsg} (ha : m.action = some (.add r)) (hts : m.ts = r.ts) :
    d.Truthful m (d.applyAdd r) := by
  refine Truthful.of_announces ha rfl (Announces.of_bookFor ?_)
  rw [hts]
  exact announces_setBook (d.bookFor r.symbol) r.symbol _ _ r.ts

theorem applyReduce_truthful (h : d.WellKeyed) {id : OrderId} {shares : Quantity}
    (ha : m.action = some (.reduce id shares m.ts)) : d.Truthful m (d.applyReduce id shares m.ts) := by
  unfold applyReduce
  cases hroute : d.route id with
  | none => exact .of_refused
  | some r =>
    obtain ⟨key, sym, b⟩ := r
    obtain ⟨rfl, hsym⟩ := h.route_symbol hroute
    dsimp only
    cases (b.reduceOrder id shares m.ts).1 with
    | false => exact .of_refused
    | true =>
      rw [if_pos rfl]
      refine Truthful.of_announces ha hsym ?_
      split
      · exact announces_setBook d sym _ d.orderToSymbol m.ts
      · exact announces_setBook d sym _ (d.orderToSymbol.erase id) m.ts

theorem applyDelete_truthful (h : d.WellKeyed) {id : OrderId} (ha : m.action = some (.delete id m.ts)) :
    d.Truthful m (d.applyDelete id m.ts) := by
  unfold applyDelete
  cases hroute : d.route id with
  | none => exact .of_refused
  | some r =>
    obtain ⟨key, sym, b⟩ := r
    obtain ⟨rfl, hsym⟩ := h.route_symbol hroute
    dsimp only
    cases (b.deleteOrder id m.ts).1 with
    | false => exact .of_refused
    | true =>
      rw [if_pos rfl]
      exact Truthful.of_announces ha hsym (announces_setBook d sym _ _ m.ts)

theorem applyReplace_truthful (h : d.WellKeyed) {r : OrderReplaceMsg} (ha : m.action = some (.replace r))
    (hts : m.ts = r.ts) : d.Truthful m (d.applyReplace r) := by
  unfold applyReplace
  cases hroute : d.route r.originalOrderId with
  | none => exact .of_refused
  | some found =>
    obtain ⟨key, sym, b⟩ := found
    obtain ⟨rfl, hsym⟩ := h.route_symbol hroute
    dsimp only
    cases b.orders[r.originalOrderId]? with
    | none => exact .of_refused
    | some prev =>
      refine Truthful.of_announces ha hsym ?_
      rw [hts]
      exact announces_setBook d sym _ _ r.ts

theorem WellKeyed.truthful (h : d.WellKeyed) (m : AnyMessage) : d.Truthful m (d.apply m) := by
  cases m with
  | systemEvent m => exact .of_refused
  | stockDirectory m => exact .of_refused
  | trade m => exact .of_refused
  | addOrder m => exact applyAdd_truthful d rfl rfl
  | addOrderMPID m => exact applyAdd_truthful d rfl rfl
  | orderExecuted m => exact applyReduce_truthful h (m := .orderExecuted m) rfl
  | orderExecutedWithPrice m => exact applyReduce_truthful h (m := .orderExecutedWithPrice m) rfl
  | orderCancel m => exact applyReduce_truthful h (m := .orderCancel m) rfl
  | orderDelete m => exact applyDelete_truthful h (m := .orderDelete m) rfl
  | orderReplace m => exact applyReplace_truthful h rfl rfl

/-- Whatever calls a book has seen, `apply` reports a message as it treats it. -/
theorem apply_reports_truthfully (depth : ℕ) (cs : List BookCall) (m : AnyMessage) :
    (calls depth cs).Truthful m ((calls depth cs).apply m) := (calls_wellKeyed depth cs).truthful m

end DepthBook

end MdfeedItch
