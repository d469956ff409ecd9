import MdfeedItch.OrderIndex
import MdfeedItch.SnapshotDepth

/-! # The order index after a snapshot

`apply_snapshot` assigns a new book to its symbol and leaves the index as it was.
The index is right for the symbol afterwards only if every id it had there is one
of those that the new book gives to its stand-in orders. -/
namespace MdfeedItch
open Std FiniteMapSums FeedHandler

/-- The shares of the stand-in orders, in the order of their ids. -/
def SnapshotResponse.parts (snap : SnapshotResponse) : List Quantity :=
  ((snap.bids ++ snap.asks).flatMap PriceLevel.split).filter (· ≠ 0)

/-- The snapshot gives the id to one of its stand-in orders. -/
def SnapshotResponse.Assigns (snap : SnapshotResponse) (id : OrderId) : Prop :=
  ∃ i < snap.parts.length, id = firstSynthetic + UInt64.ofNat i

structure Numbered (s : SymbolBook × OrderId) (n : ℕ) : Prop where
  next : s.2 = firstSynthetic + UInt64.ofNat n
  live : ∀ id, s.1.hasOrder id ↔ ∃ i < n, id = firstSynthetic + UInt64.ofNat i

theorem Numbered.addSynthetic {s : SymbolBook × OrderId} {n : ℕ} (h : Numbered s n) (side : Side)
    (price : Price) {q : Quantity} (hq : q ≠ 0) : Numbered (addSynthetic side price s q) (n + 1) := by
  rw [MdfeedItch.addSynthetic, if_neg hq]
  refine ⟨?_, fun id => ?_⟩
  · rw [h.next, UInt64.ofNat_add, UInt64.add_assoc]
    rfl
  · rw [SymbolBook.hasOrder_add, h.live, and_iff_left hq]
    constructor
    · rintro (rfl | ⟨i, hi, hid⟩)
      · exact ⟨n, Nat.lt_succ_self n, h.next⟩
      · exact ⟨i, Nat.lt_succ_of_lt hi, hid⟩
    · rintro ⟨i, hi, hid⟩
      rcases Nat.lt_succ_iff_lt_or_eq.mp hi with hlt | rfl
      · exact Or.inr ⟨i, hlt, hid⟩
      · exact Or.inl (hid.trans h.next.symm)

theorem Numbered.addParts {s : SymbolBook × OrderId} {n : ℕ} (h : Numbered s n) (side : Side) (price : Price)
    (parts : List Quantity) :
    Numbered (parts.foldl (MdfeedItch.addSynthetic side price) s) (n + (parts.filter (· ≠ 0)).length) := by
  induction parts generalizing s n with
  | nil => exact h
  | cons q parts ih =>
    rw [List.foldl_cons]
    by_cases hq : q = 0
    · rw [List.filter_cons_of_neg (by simpa using hq), MdfeedItch.addSynthetic, if_pos hq]
      exact ih h
    · have hnext := ih (h.addSynthetic side price hq)
      rwa [List.filter_cons_of_pos (by simpa using hq), List.length_cons, Nat.add_comm _ 1, ← Nat.add_assoc]

theorem Numbered.addLevels {s : SymbolBook × OrderId} {n : ℕ} (h : Numbered s n) (side : Side)
    (levels : List PriceLevel) : Numbered (addLevels side s levels)
      (n + ((levels.flatMap PriceLevel.split).filter (· ≠ 0)).length) := by
  induction levels generalizing s n with
  | nil => exact h
  | cons lvl levels ih =>
    have hnext := ih (h.addParts side lvl.price lvl.split)
    rw [List.flatMap_cons, List.filter_append, List.length_append, ← Nat.add_assoc]
    exact hnext

theorem rebuild_hasOrder (snap : SnapshotResponse) (id : OrderId) :
    snap.rebuild.hasOrder id ↔ snap.Assigns id := by
  have hempty : ∀ depth, Numbered (SymbolBook.new depth, firstSynthetic) 0 := fun depth =>
    ⟨rfl, fun id => by simp [SymbolBook.hasOrder, SymbolBook.new]⟩
  have hsides : ∀ depth, Numbered (addLevels Side.sell (addLevels Side.buy
      (SymbolBook.new depth, firstSynthetic) snap.bids) snap.asks) snap.parts.length := by
    intro depth
    have hall := ((hempty depth).addLevels Side.buy snap.bids).addLevels Side.sell snap.asks
    rwa [Nat.zero_add, ← List.length_append, ← List.filter_append, ← List.flatMap_append] at hall
  exact (hsides _).live id

theorem DepthBook.WellKeyed.symbolForOrder_eq_none {d : DepthBook} (h : d.WellKeyed) {id : OrderId} :
    d.symbolForOrder id = none ↔ d.orderToSymbol[id]? = none := by
  unfold DepthBook.symbolForOrder
  cases hid : d.orderToSymbol[id]? with
  | none => simp
  | some key =>
    obtain ⟨sym, -, -, hsym, -⟩ := h.route hid
    simp [hsym]

/-- The index was reset for the symbol of a snapshot: what it routes there is live in
the new book, and the orders that are gone are looked up in vain. -/
structure IndexReset (d : DepthBook) (sym : Symbol) (d' : DepthBook) : Prop where
  live : ∀ id : OrderId, d'.orderToSymbol[id]? = some (symbolKey sym) → d'.Holds (symbolKey sym) id
  forgotten : ∀ id, d.Holds (symbolKey sym) id → ¬ d'.Holds (symbolKey sym) id → d'.symbolForOrder id = none

/-- The snapshot gives out every id that the index routes to its symbol, and every
indexed id that is live in the book it replaces. -/
def Renumbers (d : DepthBook) (snap : SnapshotResponse) : Prop :=
  ∀ id : OrderId, d.orderToSymbol[id]? = some (symbolKey snap.symbol) ∨
    (d.orderToSymbol[id]?).isSome ∧ d.Holds (symbolKey snap.symbol) id → snap.Assigns id

theorem install_reset {d : DepthBook} (h : d.WellKeyed) (snap : SnapshotResponse) :
    IndexReset d snap.symbol (d.install snap) ↔ Renumbers d snap := by
  have hlive : ∀ id, (d.install snap).Holds (symbolKey snap.symbol) id ↔ snap.Assigns id := by
    intro id
    rw [DepthBook.Holds, install_bookAt, if_pos rfl]
    exact rebuild_hasOrder snap id
  have hindex := install_orderToSymbol d snap
  have hnone : ∀ id, (d.install snap).symbolForOrder id = none ↔ d.orderToSymbol[id]? = none := by
    intro id
    rw [(install_wellKeyed h snap).1.symbolForOrder_eq_none, hindex]
  constructor
  · rintro ⟨hrouted, hforgotten⟩ id (hid | ⟨hsome, hold⟩)
    · exact (hlive id).mp (hrouted id (hindex ▸ hid))
    · by_contra hgone
      rw [(hnone id).mp (hforgotten id hold (fun hnew => hgone ((hlive id).mp hnew)))] at hsome
      cases hsome
  · intro hall
    refine ⟨fun id hid => (hlive id).mpr (hall id (Or.inl (hindex ▸ hid))), fun id hold hgone => ?_⟩
    rw [hnone]
    by_contra hsome
    exact hgone ((hlive id).mpr (hall id (Or.inr ⟨Option.isSome_iff_ne_none.mpr hsome, hold⟩)))

/-- After any datagrams and snapshots, a snapshot leaves the index right for its
symbol exactly when it renumbers all that the index had there. -/
theorem snapshot_resets_index (depth : ℕ) (skip : Bool) (cs : List FeedCall) (snap : SnapshotResponse) :
    let h := ((FeedHandler.new depth skip).calls cs).1
    IndexReset h.book snap.symbol (h.applySnapshot snap).book ↔ Renumbers h.book snap :=
  install_reset (calls_wellKeyed depth skip cs) snap

/-- One order, then a snapshot of its symbol without levels: the order is still indexed. -/
theorem replaced_order_indexed : ¬ ∀ (depth : ℕ) (skip : Bool) (cs : List FeedCall) (snap : SnapshotResponse),
    IndexReset ((FeedHandler.new depth skip).calls cs).1.book snap.symbol
      (((FeedHandler.new depth skip).calls cs).1.applySnapshot snap).book := by
  intro h
  have hreset := h 10 false [.datagram ⟨addDatagram 1 1, none⟩] ⟨1, 1, sampleSymbol, [], []⟩
  have hlive := hreset.live 1 (by decide)
  exact absurd hlive (by unfold DepthBook.Holds; decide)

end MdfeedItch
