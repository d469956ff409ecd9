import MdfeedItch.BookDirectory
import MdfeedItch.SequenceAdmission

/-! # The depth of a book after a snapshot

`apply_snapshot` assigns a book whose depth is the number of levels in the
snapshot. The visible ladder has the configured depth exactly as long as this
number equals it or both are at least the number of live prices. -/
namespace MdfeedItch
open Std FiniteMapSums FeedHandler

theorem addSynthetic_kept {s : SymbolBook × OrderId} (h : s.1.Aggregated) (side : Side) (price : Price) (q : Quantity) :
    (addSynthetic side price s q).1.Aggregated ∧ (addSynthetic side price s q).1.depth = s.1.depth := by
  unfold addSynthetic
  split_ifs
  · exact ⟨h, rfl⟩
  · exact ⟨h.addOrder s.2 side price q 0, SymbolBook.addOrder_depth s.1 s.2 side price q 0⟩

private theorem split_kept (side : Side) (price : Price) (shares : List Quantity) {s : SymbolBook × OrderId}
    (h : s.1.Aggregated) : (shares.foldl (addSynthetic side price) s).1.Aggregated ∧
      (shares.foldl (addSynthetic side price) s).1.depth = s.1.depth := by
  induction shares generalizing s with
  | nil => exact ⟨h, rfl⟩
  | cons q shares ih =>
    obtain ⟨hagg, hdepth⟩ := addSynthetic_kept h side price q
    obtain ⟨hagg', hdepth'⟩ := ih hagg
    exact ⟨hagg', hdepth'.trans hdepth⟩

theorem addLevels_kept (side : Side) (levels : List PriceLevel) {s : SymbolBook × OrderId} (h : s.1.Aggregated) :
    (addLevels side s levels).1.Aggregated ∧ (addLevels side s levels).1.depth = s.1.depth := by
  induction levels generalizing s with
  | nil => exact ⟨h, rfl⟩
  | cons lvl levels ih =>
    obtain ⟨hagg, hdepth⟩ := split_kept side lvl.price lvl.split h
    obtain ⟨hagg', hdepth'⟩ := ih hagg
    exact ⟨hagg', hdepth'.trans hdepth⟩

/-- The number of levels on the longer side of a snapshot. -/
def SnapshotResponse.size (snap : SnapshotResponse) : ℕ := max snap.bids.length snap.asks.length

/-- Levels are counted and summed right in a rebuilt book; its depth is the snapshot's size. -/
theorem rebuild_kept (snap : SnapshotResponse) : snap.rebuild.Aggregated ∧ snap.rebuild.depth = snap.size := by
  have hsize : (if snap.bids.length > snap.asks.length then snap.bids.length else snap.asks.length) = snap.size := by
    unfold SnapshotResponse.size
    split_ifs <;> omega
  unfold SnapshotResponse.rebuild
  rw [hsize]
  obtain ⟨hbids, hdepth⟩ := addLevels_kept Side.buy snap.bids (s := (SymbolBook.new snap.size, firstSynthetic))
    (SymbolBook.new_aggregated snap.size)
  obtain ⟨hasks, hdepth'⟩ := addLevels_kept Side.sell snap.asks hbids
  exact ⟨hasks, hdepth'.trans hdepth⟩

theorem receive_wellKeyed {d : DepthBook} (h : d.WellKeyed) (frame : List UInt8) : (d.receive frame).WellKeyed := by
  unfold DepthBook.receive
  cases (decodeFrame frame).message with
  | none => exact h
  | some m => exact (DepthBook.apply_wellKeyed h m).1

/-- Datagrams and snapshots leave the three maps keyed alike. -/
theorem calls_wellKeyed (depth : ℕ) (skip : Bool) (cs : List FeedCall) :
    ((FeedHandler.new depth skip).calls cs).1.book.WellKeyed := by
  rw [((FeedHandler.new depth skip).calls_replays cs).book]
  induction ((FeedHandler.new depth skip).calls cs).2 using List.reverseRecOn with
  | nil => exact DepthBook.new_wellKeyed depth
  | append_singleton t x ih =>
    rw [List.foldl_append, List.foldl_cons, List.foldl_nil]
    cases x with
    | gapReported loc first last => exact ih
    | installed snap => exact (install_wellKeyed ih snap).1
    | decoded loc seq frame => exact receive_wellKeyed ih frame

/-- The depth of a symbol's book: the size of the last snapshot installed for it. -/
def snapshotDepth (configured : ℕ) (key : SymbolKey) (t : List Effect) : ℕ :=
  t.foldl (fun m x =>
    match x with
    | .installed snap => if symbolKey snap.symbol = key then snap.size else m
    | _ => m) configured

/-- The books after a list of effects. -/
def booksAfter (depth : ℕ) (t : List Effect) : DepthBook := t.foldl Effect.onBook (DepthBook.new depth)

/-- No price of a side holds `2 ^ 32` shares or more. -/
def LevelSumsFit (d : DepthBook) : Prop := ∀ key buy p, levelQty (d.bookAt key).orders buy p < 2 ^ 32

/-- Every book carries the sums of its orders, at the depth its history gives it. -/
structure Deep (configured : ℕ) (t : List Effect) (d : DepthBook) : Prop where
  keyed : d.WellKeyed
  unchanged : d.depth = configured
  aggregated : ∀ key, (d.bookAt key).Aggregated
  depth : ∀ key, (d.bookAt key).depth = snapshotDepth configured key t

theorem Deep.of_new (depth : ℕ) : Deep depth [] (DepthBook.new depth) := by
  have hbook : ∀ key, (DepthBook.new depth).bookAt key = SymbolBook.new depth := fun key => by
    simp [DepthBook.new, DepthBook.bookAt]
  refine ⟨DepthBook.new_wellKeyed depth, rfl, fun key => ?_, fun key => ?_⟩
  · rw [hbook]
    exact SymbolBook.new_aggregated depth
  · rw [hbook]
    rfl

theorem Deep.call {configured : ℕ} {t : List Effect} {d d' : DepthBook} (h : Deep configured t d) (hfit : LevelSumsFit d)
    {a : BookAction} (hf : d.Follows a d') : Deep configured t d' := by
  have hbook : ∀ key, (d'.bookAt key).Aggregated ∧ (d'.bookAt key).depth = (d.bookAt key).depth := by
    intro key
    have hagg := h.aggregated key
    rw [hf.books, DepthBook.bookAfter]
    cases d.callAt key a with
    | none => exact ⟨hagg, rfl⟩
    | some op =>
      refine ⟨hagg.exec op (CountsFit.of_small hagg.qtyPos (hfit key))
        (KeepsLevels.of_small (hagg.qtyPos.withdraw op) (hfit key)), SymbolBook.exec_depth _ op⟩
  exact ⟨hf.keyed, hf.depth.trans h.unchanged, fun key => (hbook key).1,
    fun key => (hbook key).2.trans (h.depth key)⟩

theorem Deep.effect {configured : ℕ} {t : List Effect} {d : DepthBook} (h : Deep configured t d) (hfit : LevelSumsFit d)
    (x : Effect) : Deep configured (t ++ [x]) (x.onBook d) := by
  have hsame : (∀ snap, x ≠ .installed snap) → ∀ key, snapshotDepth configured key (t ++ [x]) = snapshotDepth configured key t := by
    intro hx key
    rw [snapshotDepth, List.foldl_append]
    cases x with
    | gapReported => rfl
    | installed snap => exact absurd rfl (hx snap)
    | decoded => rfl
  cases x with
  | gapReported loc first last =>
    exact ⟨h.keyed, h.unchanged, h.aggregated, fun key => (h.depth key).trans (hsame (by simp) key).symm⟩
  | installed snap =>
    obtain ⟨hkeyed, hdepth⟩ := install_wellKeyed h.keyed snap
    obtain ⟨hagg, hsize⟩ := rebuild_kept snap
    refine ⟨hkeyed, hdepth.trans h.unchanged, fun key => ?_, fun key => ?_⟩
    · rw [Effect.onBook, install_bookAt]
      split_ifs
      · exact hagg
      · exact h.aggregated key
    · rw [Effect.onBook, install_bookAt, snapshotDepth, List.foldl_append, List.foldl_cons, List.foldl_nil]
      dsimp only
      split_ifs
      · exact hsize
      · exact h.depth key
  | decoded loc seq frame =>
    have hdeep : Deep configured t (d.receive frame) := by
      unfold DepthBook.receive
      cases (decodeFrame frame).message with
      | none => exact h
      | some m =>
        have hm := DepthBook.apply_follows h.keyed m
        cases ha : m.action with
        | none =>
          rw [ha] at hm
          dsimp only at hm ⊢
          rw [hm]
          exact h
        | some a =>
          rw [ha] at hm
          exact h.call hfit hm
    exact ⟨hdeep.keyed, hdeep.unchanged, hdeep.aggregated,
      fun key => (hdeep.depth key).trans (hsame (by simp) key).symm⟩

theorem booksAfter_deep (configured : ℕ) (t : List Effect)
    (hfit : ∀ u x, u ++ [x] <+: t → LevelSumsFit (booksAfter configured u)) : Deep configured t (booksAfter configured t) := by
  induction t using List.reverseRecOn with
  | nil => exact Deep.of_new configured
  | append_singleton t x ih =>
    have hsub : t <+: t ++ [x] := List.prefix_append t [x]
    have hprev := ih (fun u y hu => hfit u y (hu.trans hsub))
    have hbooks : booksAfter configured (t ++ [x]) = x.onBook (booksAfter configured t) := by
      rw [booksAfter, List.foldl_append]
      rfl
    rw [hbooks]
    exact hprev.effect (hfit t x (List.prefix_refl _)) x

/-- The prices of one side with live orders. -/
def livePrices (orders : OrderTable) (buy : Bool) : Finset Price :=
  ((orders.toList.filter (fun e => e.2.side.isBuy = buy)).map (fun e => e.2.price)).toFinset

theorem mem_livePrices (orders : OrderTable) (buy : Bool) (p : Price) :
    p ∈ livePrices orders buy ↔ 0 < levelCount orders buy p := by
  rw [levelCount_pos_iff]
  simp only [livePrices, List.mem_toFinset, List.mem_map, List.mem_filter, decide_eq_true_eq]
  constructor
  · rintro ⟨e, ⟨he, hbuy⟩, hp⟩
    exact ⟨e.1, e.2, ExtTreeMap.mem_toList_iff_getElem?_eq_some.mp he, hbuy, hp⟩
  · rintro ⟨id, o, ho, hbuy, hp⟩
    exact ⟨(id, o), ⟨ExtTreeMap.mem_toList_iff_getElem?_eq_some.mpr ho, hbuy⟩, hp⟩

/-- A best-first list of the live prices has one entry a price. -/
theorem card_livePrices {orders : OrderTable} {buy : Bool} {prices : List Price} (hsort : prices.Pairwise (Better buy))
    (hmem : ∀ p, p ∈ prices ↔ p ∈ livePrices orders buy) : (livePrices orders buy).card = prices.length := by
  have hset : livePrices orders buy = prices.toFinset := by
    ext p
    rw [List.mem_toFinset, hmem]
  rw [hset, List.toFinset_card_of_nodup (Better.nodup hsort)]

/-- A side of a book shows the best of its live prices, as many as the depth allows. -/
def ShowsDepth (depth : ℕ) (b : SymbolBook) (buy : Bool) : Prop :=
  ∃ prices : List Price, prices.Pairwise (Better buy) ∧ (∀ p, p ∈ prices ↔ p ∈ livePrices b.orders buy) ∧
    (b.top buy).map PriceLevel.price = prices.take depth

theorem take_eq_take_iff {α : Type*} (xs : List α) (m n : ℕ) :
    xs.take m = xs.take n ↔ m = n ∨ xs.length ≤ min m n := by
  constructor
  · intro h
    have hlen := congrArg List.length h
    rw [List.length_take, List.length_take] at hlen
    omega
  · rintro (rfl | h)
    · rfl
    · rw [List.take_of_length_le (by omega), List.take_of_length_le (by omega)]

/-- A book that carries its sums shows another depth only when there are few prices. -/
theorem SymbolBook.Aggregated.showsDepth_iff {b : SymbolBook} (h : b.Aggregated) (n : ℕ) (buy : Bool) :
    ShowsDepth n b buy ↔ b.depth = n ∨ (livePrices b.orders buy).card ≤ min b.depth n := by
  obtain ⟨prices, hsort, hmem, htop, _⟩ := h.carries.side buy
  have hlive : ∀ p, p ∈ prices ↔ p ∈ livePrices b.orders buy := fun p =>
    (hmem p).trans (mem_livePrices b.orders buy p).symm
  have hshown : (b.top buy).map PriceLevel.price = prices.take b.depth := by
    rw [htop, List.map_map]
    exact List.map_id _
  rw [card_livePrices hsort hlive, ← take_eq_take_iff, ← hshown]
  constructor
  · rintro ⟨prices', hsort', hmem', htake⟩
    have heq : prices' = prices := hsort'.eq_of_mem_iff hsort (fun p => (hmem' p).trans (hlive p).symm)
    rw [htake, heq]
  · intro htake
    exact ⟨prices, hsort, hlive, htake⟩

/-- In every state of a run a side of a symbol shows the configured depth exactly
when the last snapshot for the symbol had as many levels, or neither that number
nor the configured depth is below the number of live prices. -/
theorem visible_depth_iff (depth : ℕ) (skip : Bool) (cs : List FeedCall)
    (hfit : ∀ t, t <+: ((FeedHandler.new depth skip).calls cs).2 → LevelSumsFit (booksAfter depth t))
    (pre : List FeedCall) (hpre : pre <+: cs) (sym : Symbol) (buy : Bool) :
    let state := (FeedHandler.new depth skip).calls pre
    let book := state.1.book.bookAt (symbolKey sym)
    ShowsDepth depth book buy ↔ snapshotDepth depth (symbolKey sym) state.2 = depth ∨
      (livePrices book.orders buy).card ≤ min (snapshotDepth depth (symbolKey sym) state.2) depth := by
  intro state book
  obtain ⟨rest, rfl⟩ := hpre
  have htrace : state.2 <+: ((FeedHandler.new depth skip).calls (pre ++ rest)).2 := by
    rw [calls, TraceRuns.run_append]
    exact List.prefix_append _ _
  have hbook : state.1.book = booksAfter depth state.2 := ((FeedHandler.new depth skip).calls_replays pre).book
  have hdeep := booksAfter_deep depth state.2 (fun u x hu => hfit u
    (((List.prefix_append u [x]).trans hu).trans htrace))
  rw [← hbook] at hdeep
  have hiff := (hdeep.aggregated (symbolKey sym)).showsDepth_iff depth buy
  rwa [hdeep.depth] at hiff

theorem LevelSumsFit.of_total {d : DepthBook}
    (h : ∀ e ∈ d.books.toList, sumOver e.2.orders (fun o => o.qty.toNat) < 2 ^ 32) : LevelSumsFit d := by
  intro key buy p
  unfold DepthBook.bookAt
  cases hb : d.books[key]? with
  | none =>
    refine (levelQty_le_total _ buy p).trans_lt ?_
    simp [SymbolBook.new]
  | some b => exact (levelQty_le_total _ buy p).trans_lt (h (key, b) (ExtTreeMap.mem_toList_iff_getElem?_eq_some.mpr hb))

section Example

/-- A snapshot of one bid level at 50, then an order added there: all is visible. -/
theorem one_level_visible :
    let cs := [FeedCall.snapshot ⟨1, 1, sampleSymbol, [⟨50, 200, 2⟩], []⟩, .datagram ⟨addDatagram 2 7, none⟩]
    ShowsDepth 10 (((FeedHandler.new 10 false).calls cs).1.book.bookAt (symbolKey sampleSymbol)) true := by
  intro cs
  refine (visible_depth_iff 10 false cs ?_ cs (List.prefix_refl cs) sampleSymbol true).mpr (Or.inr (by decide))
  have hsmall : ∀ n, n ≤ ((FeedHandler.new 10 false).calls cs).2.length →
      ∀ e ∈ (booksAfter 10 (((FeedHandler.new 10 false).calls cs).2.take n)).books.toList,
        sumOver e.2.orders (fun o => o.qty.toNat) < 2 ^ 32 := by decide
  exact TraceRuns.forall_prefix_iff.mpr (fun n hn => LevelSumsFit.of_total (hsmall n hn))

/-- After a snapshot without levels an added order is not visible. -/
theorem empty_snapshot_hides_orders : ¬ ∀ cs : List FeedCall,
    (∀ t, t <+: ((FeedHandler.new 10 false).calls cs).2 → LevelSumsFit (booksAfter 10 t)) →
      ∀ sym buy, ShowsDepth 10 (((FeedHandler.new 10 false).calls cs).1.book.bookAt (symbolKey sym)) buy := by
  intro hall
  let cs := [FeedCall.snapshot ⟨1, 1, sampleSymbol, [], []⟩, .datagram ⟨addDatagram 2 7, none⟩]
  have hsmall : ∀ n, n ≤ ((FeedHandler.new 10 false).calls cs).2.length →
      ∀ e ∈ (booksAfter 10 (((FeedHandler.new 10 false).calls cs).2.take n)).books.toList,
        sumOver e.2.orders (fun o => o.qty.toNat) < 2 ^ 32 := by decide
  obtain ⟨prices, -, hmem, htop⟩ := hall cs
    (TraceRuns.forall_prefix_iff.mpr (fun n hn => LevelSumsFit.of_total (hsmall n hn))) sampleSymbol true
  have hlive : 50 ∈ prices := (hmem 50).mpr (by decide)
  have hempty : (((FeedHandler.new 10 false).calls cs).1.book.bookAt (symbolKey sampleSymbol)).top true = [] := by decide
  rw [hempty, List.map_nil, eq_comm, List.take_eq_nil_iff] at htop
  rcases htop with hten | hnil
  · cases hten
  · rw [hnil] at hlive
    cases hlive

end Example

end MdfeedItch
