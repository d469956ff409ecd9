import MdfeedItch.LevelArithmetic
import MdfeedItch.SnapshotClient
import MdfeedItch.SnapshotLadder
import MdfeedItch.TraceRuns

/-! # Snapshot transfer keeps the visible book

The levels that a book shows are backed by its orders and stand at different
prices, best first. Sent through the recovery channel and installed, they come out
level for level, wherever the receiving books stood before. -/
namespace MdfeedItch
open Std FiniteMapSums FeedHandler

/-- A sum cut to some prices. -/
def onPrices (prices : List Price) (f : Price → ℕ) (p : Price) : ℕ := if p ∈ prices then f p else 0

/-- The levels of some prices are levels of the sums cut to them. -/
theorem map_levelFor_onPrices (prices : List Price) (qty count : Price → ℕ) :
    prices.map (levelFor (onPrices prices qty) (onPrices prices count)) =
      prices.map (levelFor qty count) := by
  apply List.map_congr_left
  intro p hp
  simp only [levelFor, onPrices, if_pos hp]

/-- One side of a book as it is sent: the shown prices and what rests there. -/
structure Shown (b : SymbolBook) (buy : Bool) (prices : List Price) : Prop where
  sorted : prices.Pairwise (Better buy)
  top : b.top buy = prices.map (levelFor (levelQty b.orders buy) (levelCount b.orders buy))
  live : ∀ p ∈ prices, 0 < levelCount b.orders buy p

theorem SymbolBook.Aggregated.shown {b : SymbolBook} (h : b.Aggregated) (buy : Bool) :
    ∃ prices, Shown b buy prices := by
  obtain ⟨prices, hsort, hmem, htop, -⟩ := h.carries.side buy
  refine ⟨prices.take b.depth, ⟨hsort.sublist (List.take_sublist _ _), htop, ?_⟩⟩
  intro p hp
  exact (hmem p).mp (List.mem_of_mem_take hp)

theorem Shown.nodup {b : SymbolBook} {buy : Bool} {prices : List Price} (h : Shown b buy prices) :
    prices.Nodup :=
  Better.nodup h.sorted

section Quoted
variable {b : SymbolBook} (hqty : ∀ buy p, levelQty b.orders buy p < 2 ^ 32)
  (hcount : ∀ buy p, levelCount b.orders buy p < 2 ^ 32)
  {buy : Bool} {prices : List Price} (h : Shown b buy prices)
include hqty hcount h

theorem Shown.backed (hpos : b.orders.QtyPos) : ∀ lvl ∈ b.top buy, lvl.Backed := by
  intro lvl hlvl
  rw [h.top] at hlvl
  obtain ⟨p, hp, rfl⟩ := List.mem_map.mp hlvl
  rw [PriceLevel.Backed, levelFor, UInt32.toNat_ofNat_of_lt' (hqty buy p),
    UInt32.toNat_ofNat_of_lt' (hcount buy p)]
  exact ⟨h.live p hp, levelCount_le_levelQty hpos buy p⟩

/-- What the sent side quotes at a price: its shares and its orders. -/
theorem Shown.quotes (side : Side) (buy' : Bool) (p : Price) :
    quoted side (b.top buy) (fun lvl => lvl.totalQty.toNat) buy' p =
        (if side.isBuy = buy' then onPrices prices (levelQty b.orders buy) p else 0) ∧
      quoted side (b.top buy) (fun lvl => lvl.orderCount.toNat) buy' p =
        (if side.isBuy = buy' then onPrices prices (levelCount b.orders buy) p else 0) := by
  have hsmall {f : Price → ℕ} (hf : ∀ p, f p < 2 ^ 32) (p : Price) :
    (UInt32.ofNat (onPrices prices f p)).toNat = onPrices prices f p := by
    apply UInt32.toNat_ofNat_of_lt'
    unfold onPrices
    split_ifs
    · exact hf p
    · exact Nat.two_pow_pos 32
  have hoff (f : Price → ℕ) (p : Price) (hp : p ∉ prices) : onPrices prices f p = 0 := if_neg hp
  rw [h.top, ← map_levelFor_onPrices]
  constructor
  · exact quoted_ladder side h.nodup _ _ _ _ (hsmall (hqty buy)) (hoff _) buy' p
  · exact quoted_ladder side h.nodup _ _ _ _ (hsmall (hcount buy)) (hoff _) buy' p

end Quoted

/-- A book with exactly the shown sums, and room for them, shows the same side. -/
theorem Shown.top_eq {b b' : SymbolBook} {buy : Bool} {prices : List Price} (h : Shown b buy prices)
    (h' : b'.Aggregated) (hroom : prices.length ≤ b'.depth)
    (hsame : ∀ p, levelQty b'.orders buy p = onPrices prices (levelQty b.orders buy) p)
    (hsame' : ∀ p, levelCount b'.orders buy p = onPrices prices (levelCount b.orders buy) p) :
    b'.top buy = b.top buy := by
  obtain ⟨prices', hsort, hmem, htop, -⟩ := h'.carries.side buy
  have hprices : prices' = prices := by
    apply hsort.eq_of_mem_iff h.sorted
    intro p
    rw [hmem, hsame', onPrices]
    by_cases hp : p ∈ prices
    · simp [hp, h.live p hp]
    · simp [hp]
  have hfun : levelQty b'.orders buy = onPrices prices (levelQty b.orders buy) := funext hsame
  have hfun' : levelCount b'.orders buy = onPrices prices (levelCount b.orders buy) := funext hsame'
  rw [htop, hprices, List.take_of_length_le hroom, hfun, hfun', map_levelFor_onPrices, h.top]

theorem sum_le_length_mul (levels : List PriceLevel) :
    (levels.map (fun lvl => lvl.orderCount.toNat)).sum ≤ levels.length * 2 ^ 32 := by
  induction levels with
  | nil => simp
  | cons lvl levels ih =>
    have hlt := lvl.orderCount.toNat_lt
    rw [List.map_cons, List.sum_cons, List.length_cons]
    omega

/-- Rebuilt from what a book shows, a book shows the same. -/
theorem rebuild_shows {b : SymbolBook} (h : b.Aggregated) (hqty : ∀ buy p, levelQty b.orders buy p < 2 ^ 32)
    {snap : SnapshotResponse} (hbids : snap.bids = b.topBids) (hasks : snap.asks = b.topAsks)
    (hroom : snap.bids.length + snap.asks.length < 2 ^ 31) :
    snap.rebuild.topBids = b.topBids ∧ snap.rebuild.topAsks = b.topAsks := by
  have hcount : ∀ buy p, levelCount b.orders buy p < 2 ^ 32 := CountsFit.of_small h.qtyPos hqty
  obtain ⟨bids, hb⟩ := h.shown true
  obtain ⟨asks, ha⟩ := h.shown false
  have hbids' : snap.bids = b.top true := hbids
  have hasks' : snap.asks = b.top false := hasks
  have hbsum := sum_le_length_mul snap.bids
  have hasum := sum_le_length_mul snap.asks
  obtain ⟨-, hqtys, hcounts⟩ := rebuild_fills snap (hbids' ▸ hb.backed hqty hcount h.qtyPos)
    (hasks' ▸ ha.backed hqty hcount h.qtyPos) (by omega)
  obtain ⟨hagg, hdepth⟩ := rebuild_kept snap
  have hbq := hb.quotes hqty hcount Side.buy
  have haq := ha.quotes hqty hcount Side.sell
  rw [← hbids'] at hbq
  rw [← hasks'] at haq
  have hblen : bids.length ≤ snap.rebuild.depth := by
    rw [hdepth, SnapshotResponse.size, hbids', hb.top, List.length_map]
    exact le_max_left _ _
  have halen : asks.length ≤ snap.rebuild.depth := by
    rw [hdepth, SnapshotResponse.size, hasks', ha.top, List.length_map]
    exact le_max_right _ _
  constructor
  · refine hb.top_eq hagg hblen (fun p => ?_) (fun p => ?_)
    · rw [hqtys, (hbq true p).1, (haq true p).1]
      simp [Side.isBuy, Side.buy, Side.sell]
    · rw [hcounts, (hbq true p).2, (haq true p).2]
      simp [Side.isBuy, Side.buy, Side.sell]
  · refine ha.top_eq hagg halen (fun p => ?_) (fun p => ?_)
    · rw [hqtys, (hbq false p).1, (haq false p).1]
      simp [Side.isBuy, Side.buy, Side.sell]
    · rw [hcounts, (hbq false p).2, (haq false p).2]
      simp [Side.isBuy, Side.buy, Side.sell]

theorem install_find (d : DepthBook) (snap : SnapshotResponse) (sym : Symbol) :
    (d.install snap).find sym = if sym = snap.symbol then some snap.rebuild else d.find sym := by
  rw [DepthBook.find, install_lookup]
  simp only [symbolKey_injective.eq_iff]
  rfl

theorem setBook_twice (d : DepthBook) (key : SymbolKey) (b : SymbolBook) :
    (d.setBook key b).setBook key b = d.setBook key b := by
  unfold DepthBook.setBook
  congr 1
  apply ExtTreeMap.ext_getElem?
  intro k
  simp only [lookup_insert]
  split_ifs <;> rfl

theorem install_twice (d : DepthBook) (snap : SnapshotResponse) :
    (d.install snap).install snap = d.install snap := by
  have hfound := install_find d snap snap.symbol
  rw [if_pos rfl, DepthBook.find] at hfound
  have htracked : (d.install snap).bookFor snap.symbol = d.install snap := by
    rw [DepthBook.bookFor, hfound]
  rw [DepthBook.install, htracked]
  exact setBook_twice _ _ _

/-- A snapshot applied again is only counted again. -/
theorem applySnapshot_twice (h : FeedHandler) (snap : SnapshotResponse) :
    (h.applySnapshot snap).applySnapshot snap = { h.applySnapshot snap with
      stats := { (h.applySnapshot snap).stats with snapshotsApplied := (h.applySnapshot snap).stats.snapshotsApplied + 1 } } := by
  simp only [FeedHandler.applySnapshot, install_twice, GapDetector.setExpected_twice]

/-- A book sent through the recovery channel shows the same levels wherever it is
installed. The other symbols keep theirs, the stream goes on behind the snapshot, and
a second copy changes nothing but its count. -/
theorem snapshot_transfer {depth : ℕ} {ops : List BookOp}
    (hsums : ∀ pre, pre <+: ops → ∀ buy p, levelQty (SymbolBook.execAll depth pre).orders buy p < 2 ^ 32)
    (h : FeedHandler) (sym : Symbol) (loc : StockLocate) {last : SequenceNumber}
    (hlast : last.toNat < 2 ^ 64 - 1)
    {resp : SnapshotResponse}
    (hresp : resp = ⟨loc, last, sym, (SymbolBook.execAll depth ops).topBids,
      (SymbolBook.execAll depth ops).topAsks⟩)
    (hlen : (SnapshotClient.encodeResponse resp).length ≤ 2 ^ 32 - 5) :
    ∃ out h',
      SnapshotClient.decodeFrame (SnapshotClient.encodeResponse resp) =
        some (out, (SnapshotClient.encodeResponse resp).length) ∧
      out.kind = .response ∧ h.applySnapshot out.response = h' ∧
      (h'.book.snapshot sym).bids = (SymbolBook.execAll depth ops).topBids ∧
      (h'.book.snapshot sym).asks = (SymbolBook.execAll depth ops).topAsks ∧
      (∀ other, other ≠ sym → h'.book.find other = h.book.find other) ∧
      (h'.gap.expected loc).toNat = last.toNat + 1 ∧
      h'.applySnapshot out.response = { h' with stats := { h'.stats with snapshotsApplied := h'.stats.snapshotsApplied + 1 } } := by
  have hwire := SnapshotClient.response_round_trip (hlen.trans (by norm_num)) []
  rw [List.append_nil] at hwire
  have hframe := hlen
  rw [SnapshotClient.encodeResponse, SnapshotClient.length_frameWithHeader,
    SnapshotClient.length_responseBody] at hframe
  have hshows : resp.rebuild.topBids = (SymbolBook.execAll depth ops).topBids ∧
      resp.rebuild.topAsks = (SymbolBook.execAll depth ops).topAsks := by
    apply rebuild_shows (SymbolBook.execAll_fits hsums) (hsums ops (List.prefix_refl _)) (by rw [hresp]) (by rw [hresp])
    omega
  have hsym : resp.symbol = sym := by rw [hresp]
  have hbook : (h.applySnapshot resp).book.find sym = some resp.rebuild := by
    rw [FeedHandler.applySnapshot, install_find, if_pos hsym.symm]
  have hsides : ((h.applySnapshot resp).book.snapshot sym) =
      ⟨sym, resp.rebuild.topBids, resp.rebuild.topAsks, resp.rebuild.lastTs⟩ := by
    rw [DepthBook.find] at hbook
    rw [DepthBook.snapshot, hbook]
  refine ⟨_, _, hwire, rfl, rfl, ?_, ?_, ?_, ?_, applySnapshot_twice h resp⟩
  · rw [hsides, hshows.1]
  · rw [hsides, hshows.2]
  · intro other hother
    rw [FeedHandler.applySnapshot, install_find, if_neg (by rwa [hsym])]
  · have hnext : (h.applySnapshot resp).gap.expected loc = last + 1 := by
      rw [FeedHandler.applySnapshot, GapDetector.expected_setExpected, if_pos (by rw [hresp]), hresp]
    rw [hnext]
    exact toNat_succ (UInt64.lt_iff_toNat_lt.mpr hlast)

private def twoBidsAndAsk : List BookOp := [.add 1 Side.buy 100 5 0, .add 2 Side.buy 100 2 0, .add 3 Side.sell 103 4 0]

/-- A book of two bids at one price and an ask, installed in a fresh handler. -/
theorem two_bids_transferred :
    let resp : SnapshotResponse := ⟨1, 9, makeSymbol [0x41], [⟨100, 7, 2⟩], [⟨103, 4, 1⟩]⟩
    ∃ out h', SnapshotClient.decodeFrame (SnapshotClient.encodeResponse resp) =
        some (out, (SnapshotClient.encodeResponse resp).length) ∧ out.kind = .response ∧
      (FeedHandler.new 10 false).applySnapshot out.response = h' ∧
      (h'.book.snapshot (makeSymbol [0x41])).bids = [⟨100, 7, 2⟩] ∧
        (h'.book.snapshot (makeSymbol [0x41])).asks = [⟨103, 4, 1⟩] ∧
      (h'.gap.expected 1).toNat = 10 := by
  intro resp
  have hbids : (SymbolBook.execAll 10 twoBidsAndAsk).topBids = [⟨100, 7, 2⟩] := by decide
  have hasks : (SymbolBook.execAll 10 twoBidsAndAsk).topAsks = [⟨103, 4, 1⟩] := by decide
  have hsmall : ∀ n, n ≤ twoBidsAndAsk.length →
      sumOver (SymbolBook.execAll 10 (twoBidsAndAsk.take n)).orders
        (fun o => o.qty.toNat) < 2 ^ 32 := by decide
  have hsums : ∀ pre, pre <+: twoBidsAndAsk →
      ∀ buy p, levelQty (SymbolBook.execAll 10 pre).orders buy p < 2 ^ 32 :=
    TraceRuns.forall_prefix_iff.mpr (fun n hn buy p => (levelQty_le_total _ buy p).trans_lt (hsmall n hn))
  have hresp : resp = ⟨1, 9, makeSymbol [0x41], (SymbolBook.execAll 10 twoBidsAndAsk).topBids,
      (SymbolBook.execAll 10 twoBidsAndAsk).topAsks⟩ := by rw [hbids, hasks]
  obtain ⟨out, h', hwire, hkind, happly, hshown, hshown', -, hnext, -⟩ :=
    snapshot_transfer hsums (FeedHandler.new 10 false) (makeSymbol [0x41]) 1 (by decide) hresp (by decide)
  exact ⟨out, h', hwire, hkind, happly, hshown.trans hbids, hshown'.trans hasks, hnext⟩

end MdfeedItch
