import MdfeedItch.RecoveryScope
import MdfeedItch.SnapshotDepth

/-! # The answer for an unknown locate

A snapshot server that does not know a locate answers with a blank symbol, no
levels and sequence 0. The handler installs this like any other answer: the blank
symbol gets an empty book of depth 0, the stream goes on behind the datagram, and
the gap is forgotten. -/
namespace MdfeedItch
open Std FiniteMapSums FeedHandler

def blankSymbol : Symbol := Vector.replicate symbolLen 0

/-- The answer for a locate that the server does not know. -/
def unknownAnswer (loc : StockLocate) : SnapshotResponse := ⟨loc, 0, blankSymbol, [], []⟩

/-- The same live orders and visible ladders. -/
structure SymbolBook.Alike (b b' : SymbolBook) : Prop where
  orders : b.orders = b'.orders
  ladders : ∀ buy, b.top buy = b'.top buy

/-- The same known symbols, and books that show the same. -/
structure ShowsSame (d d' : DepthBook) : Prop where
  symbols : ∀ sym, (d.find sym).isSome ↔ (d'.find sym).isSome
  books : ∀ key, (d.bookAt key).Alike (d'.bookAt key)

/-- A datagram whose gap gets the answer for an unknown locate: the books show what they
showed before, as after a request that fails, and the gap stays open. -/
structure NoEffect (h : FeedHandler) (d : Delivery) : Prop where
  book : ShowsSame (h.deliver d).1.book h.book
  gap : (h.deliver d).1.gap.expected d.loc = h.gap.expected d.loc

/-- What the frame asks of the books, if it decodes. -/
def frameAction (frame : List UInt8) : Option BookAction := (decodeFrame frame).message.bind AnyMessage.action

/-- The order that the frame adds for the blank symbol, if it adds one. -/
def broughtOrders (frame : List UInt8) : OrderTable :=
  match frameAction frame with
  | some (.add m) =>
    if m.symbol = blankSymbol then OrderTable.place ∅ m.orderId ⟨⟨m.side, m.price, m.shares⟩, m.ts⟩ else ∅
  | _ => ∅

/-- The frame makes no symbol known and shows on none but the blank one. -/
structure SilentElsewhere (d : DepthBook) (frame : List UInt8) : Prop where
  symbols : ∀ sym, ((d.receive frame).find sym).isSome → (d.find sym).isSome
  books : ∀ key, symbolKey blankSymbol ≠ key → ((d.receive frame).bookAt key).Alike (d.bookAt key)

namespace SymbolBook

structure Vacant (b : SymbolBook) : Prop where
  orders : b.orders = ∅
  ladders : ∀ buy, b.top buy = []

theorem new_vacant (depth : ℕ) : (new depth).Vacant := by
  refine ⟨rfl, fun buy => ?_⟩
  cases buy <;> rfl

variable {b : SymbolBook} {id : OrderId} {side : Side} {price : Price} {q : Quantity}

theorem Vacant.absent (h : b.Vacant) (id : OrderId) : b.hasOrder id = false := by
  rw [hasOrder_eq_false, h.orders]
  simp

/-- In a book of depth 0 no order shows. -/
theorem Vacant.add_hidden (h : b.Vacant) (hdepth : b.depth = 0) (id : OrderId) (side : Side) (price : Price)
    (q : Quantity) (ts : Timestamp) (buy : Bool) : (b.addOrder id side price q ts).top buy = [] := by
  have hbid : b.topBids = [] := h.ladders true
  have hask : b.topAsks = [] := h.ladders false
  have hnone : b.orders[id]? = none := hasOrder_eq_false.mp (h.absent id)
  by_cases hq : q = 0
  · rw [addOrder, if_pos hq]
    exact h.ladders buy
  · rw [addOrder, if_neg hq, hnone]
    dsimp only
    unfold applyLevelDelta
    split
    · split <;> cases buy <;> simp [top, topLevels, hdepth, hbid, hask]
    · split <;> cases buy <;> simp [top, topLevels, hdepth, hbid, hask]

/-- Whatever else a vacant book is asked to do leaves it as it is. -/
theorem Vacant.exec (h : b.Vacant) {op : BookOp}
    (hop : ∀ id side price q ts, op = .add id side price q ts → q = 0) : b.exec op = b := by
  cases op with
  | add id side price q ts => exact if_pos (hop id side price q ts rfl)
  | modify id q ts =>
    have hnone : b.orders[id]? = none := hasOrder_eq_false.mp (h.absent id)
    simp [SymbolBook.exec, modifyOrder, hnone]
  | reduce id q ts => exact (exec_absent (h.absent id)).1 q ts
  | delete id ts => exact (exec_absent (h.absent id)).2.1 ts
  | replace id newId price q ts => exact (exec_absent (h.absent id)).2.2 newId price q ts

end SymbolBook

theorem install_callAt (d : DepthBook) (snap : SnapshotResponse) (key : SymbolKey) (a : BookAction) :
    (d.install snap).callAt key a = d.callAt key a := by
  cases a <;> simp only [DepthBook.callAt, install_orderToSymbol]

variable {d : DepthBook} {loc : StockLocate} {frame : List UInt8}

theorem install_unknown_bookAt (d : DepthBook) (loc : StockLocate) (key : SymbolKey) :
    (d.install (unknownAnswer loc)).bookAt key =
      if symbolKey blankSymbol = key then SymbolBook.new 0 else d.bookAt key :=
  install_bookAt d (unknownAnswer loc) key

/-- A frame without an action leaves the books alone, any other is its action. -/
theorem receive_follows (h : d.WellKeyed) (frame : List UInt8) :
    match frameAction frame with
    | none => d.receive frame = d
    | some a => d.Follows a (d.receive frame) ∧ ∀ key, ((d.receive frame).books[key]?).isSome ↔
        (d.books[key]?).isSome ∨ ∃ m, a = .add m ∧ symbolKey m.symbol = key := by
  unfold frameAction DepthBook.receive
  cases hmsg : (decodeFrame frame).message with
  | none => rfl
  | some m =>
    have hm := DepthBook.apply_follows h m
    rw [Option.bind_some]
    cases ha : m.action with
    | none =>
      rw [ha] at hm
      exact hm
    | some a =>
      rw [ha] at hm
      refine ⟨hm, fun key => ?_⟩
      rw [DepthBook.apply_tracked, ha]
      simp only [Option.some_inj]

theorem receive_keeps_known (h : d.WellKeyed) (frame : List UInt8) {sym : Symbol} (hsym : (d.find sym).isSome) :
    ((d.receive frame).find sym).isSome := by
  have hafter := receive_follows h frame
  cases ha : frameAction frame with
  | none =>
    rw [ha] at hafter
    rw [hafter]
    exact hsym
  | some a =>
    rw [ha] at hafter
    exact (hafter.2 (symbolKey sym)).mpr (Or.inl hsym)

/-- An action that brings no shares leaves a vacant book as it is. -/
theorem bookAfter_vacant {a : BookAction} {key : SymbolKey} (hv : (d.bookAt key).Vacant)
    (ha : ∀ m, a = .add m → symbolKey m.symbol = key → m.shares = 0) : d.bookAfter a key = d.bookAt key := by
  rw [DepthBook.bookAfter]
  cases hcall : d.callAt key a with
  | none => rfl
  | some op =>
    refine hv.exec (fun id side price q ts hop => ?_)
    subst hop
    cases a with
    | add m =>
      simp only [DepthBook.callAt] at hcall
      split_ifs at hcall with hkey
      cases hcall
      exact ha m rfl hkey
    | reduce x shares ts | delete x ts | replace m =>
      simp only [DepthBook.callAt] at hcall
      split_ifs at hcall
      cases hcall

/-- The order that the frame adds for the blank symbol is all that the emptied book holds. -/
theorem bookAfter_emptied {a : BookAction} (ha : frameAction frame = some a) :
    ((d.install (unknownAnswer loc)).bookAfter a (symbolKey blankSymbol)).orders = broughtOrders frame ∧
      ∀ buy, ((d.install (unknownAnswer loc)).bookAfter a (symbolKey blankSymbol)).top buy = [] := by
  have hblank := install_unknown_bookAt d loc (symbolKey blankSymbol)
  rw [if_pos rfl] at hblank
  by_cases hadds : ∃ m, a = .add m ∧ m.symbol = blankSymbol
  · obtain ⟨m, rfl, hsym⟩ := hadds
    have hafter : (d.install (unknownAnswer loc)).bookAfter (.add m) (symbolKey blankSymbol) =
        (SymbolBook.new 0).addOrder m.orderId m.side m.price m.shares m.ts := by
      rw [DepthBook.bookAfter, DepthBook.callAt, if_pos (congrArg symbolKey hsym), hblank]
      rfl
    rw [hafter]
    refine ⟨?_, (SymbolBook.new_vacant 0).add_hidden rfl m.orderId m.side m.price m.shares m.ts⟩
    rw [SymbolBook.addOrder_orders, broughtOrders, ha]
    exact (if_pos hsym).symm
  · have hvacant : ((d.install (unknownAnswer loc)).bookAt (symbolKey blankSymbol)).Vacant :=
      hblank ▸ SymbolBook.new_vacant 0
    rw [bookAfter_vacant hvacant (fun m hm hkey => absurd ⟨m, hm, symbolKey_injective hkey⟩ hadds)]
    refine ⟨hvacant.orders.trans ?_, hvacant.ladders⟩
    rw [broughtOrders, ha]
    cases a with
    | add m => exact (if_neg (fun hsym => hadds ⟨m, rfl, hsym⟩)).symm
    | reduce x shares ts | delete x ts | replace m => rfl

/-- The books after answer and datagram beside those after the datagram alone: the blank
symbol is known, and holds nothing but the order that the datagram brings. -/
structure Emptied (frame : List UInt8) (d e : DepthBook) : Prop where
  symbols : ∀ sym, (e.find sym).isSome ↔ symbolKey sym = symbolKey blankSymbol ∨ (d.find sym).isSome
  orders : (e.bookAt (symbolKey blankSymbol)).orders = broughtOrders frame
  ladders : ∀ buy, (e.bookAt (symbolKey blankSymbol)).top buy = []
  books : ∀ key, symbolKey blankSymbol ≠ key → e.bookAt key = d.bookAt key

theorem receive_emptied (h : d.WellKeyed) (loc : StockLocate) (frame : List UInt8) :
    Emptied frame (d.receive frame) ((d.install (unknownAnswer loc)).receive frame) := by
  have hknown : ∀ key, ((d.install (unknownAnswer loc)).books[key]?).isSome ↔
      key = symbolKey blankSymbol ∨ (d.books[key]?).isSome := by
    intro key
    rw [install_lookup]
    split_ifs with hkey
    · exact iff_of_true rfl (Or.inl hkey)
    · exact (or_iff_right hkey).symm
  have hafter := receive_follows h frame
  have hafter' := receive_follows (install_wellKeyed h (unknownAnswer loc)).1 frame
  cases ha : frameAction frame with
  | none =>
    rw [ha] at hafter hafter'
    rw [hafter, hafter']
    have hblank := install_unknown_bookAt d loc (symbolKey blankSymbol)
    rw [if_pos rfl] at hblank
    refine ⟨fun sym => hknown (symbolKey sym), ?_, ?_, fun key hkey => ?_⟩
    · rw [hblank, broughtOrders, ha]
      rfl
    · rw [hblank]
      exact (SymbolBook.new_vacant 0).ladders
    · rw [install_unknown_bookAt, if_neg hkey]
  | some a =>
    rw [ha] at hafter hafter'
    obtain ⟨hf, ht⟩ := hafter
    obtain ⟨hf', ht'⟩ := hafter'
    have hblank := @bookAfter_emptied d loc frame a ha
    rw [← hf'.books] at hblank
    refine ⟨fun sym => ?_, hblank.1, hblank.2, fun key hkey => ?_⟩
    · rw [DepthBook.find, DepthBook.find, ht, ht', hknown, or_assoc]
    · rw [hf.books, hf'.books, DepthBook.bookAfter, DepthBook.bookAfter, install_callAt, install_unknown_bookAt, if_neg hkey]

/-- All that answer and datagram do stays unseen when the blank symbol is known, its book
shows no level and holds just the order that the datagram brings, and the datagram
shows on no other symbol. -/
theorem receive_showsSame (h : d.WellKeyed) (loc : StockLocate) (frame : List UInt8) :
    ShowsSame ((d.install (unknownAnswer loc)).receive frame) d ↔
      (d.find blankSymbol).isSome ∧
      ((d.bookAt (symbolKey blankSymbol)).orders = broughtOrders frame ∧
        ∀ buy, (d.bookAt (symbolKey blankSymbol)).top buy = []) ∧ SilentElsewhere d frame := by
  obtain ⟨hsymbols, horders, hladders, hbooks⟩ := receive_emptied h loc frame
  constructor
  · intro hsame
    have hblank := hsame.books (symbolKey blankSymbol)
    refine ⟨(hsame.symbols blankSymbol).mp ((hsymbols blankSymbol).mpr (Or.inl rfl)),
      ⟨hblank.orders.symm.trans horders, fun buy => (hblank.ladders buy).symm.trans (hladders buy)⟩,
      fun sym hsym => (hsame.symbols sym).mp ((hsymbols sym).mpr (Or.inr hsym)), fun key hkey => ?_⟩
    rw [← hbooks key hkey]
    exact hsame.books key
  · rintro ⟨hknown, ⟨hholds, hshows⟩, hsilent⟩
    refine ⟨fun sym => (hsymbols sym).trans ⟨?_, fun hsym => Or.inr (receive_keeps_known h frame hsym)⟩, fun key => ?_⟩
    · rintro (hkey | hsym)
      · rw [DepthBook.find, hkey]
        exact hknown
      · exact hsilent.symbols sym hsym
    · by_cases hkey : symbolKey blankSymbol = key
      · rw [← hkey]
        exact ⟨horders.trans hholds.symm, fun buy => (hladders buy).trans (hshows buy).symm⟩
      · rw [hbooks key hkey]
        exact hsilent.books key hkey

/-- Where an answer for an unknown locate goes unnoticed: the datagram has the largest
sequence and its locate expects 0, so that the expected sequence wraps around to
where it was; the blank symbol is known, shows no level and holds just the order that
the datagram adds for it (none, if it adds none); and the datagram shows on no other
symbol. -/
structure Unnoticed (h : FeedHandler) (d : Delivery) : Prop where
  largest : d.seq = maxSequence
  wrapped : h.gap.expected d.loc = 0
  known : (h.book.find blankSymbol).isSome
  orders : (h.book.bookAt (symbolKey blankSymbol)).orders = broughtOrders d.frame
  ladders : ∀ buy, (h.book.bookAt (symbolKey blankSymbol)).top buy = []
  silent : SilentElsewhere h.book d.frame

/-- The answer counts as a recovery up to sequence 0, and the datagram is accepted. -/
theorem deliver_unknown {h : FeedHandler} {d : Delivery} {e : SequenceNumber}
    (hr : Recovers h.gap d e (unknownAnswer d.loc)) :
    (h.deliver d).1.book = (h.book.install (unknownAnswer d.loc)).receive d.frame ∧
      (h.deliver d).1.gap.expected d.loc = d.seq + 1 := by
  have hfx := (h.deliver_emits d).of_recovers hr
  have hone : (h.gap.setExpected (unknownAnswer d.loc).stockLocate
      ((unknownAnswer d.loc).lastAppliedSeq + 1)).expected d.loc ≤ d.seq := by
    rw [GapDetector.expected_setExpected, if_pos (show d.loc = (unknownAnswer d.loc).stockLocate from rfl),
      UInt64.le_iff_toNat_le]
    exact Nat.pos_of_ne_zero (fun hz => hr.seq (UInt64.toNat_inj.mp hz))
  rw [if_pos hone] at hfx
  have hreplays := h.deliver_replays d
  rw [hfx] at hreplays
  refine ⟨hreplays.book, ?_⟩
  rw [hreplays.gap, List.foldl_cons, List.foldl_cons, List.foldl_cons, List.foldl_nil, onGap_accepted hr.seq,
    GapDetector.expected_setExpected, if_pos rfl]

theorem succ_eq_iff_of_lt {e s : SequenceNumber} (h : e < s) : s + 1 = e ↔ s = maxSequence ∧ e = 0 := by
  constructor
  · intro hnext
    have hmax : s = maxSequence := by
      by_contra hne
      have hlt : s < maxSequence := UInt64.lt_of_le_of_ne
        (UInt64.le_iff_toNat_le.mpr (Nat.le_of_lt_succ s.toNat_lt)) hne
      rw [← hnext, UInt64.lt_iff_toNat_lt, toNat_succ hlt] at h
      omega
    rw [hmax] at hnext
    exact ⟨hmax, hnext.symm⟩
  · rintro ⟨rfl, rfl⟩
    rfl

/-- After any datagrams and snapshots, the answer for an unknown locate has no effect
exactly where it goes unnoticed. -/
theorem unknown_answer_noEffect (depth : ℕ) (skip : Bool) (cs : List FeedCall) (d : Delivery)
    (e : SequenceNumber)
    (hr : Recovers ((FeedHandler.new depth skip).calls cs).1.gap d e (unknownAnswer d.loc)) :
    NoEffect ((FeedHandler.new depth skip).calls cs).1 d ↔
      Unnoticed ((FeedHandler.new depth skip).calls cs).1 d := by
  have hkeyed := calls_wellKeyed depth skip cs
  generalize ((FeedHandler.new depth skip).calls cs).1 = h at hr hkeyed
  obtain ⟨hbook, hgap⟩ := deliver_unknown hr
  have hold := GapDetector.expected_of_some hr.old
  have hmoves := succ_eq_iff_of_lt hr.gap
  constructor
  · rintro ⟨hsame, hopen⟩
    rw [hgap, hold, hmoves] at hopen
    rw [hbook, receive_showsSame hkeyed] at hsame
    obtain ⟨hknown, ⟨horders, hladders⟩, hsilent⟩ := hsame
    exact ⟨hopen.1, hold.trans hopen.2, hknown, horders, hladders, hsilent⟩
  · rintro ⟨hlargest, hwrapped, hknown, horders, hladders, hsilent⟩
    refine ⟨?_, ?_⟩
    · rw [hbook, receive_showsSame hkeyed]
      exact ⟨hknown, ⟨horders, hladders⟩, hsilent⟩
    · rw [hgap, hold, hmoves]
      exact ⟨hlargest, hold.symm.trans hwrapped⟩

/-- A requester to whose server every locate is unknown. -/
def unknownRequester : RecoveryRequester := fun req => some (unknownAnswer req.stockLocate)

/-- Sequence 5 after 1 is noticed. -/
theorem small_sequence_noticed :
    ¬ NoEffect ((FeedHandler.new 10 false).calls [.datagram ⟨bareDatagram 1, none⟩]).1
      ⟨bareDatagram 5, some unknownRequester⟩ := by
  intro hnone
  have hr : Recovers ((FeedHandler.new 10 false).calls [.datagram ⟨bareDatagram 1, none⟩]).1.gap
      ⟨bareDatagram 5, some unknownRequester⟩ 2 (unknownAnswer 1) :=
    ⟨⟨by decide, by decide, by decide, by decide⟩, rfl⟩
  have hunnoticed := (unknown_answer_noEffect 10 false [.datagram ⟨bareDatagram 1, none⟩]
    ⟨bareDatagram 5, some unknownRequester⟩ 2 hr).mp hnone
  exact absurd hunnoticed.largest (by decide)

/-- The blank symbol becomes known, and the locate goes on behind the datagram. -/
theorem unknown_answer_moves : ¬ ∀ (depth : ℕ) (skip : Bool) (cs : List FeedCall) (d : Delivery)
    (e : SequenceNumber),
    Recovers ((FeedHandler.new depth skip).calls cs).1.gap d e (unknownAnswer d.loc) →
      NoEffect ((FeedHandler.new depth skip).calls cs).1 d := by
  intro h
  have hmoved := (h 10 false [.datagram ⟨bareDatagram 1, none⟩] ⟨bareDatagram 5, some unknownRequester⟩ 2
    ⟨⟨by decide, by decide, by decide, by decide⟩, rfl⟩).gap
  exact absurd hmoved (by decide)

end MdfeedItch
