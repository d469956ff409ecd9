import MdfeedItch.BookDirectory
import MdfeedItch.BookSnapshotCodec
import MdfeedItch.SnapshotService

/-! # Subscribers hold a state of the publisher

A frame only overwrites the symbols that it carries. No residue stays behind since
the publisher's symbols never shrink (`Grows`): each capture carries at least the
symbols of the one before. `Sound` says what is on its way to every connection, and
every step keeps it. -/
namespace MdfeedItch
open Std FiniteMapSums ByteCursor ByteLayout

namespace DepthBook

/-- Every symbol that has a book keeps one. -/
def Grows (d d' : DepthBook) : Prop := ∀ key : SymbolKey, (d.books[key]?).isSome → (d'.books[key]?).isSome

theorem Grows.refl (d : DepthBook) : d.Grows d := fun _ h => h

theorem grows_apply (d : DepthBook) (m : AnyMessage) : d.Grows (d.apply m).book := by
  intro key h
  exact (apply_tracked d m key).mpr (Or.inl h)

theorem grows_install {d : DepthBook} (h : d.WellKeyed) (snap : SnapshotResponse) :
    d.Grows (d.install snap) := by
  intro key hkey
  rw [install, setBook_tracked (h.bookFor snap.symbol).2]
  exact (bookFor_tracked d snap.symbol key).mpr (Or.inl hkey)

end DepthBook

/-- The record of a book in a capture. -/
def SymbolBook.record (sym : Symbol) (b : SymbolBook) : BookSnapshotSymbol :=
  ⟨sym, b.topBids.take snapshotMaxLevels, b.topAsks.take snapshotMaxLevels⟩

namespace Capture

/-- The order is that of the tracked symbols of a sound book. -/
structure Faithful (c : Capture) : Prop where
  keyed : c.book.WellKeyed
  perm : c.order.Perm c.book.allSymbols

variable {c : Capture}

theorem Faithful.mem_snapshot (h : c.Faithful) {rec : BookSnapshotSymbol} :
    rec ∈ c.snapshot.symbols ↔ ∃ b, c.book.find rec.symbol = some b ∧ rec = b.record rec.symbol := by
  rw [snapshot, captureBookSnapshot, List.mem_filterMap]
  constructor
  · rintro ⟨sym, -, hrec⟩
    obtain ⟨b, hb, rfl⟩ := Option.map_eq_some_iff.mp hrec
    exact ⟨b, hb, rfl⟩
  · rintro ⟨b, hb, hrec⟩
    refine ⟨rec.symbol, h.perm.mem_iff.mpr ((DepthBook.mem_allSymbols_iff h.keyed).mpr (by rw [hb]; rfl)), ?_⟩
    rw [hb, hrec]
    rfl

/-- A symbol key has one record. -/
theorem Faithful.unique (h : c.Faithful) : ∀ r ∈ c.snapshot.symbols, ∀ r' ∈ c.snapshot.symbols,
    symbolKey r.symbol = symbolKey r'.symbol → r = r' := by
  intro r hr r' hr' hkey
  obtain ⟨b, hb, hrec⟩ := h.mem_snapshot.mp hr
  obtain ⟨b', hb', hrec'⟩ := h.mem_snapshot.mp hr'
  have hsym := symbolKey_injective hkey
  rw [← hsym, hb, Option.some_inj] at hb'
  rw [hrec, hrec', ← hb', hsym]

/-- The keys of the records are those that have a book. -/
theorem Faithful.mem_key (h : c.Faithful) {key : SymbolKey} (hkey : (c.book.books[key]?).isSome) :
    ∃ r ∈ c.snapshot.symbols, symbolKey r.symbol = key := by
  obtain ⟨sym, hsym⟩ := Option.isSome_iff_exists.mp ((h.keyed.tracked key).mp hkey)
  have hsame := h.keyed.symbol key sym hsym
  obtain ⟨b, hb⟩ := Option.isSome_iff_exists.mp hkey
  exact ⟨b.record sym, h.mem_snapshot.mpr ⟨b, by rw [SymbolBook.record, DepthBook.find, hsame, hb], rfl⟩,
    hsame⟩

/-- A frame within the limit, at the head of a stream, is received whole. -/
theorem receive_frame (c : Capture) (hsize : c.frame.length ≤ 4 + 16 * 1024 * 1024) (rest : List UInt8) :
    tcpRecvFrame (c.frame ++ rest) = some (some c.frame, rest) := by
  have hlen : c.frame.length = (coveredBytes c.snapshot).length + 8 := length_frameAround _
  have hdeclared : ofBytes ((c.frame ++ rest).take 4) = (coveredBytes c.snapshot).length + 4 :=
    (frameAround_parts (show (coveredBytes c.snapshot).length + 4 < 2 ^ 32 by omega) rest).1
  have hwhole : (c.frame ++ rest).length = c.frame.length + rest.length := List.length_append
  rw [tcpRecvFrame, if_neg (by omega)]
  dsimp only
  rw [hdeclared, if_neg (by omega), if_neg (by omega),
    show 4 + ((coveredBytes c.snapshot).length + 4) = c.frame.length by omega,
    List.take_left, List.drop_left]

/-- Such a frame is applied. -/
theorem receiveOne_frame (c : Capture) (hsize : c.frame.length ≤ 4 + 16 * 1024 * 1024)
    (sub : BookSnapshotSubscriber) (rest : List UInt8) :
    sub.receiveOne (c.frame ++ rest) = some (true, sub.applySnapshot c.snapshot, rest) := by
  have hlen : c.frame.length = (coveredBytes c.snapshot).length + 8 := length_frameAround _
  have hbounded := captureBookSnapshot_bounded c.book c.order c.sequence
  have hdecode : decodeBookSnapshot (c.frame ++ []) = some (c.snapshot, true) :=
    decode_of_encode hbounded (by rw [snapshot] at hlen; omega) []
  rw [List.append_nil] at hdecode
  rw [BookSnapshotSubscriber.receiveOne, c.receive_frame hsize]
  dsimp only
  rw [hdecode]

end Capture

namespace BookSnapshotSubscriber

/-- The subscriber holds the books and symbols of a capture, and nothing else. -/
structure Mirrors (s : BookSnapshotSubscriber) (c : Capture) : Prop where
  sequence : s.lastSeq = c.sequence
  books : ∀ (key : SymbolKey) (lb : LocalBook), s.books[key]? = some lb ↔
    ∃ r ∈ c.snapshot.symbols, symbolKey r.symbol = key ∧ LocalBook.mk r.bids r.asks = lb
  index : ∀ (key : SymbolKey) (sym : Symbol), s.index[key]? = some sym ↔
    ∃ r ∈ c.snapshot.symbols, symbolKey r.symbol = key ∧ r.symbol = sym

theorem applyRecords_books (s : BookSnapshotSubscriber) (rs : List BookSnapshotSymbol) :
    (rs.foldl applyRecord s).books =
      rs.foldl (fun m r => m.insert (symbolKey r.symbol) ⟨r.bids, r.asks⟩) s.books := by
  induction rs generalizing s with
  | nil => rfl
  | cons r rs ih => exact ih (s.applyRecord r)

theorem applyRecords_index (s : BookSnapshotSubscriber) (rs : List BookSnapshotSymbol) :
    (rs.foldl applyRecord s).index =
      rs.foldl (fun m r => m.insert (symbolKey r.symbol) r.symbol) s.index := by
  induction rs generalizing s with
  | nil => rfl
  | cons r rs ih => exact ih (s.applyRecord r)

/-- A frame that carries every symbol the subscriber knows replaces its whole state. -/
theorem applySnapshot_mirrors {s : BookSnapshotSubscriber} {c : Capture} (hc : c.Faithful)
    (hbooks : ∀ (key : SymbolKey) (lb : LocalBook), s.books[key]? = some lb → (c.book.books[key]?).isSome)
    (hindex : ∀ (key : SymbolKey) (sym : Symbol), s.index[key]? = some sym → (c.book.books[key]?).isSome) :
    (s.applySnapshot c.snapshot).Mirrors c := by
  -- nothing is left of the entries before, since their keys are carried too
  have honly {key : SymbolKey} {carried old : Prop} (hold : old → (c.book.books[key]?).isSome) :
      carried ∨ (∀ r ∈ c.snapshot.symbols, symbolKey r.symbol ≠ key) ∧ old ↔ carried := by
    constructor
    · rintro (hcarried | ⟨hnone, hkept⟩)
      · exact hcarried
      · obtain ⟨r, hr, hkey⟩ := hc.mem_key (hold hkept)
        exact absurd hkey (hnone r hr)
    · exact Or.inl
  refine ⟨rfl, fun key lb => ?_, fun key sym => ?_⟩
  · rw [applySnapshot, applyRecords_books, lookup_foldl_insert, honly (hbooks key lb)]
    intro r hr r' hr' hkey
    rw [hc.unique r hr r' hr' hkey]
  · rw [applySnapshot, applyRecords_index, lookup_foldl_insert, honly (hindex key sym)]
    intro r hr r' hr' hkey
    rw [hc.unique r hr r' hr' hkey]

theorem Mirrors.tracked {s : BookSnapshotSubscriber} {c : Capture} (h : s.Mirrors c) (hc : c.Faithful) :
    (∀ (key : SymbolKey) (lb : LocalBook), s.books[key]? = some lb → (c.book.books[key]?).isSome) ∧
      ∀ (key : SymbolKey) (sym : Symbol), s.index[key]? = some sym → (c.book.books[key]?).isSome := by
  have hrecord : ∀ r ∈ c.snapshot.symbols, (c.book.books[symbolKey r.symbol]?).isSome := by
    intro r hr
    obtain ⟨b, hb, -⟩ := hc.mem_snapshot.mp hr
    exact Option.isSome_iff_exists.mpr ⟨b, hb⟩
  refine ⟨fun key lb hlb => ?_, fun key sym hsym => ?_⟩
  · obtain ⟨r, hr, rfl, -⟩ := (h.books key lb).mp hlb
    exact hrecord r hr
  · obtain ⟨r, hr, rfl, -⟩ := (h.index key sym).mp hsym
    exact hrecord r hr

end BookSnapshotSubscriber

/-- The captures of a run, split into those that a connection missed or received and
those on their way to it. -/
structure Splits (cs : List Capture) (conn : Connection) (seen pending : List Capture) : Prop where
  captures : cs = seen ++ pending
  stream : conn.stream = pending.flatMap Capture.frame
  waiting : conn.accepted = false → pending = [] ∧ conn.subscriber = BookSnapshotSubscriber.new
  mirrors : conn.subscriber ≠ BookSnapshotSubscriber.new → ∃ before c, seen = before ++ [c] ∧ conn.subscriber.Mirrors c

/-- What holds of every reachable state and the captures before it. -/
structure Sound (cs : List Capture) (s : SnapshotService) : Prop where
  keyed : s.book.WellKeyed
  seq : s.seq = UInt64.ofNat cs.length
  numbered : ∀ (n : ℕ) (c : Capture), cs[n]? = some c → c.sequence = UInt64.ofNat (n + 1)
  faithful : ∀ c ∈ cs, c.Faithful
  grows : (cs.map Capture.book ++ [s.book]).Pairwise DepthBook.Grows
  connections : ∀ conn ∈ s.connections, ∃ seen pending, Splits cs conn seen pending

namespace Sound
variable {cs : List Capture} {s : SnapshotService}

/-- The next capture has the next sequence and at least the symbols of the one before. -/
theorem next (h : Sound cs s) {before later : List Capture} {c c' : Capture}
    (hcs : cs = before ++ [c] ++ c' :: later) :
    c'.sequence = c.sequence + 1 ∧ c.book.Grows c'.book := by
  subst hcs
  constructor
  · have hc := h.numbered before.length c (by simp)
    have hc' := h.numbered (before.length + 1) c' (by simp)
    rw [hc', hc, UInt64.ofNat_add]
    rfl
  · have hpair := (List.pairwise_append.mp h.grows).1
    rw [List.map_append, List.map_append, List.pairwise_append] at hpair
    exact hpair.2.2 c.book (by simp) c'.book (by simp)

/-- A call of `receive_one` that returns has applied the oldest capture on its way. -/
theorem receive (h : Sound cs s) (hsize : ∀ c ∈ cs, c.frame.length ≤ 4 + 16 * 1024 * 1024) {conn : Connection}
    {seen pending : List Capture} (hsplit : Splits cs conn seen pending) {ok : Bool}
    {sub : BookSnapshotSubscriber} {rest : List UInt8}
    (hreceive : conn.subscriber.receiveOne conn.stream = some (ok, sub, rest)) :
    ∃ c later, pending = c :: later ∧ ok = true ∧ sub = conn.subscriber.applySnapshot c.snapshot ∧
      rest = later.flatMap Capture.frame ∧ sub.Mirrors c := by
  cases pending with
  | nil =>
    rw [hsplit.stream] at hreceive
    cases hreceive
  | cons c later =>
    have hmem : c ∈ cs := by
      rw [hsplit.captures]
      simp
    have hframe : conn.stream = c.frame ++ later.flatMap Capture.frame := hsplit.stream
    rw [hframe, c.receiveOne_frame (hsize c hmem)] at hreceive
    cases hreceive
    refine ⟨c, later, rfl, rfl, rfl, rfl, ?_⟩
    have hfaithful := h.faithful c hmem
    by_cases hfresh : conn.subscriber = BookSnapshotSubscriber.new
    · refine BookSnapshotSubscriber.applySnapshot_mirrors hfaithful (fun key lb hold => ?_)
        (fun key sym hold => ?_)
      · simp [hfresh, BookSnapshotSubscriber.new] at hold
      · simp [hfresh, BookSnapshotSubscriber.new] at hold
    · -- what the subscriber knows comes from the capture before, whose symbols this one carries as well
      obtain ⟨before, c₀, hseen, hmirrors⟩ := hsplit.mirrors hfresh
      have hcs : cs = before ++ [c₀] ++ c :: later := by rw [hsplit.captures, hseen]
      obtain ⟨-, hgrows⟩ := h.next hcs
      obtain ⟨hbooks, hindex⟩ := hmirrors.tracked (h.faithful c₀ (by rw [hcs]; simp))
      exact BookSnapshotSubscriber.applySnapshot_mirrors hfaithful
        (fun key lb hold => hgrows key (hbooks key lb hold))
        (fun key sym hold => hgrows key (hindex key sym hold))

theorem start (depth : ℕ) : Sound [] (SnapshotService.new depth) := by
  refine ⟨DepthBook.new_wellKeyed depth, rfl, fun n c hc => ?_, fun c hc => ?_, List.pairwise_singleton _ _,
    fun conn hconn => ?_⟩
  · simp at hc
  · cases hc
  · cases hconn

/-- A change of the book that loses no symbol. -/
theorem mutate (h : Sound cs s) {book : DepthBook} (hkeyed : book.WellKeyed) (hgrows : s.book.Grows book) :
    Sound cs { s with book := book } := by
  refine ⟨hkeyed, h.seq, h.numbered, h.faithful, ?_, h.connections⟩
  obtain ⟨hcs, -, hlast⟩ := List.pairwise_append.mp h.grows
  refine List.pairwise_append.mpr ⟨hcs, List.pairwise_singleton _ _, fun d hd d' hd' => ?_⟩
  rw [List.mem_singleton] at hd'
  subst hd'
  exact fun key hkey => hgrows key (hlast d hd s.book (by simp) key hkey)

/-- A capture that goes to all connections. -/
theorem publish (h : Sound cs s) {order : List Symbol} (hperm : order.Perm s.book.allSymbols) :
    Sound (cs ++ [(s.capture order).1]) (s.publish order) := by
  refine ⟨h.keyed, ?_, fun n c hc => ?_, fun c hc => ?_, ?_, fun conn hconn => ?_⟩
  · show s.seq + 1 = _
    rw [h.seq, List.length_append, UInt64.ofNat_add]
    rfl
  · rcases Nat.lt_trichotomy n cs.length with hlt | heq | hgt
    · rw [List.getElem?_append_left hlt] at hc
      exact h.numbered n c hc
    · rw [heq, List.getElem?_concat_length, Option.some_inj] at hc
      subst hc
      show s.seq + 1 = _
      rw [h.seq, heq, UInt64.ofNat_add]
      rfl
    · rw [List.getElem?_eq_none (by rw [List.length_append, List.length_singleton]; omega)] at hc
      cases hc
  · rcases List.mem_append.mp hc with hc | hc
    · exact h.faithful c hc
    · rw [List.mem_singleton.mp hc]
      exact ⟨h.keyed, hperm⟩
  · rw [List.map_append]
    refine List.pairwise_append.mpr ⟨h.grows, List.pairwise_singleton _ _, fun d hd d' hd' => ?_⟩
    rw [List.mem_singleton] at hd'
    subst hd'
    rcases List.mem_append.mp hd with hd | hd
    · exact (List.pairwise_append.mp h.grows).2.2 d hd s.book (by simp)
    · rw [List.mem_singleton.mp hd]
      exact DepthBook.Grows.refl _
  · obtain ⟨conn, hold, rfl⟩ := List.mem_map.mp hconn
    obtain ⟨seen, pending, hsplit⟩ := h.connections conn hold
    cases haccepted : conn.accepted with
    | true =>
      refine ⟨seen, pending ++ [(s.capture order).1], ?_⟩
      rw [Connection.send, if_pos haccepted]
      refine ⟨?_, ?_, fun hnot => ?_, hsplit.mirrors⟩
      · rw [hsplit.captures, List.append_assoc]
      · rw [hsplit.stream, List.flatMap_append, List.flatMap_singleton]
        rfl
      · rw [haccepted] at hnot
        cases hnot
    | false =>
      obtain ⟨hpending, hnone⟩ := hsplit.waiting haccepted
      refine ⟨cs ++ [(s.capture order).1], [], ?_⟩
      rw [Connection.send, if_neg (by simp [haccepted])]
      refine ⟨(List.append_nil _).symm, ?_, fun _ => ⟨rfl, hnone⟩,
        fun hsome => absurd hnone hsome⟩
      rw [hsplit.stream, hpending]

/-- A change of one connection. -/
theorem setConnection (h : Sound cs s) (i : ℕ) {conn : Connection}
    (hconn : ∃ seen pending, Splits cs conn seen pending) :
    Sound cs { s with connections := s.connections.set i conn } := by
  refine ⟨h.keyed, h.seq, h.numbered, h.faithful, h.grows, fun conn' hmem => ?_⟩
  rcases List.mem_or_eq_of_mem_set hmem with hold | rfl
  · exact h.connections conn' hold
  · exact hconn

theorem step (h : Sound cs s) (hsize : ∀ c ∈ cs, c.frame.length ≤ 4 + 16 * 1024 * 1024) {new : List Capture}
    {s' : SnapshotService}
    (hstep : s.Step new s') : Sound (cs ++ new) s' := by
  cases hstep with
  | apply m =>
    rw [List.append_nil]
    exact h.mutate (DepthBook.apply_wellKeyed h.keyed m).1 (DepthBook.grows_apply s.book m)
  | applySnapshot snap =>
    rw [List.append_nil]
    exact h.mutate (install_wellKeyed h.keyed snap).1 (DepthBook.grows_install h.keyed snap)
  | publish order hperm => exact h.publish hperm
  | connect =>
    rw [List.append_nil]
    refine ⟨h.keyed, h.seq, h.numbered, h.faithful, h.grows, fun conn hconn => ?_⟩
    rcases List.mem_append.mp hconn with hold | hnew
    · exact h.connections conn hold
    · rw [List.mem_singleton.mp hnew]
      refine ⟨cs, [], (List.append_nil cs).symm, rfl, fun _ => ⟨rfl, rfl⟩,
        fun hsome => absurd rfl hsome⟩
  | @accept i conn hconn =>
    rw [List.append_nil]
    obtain ⟨seen, pending, hsplit⟩ := h.connections conn (List.mem_of_getElem? hconn)
    refine h.setConnection i ⟨seen, pending, hsplit.captures, hsplit.stream, fun hnot => ?_,
      hsplit.mirrors⟩
    cases hnot
  | @receive i conn ok sub rest hconn hreceive =>
    rw [List.append_nil]
    obtain ⟨seen, pending, hsplit⟩ := h.connections conn (List.mem_of_getElem? hconn)
    obtain ⟨c, later, rfl, -, rfl, rfl, hmirrors⟩ := h.receive hsize hsplit hreceive
    refine h.setConnection i ⟨seen ++ [c], later, ?_, rfl, fun hnot => ?_,
      fun _ => ⟨seen, c, rfl, hmirrors⟩⟩
    · rw [hsplit.captures, List.append_assoc]
      rfl
    · cases (hsplit.waiting hnot).1

theorem run {depth : ℕ} (hrun : SnapshotService.Runs depth cs s)
    (hsize : ∀ c ∈ cs, c.frame.length ≤ 4 + 16 * 1024 * 1024) :
    Sound cs s := by
  induction hrun with
  | start => exact start depth
  | step hrun hstep ih =>
    have hbefore := fun c hc => hsize c (List.mem_append_left _ hc)
    exact (ih hbefore).step hbefore hstep

end Sound

/-- The subscriber shows exactly the symbols and levels of a snapshot. -/
def BookSnapshotSubscriber.Shows (s : BookSnapshotSubscriber) (snap : BookSnapshot) : Prop :=
  (∀ sym, sym ∈ s.symbols ↔ ∃ rec ∈ snap.symbols, rec.symbol = sym) ∧
    ∀ sym bids asks, s.bids sym = some bids ∧ s.asks sym = some asks ↔ ⟨sym, bids, asks⟩ ∈ snap.symbols

theorem BookSnapshotSubscriber.Mirrors.shows {s : BookSnapshotSubscriber} {c : Capture} (h : s.Mirrors c) :
    s.Shows c.snapshot := by
  refine ⟨fun sym => ?_, fun sym bids asks => ?_⟩
  · rw [symbols, List.mem_map]
    constructor
    · rintro ⟨⟨key, sym'⟩, hmem, rfl⟩
      obtain ⟨r, hr, -, hsym⟩ := (h.index key sym').mp (ExtTreeMap.mem_toList_iff_getElem?_eq_some.mp hmem)
      exact ⟨r, hr, hsym⟩
    · rintro ⟨r, hr, rfl⟩
      exact ⟨(symbolKey r.symbol, r.symbol), ExtTreeMap.mem_toList_iff_getElem?_eq_some.mpr
        ((h.index _ _).mpr ⟨r, hr, rfl, rfl⟩), rfl⟩
  · constructor
    · rintro ⟨hbids, hasks⟩
      obtain ⟨lb, hlb, rfl⟩ := Option.map_eq_some_iff.mp hbids
      obtain ⟨lb', hlb', rfl⟩ := Option.map_eq_some_iff.mp hasks
      obtain rfl := Option.some.inj (hlb.symm.trans hlb')
      obtain ⟨r, hr, hkey, rfl⟩ := (h.books _ lb).mp hlb
      rw [← symbolKey_injective hkey]
      exact hr
    · intro hr
      have hlb := (h.books (symbolKey sym) ⟨bids, asks⟩).mpr ⟨_, hr, rfl, rfl⟩
      rw [BookSnapshotSubscriber.bids, BookSnapshotSubscriber.asks, hlb]
      exact ⟨rfl, rfl⟩

/-- In every reachable state the captures are numbered from 1 on, and each subscriber that has applied a frame
shows exactly the capture numbered by its last sequence; a call of `receive_one` that returns has applied a
frame, the one with the next sequence. -/
theorem subscribers_hold_captures {depth : ℕ} {cs : List Capture} {s : SnapshotService}
    (hrun : SnapshotService.Runs depth cs s)
    (hsize : ∀ c ∈ cs, c.frame.length ≤ 4 + 16 * 1024 * 1024) :
    (∀ (n : ℕ) (c : Capture), cs[n]? = some c → c.sequence = UInt64.ofNat (n + 1)) ∧
      ∀ conn ∈ s.connections,
        (conn.subscriber ≠ BookSnapshotSubscriber.new →
          ∃ c ∈ cs, c.sequence = conn.subscriber.lastSeq ∧ conn.subscriber.Shows c.snapshot) ∧
        ∀ ok sub rest, conn.subscriber.receiveOne conn.stream = some (ok, sub, rest) →
          ok = true ∧ (conn.subscriber ≠ BookSnapshotSubscriber.new → sub.lastSeq = conn.subscriber.lastSeq + 1) := by
  have h := Sound.run hrun hsize
  refine ⟨h.numbered, fun conn hconn => ?_⟩
  obtain ⟨seen, pending, hsplit⟩ := h.connections conn hconn
  constructor
  · intro hsome
    obtain ⟨before, c, hseen, hmirrors⟩ := hsplit.mirrors hsome
    exact ⟨c, by rw [hsplit.captures, hseen]; simp, hmirrors.sequence.symm, hmirrors.shows⟩
  · intro ok sub rest hreceive
    obtain ⟨c', later, hpending, hok, -, -, hmirrors'⟩ := h.receive hsize hsplit hreceive
    refine ⟨hok, fun hsome => ?_⟩
    obtain ⟨before, c, hseen, hmirrors⟩ := hsplit.mirrors hsome
    rw [hmirrors'.sequence, hmirrors.sequence]
    exact (h.next (by rw [hsplit.captures, hseen, hpending])).1

/-- A subscriber connects, is accepted and receives a capture of a book with one order. -/
theorem one_frame_applied : ∃ cs s, SnapshotService.Runs 10 cs s ∧
    ∃ conn ∈ s.connections, conn.subscriber.framesApplied = 1 ∧
    ∃ c ∈ cs, c.sequence = conn.subscriber.lastSeq ∧ conn.subscriber.Shows c.snapshot := by
  let add : AnyMessage := .addOrder ⟨1, 0, 5, 7, Side.buy, 100, #v[65, 65, 80, 76, 32, 32, 32, 32], 50⟩
  let book := ((DepthBook.new 10).apply add).book
  let c : Capture := ⟨book, book.allSymbols, 1⟩
  let conn : Connection := ⟨true, [], BookSnapshotSubscriber.new.applySnapshot c.snapshot⟩
  have hlen : c.frame.length ≤ 4 + 16 * 1024 * 1024 := by
    rw [Capture.frame, encodeBookSnapshot, length_frameAround]
    decide
  have hrun : SnapshotService.Runs 10 [c] ⟨book, 1, [conn]⟩ := by
    have hconnected : SnapshotService.Runs 10 [] ⟨DepthBook.new 10, 0, [Connection.new]⟩ :=
      .step .start .connect
    have haccepted : SnapshotService.Runs 10 []
        ⟨DepthBook.new 10, 0, [⟨true, [], BookSnapshotSubscriber.new⟩]⟩ :=
      .step hconnected (@SnapshotService.Step.accept _ 0 Connection.new rfl)
    have hadded : SnapshotService.Runs 10 [] ⟨book, 0, [⟨true, [], BookSnapshotSubscriber.new⟩]⟩ :=
      .step haccepted (.apply add)
    have hpublished : SnapshotService.Runs 10 [c]
        ⟨book, 1, [⟨true, [] ++ c.frame, BookSnapshotSubscriber.new⟩]⟩ :=
      .step hadded (.publish book.allSymbols (List.Perm.refl _))
    have hreceive := c.receiveOne_frame hlen BookSnapshotSubscriber.new []
    rw [List.append_nil, ← List.nil_append c.frame] at hreceive
    exact .step hpublished (@SnapshotService.Step.receive _ 0 ⟨true, _, _⟩ _ _ _ rfl hreceive)
  have hholds := subscribers_hold_captures hrun (fun c' hc' => by rw [List.mem_singleton.mp hc']; exact hlen)
  exact ⟨[c], _, hrun, conn, List.mem_singleton_self _, rfl,
    (hholds.2 conn (List.mem_singleton_self _)).1 (fun hnew => absurd (congrArg (fun sub => sub.lastSeq) hnew) (by decide))⟩

end MdfeedItch
