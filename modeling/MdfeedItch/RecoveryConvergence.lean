import MdfeedItch.SnapshotCatchUp

/-! # Recovery converges to the source book

A handler that misses datagrams of a symbol's stream but hears the first and the
last one ends with the levels of the reference book, provided the orders of the
last snapshot it installed rest untouched since and the snapshot had room for the
levels that followed. -/
namespace MdfeedItch
open Std FiniteMapSums FeedHandler

/-- The snapshot that was installed last. -/
def lastInstalled (t : List Effect) : Option SnapshotResponse :=
  t.foldl (fun last x =>
    match x with
    | .installed snap => some snap
    | _ => last) none

theorem lastInstalled_concat (t : List Effect) (x : Effect) : lastInstalled (t ++ [x]) =
    match x with
    | .installed snap => some snap
    | _ => lastInstalled t := by
  rw [lastInstalled, List.foldl_append]
  rfl

/-- The snapshot of the reference book after the first `k` messages. -/
def referenceSnapshot (depth : ℕ) (loc : StockLocate) (sym : Symbol) (msgs : List AnyMessage) (k : ℕ) : SnapshotResponse :=
  let shown := (DepthBook.applyAll depth (msgs.take k)).snapshot sym
  ⟨loc, UInt64.ofNat k, sym, shown.bids, shown.asks⟩

/-- The datagram carries the message of the stream that its sequence counts. -/
structure Delivery.Transports (d : Delivery) (loc : StockLocate) (msgs : List AnyMessage) : Prop where
  framed : d.Framed
  loc_eq : d.loc = loc
  first : 1 ≤ d.seq.toNat
  last : d.seq.toNat ≤ msgs.length
  message : (decodeFrame d.frame).message = msgs[d.seq.toNat - 1]?

/-- The requester answers a gap found by the datagram with the reference book at
some point from the message before it on. -/
def Delivery.AnswersFrom (d : Delivery) (depth : ℕ) (loc : StockLocate) (sym : Symbol) (msgs : List AnyMessage) : Prop :=
  ∃ request, d.requester = some request ∧ ∀ fromSeq, ∃ k, d.seq.toNat - 1 ≤ k ∧ k ≤ msgs.length ∧
    request ⟨loc, fromSeq⟩ = some (referenceSnapshot depth loc sym msgs k)

/-- Some of the datagrams of a stream, in order, the first and the last among them. -/
structure PartialFeed (depth : ℕ) (loc : StockLocate) (sym : Symbol) (msgs : List AnyMessage) (ds : List Delivery) : Prop where
  transports : ∀ d ∈ ds, d.Transports loc msgs
  answers : ∀ d ∈ ds, d.AnswersFrom depth loc sym msgs
  ordered : ds.Pairwise (fun d e => d.seq < e.seq)
  first : ∃ d ∈ ds, d.seq.toNat = 1
  last : ∃ d ∈ ds, d.seq.toNat = msgs.length

section Run
variable {depth : ℕ} {loc : StockLocate} {sym : Symbol} {msgs : List AnyMessage} {c : ℕ} {d : DepthBook} {g : GapDetector}
  {t : List Effect}

theorem referenceSnapshot_quotes (depth : ℕ) (loc : StockLocate) (sym : Symbol) (msgs : List AnyMessage) (k : ℕ) :
    Quotes depth sym (msgs.take k) (referenceSnapshot depth loc sym msgs k) := by
  obtain ⟨hbids, hasks⟩ := (DepthBook.applyAll depth (msgs.take k)).snapshot_sides sym
  exact ⟨rfl, hbids, hasks⟩

/-- The books and the gap detector of a handler that has covered the first `c`
messages: since the last snapshot it has applied every message of the stream. -/
structure Tracks (depth : ℕ) (loc : StockLocate) (sym : Symbol) (msgs : List AnyMessage) (c : ℕ) (d : DepthBook)
    (g : GapDetector) (t : List Effect) : Prop where
  bound : c ≤ msgs.length
  expected : g.expected_[loc]? = some (UInt64.ofNat (c + 1)) ∨ c = 0 ∧ g.expected_[loc]? = none
  fromStart : lastInstalled t = none → d = DepthBook.applyAll depth (msgs.take c)
  fromSnapshot : ∀ snap, lastInstalled t = some snap → ∃ (k : ℕ) (base : DepthBook), k ≤ c ∧
    snap = referenceSnapshot depth loc sym msgs k ∧ base.Serves (symbolKey sym) ∧ d = (base.install snap).resume ((msgs.take c).drop k)

theorem Tracks.of_new (depth : ℕ) (loc : StockLocate) (sym : Symbol) (msgs : List AnyMessage) :
    Tracks depth loc sym msgs 0 (DepthBook.new depth) GapDetector.new [] := by
  refine ⟨Nat.zero_le _, Or.inr ⟨rfl, by simp [GapDetector.new]⟩, fun _ => rfl, fun snap hsnap => ?_⟩
  cases hsnap

theorem Tracks.serves (h : Tracks depth loc sym msgs c d g t) (hs : SymbolStream depth sym msgs) :
    d.Serves (symbolKey sym) := by
  cases hlast : lastInstalled t with
  | none =>
    rw [h.fromStart hlast]
    exact (hs.of_prefix (List.take_prefix c msgs)).reference.serves
  | some snap =>
    obtain ⟨k, base, hk, rfl, hbase, rfl⟩ := h.fromSnapshot snap hlast
    have hinstall := CaughtUp.of_install hbase (hs.of_prefix (List.take_prefix k msgs))
      (referenceSnapshot_quotes depth loc sym msgs k)
    exact hinstall.serves.resume (fun m hm => hs.concerns m (List.mem_of_mem_take (List.mem_of_mem_drop hm)))

theorem Tracks.reported (h : Tracks depth loc sym msgs c d g t) (e seq : SequenceNumber) :
    Tracks depth loc sym msgs c d g (t ++ [missing loc e seq]) := by
  have hsame : lastInstalled (t ++ [missing loc e seq]) = lastInstalled t := lastInstalled_concat t _
  exact ⟨h.bound, h.expected, fun hlast => h.fromStart (hsame.symm.trans hlast),
    fun snap hlast => h.fromSnapshot snap (hsame.symm.trans hlast)⟩

/-- A snapshot restarts the books at its own point of the stream. -/
theorem Tracks.installed (h : Tracks depth loc sym msgs c d g t) (hs : SymbolStream depth sym msgs) {k : ℕ}
    (hk : k ≤ msgs.length) :
    Tracks depth loc sym msgs k (d.install (referenceSnapshot depth loc sym msgs k)) (g.setExpected loc (UInt64.ofNat k + 1))
      (t ++ [.installed (referenceSnapshot depth loc sym msgs k)]) := by
  refine ⟨hk, Or.inl ?_, fun hlast => ?_, fun snap hlast => ?_⟩
  · rw [GapDetector.lookup_setExpected, if_pos rfl, UInt64.ofNat_add]
    rfl
  · rw [lastInstalled_concat] at hlast
    cases hlast
  · rw [lastInstalled_concat] at hlast
    cases hlast
    refine ⟨k, d, Nat.le_refl k, rfl, h.serves hs, ?_⟩
    rw [List.drop_eq_nil_of_le (List.length_take_le k msgs)]
    rfl

/-- The next message is applied. -/
theorem Tracks.accepted (h : Tracks depth loc sym msgs c d g t) {e : Delivery} (he : e.Transports loc msgs)
    (hnext : e.seq.toNat = c + 1) :
    Tracks depth loc sym msgs (c + 1) (d.receive e.frame) (Effect.onGap g e.accepted) (t ++ [e.accepted]) := by
  have hlast := he.last
  have hlt : c < msgs.length := by omega
  have hmsg : (decodeFrame e.frame).message = some msgs[c] := by
    rw [he.message, hnext, Nat.add_sub_cancel, List.getElem?_eq_getElem hlt]
  have hreceive : d.receive e.frame = (d.apply msgs[c]).book := by rw [DepthBook.receive, hmsg]
  have htake : msgs.take (c + 1) = msgs.take c ++ [msgs[c]] := List.take_succ_eq_append_getElem hlt
  have hsame : lastInstalled (t ++ [e.accepted]) = lastInstalled t := lastInstalled_concat t _
  have hseq : e.seq ≠ 0 := fun hz => by
    rw [hz] at hnext
    cases hnext
  refine ⟨hlt, Or.inl ?_, fun hlast => ?_, fun snap hlast => ?_⟩
  · rw [onGap_accepted hseq, he.loc_eq, GapDetector.lookup_setExpected, if_pos rfl, UInt64.ofNat_add, ← hnext, UInt64.ofNat_toNat]
    rfl
  · rw [hreceive, h.fromStart (hsame.symm.trans hlast), htake, DepthBook.applyAll_concat]
  · obtain ⟨k, base, hk, hsnap, hbase, hbook⟩ := h.fromSnapshot snap (hsame.symm.trans hlast)
    refine ⟨k, base, Nat.le_succ_of_le hk, hsnap, hbase, ?_⟩
    have hlen : (msgs.take c).length = c := List.length_take_of_le (Nat.le_of_lt hlt)
    rw [htake, List.drop_append_of_le_length (hlen.symm ▸ hk), DepthBook.resume_concat, ← hbook, hreceive]

theorem Delivery.AnswersFrom.answer {e : Delivery} (h : e.AnswersFrom depth loc sym msgs) (hloc : e.loc = loc)
    (fromSeq : SequenceNumber) : ∃ k, e.seq.toNat - 1 ≤ k ∧ k ≤ msgs.length ∧
      e.answer ⟨e.loc, fromSeq⟩ = some (referenceSnapshot depth loc sym msgs k) := by
  obtain ⟨request, hreq, hall⟩ := h
  obtain ⟨k, hle, hk, hanswer⟩ := hall fromSeq
  refine ⟨k, hle, hk, ?_⟩
  rw [Delivery.answer, hreq, Option.bind_some, hloc, hanswer]

/-- A point of the stream and the sequence after it, as 64-bit numbers. -/
theorem toNat_point {k : ℕ} (hk : k ≤ msgs.length) (hmax : msgs.length < maxSequence.toNat) :
    (UInt64.ofNat k).toNat = k ∧ (UInt64.ofNat k + 1).toNat = k + 1 := by
  have htop : maxSequence.toNat = 2 ^ 64 - 1 := rfl
  have hsmall : (UInt64.ofNat k).toNat = k := UInt64.toNat_ofNat_of_lt' (by omega : k < 2 ^ 64)
  have hnext := toNat_succ (s := UInt64.ofNat k) (UInt64.lt_iff_toNat_lt.mpr (by omega))
  exact ⟨hsmall, hnext.trans (congrArg (· + 1) hsmall)⟩

theorem Tracks.expected_toNat (h : Tracks depth loc sym msgs c d g t) (hmax : msgs.length < maxSequence.toNat)
    {e : SequenceNumber} (hold : g.expected_[loc]? = some e) : e.toNat = c + 1 := by
  have htop : maxSequence.toNat = 2 ^ 64 - 1 := rfl
  have hbound := h.bound
  rcases h.expected with hsome | ⟨-, hnone⟩
  · rw [Option.some.inj (hold.symm.trans hsome)]
    exact UInt64.toNat_ofNat_of_lt' (by omega : c + 1 < 2 ^ 64)
  · rw [hnone] at hold
    cases hold

/-- Each datagram is stale, the next one, or behind a gap that a snapshot closes. -/
theorem Tracks.deliver {h : FeedHandler} (ht : Tracks depth loc sym msgs c h.book h.gap t) (hs : SymbolStream depth sym msgs)
    (hmax : msgs.length < maxSequence.toNat) {e : Delivery} (he : e.Transports loc msgs)
    (hans : e.AnswersFrom depth loc sym msgs) (hfirst : c = 0 → e.seq.toNat = 1) :
    ∃ c', e.seq.toNat ≤ c' ∧ Tracks depth loc sym msgs c' (h.deliver e).1.book (h.deliver e).1.gap (t ++ (h.deliver e).2) := by
  obtain ⟨hbook, hgap, -, -⟩ := h.deliver_replays e
  have hone := he.first
  have hexp : ∀ {n}, h.gap.expected_[e.loc]? = some n → n.toNat = c + 1 := fun hold =>
    ht.expected_toNat hmax (he.loc_eq ▸ hold)
  have hemits := h.deliver_emits e
  generalize (h.deliver e).2 = fx at hbook hgap hemits ⊢
  rw [hbook, hgap]
  cases hemits with
  | silent hwhy =>
    rcases hwhy with hshort | ⟨-, -, n, hold, hlt⟩
    · exact absurd he.framed hshort
    · have hstale := hexp hold
      rw [UInt64.lt_iff_toNat_lt] at hlt
      refine ⟨c, by omega, ?_⟩
      rwa [List.append_nil]
  | bootstrap _ hzero =>
    rw [hzero] at hone
    cases hone
  | next _ _ hnew =>
    have hseq : e.seq.toNat = c + 1 := by
      rcases ht.expected with hsome | ⟨hc, -⟩
      · rw [hnew _ (he.loc_eq ▸ hsome)]
        exact ht.expected_toNat hmax hsome
      · rw [hc]
        exact hfirst hc
    exact ⟨c + 1, hseq.le, ht.accepted he hseq⟩
  | @unfilled n _ _ _ _ hnone _ =>
    obtain ⟨k, -, -, hsome⟩ := hans.answer he.loc_eq n
    rw [hsome] at hnone
    cases hnone
  | @covered n snap _ _ hold hlt hsnap hcov =>
    obtain ⟨k, -, hk, hanswer⟩ := hans.answer he.loc_eq n
    obtain rfl := Option.some.inj (hanswer.symm.trans hsnap)
    rw [he.loc_eq, GapDetector.expected_setExpected, referenceSnapshot, if_pos rfl, UInt64.lt_iff_toNat_lt, (toNat_point hk hmax).2] at hcov
    refine ⟨k, by omega, ?_⟩
    have hinstalled := (ht.reported n e.seq).installed hs hk
    rw [List.append_assoc] at hinstalled
    rw [he.loc_eq]
    exact hinstalled
  | @recovered n snap _ _ hold hlt hsnap hcov =>
    obtain ⟨k, hle, hk, hanswer⟩ := hans.answer he.loc_eq n
    obtain rfl := Option.some.inj (hanswer.symm.trans hsnap)
    rw [he.loc_eq, GapDetector.expected_setExpected, referenceSnapshot, if_pos rfl, UInt64.le_iff_toNat_le, (toNat_point hk hmax).2] at hcov
    have hseq : e.seq.toNat = k + 1 := by omega
    refine ⟨k + 1, hseq.le, ?_⟩
    have haccepted := ((ht.reported n e.seq).installed hs hk).accepted he hseq
    rw [List.append_assoc, List.append_assoc] at haccepted
    rw [he.loc_eq]
    exact haccepted
  | skipped _ _ _ _ hnone _ =>
    obtain ⟨request, hreq, -⟩ := hans
    rw [hnone] at hreq
    cases hreq

theorem PartialFeed.tracks {ds : List Delivery} (hfeed : PartialFeed depth loc sym msgs ds) (hs : SymbolStream depth sym msgs)
    (hmax : msgs.length < maxSequence.toNat) (skip : Bool) {pre : List Delivery} (hpre : pre <+: ds) :
    ∃ c, (∀ e ∈ pre, e.seq.toNat ≤ c) ∧ Tracks depth loc sym msgs c ((FeedHandler.new depth skip).feed pre).1.book
      ((FeedHandler.new depth skip).feed pre).1.gap ((FeedHandler.new depth skip).feed pre).2 := by
  induction pre using List.reverseRecOn with
  | nil => exact ⟨0, by simp, Tracks.of_new depth loc sym msgs⟩
  | append_singleton pre e ih =>
    obtain ⟨c, hseen, ht⟩ := ih ((List.prefix_append pre [e]).trans hpre)
    have hmem : e ∈ ds := hpre.subset (by simp)
    have hfirst : c = 0 → e.seq.toNat = 1 := by
      rintro rfl
      have hnil : pre = [] := by
        refine List.eq_nil_iff_forall_not_mem.mpr (fun e' he' => ?_)
        have hlow := (hfeed.transports e' (hpre.subset (by simp [he']))).first
        exact absurd (hseen e' he') (by omega)
      obtain ⟨rest, hds⟩ := hpre
      rw [hnil, List.nil_append, List.singleton_append] at hds
      obtain ⟨e1, he1, hone⟩ := hfeed.first
      have hordered := hfeed.ordered
      rw [← hds] at he1 hordered
      rcases List.mem_cons.mp he1 with rfl | hlater
      · exact hone
      · have hlt := UInt64.lt_iff_toNat_lt.mp (List.rel_of_pairwise_cons hordered hlater)
        have hlow := (hfeed.transports e hmem).first
        omega
    obtain ⟨c', hle, ht'⟩ := ht.deliver hs hmax (hfeed.transports e hmem) (hfeed.answers e hmem) hfirst
    rw [feed_concat]
    refine ⟨c', fun e' he' => ?_, ht'⟩
    have hordered := hfeed.ordered.sublist hpre.sublist
    rcases List.mem_append.mp he' with hbefore | hlast
    · have hlt := (List.pairwise_append.mp hordered).2.2 e' hbefore e (by simp)
      exact (UInt64.lt_iff_toNat_lt.mp hlt).le.trans hle
    · rw [List.mem_singleton.mp hlast]
      exact hle

end Run

/-- The orders that a snapshot was taken of rest untouched to the end of the
stream, which has no more levels on a side then than the snapshot's longer side. -/
def Undisturbed (depth : ℕ) (sym : Symbol) (msgs : List AnyMessage) (snap : SnapshotResponse) : Prop :=
  Untouched (referenceBook depth sym (msgs.take snap.lastAppliedSeq.toNat)).orders (referenceBook depth sym msgs).orders ∧
    ∀ buy, (livePrices (referenceBook depth sym msgs).orders buy).card ≤ snap.size

instance (depth : ℕ) (sym : Symbol) (msgs : List AnyMessage) (snap : SnapshotResponse) :
    Decidable (Undisturbed depth sym msgs snap) := inferInstanceAs (Decidable (_ ∧ _))

/-- Whatever is lost and wherever the snapshots are taken: if the last one stays
undisturbed, the handler ends with the levels of the reference book. -/
theorem recovery_converges (depth : ℕ) (skip : Bool) (loc : StockLocate) (sym : Symbol) (msgs : List AnyMessage) (ds : List Delivery)
    (hs : SymbolStream depth sym msgs) (hmax : msgs.length < maxSequence.toNat) (hfeed : PartialFeed depth loc sym msgs ds)
    (hlast : ∀ snap, lastInstalled ((FeedHandler.new depth skip).feed ds).2 = some snap → Undisturbed depth sym msgs snap) :
    let shown := ((FeedHandler.new depth skip).feed ds).1.book.snapshot sym
    let reference := (DepthBook.applyAll depth msgs).snapshot sym
    shown.bids = reference.bids ∧ shown.asks = reference.asks := by
  intro shown reference
  obtain ⟨c, hseen, ht⟩ := hfeed.tracks hs hmax skip (List.prefix_refl ds)
  obtain ⟨e, he, hn⟩ := hfeed.last
  have hall : c = msgs.length := Nat.le_antisymm ht.bound (hn ▸ hseen e he)
  subst hall
  suffices htop : ∀ buy, (((FeedHandler.new depth skip).feed ds).1.book.bookAt (symbolKey sym)).top buy =
      (referenceBook depth sym msgs).top buy by
    obtain ⟨hbids, hasks⟩ := ((FeedHandler.new depth skip).feed ds).1.book.snapshot_sides sym
    obtain ⟨hbids', hasks'⟩ := (DepthBook.applyAll depth msgs).snapshot_sides sym
    exact ⟨hbids.trans ((htop true).trans hbids'.symm), hasks.trans ((htop false).trans hasks'.symm)⟩
  intro buy
  cases hinstalled : lastInstalled ((FeedHandler.new depth skip).feed ds).2 with
  | none =>
    rw [ht.fromStart hinstalled, List.take_length]
    rfl
  | some snap =>
    obtain ⟨hu, hroom⟩ := hlast snap hinstalled
    obtain ⟨k, base, hk, rfl, hbase, hbook⟩ := ht.fromSnapshot snap hinstalled
    have hpoint : (referenceSnapshot depth loc sym msgs k).lastAppliedSeq.toNat = k := (toNat_point hk hmax).1
    rw [hpoint] at hu
    rw [hbook, List.take_length]
    have hsplit : msgs.take k ++ msgs.drop k = msgs := List.take_append_drop k msgs
    have hq := referenceSnapshot_quotes depth loc sym msgs k
    have hcaught := CaughtUp.resume hbase (hsplit.symm ▸ hs) hq (hsplit.symm ▸ hu)
    have heq := hcaught.top_eq (hsplit.symm ▸ hs) hq (hsplit.symm ▸ hu) (by rw [hsplit]; exact hroom buy)
    rwa [hsplit] at heq

section Example

/-- The message of `addDatagram`. -/
private def buyOrder (id : OrderId) : AnyMessage := .addOrder ⟨1, 0, 9, id, Side.buy, 100, sampleSymbol, 50⟩

/-- A datagram of locate 1 that deletes an order. -/
private def deleteDatagram (seq id : UInt8) : List UInt8 :=
  [0, 1, 0, 0, 0, 0, 0, 0, 0, seq, 0, 19, 0x44, 0, 1, 0, 0, 0, 0, 0, 0, 0, 9, 0, 0, 0, 0, 0, 0, 0, id]

/-- A datagram with a requester that answers with the reference book after two messages. -/
private def afterTwo (msgs : List AnyMessage) (data : List UInt8) : Delivery :=
  ⟨data, some (fun _ => some (referenceSnapshot 10 1 sampleSymbol msgs 2))⟩

/-- A short stream is checked by evaluating its prefixes. -/
private theorem SymbolStream.of_prefixes {depth : ℕ} {sym : Symbol} {msgs : List AnyMessage}
    (hconcerns : ∀ m ∈ msgs, m.Concerns sym) (hfresh : (msgs.filterMap AnyMessage.introduces).Nodup)
    (hlevels : ∀ n, n ≤ msgs.length → ∀ buy, (livePrices (referenceBook depth sym (msgs.take n)).orders buy).card ≤ depth)
    (hsums : ∀ n, n ≤ msgs.length → ∀ e ∈ (DepthBook.applyAll depth (msgs.take n)).books.toList,
      sumOver e.2.orders (fun o => o.qty.toNat) < 2 ^ 32) : SymbolStream depth sym msgs :=
  ⟨hconcerns, hfresh, TraceRuns.forall_prefix_iff.mpr hlevels,
    TraceRuns.forall_prefix_iff.mpr (fun n hn => LevelSumsFit.of_total (hsums n hn))⟩

/-- Two datagrams out of three, the second one missing. -/
private theorem partialFeed_of_two (msgs : List AnyMessage) {d e : List UInt8} (hd : (afterTwo msgs d).Transports 1 msgs)
    (he : (afterTwo msgs e).Transports 1 msgs) (hone : (afterTwo msgs d).seq.toNat = 1)
    (hthree : (afterTwo msgs e).seq.toNat = msgs.length) (hlen : msgs.length = 3) :
    PartialFeed 10 1 sampleSymbol msgs [afterTwo msgs d, afterTwo msgs e] := by
  have hboth : ∀ data, (afterTwo msgs data).seq.toNat ≤ 3 → (afterTwo msgs data).AnswersFrom 10 1 sampleSymbol msgs :=
    fun data hle => ⟨_, rfl, fun _ => ⟨2, by omega, by omega, rfl⟩⟩
  refine ⟨?_, ?_, ?_, ⟨_, by simp, hone⟩, ⟨_, by simp, hthree⟩⟩
  · simpa using ⟨hd, he⟩
  · simpa using ⟨hboth d (by omega), hboth e (by omega)⟩
  · simpa [UInt64.lt_iff_toNat_lt] using (by omega : (afterTwo msgs d).seq.toNat < (afterTwo msgs e).seq.toNat)

/-- Of three orders the second is lost; the snapshot brings it back. -/
theorem lost_order_recovered :
    let msgs := [buyOrder 7, buyOrder 8, buyOrder 9]
    let final := ((FeedHandler.new 10 false).feed [afterTwo msgs (addDatagram 1 7), afterTwo msgs (addDatagram 3 9)]).1
    (final.book.snapshot sampleSymbol).bids = [⟨50, 300, 3⟩] ∧
      (final.book.snapshot sampleSymbol).bids = ((DepthBook.applyAll 10 msgs).snapshot sampleSymbol).bids := by
  intro msgs final
  have hs : SymbolStream 10 sampleSymbol msgs := SymbolStream.of_prefixes (by decide) (by decide) (by decide) (by decide)
  have hfeed := partialFeed_of_two msgs (d := addDatagram 1 7) (e := addDatagram 3 9)
    ⟨by decide, by decide, by decide, by decide, by decide⟩ ⟨by decide, by decide, by decide, by decide, by decide⟩
    (by decide) (by decide) rfl
  have hlast : lastInstalled ((FeedHandler.new 10 false).feed
      [afterTwo msgs (addDatagram 1 7), afterTwo msgs (addDatagram 3 9)]).2 = some (referenceSnapshot 10 1 sampleSymbol msgs 2) := by
    decide
  refine ⟨by decide, (recovery_converges 10 false 1 sampleSymbol msgs _ hs (by decide) hfeed (fun snap hsnap => ?_)).1⟩
  rw [hlast] at hsnap
  cases hsnap
  decide

/-- A delete of an order that the snapshot stands in for finds nothing to delete. -/
theorem deleted_order_stays : ¬ ∀ (depth : ℕ) (skip : Bool) (loc : StockLocate) (sym : Symbol) (msgs : List AnyMessage)
    (ds : List Delivery), SymbolStream depth sym msgs → msgs.length < maxSequence.toNat → PartialFeed depth loc sym msgs ds →
      (((FeedHandler.new depth skip).feed ds).1.book.snapshot sym).bids = ((DepthBook.applyAll depth msgs).snapshot sym).bids := by
  intro hall
  let msgs := [buyOrder 7, buyOrder 8, AnyMessage.orderDelete ⟨1, 0, 9, 7⟩]
  have hs : SymbolStream 10 sampleSymbol msgs := SymbolStream.of_prefixes (by decide) (by decide) (by decide) (by decide)
  have hfeed := partialFeed_of_two msgs (d := addDatagram 1 7) (e := deleteDatagram 3 7)
    ⟨by decide, by decide, by decide, by decide, by decide⟩ ⟨by decide, by decide, by decide, by decide, by decide⟩
    (by decide) (by decide) rfl
  have hsame := hall 10 false 1 sampleSymbol msgs _ hs (by decide) hfeed
  exact absurd hsame (by decide)

end Example

end MdfeedItch
