import MdfeedItch.GeneratorSteps
import MdfeedItch.LosslessFeed

/-! # The generator and the books agree

The generator keeps its live orders in a table, the books in order tables of their
own. `Tracked` ties the table to the flat map of the orders, and one call keeps
it; `InStep` ties a run of calls to a handler that is fed with what they emit. -/
namespace MdfeedItch
open Std FiniteMapSums FeedHandler MessageGenerator

/-! ## The table as a flat map -/

/-- A flat map holds exactly the rows of a table. -/
def Records (t : FlatMap) (live : List LiveOrder) : Prop :=
  ∀ (id : OrderId) (f : FlatOrder), t[id]? = some f ↔ ∃ o ∈ live, o.id = id ∧ o.toFlatOrder = f

/-- The rows have ids of their own. -/
def Distinct (live : List LiveOrder) : Prop := (live.map (fun o => o.id)).Nodup

theorem distinct_row {front back : List LiveOrder} {o : LiveOrder} :
    Distinct (front ++ o :: back) ↔ (∀ r ∈ front ++ back, r.id ≠ o.id) ∧ Distinct (front ++ back) := by
  unfold Distinct
  rw [List.map_append, List.map_cons, List.nodup_middle, List.nodup_cons, ← List.map_append]
  simp only [List.mem_map, not_exists, not_and]

theorem mem_row {front back : List LiveOrder} {o r : LiveOrder} :
    r ∈ front ++ o :: back ↔ r = o ∨ r ∈ front ++ back := by
  simp only [List.mem_append, List.mem_cons]
  tauto

namespace Records
variable {t : FlatMap} {front back live : List LiveOrder} {o : LiveOrder} {id : OrderId}

theorem lookup (h : Records t (front ++ o :: back)) : t[o.id]? = some o.toFlatOrder :=
  (h o.id o.toFlatOrder).mpr ⟨o, by simp, rfl, rfl⟩

theorem unused (h : Records t live) (hid : ∀ r ∈ live, r.id ≠ id) : t[id]? = none := by
  rw [Option.eq_none_iff_forall_ne_some]
  intro f hf
  obtain ⟨r, hr, hrid, -⟩ := (h id f).mp hf
  exact hid r hr hrid

theorem without (h : Records t (front ++ o :: back)) (hd : Distinct (front ++ o :: back)) :
    Records (t.erase o.id) (front ++ back) := by
  have hother := (distinct_row.mp hd).1
  intro id f
  rw [lookup_erase]
  split_ifs with hid
  · constructor
    · intro hf
      cases hf
    · rintro ⟨r, hr, hrid, -⟩
      exact absurd (hrid.trans hid) (hother r hr)
  · rw [h id f]
    constructor
    · rintro ⟨r, hr, hrid, hrf⟩
      rcases mem_row.mp hr with rfl | hr
      · exact absurd hrid.symm hid
      · exact ⟨r, hr, hrid, hrf⟩
    · rintro ⟨r, hr, hrid, hrf⟩
      exact ⟨r, mem_row.mpr (Or.inr hr), hrid, hrf⟩

theorem adjoin (h : Records t (front ++ back)) (hother : ∀ r ∈ front ++ back, r.id ≠ o.id) :
    Records (t.insert o.id o.toFlatOrder) (front ++ o :: back) := by
  intro id f
  rw [lookup_insert]
  split_ifs with hid
  · rw [Option.some_inj]
    constructor
    · intro hf
      exact ⟨o, mem_row.mpr (Or.inl rfl), hid.symm, hf⟩
    · rintro ⟨r, hr, hrid, hrf⟩
      rcases mem_row.mp hr with rfl | hr
      · exact hrf
      · exact absurd (hrid.trans hid) (hother r hr)
  · rw [h id f]
    constructor
    · rintro ⟨r, hr, hrid, hrf⟩
      exact ⟨r, mem_row.mpr (Or.inr hr), hrid, hrf⟩
    · rintro ⟨r, hr, hrid, hrf⟩
      rcases mem_row.mp hr with rfl | hr
      · exact absurd hrid.symm hid
      · exact ⟨r, hr, hrid, hrf⟩

end Records

/-- A flat map and a table of the same orders; all ids were given out before `next`. -/
structure Tracked (t : FlatMap) (live : List LiveOrder) (next : OrderId) : Prop where
  records : Records t live
  distinct : Distinct live
  given : ∀ o ∈ live, o.id.toNat < next.toNat

namespace Tracked
variable {t : FlatMap} {front back live : List LiveOrder} {o : LiveOrder} {next next' : OrderId}

theorem empty (next : OrderId) : Tracked ∅ [] next := by
  refine ⟨fun id f => ?_, List.nodup_nil, fun o ho => ?_⟩
  · simp
  · cases ho

theorem later (h : Tracked t live next) (hnext : next.toNat ≤ next'.toNat) : Tracked t live next' :=
  ⟨h.records, h.distinct, fun o ho => (h.given o ho).trans_le hnext⟩

/-- A row of the table leaves. -/
theorem drop (h : Tracked t (front ++ o :: back) next) : Tracked (t.erase o.id) (front ++ back) next := by
  refine ⟨h.records.without h.distinct, (distinct_row.mp h.distinct).2, fun r hr => ?_⟩
  exact h.given r (mem_row.mpr (Or.inr hr))

/-- A row with an id that no other one has enters the table. -/
theorem put (h : Tracked t (front ++ back) next) (hother : ∀ r ∈ front ++ back, r.id ≠ o.id)
    (hid : o.id.toNat < next.toNat) :
    Tracked (t.insert o.id o.toFlatOrder) (front ++ o :: back) next := by
  refine ⟨h.records.adjoin hother, distinct_row.mpr ⟨hother, h.distinct⟩, fun r hr => ?_⟩
  rcases mem_row.mp hr with rfl | hr
  · exact hid
  · exact h.given r hr

/-- Shares leave a row. -/
theorem withdraw (h : Tracked t (front ++ o :: back) next) (shares : Quantity) :
    Tracked (t.withdraw o.id shares) (front ++ (o.reduced shares ++ back)) next := by
  rw [FlatMap.withdraw, h.records.lookup, LiveOrder.reduced]
  dsimp only
  split_ifs with hle
  · exact h.drop
  · have hagain : t.insert o.id ⟨⟨o.side, o.price, o.qty - shares⟩, o.symbol⟩ =
        (t.erase o.id).insert o.id ⟨⟨o.side, o.price, o.qty - shares⟩, o.symbol⟩ := by
      apply ExtTreeMap.ext_getElem?
      intro id
      simp only [lookup_insert, lookup_erase]
      split_ifs <;> rfl
    rw [hagain]
    exact h.drop.put (o := { o with qty := o.qty - shares }) (distinct_row.mp h.distinct).1
      (h.given o (by simp))

end Tracked

/-! ## What the flat map makes of a message on the wire -/

theorem FlatMap.apply_onWire (t : FlatMap) (m : AnyMessage) :
    t.apply m.onWire = t.apply m := by cases m <;> rfl

theorem FlatMap.introduces_onWire (t : FlatMap) (m : AnyMessage) :
    t.Introduces m.onWire ↔ t.Introduces m := by
  cases m <;> exact Iff.rfl

/-- The message acts on the books, and an order that it names is live. -/
def FlatMap.Reaches (t : FlatMap) (m : AnyMessage) : Prop :=
  ∃ a, m.action = some a ∧ ∀ x, a.names = some x → ∃ o, t[x]? = some o

theorem FlatMap.Reaches.onWire {t : FlatMap} {m : AnyMessage} (h : t.Reaches m) : t.Reaches m.onWire := by
  obtain ⟨a, ha, hlive⟩ := h
  cases m with
  | systemEvent m | stockDirectory m | trade m => cases ha
  | addOrder m | addOrderMPID m | orderExecuted m | orderExecutedWithPrice m | orderCancel m | orderDelete m | orderReplace m =>
    cases ha
    exact ⟨_, rfl, fun x hx => hlive x hx⟩

section Changes
variable {t : FlatMap} {live live' : List LiveOrder} {next next' : OrderId} {loc : StockLocate}
  {sym : Symbol} {msg : AnyMessage}

theorem Changes.next_grows (h : Changes live next loc sym msg live' next') (hnext : next.toNat + 2 < 2 ^ 64) :
    next.toNat < next'.toNat ∧ next'.toNat ≤ next.toNat + 2 := by
  have hone : (next + 1).toNat = next.toNat + 1 := by
    rw [UInt64.toNat_add, UInt64.toNat_one]
    omega
  have htwo : (next + 1 + 1).toNat = next.toNat + 2 := by
    rw [UInt64.toNat_add, UInt64.toNat_one, hone]
    omega
  cases h <;> omega

/-- A call keeps the table and the flat map of its message alike. -/
theorem Tracked.step (h : Tracked t live next) (hc : Changes live next loc sym msg live' next')
    (hnext : next.toNat + 2 < 2 ^ 64) :
    t.Introduces msg ∧ t.Reaches msg ∧ Tracked (t.apply msg) live' next' := by
  have hlater := (hc.next_grows hnext).1.le
  have hone : (next + 1).toNat = next.toNat + 1 := by
    rw [UInt64.toNat_add, UInt64.toNat_one]
    omega
  have hfresh {id : OrderId} (hid : next.toNat ≤ id.toNat) : ∀ r ∈ live, r.id ≠ id := by
    intro r hr heq
    have hgiven := h.given r hr
    rw [heq] at hgiven
    omega
  cases hc with
  | add o hqty =>
    have hnew := hfresh (Nat.le_refl next.toNat)
    refine ⟨h.records.unused hnew, ⟨_, rfl, fun x hx => ?_⟩, ?_⟩
    · cases hx
    · have henter : t.apply (.addOrder ⟨loc, 0, next, next, o.side, o.qty, sym, o.price⟩) =
        t.insert next ⟨o, sym⟩ := if_neg hqty
      rw [henter]
      have hbefore : Tracked t (live ++ []) (next + 1) := by
        rw [List.append_nil]
        exact h.later hlater
      refine hbefore.put (o := ⟨⟨o, sym⟩, next, loc⟩) (fun r hr => hnew r (by simpa using hr)) ?_
      show next.toNat < (next + 1).toNat
      omega
  | cancel shares hlive hle | execute shares hlive hle =>
    subst hlive
    refine ⟨trivial, ⟨_, rfl, fun x hx => ?_⟩, (h.later hlater).withdraw shares⟩
    cases hx
    exact ⟨_, h.records.lookup⟩
  | delete hlive =>
    subst hlive
    refine ⟨trivial, ⟨_, rfl, fun x hx => ?_⟩, (h.later hlater).drop⟩
    cases hx
    exact ⟨_, h.records.lookup⟩
  | @replace front o back price shares hlive hshares =>
    subst hlive
    have hnew := hfresh (show next.toNat ≤ (next + 1).toNat by omega)
    have hlookup := h.records.lookup
    refine ⟨Or.inl (h.records.unused hnew), ⟨_, rfl, fun x hx => ?_⟩, ?_⟩
    · cases hx
      exact ⟨_, hlookup⟩
    · have henter : t.apply (.orderReplace ⟨o.loc, 0, next, o.id, next + 1, shares, price⟩) =
          (t.erase o.id).insert (next + 1) ⟨⟨o.side, price, shares⟩, o.symbol⟩ := by
        show t.act (.replace _) = _
        rw [FlatMap.act, hlookup]
        exact if_neg hshares
      rw [henter]
      refine (h.later hlater).drop.put (o := { o with price := price, qty := shares, id := next + 1 })
        (fun r hr => ?_) ?_
      · exact hnew r (mem_row.mpr (Or.inr hr))
      · have htwo : (next + 1 + 1).toNat = next.toNat + 2 := by
          rw [UInt64.toNat_add, UInt64.toNat_one, hone]
          omega
        show (next + 1).toNat < (next + 1 + 1).toNat
        omega

end Changes

/-! ## A datagram that is next on its locate -/

namespace FeedHandler

theorem checkSequence_next (h : FeedHandler) (requester : Option RecoveryRequester) {loc : StockLocate}
    {seq : SequenceNumber}
    (hseq : seq ≠ 0) (hnext : ∀ e, h.gap.expected_[loc]? = some e → seq = e) :
    h.checkSequence requester loc seq = (.admitted, { h with gap := h.gap.setExpected loc (seq + 1) },
      []) := by
  have hobserve : h.gap.observe loc seq = (.ok, h.gap.setExpected loc (seq + 1)) := by
    unfold GapDetector.observe
    cases hold : h.gap.expected_[loc]? with
    | none => rfl
    | some e =>
      have heq := hnext e hold
      subst heq
      exact if_pos rfl
  have hadvance : { h with gap := h.gap.setExpected loc (seq + 1) }.advance loc seq =
      { h with gap := h.gap.setExpected loc (seq + 1) } := by
    unfold advance
    split_ifs
    · rw [GapDetector.setExpected_twice]
    · rfl
  rw [checkSequence, if_neg hseq, hobserve]
  dsimp only
  rw [hadvance]

/-- The handler after such a datagram, if its message changes the books. -/
structure Accepted (h : FeedHandler) (d : Delivery) (m : AnyMessage) (h' : FeedHandler) : Prop where
  book : h'.book = (h.book.apply m).book
  gap : h'.gap = h.gap.setExpected d.loc (d.seq + 1)
  gaps : h'.stats.gapsDetected = h.stats.gapsDetected
  stale : h'.stats.staleMsgs = h.stats.staleMsgs
  errors : h'.stats.parseErrors = h.stats.parseErrors
  applied : h'.stats.messagesApplied = h.stats.messagesApplied + 1

theorem deliver_next (h : FeedHandler) {d : Delivery} {n : ℕ} {m : AnyMessage} (hframed : d.Framed)
    (hseq : d.seq ≠ 0)
    (hnext : ∀ e, h.gap.expected_[d.loc]? = some e → d.seq = e) (hm : decodeFrame d.frame = ⟨.ok, n, some m⟩)
    (hchanged : (h.book.apply m).changed = true) : Accepted h d m (h.deliver d).1 := by
  have hcheck := checkSequence_next { h with stats := { h.stats with
    bytesIn := h.stats.bytesIn + UInt64.ofNat d.data.length, datagramsIn := h.stats.datagramsIn + 1 } } d.requester hseq hnext
  have hdeliver : (h.deliver d).1 = (decodeAndApply { h with
      gap := h.gap.setExpected d.loc (d.seq + 1)
      stats := { h.stats with
        bytesIn := h.stats.bytesIn + UInt64.ofNat d.data.length
        datagramsIn := h.stats.datagramsIn + 1 } } d.frame).2 := by
    rw [deliver, onDatagram, if_neg (Nat.not_lt.mpr hframed)]
    dsimp only
    rw [show readLocate d.data = d.loc from rfl, show readSequence d.data = d.seq from rfl, hcheck]
    rfl
  rw [hdeliver, decodeAndApply, hm]
  dsimp only
  rw [if_pos hchanged]
  exact ⟨rfl, rfl, rfl, rfl, rfl, rfl⟩

end FeedHandler

/-! ## Runs -/

/-- The transport sequences of a locate, in the order of their datagrams. -/
def stampedOn (loc : StockLocate) (es : List Emission) : List ℕ :=
  (es.filter (fun e => readLocate e.out = loc)).map (fun e => (readSequence e.out).toNat)

theorem stampedOn_concat (loc : StockLocate) (es : List Emission) (e : Emission) :
    stampedOn loc (es ++ [e]) =
      if readLocate e.out = loc then stampedOn loc es ++ [(readSequence e.out).toNat]
        else stampedOn loc es := by
  unfold stampedOn
  rw [List.filter_append, List.map_append, List.filter_singleton]
  by_cases hloc : readLocate e.out = loc
  · simp [hloc]
  · simp [hloc]

theorem length_stampedOn (loc : StockLocate) (es : List Emission) :
    (stampedOn loc es).length ≤ es.length := by
  rw [stampedOn, List.length_map]
  exact List.length_filter_le _ es

/-- Sequences from 1 on, and the entry of the map that says which one comes next. -/
structure Counted (entry : Option SequenceNumber) (seqs : List ℕ) : Prop where
  consecutive : seqs = List.range' 1 seqs.length
  entry : entry = if seqs.length = 0 then none else some (UInt64.ofNat (seqs.length + 1))

theorem Counted.next {entry : Option SequenceNumber} {seqs : List ℕ} (h : Counted entry seqs)
    (hlen : seqs.length < 2 ^ 60) :
    (entry.getD 1).toNat = seqs.length + 1 := by
  rw [h.entry]
  split_ifs with hzero
  · rw [hzero]
    rfl
  · exact UInt64.toNat_ofNat_of_lt' (show seqs.length + 1 < 2 ^ 64 by omega)

theorem Counted.grow {entry : Option SequenceNumber} {seqs : List ℕ} (h : Counted entry seqs)
    (hlen : seqs.length < 2 ^ 60) :
    Counted (some (entry.getD 1 + 1)) (seqs ++ [(entry.getD 1).toNat]) := by
  have hnext := h.next hlen
  refine ⟨?_, ?_⟩
  · rw [List.length_append, List.length_singleton, List.range'_1_concat, ← h.consecutive, hnext, Nat.add_comm]
  · rw [List.length_append, List.length_singleton, if_neg (Nat.succ_ne_zero _), Option.some_inj]
    apply UInt64.toNat_inj.mp
    rw [UInt64.toNat_add, hnext, UInt64.toNat_ofNat_of_lt' (show seqs.length + 1 + 1 < 2 ^ 64 by omega),
      UInt64.toNat_one]
    omega

/-- A generator after a run, and a handler that was fed with what it emitted. -/
structure InStep (numSymbols : ℕ) (es : List Emission) (g : MessageGenerator) (live : List LiveOrder)
    (h : FeedHandler) :
    Prop where
  table : Tabulates g live
  positive : ∀ o ∈ live, o.qty ≠ 0
  located : ∀ o ∈ live, ∃ si, g.symbols[si]? = some o.symbol ∧ o.loc = g.locateAt si
  symbols : g.symbols = (MessageGenerator.new numSymbols).symbols
  baseLocate : g.baseLocate = 100
  ids : g.nextOrderId.toNat ≤ 2 * es.length + 1
  tracked : ∃ t, Holds h.book t ∧ Tracked t live g.nextOrderId
  counted : ∀ loc : StockLocate, Counted (g.nextSeq[loc]?) (stampedOn loc es)
  expected : ∀ loc : StockLocate, h.gap.expected_[loc]? = g.nextSeq[loc]?
  decoded : ∀ e ∈ es, (decodeFrame (e.out.drop transportHeaderSize)).status = .ok
  gaps : h.stats.gapsDetected = 0
  stale : h.stats.staleMsgs = 0
  errors : h.stats.parseErrors = 0
  applied : h.stats.messagesApplied = UInt64.ofNat es.length

namespace InStep
variable {numSymbols : ℕ} {es : List Emission} {g : MessageGenerator} {live : List LiveOrder}
  {h : FeedHandler}

theorem start (numSymbols depth : ℕ) (skip : Bool) :
    InStep numSymbols [] (MessageGenerator.new numSymbols) [] (FeedHandler.new depth skip) := by
  have hnone : ∀ o ∈ ([] : List LiveOrder), False := fun o ho => by cases ho
  refine ⟨⟨rfl, rfl, rfl, rfl, rfl⟩, fun o ho => (hnone o ho).elim, fun o ho => (hnone o ho).elim, rfl, rfl,
    Nat.le_refl 1,
    ⟨∅, Holds.of_new depth, Tracked.empty _⟩, fun loc => ⟨rfl, ?_⟩, fun loc => ?_, fun e he => ?_, rfl, rfl,
      rfl, rfl⟩
  · simp [MessageGenerator.new, stampedOn]
  · simp [MessageGenerator.new, FeedHandler.new, GapDetector.new]
  · cases he

theorem symbols_ne_nil (hs : InStep numSymbols es g live h) (hsymbols : 1 ≤ numSymbols) : g.symbols ≠ [] := by
  rw [hs.symbols]
  exact MdfeedItch.symbols_ne_nil hsymbols

section Call
variable {c : Draws} {sym : Symbol} {msg : AnyMessage} {e : Emission} {g' : MessageGenerator}
  {live' : List LiveOrder}
  (hs : InStep numSymbols es g live h) (hcalls : Calls g live c sym msg e g' live')
include hs hcalls

/-- The rows are on the locates of their symbols. -/
theorem located_after : ∀ r ∈ live', ∃ si, g'.symbols[si]? = some r.symbol ∧ r.loc = g'.locateAt si := by
  have hsame : ∀ si, g'.locateAt si = g.locateAt si := by
    intro si
    rw [locateAt, locateAt, hcalls.baseLocate]
  intro r hr
  rw [hcalls.symbols]
  simp only [hsame]
  rcases hcalls.changes.rows hr with hold | ⟨-, ⟨o, ho, hroloc, hrosym⟩ | ⟨hrloc, hrsym⟩⟩
  · exact hs.located r hold
  · rw [hroloc, hrosym]
    exact hs.located o ho
  · rw [hrloc, hrsym]
    exact ⟨_, hcalls.picked, rfl⟩

theorem counted_after (hlen : es.length < 2 ^ 60) (loc : StockLocate) :
    Counted (g'.nextSeq[loc]?) (stampedOn loc (es ++ [e])) := by
  have hseq := hcalls.stamped
  have hloc : readLocate e.out = e.header.stockLocate := hcalls.packs.locate
  rw [stampedOn_concat, hcalls.nextSeq, lookup_insert, hloc]
  by_cases hhere : loc = e.header.stockLocate
  · rw [if_pos hhere, if_pos hhere.symm, hseq, hhere, ← hcalls.packs.sequence, hseq]
    exact (hs.counted _).grow ((length_stampedOn _ es).trans_lt hlen)
  · rw [if_neg hhere, if_neg (Ne.symm hhere)]
    exact hs.counted loc

/-- The handler takes the datagram as the next one of its locate. -/
theorem accepted (hlen : es.length < 2 ^ 60) (requester : Option RecoveryRequester)
    (hchanged : (h.book.apply msg.onWire).changed = true) :
    Accepted h ⟨e.out, requester⟩ msg.onWire (h.deliver ⟨e.out, requester⟩).1 := by
  have hseq := hcalls.stamped
  have hloc : Delivery.loc ⟨e.out, requester⟩ = e.header.stockLocate := hcalls.packs.locate
  refine h.deliver_next hcalls.packs.framed (fun hzero => ?_)
    (fun expected hexpected => ?_) hcalls.packs.decoded hchanged
  · have hvalue := (hs.counted e.header.stockLocate).next ((length_stampedOn _ es).trans_lt hlen)
    have hfirst : readSequence e.out = 0 := hzero
    rw [← hseq, hfirst] at hvalue
    cases hvalue
  · rw [hloc, hs.expected] at hexpected
    show readSequence e.out = expected
    rw [hseq, hexpected]
    rfl

end Call

/-- One call, and its datagram at the handler. -/
theorem step (hs : InStep numSymbols es g live h) (hsymbols : 1 ≤ numSymbols) (hlen : es.length < 2 ^ 60)
    (requester : Option RecoveryRequester) (c : Draws) :
    ∃ e g' live', g.next c = some (e, g') ∧
      InStep numSymbols (es ++ [e]) g' live' (h.deliver ⟨e.out, requester⟩).1 := by
  obtain ⟨sym, msg, e, g', live', hnext, hcalls⟩ := next_calls hs.table hs.positive
    (hs.symbols_ne_nil hsymbols) c
  obtain ⟨t, hholds, htracked⟩ := hs.tracked
  have hids := hs.ids
  have hsmall : g.nextOrderId.toNat + 2 < 2 ^ 64 := by omega
  obtain ⟨hnew, hreaches, htracked'⟩ := htracked.step hcalls.changes hsmall
  have hgrows := (hcalls.changes.next_grows hsmall).2
  obtain ⟨a, ha, hlive⟩ := hreaches.onWire
  have haccepted := hs.accepted hcalls hlen requester (hholds.changed ha hlive)
  refine ⟨e, g', live', hnext, hcalls.table, hcalls.changes.positive hs.positive, hs.located_after hcalls,
    hcalls.symbols.trans hs.symbols, hcalls.baseLocate.trans hs.baseLocate, ?_, ⟨t.apply msg, ?_, htracked'⟩,
    hs.counted_after hcalls hlen, fun loc => ?_, fun d hd => ?_, haccepted.gaps.trans hs.gaps,
    haccepted.stale.trans hs.stale, haccepted.errors.trans hs.errors, ?_⟩
  · rw [List.length_append, List.length_singleton]
    omega
  · rw [haccepted.book, ← t.apply_onWire msg]
    exact hholds.apply msg.onWire ((t.introduces_onWire msg).mpr hnew)
  · have hloc : Delivery.loc ⟨e.out, requester⟩ = e.header.stockLocate := hcalls.packs.locate
    have hseq : Delivery.seq ⟨e.out, requester⟩ = e.header.sequence := hcalls.packs.sequence
    rw [haccepted.gap, GapDetector.lookup_setExpected, hcalls.nextSeq, lookup_insert, hs.expected loc, hloc,
      hseq]
  · rcases List.mem_append.mp hd with hd | hd
    · exact hs.decoded d hd
    · rw [List.mem_singleton.mp hd, hcalls.packs.decoded]
  · rw [haccepted.applied, hs.applied, List.length_append]
    exact (UInt64.ofNat_add es.length 1).symm

/-- Every run of the generator goes through, and a handler that starts in step keeps up with it. -/
theorem run_from {h₀ : FeedHandler} (hstart : InStep numSymbols [] (MessageGenerator.new numSymbols) [] h₀)
    (requester : Option RecoveryRequester) (hsymbols : 1 ≤ numSymbols) (cs : List Draws)
    (hlen : cs.length < 2 ^ 60) :
    ∃ es g live, (MessageGenerator.new numSymbols).run cs = some (es, g) ∧ es.length = cs.length ∧
      (∀ e ∈ es, ∃ si < numSymbols, e.header.stockLocate = UInt16.ofNat (100 + si)) ∧
      InStep numSymbols es g live (h₀.feed (es.map (fun e => ⟨e.out, requester⟩))).1 := by
  induction cs using List.reverseRecOn with
  | nil => exact ⟨[], _, [], rfl, rfl, fun e he => absurd he List.not_mem_nil, hstart⟩
  | append_singleton cs c ih =>
    rw [List.length_append, List.length_singleton] at hlen
    obtain ⟨es, g, live, hrun, hcount, hlocates, hs⟩ := ih (by omega)
    obtain ⟨e, g', live', hnext, hs'⟩ := hs.step hsymbols (by omega) requester c
    refine ⟨es ++ [e], g', live', ?_, ?_, fun d hd => ?_, ?_⟩
    · rw [MessageGenerator.run_concat, hrun, Option.bind_some, hnext]
      rfl
    · rw [List.length_append, List.length_append, hcount]
      rfl
    · rcases List.mem_append.mp hd with hd | hd
      · exact hlocates d hd
      · rw [List.mem_singleton.mp hd]
        obtain ⟨si, hsi, hloc⟩ := next_locate hnext
        rw [hs.symbols, MessageGenerator.new, List.length_map, List.length_take] at hsi
        rw [locateAt, hs.baseLocate] at hloc
        exact ⟨si, by omega, hloc⟩
    · rw [List.map_append, List.map_singleton, feed_concat]
      exact hs'

theorem run (numSymbols depth : ℕ) (skip : Bool) (requester : Option RecoveryRequester)
    (hsymbols : 1 ≤ numSymbols) (cs : List Draws)
    (hlen : cs.length < 2 ^ 60) :
    ∃ es g live, (MessageGenerator.new numSymbols).run cs = some (es, g) ∧ es.length = cs.length ∧
      InStep numSymbols es g live
        ((FeedHandler.new depth skip).feed (es.map (fun e => ⟨e.out, requester⟩))).1 := by
  obtain ⟨es, g, live, hrun, hcount, -, hs⟩ := (start numSymbols depth skip).run_from requester hsymbols cs hlen
  exact ⟨es, g, live, hrun, hcount, hs⟩

end InStep

/-! ## The two trackers -/

/-- An order rests in the book of a symbol. -/
def DepthBook.Rests (d : DepthBook) (id : OrderId) (sym : Symbol) (r : RestingOrder) : Prop :=
  ∃ b s, d.find sym = some b ∧ b.orders[id]? = some s ∧ s.toRestingOrder = r

namespace MessageGenerator

/-- The vectors record an order; its locate tells the symbol. -/
def Lists (g : MessageGenerator) (id : OrderId) (sym : Symbol) (r : RestingOrder) : Prop :=
  ∃ i si : ℕ, g.liveOrders[i]? = some id ∧ g.liveSides[i]? = some r.side ∧ g.livePrices[i]? = some r.price ∧
    g.liveQtys[i]? = some r.qty ∧ g.liveLocs[i]? = some (g.locateAt si) ∧ g.symbols[si]? = some sym

/-- The five vectors are of one length, without an id twice or an order without shares. -/
structure Consistent (g : MessageGenerator) : Prop where
  prices : g.livePrices.length = g.liveOrders.length
  qtys : g.liveQtys.length = g.liveOrders.length
  sides : g.liveSides.length = g.liveOrders.length
  locs : g.liveLocs.length = g.liveOrders.length
  distinct : g.liveOrders.Nodup
  positive : ∀ q ∈ g.liveQtys, q ≠ 0

/-- A cancel or an execute takes no more than the vectors record for its order. -/
def Covers (g : MessageGenerator) : AnyMessage → Prop
  | .orderCancel m => ∃ (i : ℕ) (q : Quantity), g.liveOrders[i]? = some m.orderId ∧ g.liveQtys[i]? = some q ∧
    m.canceledShares ≤ q
  | .orderExecuted m => ∃ (i : ℕ) (q : Quantity), g.liveOrders[i]? = some m.orderId ∧
    g.liveQtys[i]? = some q ∧ m.executedShares ≤ q
  | _ => True

end MessageGenerator

theorem Holds.rests_iff {d : DepthBook} {t : FlatMap} (h : Holds d t) {id : OrderId} {sym : Symbol}
    {r : RestingOrder} :
    d.Rests id sym r ↔ t[id]? = some ⟨r, sym⟩ := by
  have hrows := h.rows (symbolKey sym)
  constructor
  · rintro ⟨b, s, hb, hs, rfl⟩
    rw [DepthBook.bookAt_of_some hb] at hrows
    cases hid : t[id]? with
    | none =>
      rw [hrows.of_none hid] at hs
      cases hs
    | some f =>
      by_cases hkey : symbolKey f.symbol = symbolKey sym
      · obtain ⟨ts, hf⟩ := hrows.of_here hid hkey
        rw [hs, Option.some_inj] at hf
        rw [hf, ← symbolKey_injective hkey]
      · rw [hrows.of_elsewhere hid hkey] at hs
        cases hs
  · intro hid
    obtain ⟨ts, hs⟩ := hrows.of_here hid rfl
    obtain ⟨-, -, -, -, hbook⟩ := h.keyed.route (h.routed id _ hid)
    exact ⟨d.bookAt (symbolKey sym), _, hbook, hs, rfl⟩

namespace InStep
variable {numSymbols : ℕ} {es : List Emission} {g : MessageGenerator} {live : List LiveOrder}
  {h : FeedHandler}

/-- Different symbols have different locates. -/
theorem locateAt_inj (hs : InStep numSymbols es g live h) {si sj : ℕ} {a b : Symbol}
    (hsi : g.symbols[si]? = some a)
    (hsj : g.symbols[sj]? = some b) (hloc : g.locateAt si = g.locateAt sj) : si = sj := by
  have hten : g.symbols.length ≤ 10 := by
    rw [hs.symbols, MessageGenerator.new, List.length_map, List.length_take]
    exact Nat.min_le_right _ _
  have hi := (List.getElem?_eq_some_iff.mp hsi).1
  have hj := (List.getElem?_eq_some_iff.mp hsj).1
  rw [locateAt, locateAt, hs.baseLocate] at hloc
  have hnat := congrArg UInt16.toNat hloc
  rw [show (100 : UInt16).toNat = 100 from rfl, UInt16.toNat_ofNat_of_lt' (show 100 + si < 2 ^ 16 by omega),
    UInt16.toNat_ofNat_of_lt' (show 100 + sj < 2 ^ 16 by omega)] at hnat
  omega

theorem lists_iff (hs : InStep numSymbols es g live h) {id : OrderId} {sym : Symbol} {r : RestingOrder} :
    g.Lists id sym r ↔ ∃ o ∈ live, o.id = id ∧ o.toFlatOrder = ⟨r, sym⟩ := by
  constructor
  · rintro ⟨i, si, hid, hside, hprice, hqty, hloc, hsym⟩
    have hi : i < live.length := by
      have hlt := (List.getElem?_eq_some_iff.mp hid).1
      rwa [hs.table.orders, List.length_map] at hlt
    obtain ⟨front, o, back, hlive, hfront⟩ := exists_row hi
    obtain ⟨hoid, hoprice, hoqty, hoside, holoc⟩ := hs.table.row hlive hfront
    obtain ⟨sj, hosym, hoat⟩ := hs.located o (by simp [hlive])
    have hat : g.locateAt si = g.locateAt sj := (Option.some.inj (hloc.symm.trans holoc)).trans hoat
    have hsame := hs.locateAt_inj hsym hosym hat
    rw [hsame] at hsym
    refine ⟨o, by simp [hlive], Option.some.inj (hoid.symm.trans hid), ?_⟩
    have hsymbol : o.symbol = sym := Option.some.inj (hosym.symm.trans hsym)
    have horder : o.toRestingOrder = r := by
      rcases r with ⟨side, price, qty⟩
      have h1 : o.side = side := Option.some.inj (hoside.symm.trans hside)
      have h2 : o.price = price := Option.some.inj (hoprice.symm.trans hprice)
      have h3 : o.qty = qty := Option.some.inj (hoqty.symm.trans hqty)
      subst h1 h2 h3
      rfl
    rw [← hsymbol, ← horder]
  · rintro ⟨o, ho, rfl, hflat⟩
    obtain ⟨front, back, hlive⟩ := List.append_of_mem ho
    obtain ⟨hoid, hoprice, hoqty, hoside, holoc⟩ := hs.table.row hlive rfl
    obtain ⟨si, hosym, hoat⟩ := hs.located o ho
    have hresting : o.toRestingOrder = r := congrArg FlatOrder.toRestingOrder hflat
    have hsymbol : o.symbol = sym := congrArg FlatOrder.symbol hflat
    subst hresting hsymbol
    exact ⟨front.length, si, hoid, hoside, hoprice, hoqty, holoc.trans (congrArg some hoat), hosym⟩

theorem consistent (hs : InStep numSymbols es g live h) : g.Consistent := by
  obtain ⟨t, -, htracked⟩ := hs.tracked
  obtain ⟨horders, hprices, hqtys, hsides, hlocs⟩ := hs.table
  refine ⟨?_, ?_, ?_, ?_, ?_, fun q hq => ?_⟩
  · rw [hprices, horders, List.length_map, List.length_map]
  · rw [hqtys, horders, List.length_map, List.length_map]
  · rw [hsides, horders, List.length_map, List.length_map]
  · rw [hlocs, horders, List.length_map, List.length_map]
  · rw [horders]
    exact htracked.distinct
  · rw [hqtys] at hq
    obtain ⟨o, ho, rfl⟩ := List.mem_map.mp hq
    exact hs.positive o ho

theorem covers (hs : InStep numSymbols es g live h) (hsymbols : 1 ≤ numSymbols) {c : Draws} {e : Emission}
    {g' : MessageGenerator}
    (hnext : g.next c = some (e, g')) {m : AnyMessage}
    (hm : (decodeFrame (e.out.drop transportHeaderSize)).message = some m) :
    g.Covers m := by
  obtain ⟨sym, msg, e', g'', live', hcall, hcalls⟩ := next_calls hs.table hs.positive
    (hs.symbols_ne_nil hsymbols) c
  rw [hnext, Option.some_inj] at hcall
  cases hcall
  rw [hcalls.packs.decoded] at hm
  cases hm
  have hchanges := hcalls.changes
  generalize g'.nextOrderId = next' at hchanges
  cases hchanges with
  | add o hqty => trivial
  | @cancel front o back shares hlive hle | @execute front o back shares hlive hle =>
    obtain ⟨hoid, -, hoqty, -, -⟩ := hs.table.row hlive rfl
    exact ⟨front.length, o.qty, hoid, hoqty, hle⟩
  | delete hlive => trivial
  | replace price shares hlive hshares => trivial

end InStep

/-- Every run of the generator emits decodable datagrams, numbered from 1 on each locate; its vectors stay
consistent, and a fresh handler that gets the datagrams in order holds exactly the orders they record. -/
theorem generator_books_agree (numSymbols depth : ℕ) (skip : Bool) (requester : Option RecoveryRequester)
    (hsymbols : 1 ≤ numSymbols) (cs : List Draws) (hlen : cs.length < 2 ^ 60) :
    ∃ es g, (MessageGenerator.new numSymbols).run cs = some (es, g) ∧ es.length = cs.length ∧
      (∀ e ∈ es, (decodeFrame (e.out.drop transportHeaderSize)).status = .ok) ∧
      (∀ loc, stampedOn loc es = List.range' 1 (stampedOn loc es).length) ∧ g.Consistent ∧
      (∀ c e g' m, g.next c = some (e, g') →
        (decodeFrame (e.out.drop transportHeaderSize)).message = some m → g.Covers m) ∧
      let final := ((FeedHandler.new depth skip).feed (es.map (fun e => ⟨e.out, requester⟩))).1
      final.stats.gapsDetected = 0 ∧ final.stats.staleMsgs = 0 ∧ final.stats.parseErrors = 0 ∧
        final.stats.messagesApplied.toNat = es.length ∧
        ∀ id sym r, final.book.Rests id sym r ↔ g.Lists id sym r := by
  obtain ⟨es, g, live, hrun, hcount, hs⟩ := InStep.run numSymbols depth skip requester hsymbols cs hlen
  obtain ⟨t, hholds, htracked⟩ := hs.tracked
  refine ⟨es, g, hrun, hcount, hs.decoded, fun loc => (hs.counted loc).consecutive, hs.consistent,
    fun c e g' m hnext hm => hs.covers hsymbols hnext hm, hs.gaps, hs.stale, hs.errors, ?_,
      fun id sym r => ?_⟩
  · rw [hs.applied, hcount]
    exact UInt64.toNat_ofNat_of_lt' (show cs.length < 2 ^ 64 by omega)
  · rw [hholds.rests_iff, htracked.records, hs.lists_iff]

/-- Two symbols, an order on each; shares leave the first one and the second one goes. -/
theorem four_calls_agree :
    let cs : List Draws := [⟨0, 0, 0, 0, 0, 0⟩, ⟨1, 10, 0, 1, 5, 7⟩, ⟨1, 50, 0, 0, 8, 0⟩, ⟨0, 90, 1, 0, 0, 0⟩]
    let aapl : Symbol := #v[65, 65, 80, 76, 32, 32, 32, 32]
    ∃ es g, (MessageGenerator.new 2).run cs = some (es, g) ∧ g.liveOrders = [1] ∧ g.Consistent ∧
      ((FeedHandler.new 10 false).feed (es.map (fun e => ⟨e.out, none⟩))).1.book.Rests 1 aapl ⟨.buy, 100000,
        91⟩ := by
  intro cs aapl
  obtain ⟨es, g, hrun, -, -, -, hconsistent, -, -, -, -, -, hlive⟩ :=
    generator_books_agree 2 10 false none (by decide) cs (by decide)
  have hvectors : ((MessageGenerator.new 2).run cs).map (fun r =>
      (r.2.liveOrders, r.2.liveSides, r.2.livePrices, r.2.liveQtys, r.2.liveLocs, r.2.locateAt 0,
        r.2.symbols[0]?)) =
        some ([1], [.buy], [100000], [91], [100], 100, some aapl) := by rfl
  rw [hrun, Option.map_some, Option.some_inj, Prod.mk.injEq, Prod.mk.injEq, Prod.mk.injEq, Prod.mk.injEq,
    Prod.mk.injEq,
    Prod.mk.injEq] at hvectors
  obtain ⟨hids, hsides, hprices, hqtys, hlocs, hat, hsym⟩ := hvectors
  refine ⟨es, g, hrun, hids, hconsistent, (hlive 1 aapl _).mpr ⟨0, 0, ?_, ?_, ?_, ?_, ?_, hsym⟩⟩
  · rw [hids]
    rfl
  · rw [hsides]
    rfl
  · rw [hprices]
    rfl
  · rw [hqtys]
    rfl
  · rw [hlocs, hat]
    rfl

end MdfeedItch
