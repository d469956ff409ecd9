import MdfeedItch.ConfinedRuns
import MdfeedItch.DepthBookOwnership
import MdfeedItch.SequenceAdmission

/-! # Independent streams commute

Without a requester a datagram reads and moves the expected sequence of its own
locate only. When the messages of different locates mention different symbols and
orders, they keep to the books and index entries of their locate as well, so that
the order in which the streams are merged makes no difference. -/
namespace MdfeedItch
open Std FiniteMapSums FeedHandler

/-- The symbols that a message mentions. -/
def AnyMessage.symbols : AnyMessage → List Symbol
  | .stockDirectory m => [m.symbol]
  | .addOrder m => [m.symbol]
  | .addOrderMPID m => [m.base.symbol]
  | .trade m => [m.symbol]
  | .systemEvent _ | .orderExecuted _ | .orderExecutedWithPrice _ | .orderCancel _ | .orderDelete _ | .orderReplace _ => []

/-- The order ids that a message mentions. -/
def AnyMessage.orderIds : AnyMessage → List OrderId
  | .addOrder m => [m.orderId]
  | .addOrderMPID m => [m.base.orderId]
  | .orderExecuted m => [m.orderId]
  | .orderExecutedWithPrice m => [m.base.orderId]
  | .orderCancel m => [m.orderId]
  | .orderDelete m => [m.orderId]
  | .orderReplace m => [m.originalOrderId, m.newOrderId]
  | .trade m => [m.orderId]
  | .systemEvent _ | .stockDirectory _ => []

section Families
variable (family : StockLocate → List (List UInt8))

/-- A datagram of a locate's list decodes to the message. -/
def Mentioned (loc : StockLocate) (m : AnyMessage) : Prop :=
  ∃ data ∈ family loc, (decodeFrame (data.drop transportHeaderSize)).message = some m

/-- The messages of different locates have no symbol and no order id in common. -/
structure Independent : Prop where
  framed : ∀ loc, ∀ data ∈ family loc, transportHeaderSize + 2 ≤ data.length
  symbols : ∀ {loc loc' m m'}, loc ≠ loc' → Mentioned family loc m → Mentioned family loc' m' →
    List.Disjoint m.symbols m'.symbols
  orderIds : ∀ {loc loc' m m'}, loc ≠ loc' → Mentioned family loc m → Mentioned family loc' m' →
    List.Disjoint m.orderIds m'.orderIds

/-- A merge of the lists that keeps each locate's own order. -/
def Interleaves (ds : List (List UInt8)) : Prop :=
  ∀ loc, ds.filter (fun data => readLocate data = loc) = family loc

end Families

/-- A locate owns what its messages mention. -/
def Independent.ownership {family : StockLocate → List (List UInt8)} (h : Independent family) :
    Ownership where
  keys loc k := ∃ m, Mentioned family loc m ∧ ∃ sym ∈ m.symbols, symbolKey sym = k
  ids loc x := ∃ m, Mentioned family loc m ∧ x ∈ m.orderIds
  keys_unique := by
    rintro loc loc' k ⟨m, hm, sym, hsym, rfl⟩ ⟨m', hm', sym', hsym', hkey⟩
    by_contra hne
    exact h.symbols hne hm hm' hsym (symbolKey_injective hkey ▸ hsym')
  ids_unique := by
    rintro loc loc' x ⟨m, hm, hx⟩ ⟨m', hm', hx'⟩
    by_contra hne
    exact h.orderIds hne hm hm' hx hx'

theorem Independent.keeps {family : StockLocate → List (List UInt8)} (h : Independent family)
    {loc : StockLocate} {m : AnyMessage}
    (hm : Mentioned family loc m) {a : BookAction} (ha : m.action = some a) : h.ownership.Keeps loc a := by
  have hids {x : OrderId} (hx : x ∈ m.orderIds) : h.ownership.ids loc x := ⟨m, hm, hx⟩
  have hkeys {sym : Symbol} (hsym : sym ∈ m.symbols) : h.ownership.keys loc (symbolKey sym) :=
    ⟨m, hm, sym, hsym, rfl⟩
  cases m with
  | addOrder m | addOrderMPID m =>
    cases ha
    exact ⟨hkeys (List.mem_singleton_self _), hids (List.mem_singleton_self _)⟩
  | orderExecuted m | orderExecutedWithPrice m | orderCancel m | orderDelete m =>
    cases ha
    exact hids (List.mem_singleton_self _)
  | orderReplace m =>
    cases ha
    exact ⟨hids (List.mem_cons_self), hids (List.mem_cons_of_mem _ (List.mem_singleton_self _))⟩
  | trade m | systemEvent m | stockDirectory m => cases ha

namespace Delivery

/-- Its effects, by the expected sequence of its locate. -/
def passes (d : Delivery) (expected : Option SequenceNumber) (skip : Bool) : List Effect :=
  if d.seq = 0 then [d.accepted]
  else
    match expected with
    | none => [d.accepted]
    | some e =>
      if d.seq = e then [d.accepted]
      else if d.seq < e then []
      else if skip then [missing d.loc e d.seq, d.accepted]
      else [missing d.loc e d.seq]

/-- At most one report, at most one frame for the decoder, both on the locate. -/
theorem passes_shape (d : Delivery) (expected : Option SequenceNumber) (skip : Bool) :
    d.passes expected skip = [] ∨
    d.passes expected skip = [d.accepted] ∨
      ∃ e, d.passes expected skip = [missing d.loc e d.seq, d.accepted] ∨
      d.passes expected skip = [missing d.loc e d.seq] := by
  unfold passes
  split
  · exact Or.inr (Or.inl rfl)
  · split
    · exact Or.inr (Or.inl rfl)
    · rename_i e
      split_ifs
      · exact Or.inr (Or.inl rfl)
      · exact Or.inl rfl
      · exact Or.inr (Or.inr ⟨e, Or.inl rfl⟩)
      · exact Or.inr (Or.inr ⟨e, Or.inr rfl⟩)

end Delivery

theorem FeedHandler.deliver_passes (h : FeedHandler) {d : Delivery} (hframed : d.Framed)
    (hnone : d.requester = none) :
    (h.deliver d).2 = d.passes (h.gap.expected_[d.loc]?) h.skipGaps := by
  have hanswer : ∀ req snap, d.answer req ≠ some snap := by
    intro req snap hsnap
    simp [Delivery.answer, hnone] at hsnap
  have hemits := h.deliver_emits d
  generalize (h.deliver d).2 = fx at hemits
  unfold Delivery.passes
  cases hemits with
  | silent hwhy =>
    obtain ⟨-, hseq, e, hold, hlt⟩ := hwhy.resolve_left (not_not_intro hframed)
    have hne : d.seq ≠ e := fun heq => UInt64.lt_irrefl e (heq ▸ hlt)
    simp only [if_neg hseq, hold, if_neg hne, if_pos hlt]
  | bootstrap _ hzero => rw [if_pos hzero]
  | next _ hseq hnext =>
    rw [if_neg hseq]
    cases hold : h.gap.expected_[d.loc]? with
    | none => rfl
    | some e => exact (if_pos (hnext e hold)).symm
  | unfilled _ hseq hold hgap _ hwhy =>
    have hne := (UInt64.ne_of_lt hgap).symm
    simp [hseq, hold, hne, UInt64.lt_asymm hgap, hwhy hnone]
  | covered _ _ _ _ hsnap => exact absurd hsnap (hanswer _ _)
  | recovered _ _ _ _ hsnap => exact absurd hsnap (hanswer _ _)
  | skipped _ hseq hold hgap _ hskip =>
    have hne := (UInt64.ne_of_lt hgap).symm
    simp [hseq, hold, hne, UInt64.lt_asymm hgap, hskip]

/-- The locate that an effect is about. -/
def Effect.locate : Effect → StockLocate
  | .gapReported loc _ _ => loc
  | .installed snap => snap.stockLocate
  | .decoded loc _ _ => loc

/-- The reports on a locate are among the effects about it. -/
theorem gapRanges_filter (loc : StockLocate) (t : List Effect) :
    gapRanges loc (t.filter (fun x => some x.locate = some loc)) = gapRanges loc t := by
  unfold gapRanges
  rw [List.filterMap_filter, List.filter_filterMap, List.filter_filterMap]
  congr 2
  funext x
  cases x with
  | gapReported l first last =>
    by_cases hl : l = loc
    · simp [Effect.locate, hl]
    · simp [Effect.locate, Effect.range, Option.filter_some, hl]
  | installed snap => simp [Effect.range]
  | decoded l seq frame => simp [Effect.range]

namespace Delivery
variable (d : Delivery) (expected : Option SequenceNumber) (skip : Bool)

theorem missing_ne_accepted (e : SequenceNumber) : d.accepted ≠ missing d.loc e d.seq := by
  intro heq
  cases heq

theorem passes_onBook (b : DepthBook) : (d.passes expected skip).foldl Effect.onBook b =
    if d.accepted ∈ d.passes expected skip then b.receive d.frame else b := by
  rcases d.passes_shape expected skip with h | h | ⟨e, h | h⟩
  · rw [h, if_neg (List.not_mem_nil)]
    rfl
  · rw [h, if_pos (List.mem_singleton_self _)]
    rfl
  · rw [h, if_pos (List.mem_cons_of_mem _ (List.mem_singleton_self _))]
    rfl
  · rw [h, if_neg (fun hmem => d.missing_ne_accepted e (List.mem_singleton.mp hmem))]
    rfl

theorem passes_onGap (g : GapDetector) (loc : StockLocate) :
    ((d.passes expected skip).foldl Effect.onGap g).expected_[loc]? =
      if d.accepted ∈ d.passes expected skip ∧ d.seq ≠ 0 ∧ loc = d.loc then some (d.seq + 1)
      else g.expected_[loc]? := by
  have haccept : (Effect.onGap g d.accepted).expected_[loc]? =
      if d.seq ≠ 0 ∧ loc = d.loc then some (d.seq + 1) else g.expected_[loc]? := by
    by_cases hseq : d.seq = 0
    · rw [if_neg (fun hboth => hboth.1 hseq)]
      exact congrArg (fun g' : GapDetector => g'.expected_[loc]?) (if_pos hseq)
    · rw [onGap_accepted hseq, GapDetector.lookup_setExpected]
      simp [hseq]
  rcases d.passes_shape expected skip with h | h | ⟨e, h | h⟩
  · rw [h, if_neg (fun hall => List.not_mem_nil hall.1)]
    rfl
  · rw [h]
    simpa using haccept
  · have hreport : Effect.onGap g (missing d.loc e d.seq) = g := rfl
    rw [h, List.foldl_cons, hreport]
    simpa using haccept
  · rw [h, if_neg (fun hall => d.missing_ne_accepted e (List.mem_singleton.mp hall.1))]
    rfl

theorem passes_locate : ∀ x ∈ d.passes expected skip, x.locate = d.loc := by
  intro x hx
  rcases d.passes_shape expected skip with h | h | ⟨e, h | h⟩
  · rw [h] at hx
    cases hx
  · rw [h, List.mem_singleton] at hx
    rw [hx]
    rfl
  · rw [h, List.mem_cons, List.mem_singleton] at hx
    rcases hx with rfl | rfl
    · rfl
    · rfl
  · rw [h, List.mem_singleton] at hx
    rw [hx]
    rfl

end Delivery

/-- Two handlers with the same expected sequence, books and index entries of a locate. -/
structure SameStream (o : Ownership) (l : Option StockLocate) (h h' : FeedHandler) : Prop where
  skipGaps : h.skipGaps = h'.skipGaps
  expected : ∀ loc : StockLocate, some loc = l → h.gap.expected_[loc]? = h'.gap.expected_[loc]?
  books : o.SameBooks l h.book h'.book

theorem SameStream.equivalence (o : Ownership) (l : Option StockLocate) : Equivalence (SameStream o l) := by
  have hbooks := Ownership.SameBooks.equivalence o l
  refine ⟨fun h => ⟨rfl, fun loc _ => rfl, hbooks.refl _⟩, fun {h h'} hs => ?_, fun {h h' h''} hs hs' => ?_⟩
  · exact ⟨hs.skipGaps.symm, fun loc hl => (hs.expected loc hl).symm, hbooks.symm hs.books⟩
  · exact ⟨hs.skipGaps.trans hs'.skipGaps, fun loc hl => (hs.expected loc hl).trans (hs'.expected loc hl),
      hbooks.trans hs.books hs'.books⟩

section Receive
variable {family : StockLocate → List (List UInt8)} (hi : Independent family) {b b' : DepthBook}
  {d : Delivery}
  (hd : d.data ∈ family d.loc)
include hd

theorem Independent.mentioned {m : AnyMessage} (hm : (decodeFrame d.frame).message = some m) :
    Mentioned family d.loc m :=
  ⟨d.data, hd, hm⟩

theorem Independent.receive_sorted (hb : hi.ownership.Sorted b) :
    hi.ownership.Sorted (b.receive d.frame) := by
  unfold DepthBook.receive
  cases hm : (decodeFrame d.frame).message with
  | none => exact hb
  | some m => exact hb.apply (fun a ha => hi.keeps (Independent.mentioned hd hm) ha)

theorem Independent.receive_elsewhere (hb : hi.ownership.Sorted b) {l : Option StockLocate}
    (hl : some d.loc ≠ l) :
    hi.ownership.SameBooks l (b.receive d.frame) b := by
  unfold DepthBook.receive
  cases hm : (decodeFrame d.frame).message with
  | none => exact (Ownership.SameBooks.equivalence _ l).refl b
  | some m => exact Ownership.apply_elsewhere hb (fun a ha => hi.keeps (Independent.mentioned hd hm) ha) hl

theorem Independent.receive_here (hb : hi.ownership.Sorted b) (hb' : hi.ownership.Sorted b')
    (hsame : hi.ownership.SameBooks (some d.loc) b b') :
    hi.ownership.SameBooks (some d.loc) (b.receive d.frame) (b'.receive d.frame) := by
  unfold DepthBook.receive
  cases hm : (decodeFrame d.frame).message with
  | none => exact hsame
  | some m => exact Ownership.apply_here hb hb' (fun a ha => hi.keeps (Independent.mentioned hd hm) ha) hsame

end Receive

/-- A datagram of the family, without a requester. -/
structure Streamed (family : StockLocate → List (List UInt8)) (d : Delivery) : Prop where
  framed : d.Framed
  noRequester : d.requester = none
  listed : d.data ∈ family d.loc

/-- Every datagram keeps to the stream of its locate. -/
theorem Independent.confined {family : StockLocate → List (List UInt8)} (hi : Independent family) :
    TraceRuns.Confined deliver (fun d => some d.loc) (SameStream hi.ownership)
      (fun l x => some x.locate = l) (Streamed family)
      (fun h => hi.ownership.Sorted h.book) := by
  refine ⟨SameStream.equivalence _, fun {h d} hd hs => ?_, fun {h d l} hd hs hl => ?_,
    fun {h h' d} hd hs hs' hsame => ?_⟩
  · rw [(h.deliver_replays d).book, h.deliver_passes hd.framed hd.noRequester, d.passes_onBook]
    split_ifs
    · exact hi.receive_sorted hd.listed hs
    · exact hs
  · have hreplays := h.deliver_replays d
    have hpasses := h.deliver_passes hd.framed hd.noRequester
    refine ⟨⟨hreplays.skipGaps, fun loc hloc => ?_, ?_⟩, ?_⟩
    · rw [hreplays.gap, hpasses, d.passes_onGap, if_neg]
      rintro ⟨-, -, rfl⟩
      exact hl hloc
    · rw [hreplays.book, hpasses, d.passes_onBook]
      split_ifs
      · exact hi.receive_elsewhere hd.listed hs hl
      · exact (Ownership.SameBooks.equivalence _ l).refl _
    · rw [hpasses, List.filter_eq_nil_iff]
      intro x hx
      rw [d.passes_locate _ _ x hx]
      simp [hl]
  · have hreplays := h.deliver_replays d
    have hreplays' := h'.deliver_replays d
    have hfx : (h.deliver d).2 = (h'.deliver d).2 := by
      rw [h.deliver_passes hd.framed hd.noRequester, h'.deliver_passes hd.framed hd.noRequester,
        hsame.expected _ rfl, hsame.skipGaps]
    have hpasses := h.deliver_passes hd.framed hd.noRequester
    refine ⟨⟨?_, fun loc hloc => ?_, ?_⟩, by rw [hfx]⟩
    · rw [hreplays.skipGaps, hreplays'.skipGaps, hsame.skipGaps]
    · rw [hreplays.gap, hreplays'.gap, ← hfx, hpasses, d.passes_onGap, d.passes_onGap,
        hsame.expected loc hloc]
    · rw [hreplays.book, hreplays'.book, ← hfx, hpasses, d.passes_onBook, d.passes_onBook]
      split_ifs
      · exact hi.receive_here hd.listed hs hs' hsame.books
      · exact hsame.books

/-- The deliveries of a merge, without a requester. -/
def unassisted (ds : List (List UInt8)) : List Delivery := ds.map (fun data => ⟨data, none⟩)

theorem unassisted_filter {family : StockLocate → List (List UInt8)} {ds : List (List UInt8)}
    (hds : Interleaves family ds)
    (l : Option StockLocate) :
    (unassisted ds).filter (fun d => some d.loc = l) = unassisted (l.elim [] family) := by
  rw [unassisted, List.filter_map]
  cases l with
  | none => simp [unassisted]
  | some loc =>
    have hown := hds loc
    simp only [Option.elim_some, ← hown, unassisted, Option.some_inj]
    rfl

theorem Independent.streamed {family : StockLocate → List (List UInt8)} (hi : Independent family)
    {ds : List (List UInt8)}
    (hds : Interleaves family ds) : ∀ d ∈ unassisted ds, Streamed family d := by
  intro d hd
  obtain ⟨data, hdata, rfl⟩ := List.mem_map.mp hd
  have hlisted : data ∈ family (readLocate data) := by
    rw [← hds (readLocate data), List.mem_filter]
    exact ⟨hdata, by simp⟩
  exact ⟨hi.framed _ data hlisted, rfl, hlisted⟩

/-- Any two merges of independent streams leave the same expected sequences and the same books, with
their live orders, ladders and index, and report the same ranges on every locate. -/
theorem independent_streams_commute {family : StockLocate → List (List UInt8)} (hi : Independent family)
    (depth : ℕ) (skip : Bool)
    {ds ds' : List (List UInt8)} (hds : Interleaves family ds) (hds' : Interleaves family ds') :
    let final := (FeedHandler.new depth skip).feed (unassisted ds)
    let final' := (FeedHandler.new depth skip).feed (unassisted ds')
    (∀ loc, final.1.gap.expected loc = final'.1.gap.expected loc) ∧ final.1.book = final'.1.book ∧
      ∀ loc, gapRanges loc final.2 = gapRanges loc final'.2 := by
  intro final final'
  have hsorted : hi.ownership.Sorted (FeedHandler.new depth skip).book := Ownership.Sorted.new _ depth
  have hstreamed := hi.streamed hds
  have hstreamed' := hi.streamed hds'
  have hagree := fun l => hi.confined.run_interleaved l hsorted hstreamed hstreamed'
    ((unassisted_filter hds l).trans (unassisted_filter hds' l).symm)
  refine ⟨fun loc => ?_, ?_, fun loc => ?_⟩
  · exact congrArg (fun e => e.getD 0) ((hagree (some loc)).1.expected loc rfl)
  · exact Ownership.eq_of_sameBooks (hi.confined.run_inv hsorted _ hstreamed)
      (hi.confined.run_inv hsorted _ hstreamed')
      (fun l => (hagree l).1.books)
  · rw [← gapRanges_filter, ← gapRanges_filter loc final'.2]
    exact congrArg (gapRanges loc) (hagree (some loc)).2

/-- An Add of 100 shares at 50 for the symbol with one letter. -/
def orderDatagram (loc seq id letter : UInt8) : List UInt8 :=
  [0, loc, 0, 0, 0, 0, 0, 0, 0, seq, 0, 36, 0x41, 0, loc, 0, 0, 0, 0, 0, 0, 0, 9, 0, 0, 0, 0, 0, 0, 0, id,
    0x42, 0, 0, 0, 100, letter, 32, 32, 32, 32, 32, 32, 32, 0, 0, 0, 50]

/-- A stream with a gap on locate 1 and one datagram on locate 2, merged in two ways. -/
theorem two_streams_commute :
    let first := orderDatagram 1 1 7 65
    let second := orderDatagram 1 3 8 65
    let other := orderDatagram 2 1 9 66
    let final := (FeedHandler.new 10 true).feed (unassisted [first, second, other])
    let final' := (FeedHandler.new 10 true).feed (unassisted [other, first, second])
    final.1.book = final'.1.book ∧ gapRanges 1 final.2 = gapRanges 1 final'.2 ∧ gapRanges 1 final.2 = [(2, 2)] := by
  intro first second other final final'
  let family : StockLocate → List (List UInt8) :=
    fun loc => if loc = 1 then [first, second] else if loc = 2 then [other] else []
  -- the locate of a message can be told from what it mentions
  have hmentioned : ∀ loc m, Mentioned family loc m →
      (∀ sym ∈ m.symbols, loc = if sym = #v[65, 32, 32, 32, 32, 32, 32, 32] then 1 else 2) ∧
        ∀ x ∈ m.orderIds, loc = if x = 9 then 2 else 1 := by
    rintro loc m ⟨data, hdata, hm⟩
    simp only [family] at hdata
    split_ifs at hdata with hone htwo
    · simp only [List.mem_cons, List.not_mem_nil, or_false] at hdata
      rcases hdata with rfl | rfl
      · obtain rfl := Option.some.inj hm
        exact ⟨List.forall_mem_singleton.mpr hone, List.forall_mem_singleton.mpr hone⟩
      · obtain rfl := Option.some.inj hm
        exact ⟨List.forall_mem_singleton.mpr hone, List.forall_mem_singleton.mpr hone⟩
    · simp only [List.mem_cons, List.not_mem_nil, or_false] at hdata
      subst hdata
      obtain rfl := Option.some.inj hm
      exact ⟨List.forall_mem_singleton.mpr htwo, List.forall_mem_singleton.mpr htwo⟩
    · cases hdata
  have hi : Independent family := by
    refine ⟨fun loc data hdata => ?_, fun {loc loc' m m'} hne hm hm' sym hs hs' => ?_,
      fun {loc loc' m m'} hne hm hm' x hx hx' => ?_⟩
    · simp only [family] at hdata
      split_ifs at hdata
      · revert data
        decide
      · revert data
        decide
      · cases hdata
    · exact hne (((hmentioned loc m hm).1 sym hs).trans ((hmentioned loc' m' hm').1 sym hs').symm)
    · exact hne (((hmentioned loc m hm).2 x hx).trans ((hmentioned loc' m' hm').2 x hx').symm)
  have hmerge : ∀ ds, (∀ data ∈ ds, data = first ∨ data = second ∨ data = other) →
      ds.filter (fun data => readLocate data = 1) = [first, second] →
        ds.filter (fun data => readLocate data = 2) = [other] →
      Interleaves family ds := by
    intro ds hds hone htwo loc
    simp only [family]
    split_ifs with h1 h2
    · rw [h1]
      exact hone
    · rw [h2]
      exact htwo
    · rw [List.filter_eq_nil_iff]
      intro data hdata hloc
      have hloc := of_decide_eq_true hloc
      rcases hds data hdata with rfl | rfl | rfl
      · exact h1 hloc.symm
      · exact h1 hloc.symm
      · exact h2 hloc.symm
  have hcommute := independent_streams_commute hi 10 true
    (hmerge [first, second, other] (by simp) (by decide) (by decide))
    (hmerge [other, first, second] (by simp) (by decide) (by decide))
  exact ⟨hcommute.2.1, hcommute.2.2 1, by decide⟩

end MdfeedItch
