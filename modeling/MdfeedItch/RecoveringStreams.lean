import MdfeedItch.BookDirectory
import MdfeedItch.IndependentStreams

/-! # Streams that recover stay independent

A recovered snapshot replaces the book of one symbol and the expected sequence of
one locate. When every answer is for the symbol of the locate that asked, the calls
of a locate, datagrams with their recoveries and snapshots on demand, touch nothing
of the others, so any two merges of the streams end alike. -/
namespace MdfeedItch
open Std FiniteMapSums FeedHandler

/-- The effect is about this locate, and what it puts into the books belongs to it. -/
def Effect.KeepsTo (o : Ownership) (loc : StockLocate) : Effect → Prop
  | .gapReported l _ _ => l = loc
  | .installed snap => snap.stockLocate = loc ∧ o.keys loc (symbolKey snap.symbol)
  | .decoded l _ frame => l = loc ∧ ∀ m a, (decodeFrame frame).message = some m → m.action = some a → o.Keeps loc a

section Books
variable {o : Ownership} {loc : StockLocate} {l : Option StockLocate} {d d' : DepthBook}

/-- An installed book leaves the index as it was, and the books of the other owners. -/
theorem Ownership.Sorted.install (h : o.Sorted d) (snap : SnapshotResponse) : o.Sorted (d.install snap) := by
  refine ⟨(install_wellKeyed h.keyed snap).1, fun x k hk => ?_⟩
  rw [install_orderToSymbol] at hk
  exact h.routed x k hk

theorem Ownership.install_elsewhere (h : o.Sorted d) {snap : SnapshotResponse} (hkey : o.keys loc (symbolKey snap.symbol))
    (hl : some loc ≠ l) : o.SameBooks l (d.install snap) d := by
  refine ⟨(install_wellKeyed h.keyed snap).2, fun k hk => ?_, fun x _ => by rw [install_orderToSymbol]⟩
  rw [install_lookup, if_neg]
  rintro rfl
  exact Ownership.not_keys hl hk hkey

theorem Ownership.install_here (h : o.Sorted d) (h' : o.Sorted d') (snap : SnapshotResponse)
    (hsame : o.SameBooks l d d') : o.SameBooks l (d.install snap) (d'.install snap) := by
  refine ⟨?_, fun k hk => ?_, fun x hx => ?_⟩
  · rw [(install_wellKeyed h.keyed snap).2, (install_wellKeyed h'.keyed snap).2, hsame.depth]
  · rw [install_lookup, install_lookup, hsame.books k hk]
  · rw [install_orderToSymbol, install_orderToSymbol, hsame.index x hx]

/-- What a frame does to its owner's books, and that it does nothing else. -/
theorem receive_keepsTo {frame : List UInt8}
    (hkeeps : ∀ m a, (decodeFrame frame).message = some m → m.action = some a → o.Keeps loc a) :
    (o.Sorted d → o.Sorted (d.receive frame)) ∧
      (o.Sorted d → some loc ≠ l → o.SameBooks l (d.receive frame) d) ∧
      (o.Sorted d → o.Sorted d' → o.SameBooks (some loc) d d' →
        o.SameBooks (some loc) (d.receive frame) (d'.receive frame)) := by
  unfold DepthBook.receive
  cases hm : (decodeFrame frame).message with
  | none => exact ⟨id, fun _ _ => (Ownership.SameBooks.equivalence o l).refl d, fun _ _ hsame => hsame⟩
  | some m =>
    have hown : ∀ a, m.action = some a → o.Keeps loc a := fun a ha => hkeeps m a hm ha
    exact ⟨fun h => h.apply hown, fun h hl => Ownership.apply_elsewhere h hown hl,
      fun h h' hsame => Ownership.apply_here h h' hown hsame⟩

namespace Effect
variable {x : Effect} {fx : List Effect}

theorem KeepsTo.locate_eq (hx : x.KeepsTo o loc) : x.locate = loc := by
  cases x with
  | gapReported l first last => exact hx
  | installed snap => exact hx.1
  | decoded l seq frame => exact hx.1

theorem KeepsTo.sorted (hx : x.KeepsTo o loc) (h : o.Sorted d) : o.Sorted (x.onBook d) := by
  cases x with
  | gapReported l first last => exact h
  | installed snap => exact h.install snap
  | decoded l seq frame => exact (@receive_keepsTo o loc none d d frame hx.2).1 h

theorem KeepsTo.elsewhere (hx : x.KeepsTo o loc) (h : o.Sorted d) (hl : some loc ≠ l) : o.SameBooks l (x.onBook d) d := by
  cases x with
  | gapReported l' first last => exact (Ownership.SameBooks.equivalence o l).refl d
  | installed snap => exact Ownership.install_elsewhere h hx.2 hl
  | decoded l' seq frame => exact (@receive_keepsTo o loc l d d frame hx.2).2.1 h hl

theorem KeepsTo.here (hx : x.KeepsTo o loc) (h : o.Sorted d) (h' : o.Sorted d') (hsame : o.SameBooks (some loc) d d') :
    o.SameBooks (some loc) (x.onBook d) (x.onBook d') := by
  cases x with
  | gapReported l first last => exact hsame
  | installed snap => exact Ownership.install_here h h' snap hsame
  | decoded l seq frame => exact (receive_keepsTo (l := none) hx.2).2.2 h h' hsame

/-- The effects of a call, one after the other. -/
theorem keepsTo_sorted (hfx : ∀ x ∈ fx, x.KeepsTo o loc) (h : o.Sorted d) : o.Sorted (fx.foldl onBook d) := by
  induction fx generalizing d with
  | nil => exact h
  | cons x fx ih => exact ih (fun y hy => hfx y (by simp [hy])) ((hfx x (by simp)).sorted h)

theorem keepsTo_elsewhere (hfx : ∀ x ∈ fx, x.KeepsTo o loc) (h : o.Sorted d) (hl : some loc ≠ l) :
    o.SameBooks l (fx.foldl onBook d) d := by
  induction fx generalizing d with
  | nil => exact (Ownership.SameBooks.equivalence o l).refl d
  | cons x fx ih =>
    have hx := hfx x (by simp)
    exact (Ownership.SameBooks.equivalence o l).trans (ih (fun y hy => hfx y (by simp [hy])) (hx.sorted h)) (hx.elsewhere h hl)

theorem keepsTo_here (hfx : ∀ x ∈ fx, x.KeepsTo o loc) (h : o.Sorted d) (h' : o.Sorted d')
    (hsame : o.SameBooks (some loc) d d') : o.SameBooks (some loc) (fx.foldl onBook d) (fx.foldl onBook d') := by
  induction fx generalizing d d' with
  | nil => exact hsame
  | cons x fx ih =>
    have hx := hfx x (by simp)
    exact ih (fun y hy => hfx y (by simp [hy])) (hx.sorted h) (hx.sorted h') (hx.here h h' hsame)

/-- Effects about one locate leave the expected sequence of the others alone. -/
theorem keepsTo_gap_elsewhere (hfx : ∀ x ∈ fx, x.KeepsTo o loc) (g : GapDetector) {l : StockLocate} (hl : l ≠ loc) :
    (fx.foldl onGap g).expected_[l]? = g.expected_[l]? := by
  induction fx generalizing g with
  | nil => rfl
  | cons x fx ih =>
    rw [List.foldl_cons, ih (fun y hy => hfx y (by simp [hy]))]
    have hx := hfx x (by simp)
    cases x with
    | gapReported l' first last => rfl
    | installed snap =>
      rw [onGap, GapDetector.lookup_setExpected, hx.1, if_neg hl]
    | decoded l' seq frame =>
      rw [onGap]
      split_ifs
      · rfl
      · rw [GapDetector.lookup_setExpected, hx.1, if_neg hl]

/-- What they make of the locate's own sequence depends on nothing else. -/
theorem onGap_congr {g g' : GapDetector} {l : StockLocate} (hsame : g.expected_[l]? = g'.expected_[l]?) (x : Effect) :
    (onGap g x).expected_[l]? = (onGap g' x).expected_[l]? := by
  cases x with
  | gapReported l' first last => exact hsame
  | installed snap => rw [onGap, onGap, GapDetector.lookup_setExpected, GapDetector.lookup_setExpected, hsame]
  | decoded l' seq frame =>
    rw [onGap, onGap]
    split_ifs
    · exact hsame
    · rw [GapDetector.lookup_setExpected, GapDetector.lookup_setExpected, hsame]

theorem foldl_onGap_congr {g g' : GapDetector} {l : StockLocate} (hsame : g.expected_[l]? = g'.expected_[l]?)
    (fx : List Effect) : (fx.foldl onGap g).expected_[l]? = (fx.foldl onGap g').expected_[l]? := by
  induction fx generalizing g g' with
  | nil => exact hsame
  | cons x fx ih => exact ih (onGap_congr hsame x)

end Effect

end Books

namespace Delivery

/-- What follows a reported gap: the snapshot, if one is answered, and the datagram unless it is covered. -/
def afterGap (d : Delivery) (skip : Bool) (e : SequenceNumber) : List Effect :=
  match d.answer ⟨d.loc, e⟩ with
  | some snap => .installed snap :: if snap.lastAppliedSeq + 1 ≤ d.seq then [d.accepted] else []
  | none => if d.requester.isNone ∧ skip then [d.accepted] else []

/-- The effects of a datagram by the expected sequence of its locate, when answers are for the locate that asks. -/
def outcome (d : Delivery) (expected : Option SequenceNumber) (skip : Bool) : List Effect :=
  if ¬ d.Framed then []
  else if d.seq = 0 then [d.accepted]
  else
    match expected with
    | none => [d.accepted]
    | some e =>
      if d.seq = e then [d.accepted]
      else if d.seq < e then []
      else missing d.loc e d.seq :: d.afterGap skip e

end Delivery

theorem FeedHandler.deliver_outcome (h : FeedHandler) {d : Delivery} (hd : d.Addressed) :
    (h.deliver d).2 = d.outcome (h.gap.expected_[d.loc]?) h.skipGaps := by
  have hemits := h.deliver_emits d
  generalize (h.deliver d).2 = fx at hemits ⊢
  unfold Delivery.outcome
  have hafter : ∀ {e snap}, d.answer ⟨d.loc, e⟩ = some snap →
      (h.gap.setExpected snap.stockLocate (snap.lastAppliedSeq + 1)).expected d.loc = snap.lastAppliedSeq + 1 := by
    intro e snap hsnap
    rw [GapDetector.expected_setExpected, hd _ _ hsnap, if_pos rfl]
  cases hemits with
  | silent hwhy =>
    by_cases hframed : d.Framed
    · obtain ⟨-, hseq, e, hold, hlt⟩ := hwhy.resolve_left (not_not_intro hframed)
      simp [hframed, hseq, hold, (UInt64.ne_of_lt hlt), hlt]
    · rw [if_pos hframed]
  | bootstrap hframed hzero => rw [if_neg (not_not_intro hframed), if_pos hzero]
  | next hframed hseq hnext =>
    rw [if_neg (not_not_intro hframed), if_neg hseq]
    cases hold : h.gap.expected_[d.loc]? with
    | none => rfl
    | some e => exact (if_pos (hnext e hold)).symm
  | unfilled hframed hseq hold hgap hnone hwhy =>
    simpa [hframed, hseq, hold, (UInt64.ne_of_lt hgap).symm, UInt64.lt_asymm hgap, Delivery.afterGap, hnone] using hwhy
  | covered hframed hseq hold hgap hsnap hcov =>
    rw [hafter hsnap] at hcov
    simp [hframed, hseq, hold, (UInt64.ne_of_lt hgap).symm, UInt64.lt_asymm hgap, Delivery.afterGap, hsnap, UInt64.not_le.mpr hcov]
  | recovered hframed hseq hold hgap hsnap hcov =>
    rw [hafter hsnap] at hcov
    simp [hframed, hseq, hold, (UInt64.ne_of_lt hgap).symm, UInt64.lt_asymm hgap, Delivery.afterGap, hsnap, hcov]
  | @skipped e hframed hseq hold hgap hnone hskip =>
    have hanswer : d.answer ⟨d.loc, e⟩ = none := by rw [Delivery.answer, hnone, Option.bind_none]
    simp [hframed, hseq, hold, (UInt64.ne_of_lt hgap).symm, UInt64.lt_asymm hgap, Delivery.afterGap, hnone, hskip, hanswer]

/-- The symbol of an Add is one that the message mentions. -/
theorem symbol_mem_of_add {m : AnyMessage} {b : AddOrderMsg} (h : m.action = some (.add b)) : b.symbol ∈ m.symbols := by
  cases m <;> cases h <;> exact List.mem_singleton_self _

/-- An action keeps to the owner of its symbol and of the orders its message mentions. -/
theorem Ownership.keeps_of_mentions {o : Ownership} {loc : StockLocate} {m : AnyMessage} {a : BookAction}
    (hkeys : ∀ b, a = .add b → o.keys loc (symbolKey b.symbol)) (hids : ∀ x ∈ m.orderIds, o.ids loc x)
    (ha : m.action = some a) : o.Keeps loc a := by
  cases m with
  | addOrder m | addOrderMPID m =>
    cases ha
    exact ⟨hkeys _ rfl, hids _ (List.mem_singleton_self _)⟩
  | orderExecuted m | orderExecutedWithPrice m | orderCancel m | orderDelete m =>
    cases ha
    exact hids _ (List.mem_singleton_self _)
  | orderReplace m =>
    cases ha
    exact ⟨hids _ List.mem_cons_self, hids _ (List.mem_cons_of_mem _ (List.mem_singleton_self _))⟩
  | trade m | systemEvent m | stockDirectory m => cases ha

/-- A datagram keeps to its locate when its message and the answers it may get do. -/
theorem FeedHandler.deliver_keepsTo {o : Ownership} {d : Delivery} (h : FeedHandler)
    (haccepted : d.accepted.KeepsTo o d.loc)
    (hinstalled : ∀ e snap, d.answer ⟨d.loc, e⟩ = some snap → (Effect.installed snap).KeepsTo o d.loc) :
    ∀ x ∈ (h.deliver d).2, x.KeepsTo o d.loc := by
  have hreport : ∀ e, (missing d.loc e d.seq).KeepsTo o d.loc := fun e => rfl
  intro x hx
  have hemits := h.deliver_emits d
  generalize (h.deliver d).2 = fx at hx hemits
  cases hemits with
  | silent _ => cases hx
  | bootstrap _ _ | next _ _ _ => exact (List.mem_singleton.mp hx) ▸ haccepted
  | unfilled _ _ _ _ _ _ => exact (List.mem_singleton.mp hx) ▸ hreport _
  | covered _ _ _ _ hsnap _ =>
    simp only [List.mem_cons, List.not_mem_nil, or_false] at hx
    rcases hx with rfl | rfl
    · exact hreport _
    · exact hinstalled _ _ hsnap
  | recovered _ _ _ _ hsnap _ =>
    simp only [List.mem_cons, List.not_mem_nil, or_false] at hx
    rcases hx with rfl | rfl | rfl
    · exact hreport _
    · exact hinstalled _ _ hsnap
    · exact haccepted
  | skipped _ _ _ _ _ _ =>
    simp only [List.mem_cons, List.not_mem_nil, or_false] at hx
    rcases hx with rfl | rfl
    · exact hreport _
    · exact haccepted

namespace FeedCall

/-- The locate whose expected sequence a call can move. -/
def locate : FeedCall → StockLocate
  | .datagram d => d.loc
  | .snapshot snap => snap.stockLocate

/-- The message that a call brings. -/
def Brings (c : FeedCall) (m : AnyMessage) : Prop :=
  ∃ d, c = .datagram d ∧ (decodeFrame d.frame).message = some m

/-- A snapshot that a call may install. -/
def MayInstall (c : FeedCall) (snap : SnapshotResponse) : Prop :=
  c = .snapshot snap ∨ ∃ d e, c = .datagram d ∧ d.answer ⟨d.loc, e⟩ = some snap

end FeedCall

/-- Calls of different locates have no symbol and no order id in common, and every
answer is for the locate that asks. -/
structure IndependentCalls (family : StockLocate → List FeedCall) : Prop where
  addressed : ∀ loc d, .datagram d ∈ family loc → d.Addressed
  symbols : ∀ {loc loc' c c'}, loc ≠ loc' → c ∈ family loc → c' ∈ family loc' → ∀ sym,
    (∃ m, c.Brings m ∧ sym ∈ m.symbols) ∨ (∃ snap, c.MayInstall snap ∧ snap.symbol = sym) →
    ¬ ((∃ m, c'.Brings m ∧ sym ∈ m.symbols) ∨ ∃ snap, c'.MayInstall snap ∧ snap.symbol = sym)
  orderIds : ∀ {loc loc' c c' m m'}, loc ≠ loc' → c ∈ family loc → c' ∈ family loc' → c.Brings m → c'.Brings m' →
    List.Disjoint m.orderIds m'.orderIds

namespace IndependentCalls
variable {family : StockLocate → List FeedCall}

/-- A locate owns the symbols and the orders of its calls. -/
def ownership (hi : IndependentCalls family) : Ownership where
  keys loc k := ∃ c ∈ family loc, ∃ sym,
    ((∃ m, c.Brings m ∧ sym ∈ m.symbols) ∨ ∃ snap, c.MayInstall snap ∧ snap.symbol = sym) ∧ symbolKey sym = k
  ids loc x := ∃ c ∈ family loc, ∃ m, c.Brings m ∧ x ∈ m.orderIds
  keys_unique := by
    rintro loc loc' k ⟨c, hc, sym, hsym, rfl⟩ ⟨c', hc', sym', hsym', hkey⟩
    by_contra hne
    exact hi.symbols hne hc hc' sym hsym (symbolKey_injective hkey ▸ hsym')
  ids_unique := by
    rintro loc loc' x ⟨c, hc, m, hm, hx⟩ ⟨c', hc', m', hm', hx'⟩
    by_contra hne
    exact hi.orderIds hne hc hc' hm hm' hx hx'

/-- The effects of a listed call keep to its locate. -/
theorem keepsTo (hi : IndependentCalls family) {c : FeedCall} (hc : c ∈ family c.locate) (h : FeedHandler) :
    ∀ x ∈ (h.call c).2, x.KeepsTo hi.ownership c.locate := by
  cases c with
  | snapshot snap =>
    intro x hx
    rw [call, List.mem_singleton] at hx
    rw [hx]
    exact ⟨rfl, _, hc, snap.symbol, Or.inr ⟨snap, Or.inl rfl, rfl⟩, rfl⟩
  | datagram d =>
    have haddressed := hi.addressed _ d hc
    refine h.deliver_keepsTo ⟨rfl, fun m a hm ha => Ownership.keeps_of_mentions (fun b hb => ?_) (fun x hx => ?_) ha⟩
      (fun e snap hsnap => ⟨haddressed _ _ hsnap, _, hc, _, Or.inr ⟨_, Or.inr ⟨d, _, rfl, hsnap⟩, rfl⟩, rfl⟩)
    · exact ⟨_, hc, b.symbol, Or.inl ⟨m, ⟨d, rfl, hm⟩, symbol_mem_of_add (ha.trans (congrArg some hb))⟩, rfl⟩
    · exact ⟨_, hc, m, ⟨d, rfl, hm⟩, hx⟩

/-- The effects of a call depend on the part of its locate only. -/
theorem call_congr (hi : IndependentCalls family) {c : FeedCall} (hc : c ∈ family c.locate) {h h' : FeedHandler}
    (hsame : SameStream hi.ownership (some c.locate) h h') : (h.call c).2 = (h'.call c).2 := by
  cases c with
  | snapshot snap => rfl
  | datagram d =>
    have haddressed := hi.addressed _ d hc
    change (h.deliver d).2 = (h'.deliver d).2
    rw [h.deliver_outcome haddressed, h'.deliver_outcome haddressed, hsame.expected d.loc rfl, hsame.skipGaps]

/-- Every call keeps to the stream of its locate. -/
theorem confined (hi : IndependentCalls family) :
    TraceRuns.Confined call (fun c => some c.locate) (SameStream hi.ownership) (fun l x => some x.locate = l)
      (fun c => c ∈ family c.locate) (fun h => hi.ownership.Sorted h.book) := by
  refine ⟨SameStream.equivalence _, fun {h c} hc hs => ?_, fun {h c l} hc hs hl => ?_, fun {h h' c} hc hs hs' hsame => ?_⟩
  · rw [(h.call_replays c).book]
    exact Effect.keepsTo_sorted (hi.keepsTo hc h) hs
  · have hreplays := h.call_replays c
    have hkeeps := hi.keepsTo hc h
    refine ⟨⟨hreplays.skipGaps, fun loc hloc => ?_, ?_⟩, ?_⟩
    · rw [hreplays.gap]
      exact Effect.keepsTo_gap_elsewhere hkeeps h.gap (fun heq => hl (heq ▸ hloc))
    · rw [hreplays.book]
      exact Effect.keepsTo_elsewhere hkeeps hs hl
    · rw [List.filter_eq_nil_iff]
      intro x hx
      rw [(hkeeps x hx).locate_eq]
      simp [hl]
  · have hreplays := h.call_replays c
    have hreplays' := h'.call_replays c
    have hfx := hi.call_congr hc hsame
    have hkeeps := hi.keepsTo hc h
    refine ⟨⟨?_, fun loc hloc => ?_, ?_⟩, by rw [hfx]⟩
    · rw [hreplays.skipGaps, hreplays'.skipGaps, hsame.skipGaps]
    · rw [hreplays.gap, hreplays'.gap, ← hfx]
      exact Effect.foldl_onGap_congr (hsame.expected loc hloc) _
    · rw [hreplays.book, hreplays'.book, ← hfx]
      exact Effect.keepsTo_here hkeeps hs hs' hsame.books

end IndependentCalls

/-- Any two merges of recovering streams, snapshots on demand among them, leave the
same expected sequences and the same books, and have the same effects on every locate. -/
theorem recovering_streams_commute {family : StockLocate → List FeedCall} (hi : IndependentCalls family)
    (depth : ℕ) (skip : Bool) {cs cs' : List FeedCall}
    (hcs : ∀ loc, cs.filter (fun c => c.locate = loc) = family loc)
    (hcs' : ∀ loc, cs'.filter (fun c => c.locate = loc) = family loc) :
    let final := (FeedHandler.new depth skip).calls cs
    let final' := (FeedHandler.new depth skip).calls cs'
    (∀ loc, final.1.gap.expected loc = final'.1.gap.expected loc) ∧ final.1.book = final'.1.book ∧
      ∀ loc, final.2.filter (fun x => x.locate = loc) = final'.2.filter (fun x => x.locate = loc) := by
  intro final final'
  have hsorted : hi.ownership.Sorted (FeedHandler.new depth skip).book := Ownership.Sorted.new _ depth
  have hlisted : ∀ {cs : List FeedCall}, (∀ loc, cs.filter (fun c => c.locate = loc) = family loc) →
      ∀ c ∈ cs, c ∈ family c.locate := by
    intro cs hcs c hc
    rw [← hcs c.locate, List.mem_filter]
    exact ⟨hc, by simp⟩
  have hmerge : ∀ l : Option StockLocate, cs.filter (fun c => some c.locate = l) = cs'.filter (fun c => some c.locate = l) := by
    intro l
    cases l with
    | none => simp
    | some loc =>
      simp only [Option.some_inj]
      exact (hcs loc).trans (hcs' loc).symm
  have hagree := fun l => hi.confined.run_interleaved l hsorted (hlisted hcs) (hlisted hcs') (hmerge l)
  refine ⟨fun loc => ?_, ?_, fun loc => ?_⟩
  · exact congrArg (fun e => e.getD 0) ((hagree (some loc)).1.expected loc rfl)
  · exact Ownership.eq_of_sameBooks (hi.confined.run_inv hsorted _ (hlisted hcs)) (hi.confined.run_inv hsorted _ (hlisted hcs'))
      (fun l => (hagree l).1.books)
  · have heffects := (hagree (some loc)).2
    simp only [Option.some_inj] at heffects
    exact heffects

section Example

/-- The symbol with one letter. -/
private def letter (c : UInt8) : Symbol := #v[c, 32, 32, 32, 32, 32, 32, 32]

/-- A requester that quotes two orders of the symbol A after two messages. -/
private def quotesTwo : RecoveryRequester := fun req => some ⟨req.stockLocate, 2, letter 65, [⟨50, 200, 2⟩], []⟩

/-- Locate 1 loses its second datagram and recovers; locate 2 is set by a snapshot on demand. -/
private def twoStreams (loc : StockLocate) : List FeedCall :=
  if loc = 1 then [.datagram ⟨orderDatagram 1 1 7 65, none⟩, .datagram ⟨orderDatagram 1 3 8 65, some quotesTwo⟩]
  else if loc = 2 then [.snapshot ⟨2, 4, letter 66, [⟨60, 100, 1⟩], []⟩, .datagram ⟨orderDatagram 2 5 9 66, none⟩]
  else []

private theorem twoStreams_cases {loc : StockLocate} {c : FeedCall} (hc : c ∈ twoStreams loc) :
    (loc = 1 ∧ (c = .datagram ⟨orderDatagram 1 1 7 65, none⟩ ∨ c = .datagram ⟨orderDatagram 1 3 8 65, some quotesTwo⟩)) ∨
      loc = 2 ∧ (c = .snapshot ⟨2, 4, letter 66, [⟨60, 100, 1⟩], []⟩ ∨ c = .datagram ⟨orderDatagram 2 5 9 66, none⟩) := by
  unfold twoStreams at hc
  split_ifs at hc with hone htwo
  · exact Or.inl ⟨hone, by simpa using hc⟩
  · exact Or.inr ⟨htwo, by simpa using hc⟩
  · cases hc

/-- The locate of a call can be told from the symbols and orders that it mentions. -/
private theorem twoStreams_mentions {loc : StockLocate} {c : FeedCall} (hc : c ∈ twoStreams loc) :
    (∀ m, c.Brings m → (∀ sym ∈ m.symbols, loc = if sym = letter 65 then 1 else 2) ∧
      ∀ x ∈ m.orderIds, loc = if x = 9 then 2 else 1) ∧
      ∀ snap, c.MayInstall snap → loc = if snap.symbol = letter 65 then 1 else 2 := by
  have hbrings : ∀ {d : Delivery} {m m' : AnyMessage}, (FeedCall.datagram d).Brings m →
      (decodeFrame d.frame).message = some m' → m = m' := by
    rintro d m m' ⟨d', hd, hm⟩ hm'
    cases hd
    exact Option.some.inj (hm.symm.trans hm')
  rcases twoStreams_cases hc with ⟨rfl, rfl | rfl⟩ | ⟨rfl, rfl | rfl⟩
  · refine ⟨fun m hm => ?_, ?_⟩
    · obtain rfl := hbrings hm rfl
      exact ⟨List.forall_mem_singleton.mpr rfl, List.forall_mem_singleton.mpr rfl⟩
    · rintro snap (hs | ⟨d, e, hd, hs⟩)
      · cases hs
      · cases hd
        cases hs
  · refine ⟨fun m hm => ?_, ?_⟩
    · obtain rfl := hbrings hm rfl
      exact ⟨List.forall_mem_singleton.mpr rfl, List.forall_mem_singleton.mpr rfl⟩
    · rintro snap (hs | ⟨d, e, hd, hs⟩)
      · cases hs
      · cases hd
        have hquoted : some (SnapshotResponse.mk _ 2 (letter 65) [⟨50, 200, 2⟩] []) = some snap := hs
        rw [← Option.some.inj hquoted]
        rfl
  · refine ⟨?_, ?_⟩
    · rintro m ⟨d, hd, -⟩
      cases hd
    · rintro snap (hs | ⟨d, e, hd, hs⟩)
      · cases hs
        rfl
      · cases hd
  · refine ⟨fun m hm => ?_, ?_⟩
    · obtain rfl := hbrings hm rfl
      exact ⟨List.forall_mem_singleton.mpr rfl, List.forall_mem_singleton.mpr rfl⟩
    · rintro snap (hs | ⟨d, e, hd, hs⟩)
      · cases hs
      · cases hd
        cases hs

private theorem twoStreams_independent : IndependentCalls twoStreams := by
  have hsymbol : ∀ {loc : StockLocate} {c : FeedCall}, c ∈ twoStreams loc → ∀ sym,
      (∃ m, c.Brings m ∧ sym ∈ m.symbols) ∨ (∃ snap, c.MayInstall snap ∧ snap.symbol = sym) →
      loc = if sym = letter 65 then 1 else 2 := by
    rintro loc c hc sym (⟨m, hm, hsym⟩ | ⟨snap, hsnap, rfl⟩)
    · exact ((twoStreams_mentions hc).1 m hm).1 sym hsym
    · exact (twoStreams_mentions hc).2 snap hsnap
  refine ⟨fun loc d hd => ?_, fun hne hc hc' sym h h' => hne ((hsymbol hc sym h).trans (hsymbol hc' sym h').symm),
    fun hne hc hc' hm hm' x hx hx' => ?_⟩
  · rcases twoStreams_cases hd with ⟨-, h | h⟩ | ⟨-, h | h⟩
    · cases h
      exact fun req snap hs => by cases hs
    · cases h
      exact fun req snap hs => by
        cases hs
        rfl
    · cases h
    · cases h
      exact fun req snap hs => by cases hs
  · exact hne ((((twoStreams_mentions hc).1 _ hm).2 x hx).trans (((twoStreams_mentions hc').1 _ hm').2 x hx').symm)

/-- The recovery of one locate before or after the snapshot of the other one. -/
theorem two_recoveries_commute :
    let first : FeedCall := .datagram ⟨orderDatagram 1 1 7 65, none⟩
    let third : FeedCall := .datagram ⟨orderDatagram 1 3 8 65, some (fun req =>
      some ⟨req.stockLocate, 2, #v[65, 32, 32, 32, 32, 32, 32, 32], [⟨50, 200, 2⟩], []⟩)⟩
    let demand : FeedCall := .snapshot ⟨2, 4, #v[66, 32, 32, 32, 32, 32, 32, 32], [⟨60, 100, 1⟩], []⟩
    let other : FeedCall := .datagram ⟨orderDatagram 2 5 9 66, none⟩
    let final := (FeedHandler.new 10 false).calls [first, third, demand, other]
    let final' := (FeedHandler.new 10 false).calls [demand, first, other, third]
    final.1.book = final'.1.book ∧ final.1.gap.expected 1 = final'.1.gap.expected 1 ∧ final.1.gap.expected 1 = 4 := by
  intro first third demand other final final'
  have hmerge : ∀ cs : List FeedCall, (∀ c ∈ cs, c = first ∨ c = third ∨ c = demand ∨ c = other) →
      cs.filter (fun c => c.locate = 1) = [first, third] → cs.filter (fun c => c.locate = 2) = [demand, other] →
      ∀ loc, cs.filter (fun c => c.locate = loc) = twoStreams loc := by
    intro cs hcs hone htwo loc
    unfold twoStreams
    split_ifs with h1 h2
    · rw [h1]
      exact hone
    · rw [h2]
      exact htwo
    · rw [List.filter_eq_nil_iff]
      intro c hc hloc
      have hloc := of_decide_eq_true hloc
      rcases hcs c hc with rfl | rfl | rfl | rfl
      · exact h1 hloc.symm
      · exact h1 hloc.symm
      · exact h2 hloc.symm
      · exact h2 hloc.symm
  have hcommute := recovering_streams_commute twoStreams_independent 10 false
    (hmerge [first, third, demand, other] (by simp) rfl rfl) (hmerge [demand, first, other, third] (by simp) rfl rfl)
  exact ⟨hcommute.2.1, hcommute.1 1, by decide⟩

end Example

end MdfeedItch
