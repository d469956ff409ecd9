import MdfeedItch.FeedEffects

/-! # Accepted sequences are in order, also under recovery

`Emits` lists the effects a datagram can have by the expected sequence of its
locate. When every answer is for the requested locate, an accepted sequence lies
at or above the expected one, and the expected sequence ends above everything
accepted or covered so far; both carry over whole runs. -/
namespace MdfeedItch
open Std FiniteMapSums FeedHandler

/-- The largest sequence; its successor wraps around to 0. -/
def maxSequence : SequenceNumber := 18446744073709551615

theorem toNat_succ {s : SequenceNumber} (h : s < maxSequence) : (s + 1).toNat = s.toNat + 1 := by
  have hlt := UInt64.lt_iff_toNat_lt.mp h
  have hmax : maxSequence.toNat = 18446744073709551615 := rfl
  rw [UInt64.toNat_add]
  have hone : (1 : UInt64).toNat = 1 := rfl
  omega

theorem lt_next {n s : SequenceNumber} (h : s < maxSequence) : n < s + 1 ↔ n ≤ s := by
  rw [UInt64.lt_iff_toNat_lt, UInt64.le_iff_toNat_le, toNat_succ h]
  omega

theorem next_le {n s : SequenceNumber} (h : s < maxSequence) : s + 1 ≤ n ↔ s < n := by
  rw [UInt64.lt_iff_toNat_lt, UInt64.le_iff_toNat_le, toNat_succ h]
  omega

theorem toNat_pred {s : SequenceNumber} (h : s ≠ 0) : (s - 1).toNat + 1 = s.toNat := by
  have hone : (1 : UInt64).toNat = 1 := rfl
  have hpos : 0 < s.toNat := Nat.pos_of_ne_zero (fun hz => h (UInt64.toNat_inj.mp hz))
  rw [UInt64.toNat_sub_of_le s 1 (UInt64.le_iff_toNat_le.mpr (by omega)), hone]
  omega

theorem pred_lt_iff {n s : SequenceNumber} (h : s ≠ 0) : s - 1 < n ↔ s ≤ n := by
  rw [UInt64.lt_iff_toNat_lt, UInt64.le_iff_toNat_le, ← toNat_pred h]
  omega

namespace Delivery

/-- The answer to a request, if a requester is set and succeeds. -/
def answer (d : Delivery) (req : SnapshotRequest) : Option SnapshotResponse := d.requester.bind (fun r => r req)

/-- The effect of accepting the datagram. -/
def accepted (d : Delivery) : Effect := .decoded d.loc d.seq d.frame

/-- Sequences stay below the largest one, in the datagram and in every answer. -/
def Bounded (d : Delivery) : Prop :=
  (d.Framed → d.seq < maxSequence) ∧ ∀ req snap, d.answer req = some snap → snap.lastAppliedSeq < maxSequence

/-- Answers carry the locate they were asked for. -/
def Addressed (d : Delivery) : Prop :=
  ∀ req snap, d.answer req = some snap → snap.stockLocate = req.stockLocate

end Delivery

/-- The effects of one datagram, by the expected sequence of its locate. -/
inductive Emits (g : GapDetector) (skip : Bool) (d : Delivery) : List Effect → Prop
  | silent (hwhy : ¬ d.Framed ∨ d.Framed ∧ d.seq ≠ 0 ∧ ∃ e, g.expected_[d.loc]? = some e ∧ d.seq < e) :
      Emits g skip d []
  | bootstrap (hframed : d.Framed) (hzero : d.seq = 0) : Emits g skip d [d.accepted]
  | next (hframed : d.Framed) (hseq : d.seq ≠ 0) (hnext : ∀ e, g.expected_[d.loc]? = some e → d.seq = e) :
      Emits g skip d [d.accepted]
  | unfilled {e} (hframed : d.Framed) (hseq : d.seq ≠ 0) (hold : g.expected_[d.loc]? = some e) (hgap : e < d.seq)
      (hnone : d.answer ⟨d.loc, e⟩ = none) (hwhy : d.requester = none → skip = false) :
      Emits g skip d [missing d.loc e d.seq]
  | covered {e snap} (hframed : d.Framed) (hseq : d.seq ≠ 0) (hold : g.expected_[d.loc]? = some e)
      (hgap : e < d.seq) (hsnap : d.answer ⟨d.loc, e⟩ = some snap)
      (hcov : d.seq < (g.setExpected snap.stockLocate (snap.lastAppliedSeq + 1)).expected d.loc) :
      Emits g skip d [missing d.loc e d.seq, .installed snap]
  | recovered {e snap} (hframed : d.Framed) (hseq : d.seq ≠ 0) (hold : g.expected_[d.loc]? = some e)
      (hgap : e < d.seq) (hsnap : d.answer ⟨d.loc, e⟩ = some snap)
      (hcov : (g.setExpected snap.stockLocate (snap.lastAppliedSeq + 1)).expected d.loc ≤ d.seq) :
      Emits g skip d [missing d.loc e d.seq, .installed snap, d.accepted]
  | skipped {e} (hframed : d.Framed) (hseq : d.seq ≠ 0) (hold : g.expected_[d.loc]? = some e) (hgap : e < d.seq)
      (hnone : d.requester = none) (hskip : skip = true) :
      Emits g skip d [missing d.loc e d.seq, d.accepted]

/-- A datagram opens at most one gap. -/
theorem Emits.reports_le {g : GapDetector} {skip : Bool} {d : Delivery} {fx : List Effect} (h : Emits g skip d fx) :
    fx.countP Effect.isReport ≤ 1 := by
  cases h with
  | silent | bootstrap | next => exact Nat.zero_le _
  | unfilled | covered | recovered | skipped => exact Nat.le_refl 1

theorem FeedHandler.deliver_emits (h : FeedHandler) (d : Delivery) : Emits h.gap h.skipGaps d (h.deliver d).2 := by
  by_cases hframed : d.Framed
  · obtain ⟨⟨⟨adm, pre, hadmits, hres⟩, _⟩, _⟩ := h.onDatagram_handled d.requester hframed
    have hanswer : ∀ {request}, d.requester = some request → ∀ req, d.answer req = request req := by
      intro request hrec req
      simp [Delivery.answer, hrec]
    cases hadmits with
    | bootstrap hzero => exact hres.2 ▸ .bootstrap hframed hzero
    | first hseq hnew =>
      refine hres.2 ▸ .next hframed hseq (fun e he => ?_)
      exact absurd (hnew.symm.trans he) (by simp)
    | inOrder hseq hold =>
      refine hres.2 ▸ .next hframed hseq (fun e he => ?_)
      exact Option.some.inj (hold.symm.trans he)
    | stale hseq hold hlt => exact hres.2 ▸ .silent (Or.inr ⟨hframed, hseq, _, hold, hlt⟩)
    | failed hseq hold hlt hrec hreq =>
      refine hres.2 ▸ .unfilled hframed hseq hold hlt ((hanswer hrec _).trans hreq) (fun hnone => ?_)
      rw [hnone] at hrec
      cases hrec
    | covered hseq hold hlt hrec hreq hcov =>
      exact hres.2 ▸ .covered hframed hseq hold hlt ((hanswer hrec _).trans hreq) hcov
    | recovered hseq hold hlt hrec hreq hcov =>
      exact hres.2 ▸ .recovered hframed hseq hold hlt ((hanswer hrec _).trans hreq) hcov
    | skipped hseq hold hlt hrec hskip => exact hres.2 ▸ .skipped hframed hseq hold hlt hrec hskip
    | stalled hseq hold hlt hrec hskip =>
      exact hres.2 ▸ .unfilled hframed hseq hold hlt (by simp [Delivery.answer, hrec]) (fun _ => hskip)
  · have hshort := h.onDatagram_short d.requester (Nat.not_le.mp hframed)
    rw [deliver, hshort.2.1]
    exact .silent (Or.inl hframed)

namespace Effect

/-- The effect settles the sequences of a locate up to `n`: it accepts `n`, or installs a snapshot reaching `n`. -/
def Settles (loc : StockLocate) (n : SequenceNumber) : Effect → Prop
  | .gapReported .. => False
  | .installed snap => snap.stockLocate = loc ∧ snap.lastAppliedSeq = n
  | .decoded l s _ => l = loc ∧ s = n ∧ s ≠ 0

/-- The nonzero sequence that an effect hands to the decoder for a locate. -/
def acceptedSeq (loc : StockLocate) : Effect → Option SequenceNumber
  | .decoded l s _ => if l = loc ∧ s ≠ 0 then some s else none
  | _ => none

theorem settles_of_acceptedSeq {x : Effect} {loc : StockLocate} {s : SequenceNumber}
    (h : x.acceptedSeq loc = some s) : x.Settles loc s := by
  cases x with
  | gapReported l a b => cases h
  | installed snap => cases h
  | decoded l n frame =>
    simp only [acceptedSeq] at h
    split_ifs at h with hl
    cases h
    exact ⟨hl.1, rfl, hl.2⟩

/-- A later acceptance lies above everything settled before. -/
def InOrder (x y : Effect) : Prop := ∀ loc n s, x.Settles loc n → y.acceptedSeq loc = some s → n < s

end Effect

/-- The nonzero sequences of a locate that were handed to the decoder, in order. -/
def acceptedSeqs (loc : StockLocate) (t : List Effect) : List SequenceNumber := t.filterMap (Effect.acceptedSeq loc)

@[simp] theorem acceptedSeq_accepted (d : Delivery) (loc : StockLocate) :
    d.accepted.acceptedSeq loc = if d.loc = loc ∧ d.seq ≠ 0 then some d.seq else none := rfl

@[simp] theorem accepted_settles (d : Delivery) (loc : StockLocate) (n : SequenceNumber) :
    d.accepted.Settles loc n ↔ d.loc = loc ∧ d.seq = n ∧ d.seq ≠ 0 := Iff.rfl

@[simp] theorem acceptedSeqs_nil (loc : StockLocate) : acceptedSeqs loc [] = [] := rfl

@[simp] theorem acceptedSeqs_missing (loc l : StockLocate) (e seq : SequenceNumber) (t : List Effect) :
    acceptedSeqs loc (missing l e seq :: t) = acceptedSeqs loc t := rfl

@[simp] theorem acceptedSeqs_installed (loc : StockLocate) (snap : SnapshotResponse) (t : List Effect) :
    acceptedSeqs loc (.installed snap :: t) = acceptedSeqs loc t := rfl

@[simp] theorem acceptedSeqs_accepted (loc : StockLocate) (d : Delivery) (t : List Effect) :
    acceptedSeqs loc (d.accepted :: t) =
      if d.loc = loc ∧ d.seq ≠ 0 then d.seq :: acceptedSeqs loc t else acceptedSeqs loc t := by
  rw [acceptedSeqs, List.filterMap_cons, acceptedSeq_accepted]
  split_ifs <;> rfl

theorem acceptedSeqs_append (loc : StockLocate) (t fx : List Effect) :
    acceptedSeqs loc (t ++ fx) = acceptedSeqs loc t ++ acceptedSeqs loc fx := List.filterMap_append

theorem onGap_accepted {d : Delivery} (h : d.seq ≠ 0) (g : GapDetector) :
    Effect.onGap g d.accepted = g.setExpected d.loc (d.seq + 1) := if_neg h

/-- What one datagram adds to a run in which every answer is for the requested locate. -/
structure Advances (g g' : GapDetector) (fx : List Effect) : Prop where
  mono : ∀ loc, g.expected loc ≤ g'.expected loc
  settled : ∀ x ∈ fx, ∀ loc n, x.Settles loc n → n < g'.expected loc
  above : ∀ x ∈ fx, ∀ loc s, x.acceptedSeq loc = some s → g.expected loc ≤ s
  ordered : fx.Pairwise Effect.InOrder

theorem Advances.nothing (g : GapDetector) : Advances g g [] := by
  refine ⟨fun loc => UInt64.le_refl _, ?_, ?_, List.Pairwise.nil⟩
  · simp
  · simp

/-- A report in front changes nothing. -/
theorem Advances.report {g g' : GapDetector} {fx : List Effect} (h : Advances g g' fx) (loc : StockLocate)
    (e seq : SequenceNumber) : Advances g g' (missing loc e seq :: fx) := by
  refine ⟨h.mono, ?_, ?_, List.Pairwise.cons (fun x _ l n s hs => hs.elim) h.ordered⟩
  · intro x hx l n hs
    rcases List.mem_cons.mp hx with rfl | hx
    · exact hs.elim
    · exact h.settled x hx l n hs
  · intro x hx l s hs
    rcases List.mem_cons.mp hx with rfl | hx
    · cases hs
    · exact h.above x hx l s hs

/-- What an accepted datagram accepts is its own sequence. -/
theorem of_acceptedSeq_accepted {d : Delivery} {x : Effect} (hx : x ∈ [d.accepted]) {loc : StockLocate}
    {s : SequenceNumber} (hs : x.acceptedSeq loc = some s) : d.loc = loc ∧ d.seq = s ∧ d.seq ≠ 0 := by
  rw [List.mem_singleton.mp hx] at hs
  exact (accepted_settles d loc s).mp (Effect.settles_of_acceptedSeq hs)

theorem expected_le_setExpected {g : GapDetector} {loc : StockLocate} {e : SequenceNumber} (h : g.expected loc ≤ e)
    (l : StockLocate) : g.expected l ≤ (g.setExpected loc e).expected l := by
  rw [GapDetector.expected_setExpected]
  split_ifs with hl
  · rw [hl]
    exact h
  · exact UInt64.le_refl _

/-- Accepting a sequence at or above the expected one. -/
theorem Advances.accept {g : GapDetector} {d : Delivery} (hb : d.seq < maxSequence)
    (hle : g.expected d.loc ≤ d.seq) : Advances g (g.setExpected d.loc (d.seq + 1)) [d.accepted] := by
  have hnext := UInt64.le_of_lt ((lt_next hb).mpr hle)
  refine ⟨expected_le_setExpected hnext, fun x hx loc n hs => ?_, fun x hx loc s hs => ?_,
    List.pairwise_singleton _ _⟩
  · rw [List.mem_singleton] at hx
    subst hx
    obtain ⟨rfl, rfl, -⟩ := (accepted_settles d loc n).mp hs
    rw [GapDetector.expected_setExpected, if_pos rfl, lt_next hb]
    exact UInt64.le_refl _
  · obtain ⟨rfl, rfl, -⟩ := of_acceptedSeq_accepted hx hs
    exact hle

/-- Installing an answer for the locate, possibly followed by the acceptance of a later sequence. -/
theorem Advances.install {g g' : GapDetector} {snap : SnapshotResponse} {fx : List Effect}
    (h : Advances (g.setExpected snap.stockLocate (snap.lastAppliedSeq + 1)) g' fx)
    (hb : snap.lastAppliedSeq < maxSequence) (hmono : ∀ loc, g.expected loc ≤ g'.expected loc)
    (habove : ∀ x ∈ fx, ∀ loc s, x.acceptedSeq loc = some s → g.expected loc ≤ s) :
    Advances g g' (.installed snap :: fx) := by
  have hself : snap.lastAppliedSeq < (g.setExpected snap.stockLocate (snap.lastAppliedSeq + 1)).expected snap.stockLocate := by
    rw [GapDetector.expected_setExpected, if_pos rfl, lt_next hb]
    exact UInt64.le_refl _
  refine ⟨hmono, ?_, ?_, List.Pairwise.cons (fun y hy l n s hs hacc => ?_) h.ordered⟩
  · intro x hx l n hs
    rcases List.mem_cons.mp hx with rfl | hx
    · obtain ⟨rfl, rfl⟩ := hs
      exact UInt64.lt_of_lt_of_le hself (h.mono _)
    · exact h.settled x hx l n hs
  · intro x hx l s hs
    rcases List.mem_cons.mp hx with rfl | hx
    · cases hs
    · exact habove x hx l s hs
  · obtain ⟨rfl, rfl⟩ := hs
    exact UInt64.lt_of_lt_of_le hself (h.above y hy _ s hacc)

/-- What one datagram emits is in order, above the expected sequence and below the next one. -/
theorem Emits.advances {g : GapDetector} {skip : Bool} {d : Delivery} {fx : List Effect} (h : Emits g skip d fx)
    (hb : d.Bounded) (ha : d.Addressed) : Advances g (fx.foldl Effect.onGap g) fx := by
  cases h with
  | silent hwhy => exact Advances.nothing g
  | bootstrap hframed hzero =>
    have hgap : Effect.onGap g d.accepted = g := if_pos hzero
    rw [List.foldl_cons, hgap]
    refine ⟨fun loc => UInt64.le_refl _, fun x hx loc n hs => ?_, fun x hx loc s hs => ?_, List.pairwise_singleton _ _⟩
    · rw [List.mem_singleton] at hx
      subst hx
      exact absurd hzero hs.2.2
    · exact absurd hzero (of_acceptedSeq_accepted hx hs).2.2
  | next hframed hseq hnext =>
    rw [List.foldl_cons, onGap_accepted hseq]
    refine Advances.accept (hb.1 hframed) ?_
    cases hold : g.expected_[d.loc]? with
    | none =>
      rw [GapDetector.expected, hold]
      exact UInt64.zero_le
    | some e =>
      rw [GapDetector.expected_of_some hold, hnext e hold]
      exact UInt64.le_refl _
  | unfilled hframed hseq hold hgap hnone hwhy => exact (Advances.nothing g).report _ _ _
  | skipped hframed hseq hold hgap hnone hskip =>
    rw [List.foldl_cons, List.foldl_cons, onGap_accepted hseq]
    refine (Advances.accept (hb.1 hframed) ?_).report _ _ _
    rw [GapDetector.expected_of_some hold]
    exact UInt64.le_of_lt hgap
  | @covered e snap hframed hseq hold hgap hsnap hcov =>
    have hloc : snap.stockLocate = d.loc := ha _ _ hsnap
    rw [hloc, GapDetector.expected_setExpected, if_pos rfl] at hcov
    refine (Advances.install (Advances.nothing _) (hb.2 _ _ hsnap) ?_ (by simp)).report _ _ _
    rw [hloc]
    refine expected_le_setExpected ?_
    rw [GapDetector.expected_of_some hold]
    exact UInt64.le_of_lt (UInt64.lt_trans hgap hcov)
  | @recovered e snap hframed hseq hold hgap hsnap hcov =>
    have hloc : snap.stockLocate = d.loc := ha _ _ hsnap
    have hexp := GapDetector.expected_of_some hold
    simp only [List.foldl_cons, List.foldl_nil, onGap_accepted hseq]
    refine (Advances.install (Advances.accept (hb.1 hframed) hcov) (hb.2 _ _ hsnap) ?_ ?_).report _ _ _
    · rw [hloc, g.setExpected_twice]
      refine expected_le_setExpected ?_
      rw [hexp]
      exact UInt64.le_of_lt ((lt_next (hb.1 hframed)).mpr (UInt64.le_of_lt hgap))
    · intro x hx loc s hs
      obtain ⟨rfl, rfl, -⟩ := of_acceptedSeq_accepted hx hs
      rw [hexp]
      exact UInt64.le_of_lt hgap

/-- After a run its effects are in order and lie below what is expected next. -/
structure Ordered (h : FeedHandler) (t : List Effect) : Prop where
  inOrder : t.Pairwise Effect.InOrder
  below : ∀ x ∈ t, ∀ loc n, x.Settles loc n → n < h.gap.expected loc

theorem Ordered.deliver {h : FeedHandler} {t : List Effect} (ho : Ordered h t) {d : Delivery} (hb : d.Bounded)
    (ha : d.Addressed) : Ordered (h.deliver d).1 (t ++ (h.deliver d).2) := by
  have hadv := (h.deliver_emits d).advances hb ha
  have hgap := (h.deliver_replays d).gap
  refine ⟨List.pairwise_append.mpr ⟨ho.inOrder, hadv.ordered, fun x hx y hy loc n s hs hacc => ?_⟩, ?_⟩
  · exact UInt64.lt_of_lt_of_le (ho.below x hx loc n hs) (hadv.above y hy loc s hacc)
  · intro x hx loc n hs
    rw [hgap]
    rcases List.mem_append.mp hx with hx | hx
    · exact UInt64.lt_of_lt_of_le (ho.below x hx loc n hs) (hadv.mono loc)
    · exact hadv.settled x hx loc n hs

theorem feed_ordered (depth : ℕ) (skip : Bool) (ds : List Delivery)
    (hds : ∀ d ∈ ds, d.Bounded ∧ d.Addressed) :
    Ordered ((FeedHandler.new depth skip).feed ds).1 ((FeedHandler.new depth skip).feed ds).2 := by
  refine TraceRuns.run_invariant FeedHandler.deliver (I := Ordered) (P := fun d => d.Bounded ∧ d.Addressed) ?_ ?_ ds hds
  · intro h t d hd ho
    exact ho.deliver hd.1 hd.2
  · exact ⟨List.Pairwise.nil, by simp⟩

theorem feed_concat (h : FeedHandler) (ds : List Delivery) (d : Delivery) :
    h.feed (ds ++ [d]) = (((h.feed ds).1.deliver d).1, (h.feed ds).2 ++ ((h.feed ds).1.deliver d).2) :=
  TraceRuns.run_concat FeedHandler.deliver h ds d

theorem FeedHandler.feed_reports_le (h : FeedHandler) (ds : List Delivery) :
    (h.feed ds).2.countP Effect.isReport ≤ ds.length := by
  induction ds using List.reverseRecOn with
  | nil => exact Nat.le_refl 0
  | append_singleton ds d ih =>
    rw [feed_concat, List.countP_append, List.length_append]
    exact Nat.add_le_add ih (FeedHandler.deliver_emits _ d).reports_le

theorem feed_append (h : FeedHandler) (ds es : List Delivery) :
    h.feed (ds ++ es) = (((h.feed ds).1.feed es).1, (h.feed ds).2 ++ ((h.feed ds).1.feed es).2) :=
  TraceRuns.run_append FeedHandler.deliver h ds es

theorem expected_mono (h : FeedHandler) (ds : List Delivery) (hds : ∀ d ∈ ds, d.Bounded ∧ d.Addressed)
    (loc : StockLocate) : h.gap.expected loc ≤ (h.feed ds).1.gap.expected loc := by
  induction ds using List.reverseRecOn with
  | nil => exact UInt64.le_refl _
  | append_singleton ds d ih =>
    have hd := hds d (by simp)
    refine UInt64.le_trans (ih (fun d' hd' => hds d' (by simp [hd']))) ?_
    rw [feed_concat]
    have hgap := ((h.feed ds).1.deliver_replays d).gap
    exact hgap ▸ ((h.feed ds).1.deliver_emits d).advances hd.1 hd.2 |>.mono loc

theorem expected_mono_append (h : FeedHandler) (ds es : List Delivery) (hes : ∀ d ∈ es, d.Bounded ∧ d.Addressed)
    (loc : StockLocate) : (h.feed ds).1.gap.expected loc ≤ (h.feed (ds ++ es)).1.gap.expected loc := by
  rw [feed_append]
  exact expected_mono _ es hes loc

/-- Under any requester that answers for the requested locate: the expected
sequence never decreases, accepted sequences strictly increase, and nothing at or
below an installed snapshot is accepted after it. -/
theorem accepted_once_in_order (depth : ℕ) (skip : Bool) (ds : List Delivery)
    (hb : ∀ d ∈ ds, d.Bounded) (ha : ∀ d ∈ ds, d.Addressed) (loc : StockLocate) :
    (∀ pre, pre <+: ds → ((FeedHandler.new depth skip).feed pre).1.gap.expected loc ≤
      ((FeedHandler.new depth skip).feed ds).1.gap.expected loc) ∧
    (acceptedSeqs loc ((FeedHandler.new depth skip).feed ds).2).Pairwise (· < ·) ∧
    ∀ before snap after, ((FeedHandler.new depth skip).feed ds).2 = before ++ .installed snap :: after →
      snap.stockLocate = loc → ∀ s ∈ acceptedSeqs loc after, snap.lastAppliedSeq < s := by
  have hds : ∀ d ∈ ds, d.Bounded ∧ d.Addressed := fun d hd => ⟨hb d hd, ha d hd⟩
  have ho := (feed_ordered depth skip ds hds).inOrder
  refine ⟨fun pre hpre => ?_, ?_, fun before snap after ht hloc s hs => ?_⟩
  · obtain ⟨rest, rfl⟩ := hpre
    exact expected_mono_append _ pre rest (fun d hd => hds d (by simp [hd])) loc
  · rw [acceptedSeqs, List.pairwise_filterMap]
    exact ho.imp (fun hxy s hs s' hs' => hxy loc s s' (Effect.settles_of_acceptedSeq hs) hs')
  · rw [ht] at ho
    obtain ⟨y, hy, hys⟩ := List.mem_filterMap.mp hs
    have hlater := List.rel_of_pairwise_cons (List.pairwise_append.mp ho).2.1 hy
    exact hlater loc _ s ⟨hloc, rfl⟩ hys

/-- A datagram of locate 1 with a small sequence and a frame of length zero. -/
def bareDatagram (seq : UInt8) : List UInt8 := [0, 1, 0, 0, 0, 0, 0, 0, 0, seq, 0, 0]

/-- The symbol of the sample datagrams. -/
def sampleSymbol : Symbol := makeSymbol [65, 65, 80, 76]

/-- A datagram of locate 1 that adds a buy order of 100 shares at 50. -/
def addDatagram (seq id : UInt8) : List UInt8 :=
  [0, 1, 0, 0, 0, 0, 0, 0, 0, seq, 0, 36, 0x41, 0, 1, 0, 0, 0, 0, 0, 0, 0, 9, 0, 0, 0, 0, 0, 0, 0, id,
    0x42, 0, 0, 0, 100, 65, 65, 80, 76, 32, 32, 32, 32, 0, 0, 0, 50]

/-- A requester that answers with an empty ladder at a fixed sequence. -/
def emptyAnswer (last : SequenceNumber) : RecoveryRequester := fun req =>
  some ⟨req.stockLocate, last, Vector.replicate symbolLen 32, [], []⟩

theorem emptyAnswer_addressed {last : SequenceNumber} (h : last < maxSequence) (data : List UInt8) :
    (∀ req snap, Delivery.answer ⟨data, some (emptyAnswer last)⟩ req = some snap →
      snap.lastAppliedSeq < maxSequence) ∧ Delivery.Addressed ⟨data, some (emptyAnswer last)⟩ := by
  refine ⟨fun req snap hsnap => ?_, fun req snap hsnap => ?_⟩
  · cases hsnap
    exact h
  · cases hsnap
    rfl

/-- Sequence 5 after 1, with an answer that reaches 3. -/
theorem lagging_answer_in_order :
    let ds : List Delivery := [⟨bareDatagram 1, some (emptyAnswer 3)⟩, ⟨bareDatagram 5, some (emptyAnswer 3)⟩]
    let final := (FeedHandler.new 10 false).feed ds
    acceptedSeqs 1 final.2 = [1, 5] ∧ (acceptedSeqs 1 final.2).Pairwise (· < ·) := by
  intro ds final
  have hans := fun data => @emptyAnswer_addressed 3 (by decide) data
  refine ⟨by decide, (accepted_once_in_order 10 false ds ?_ ?_ 1).2.1⟩
  · intro d hd
    rcases List.mem_cons.mp hd with rfl | hd
    · exact ⟨fun _ => by decide, (hans _).1⟩
    · obtain rfl := List.mem_singleton.mp hd
      exact ⟨fun _ => by decide, (hans _).1⟩
  · intro d hd
    rcases List.mem_cons.mp hd with rfl | hd
    · exact (hans _).2
    · obtain rfl := List.mem_singleton.mp hd
      exact (hans _).2

end MdfeedItch
