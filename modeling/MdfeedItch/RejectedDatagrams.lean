import MdfeedItch.SequenceAdmission

/-! # What a rejected datagram leaves behind

`on_datagram` settles the sequence before it looks at the frame. A rejection by
the sequence logic leaves books and expected sequences alone; a frame that does
not decode has used up its sequence, and a snapshot installed on the way stays. -/
namespace MdfeedItch
open Std FiniteMapSums FeedHandler

theorem DepthBook.receive_undecodable {frame : List UInt8} (h : (decodeFrame frame).status ≠ .ok) (d : DepthBook) :
    d.receive frame = d := by
  have hnone : (decodeFrame frame).message = none := by
    rw [← Option.not_isSome_iff_eq_none, decodeFrame_message]
    exact h
  simp [DepthBook.receive, hnone]

/-- The snapshot that a call installed before it turned to the frame. -/
def Answered (requester : Option RecoveryRequester) (loc : StockLocate) (snap : SnapshotResponse) : Prop :=
  ∃ request e, requester = some request ∧ request ⟨loc, e⟩ = some snap

/-- Books and expected sequences after the snapshot that a call installed, if it did. -/
def afterRecovery (h : FeedHandler) : Option SnapshotResponse → DepthBook × GapDetector
  | none => (h.book, h.gap)
  | some snap => (h.book.install snap, h.gap.setExpected snap.stockLocate (snap.lastAppliedSeq + 1))

/-- Before the frame is decoded a call has at most reported a gap and installed one answer. -/
theorem Admits.recovery {h : FeedHandler} {skip : Bool} {requester : Option RecoveryRequester} {loc : StockLocate}
    {seq : SequenceNumber} {adm : Admission} {pre : List Effect} (ha : Admits h.gap skip requester loc seq adm pre) :
    ∃ snap : Option SnapshotResponse, (∀ s ∈ snap, adm ≠ .refused ∧ Answered requester loc s) ∧
      (pre.foldl Effect.onBook h.book, pre.foldl Effect.onGap h.gap) = afterRecovery h snap := by
  cases ha with
  | bootstrap hzero => exact ⟨none, by simp, rfl⟩
  | first hseq hnew => exact ⟨none, by simp, rfl⟩
  | inOrder hseq hold => exact ⟨none, by simp, rfl⟩
  | stale hseq hold hlt => exact ⟨none, by simp, rfl⟩
  | failed hseq hold hlt hrec hreq => exact ⟨none, by simp, rfl⟩
  | @covered e request snap hseq hold hlt hrec hreq hcov =>
    refine ⟨some snap, fun s hs => ?_, rfl⟩
    cases hs
    exact ⟨by decide, request, e, hrec, hreq⟩
  | @recovered e request snap hseq hold hlt hrec hreq hcov =>
    refine ⟨some snap, fun s hs => ?_, rfl⟩
    cases hs
    exact ⟨by decide, request, e, hrec, hreq⟩
  | skipped hseq hold hlt hrec hskip => exact ⟨none, by simp, rfl⟩
  | stalled hseq hold hlt hrec hskip => exact ⟨none, by simp, rfl⟩

/-- The state after a frame that did not decode: the books as the recovery of the
same call left them, the sequence of the datagram used up, other locates as the
recovery left them. -/
structure Undecoded (h : FeedHandler) (requester : Option RecoveryRequester) (data : List UInt8) (h' : FeedHandler) :
    Prop where
  undecodable : (decodeFrame (data.drop transportHeaderSize)).status ≠ .ok
  recovery : ∃ snap : Option SnapshotResponse, (∀ s ∈ snap, Answered requester (readLocate data) s) ∧
    h'.book = (afterRecovery h snap).1 ∧
    ∀ loc, h'.gap.expected loc =
      if loc = readLocate data ∧ readSequence data ≠ 0 then readSequence data + 1
      else (afterRecovery h snap).2.expected loc

theorem onDatagram_rejected (h : FeedHandler) (requester : Option RecoveryRequester) (data : List UInt8)
    (hfalse : (h.onDatagram requester data).1 = false) :
    ((h.onDatagram requester data).2.1.book = h.book ∧ (h.onDatagram requester data).2.1.gap = h.gap) ∨
      Undecoded h requester data (h.onDatagram requester data).2.1 := by
  rcases Nat.lt_or_ge data.length (transportHeaderSize + 2) with hshort | hlen
  · obtain ⟨_, _, hrep⟩ := h.onDatagram_short requester hshort
    exact Or.inl ⟨hrep.book, hrep.gap⟩
  · obtain ⟨⟨⟨adm, pre, hadmits, hres⟩, _⟩, hrep⟩ := h.onDatagram_handled requester hlen
    obtain ⟨snap, hsnap, hafter⟩ := hadmits.recovery
    have hbook := congrArg Prod.fst hafter
    have hgap := congrArg Prod.snd hafter
    cases adm with
    | refused =>
      have hnone : snap = none := by
        cases snap with
        | none => rfl
        | some s => exact absurd rfl (hsnap s rfl).1
      rw [hrep.book, hrep.gap, hres.2]
      rw [hnone] at hbook hgap
      exact Or.inl ⟨hbook, hgap⟩
    | covered =>
      rw [hres.1] at hfalse
      cases hfalse
    | admitted =>
      have hbad : (decodeFrame (data.drop transportHeaderSize)).status ≠ .ok := by
        intro hok
        rw [hres.1.mpr hok] at hfalse
        cases hfalse
      refine Or.inr ⟨hbad, snap, fun s hs => (hsnap s hs).2, ?_, fun loc => ?_⟩
      · rw [hrep.book, hres.2, List.foldl_append, ← hbook]
        exact DepthBook.receive_undecodable hbad _
      · rw [hrep.gap, hres.2, List.foldl_append, ← hgap, List.foldl_cons, List.foldl_nil, Effect.onGap]
        by_cases hzero : readSequence data = 0
        · simp [hzero]
        · rw [if_neg hzero, GapDetector.expected_setExpected]
          simp [hzero]

/-- A datagram below the expected sequence of its locate is refused and changes nothing. -/
theorem onDatagram_stale {h : FeedHandler} (requester : Option RecoveryRequester) {data : List UInt8}
    (hlen : transportHeaderSize + 2 ≤ data.length) (hseq : readSequence data ≠ 0) {e : SequenceNumber}
    (hold : h.gap.expected_[readLocate data]? = some e) (hlt : readSequence data < e) :
    (h.onDatagram requester data).1 = false ∧ (h.onDatagram requester data).2.1.book = h.book ∧
      (h.onDatagram requester data).2.1.gap = h.gap := by
  obtain ⟨⟨⟨adm, pre, hadmits, hres⟩, _⟩, hrep⟩ := h.onDatagram_handled requester hlen
  have hnot : ∀ {e'}, h.gap.expected_[readLocate data]? = some e' → ¬ e' < readSequence data := by
    intro e' hold' hgt
    have heq : e' = e := Option.some.inj (hold'.symm.trans hold)
    rw [heq] at hgt
    exact UInt64.lt_asymm hlt hgt
  rw [hrep.book, hrep.gap]
  cases hadmits with
  | bootstrap hzero => exact absurd hzero hseq
  | first _ hnew => exact absurd (hnew.symm.trans hold) (by simp)
  | inOrder _ hold' =>
    have heq : readSequence data = e := Option.some.inj (hold'.symm.trans hold)
    rw [heq] at hlt
    exact absurd hlt (UInt64.lt_irrefl e)
  | stale _ _ _ =>
    rw [hres.1, hres.2]
    exact ⟨rfl, rfl, rfl⟩
  | failed _ hold' hgt => exact absurd hgt (hnot hold')
  | covered _ hold' hgt => exact absurd hgt (hnot hold')
  | recovered _ hold' hgt => exact absurd hgt (hnot hold')
  | skipped _ hold' hgt => exact absurd hgt (hnot hold')
  | stalled _ hold' hgt => exact absurd hgt (hnot hold')

private theorem lookup_of_expected {g : GapDetector} {loc : StockLocate} {e : SequenceNumber}
    (h : g.expected loc = e) (hne : e ≠ 0) : g.expected_[loc]? = some e := by
  unfold GapDetector.expected at h
  cases hold : g.expected_[loc]? with
  | none =>
    rw [hold] at h
    exact absurd h.symm hne
  | some e' =>
    rw [hold] at h
    exact congrArg some h

/-- A rejected datagram leaves books and expected sequences as they were, unless
its frame did not decode; then its sequence is used up and a later copy is refused. -/
theorem rejected_leaves (h : FeedHandler) (requester : Option RecoveryRequester) (data : List UInt8)
    (hfalse : (h.onDatagram requester data).1 = false) :
    let h' := (h.onDatagram requester data).2.1
    (h'.book = h.book ∧ h'.gap = h.gap) ∨
      (Undecoded h requester data h' ∧ ∀ requester' copy, transportHeaderSize + 2 ≤ copy.length →
        readLocate copy = readLocate data → readSequence copy = readSequence data →
        readSequence data ≠ 0 → readSequence data < maxSequence →
        (h'.onDatagram requester' copy).1 = false ∧ (h'.onDatagram requester' copy).2.1.book = h'.book ∧
          (h'.onDatagram requester' copy).2.1.gap = h'.gap) := by
  intro h'
  rcases onDatagram_rejected h requester data hfalse with hsame | hundec
  · exact Or.inl hsame
  · refine Or.inr ⟨hundec, fun requester' copy hlen hloc hseq hzero hmax => ?_⟩
    obtain ⟨snap, -, -, hexp⟩ := hundec.recovery
    have hnext := hexp (readLocate data)
    rw [if_pos ⟨rfl, hzero⟩] at hnext
    have hlt : readSequence data < readSequence data + 1 := (lt_next hmax).mpr (UInt64.le_refl _)
    have hne : readSequence data + 1 ≠ 0 := fun hz => by
      rw [hz] at hlt
      exact UInt64.not_lt_zero hlt
    have hold := lookup_of_expected hnext hne
    rw [← hloc] at hold
    refine onDatagram_stale requester' hlen (hseq ▸ hzero) hold ?_
    rw [hseq]
    exact hlt

/-- A frame of length zero is rejected, and afterwards sequence 1 is refused. -/
theorem bare_datagram_used_up :
    let h := FeedHandler.new 10 false
    let h' := (h.onDatagram none (bareDatagram 1)).2.1
    Undecoded h none (bareDatagram 1) h' ∧ (h'.onDatagram none (addDatagram 1 7)).1 = false := by
  intro h h'
  rcases rejected_leaves h none (bareDatagram 1) (by decide) with hsame | ⟨hundec, hcopy⟩
  · exact absurd hsame.2 (by decide)
  · exact ⟨hundec, (hcopy none (addDatagram 1 7) (by decide) (by decide) (by decide) (by decide) (by decide)).1⟩

/-- The datagram of the previous theorem moves the expected sequence of locate 1. -/
theorem rejected_moves_expected : ¬ ∀ (h : FeedHandler) (requester : Option RecoveryRequester) (data : List UInt8),
    (h.onDatagram requester data).1 = false → (h.onDatagram requester data).2.1.book = h.book ∧
      ∀ loc, (h.onDatagram requester data).2.1.gap.expected loc = h.gap.expected loc := by
  intro hall
  have hsame := (hall (FeedHandler.new 10 false) none (bareDatagram 1) (by decide)).2 1
  exact absurd hsame (by decide)

end MdfeedItch
