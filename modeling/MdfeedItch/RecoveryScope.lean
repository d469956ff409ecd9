import MdfeedItch.SequenceAdmission

/-! # The locate that a recovery moves

The answer to a request says itself which locate it is for, and `apply_snapshot`
sets the expected sequence of that one. An answer for another locate than the
requested one moves the expected sequence of a stream that had no gap. -/
namespace MdfeedItch
open Std FiniteMapSums FeedHandler

structure Opens (g : GapDetector) (d : Delivery) (e : SequenceNumber) : Prop where
  framed : d.Framed
  seq : d.seq ≠ 0
  old : g.expected_[d.loc]? = some e
  gap : e < d.seq

structure Recovers (g : GapDetector) (d : Delivery) (e : SequenceNumber) (snap : SnapshotResponse) : Prop
    extends Opens g d e where
  answer : d.answer ⟨d.loc, e⟩ = some snap

variable {g : GapDetector} {skip : Bool} {d : Delivery} {fx : List Effect} {e : SequenceNumber}
  {snap : SnapshotResponse}

/-- What follows the report of a gap: an answer is installed, and the datagram is
accepted unless the answer covers it; without a recovery channel it is only skipped to. -/
def Delivery.afterReport (d : Delivery) (g : GapDetector) (skip : Bool) (e : SequenceNumber) : List Effect :=
  match d.answer ⟨d.loc, e⟩ with
  | some snap => .installed snap ::
      if (g.setExpected snap.stockLocate (snap.lastAppliedSeq + 1)).expected d.loc ≤ d.seq then [d.accepted]
      else []
  | none => if d.requester.isNone ∧ skip = true then [d.accepted] else []

theorem Emits.of_opens (h : Emits g skip d fx) (ho : Opens g d e) :
    fx = missing d.loc e d.seq :: d.afterReport g skip e := by
  cases h with
  | silent hwhy =>
    rcases hwhy with hframed | ⟨-, -, e', hold, hlt⟩
    · exact absurd ho.framed hframed
    · cases ho.old.symm.trans hold
      exact absurd (UInt64.lt_trans hlt ho.gap) (UInt64.lt_irrefl _)
  | bootstrap hframed hzero => exact absurd hzero ho.seq
  | next hframed hseq hnext =>
    have hgap := ho.gap
    rw [← hnext e ho.old] at hgap
    exact absurd hgap (UInt64.lt_irrefl _)
  | unfilled hframed hseq hold hgap hnone hwhy =>
    cases ho.old.symm.trans hold
    rw [Delivery.afterReport, hnone]
    dsimp only
    rw [if_neg]
    rintro ⟨hisNone, hskip⟩
    rw [hwhy (Option.isNone_iff_eq_none.mp hisNone)] at hskip
    cases hskip
  | covered hframed hseq hold hgap hsnap hcov =>
    cases ho.old.symm.trans hold
    rw [Delivery.afterReport, hsnap]
    dsimp only
    rw [if_neg (UInt64.not_le.mpr hcov)]
  | recovered hframed hseq hold hgap hsnap hcov =>
    cases ho.old.symm.trans hold
    rw [Delivery.afterReport, hsnap]
    dsimp only
    rw [if_pos hcov]
  | skipped hframed hseq hold hgap hnone hskip =>
    cases ho.old.symm.trans hold
    have hanswer : d.answer ⟨d.loc, e⟩ = none := by rw [Delivery.answer, hnone, Option.bind_none]
    rw [Delivery.afterReport, hanswer]
    dsimp only
    rw [if_pos ⟨Option.isNone_iff_eq_none.mpr hnone, hskip⟩]

theorem Emits.of_not_opens (h : Emits g skip d fx) (hno : ∀ e, ¬ Opens g d e) :
    fx = [d.accepted] ∨
      fx = [] ∧ (d.Framed → d.seq ≠ 0 → ∃ e, g.expected_[d.loc]? = some e ∧ d.seq < e) := by
  cases h with
  | silent hwhy =>
    refine Or.inr ⟨rfl, fun hframed hseq => ?_⟩
    rcases hwhy with hshort | ⟨-, -, hstale⟩
    · exact absurd hframed hshort
    · exact hstale
  | bootstrap hframed hzero => exact Or.inl rfl
  | next hframed hseq hnext => exact Or.inl rfl
  | unfilled hframed hseq hold hgap hnone hwhy => exact absurd ⟨hframed, hseq, hold, hgap⟩ (hno _)
  | covered hframed hseq hold hgap hsnap hcov => exact absurd ⟨hframed, hseq, hold, hgap⟩ (hno _)
  | recovered hframed hseq hold hgap hsnap hcov => exact absurd ⟨hframed, hseq, hold, hgap⟩ (hno _)
  | skipped hframed hseq hold hgap hnone hskip => exact absurd ⟨hframed, hseq, hold, hgap⟩ (hno _)

theorem Emits.of_recovers (h : Emits g skip d fx) (hr : Recovers g d e snap) :
    fx = missing d.loc e d.seq :: .installed snap ::
      if (g.setExpected snap.stockLocate (snap.lastAppliedSeq + 1)).expected d.loc ≤ d.seq then [d.accepted]
      else [] := by
  rw [h.of_opens hr.toOpens, Delivery.afterReport, hr.answer]

theorem expected_accepted {l : StockLocate} (hl : l ≠ d.loc) :
    (Effect.onGap g d.accepted).expected l = g.expected l := by
  rw [Delivery.accepted, Effect.onGap]
  split_ifs
  · rfl
  · rw [GapDetector.expected_setExpected, if_neg hl]

/-- An installed answer says what another locate expects, if it is for that one. -/
theorem Emits.elsewhere_recovered (h : Emits g skip d fx) (hr : Recovers g d e snap) {l : StockLocate}
    (hl : l ≠ d.loc) : (fx.foldl Effect.onGap g).expected l =
      if l = snap.stockLocate then snap.lastAppliedSeq + 1 else g.expected l := by
  rw [h.of_recovers hr, ← GapDetector.expected_setExpected]
  split_ifs
  · exact expected_accepted hl
  · rfl

theorem Emits.elsewhere (h : Emits g skip d fx) (hno : ∀ e snap, ¬ Recovers g d e snap) {l : StockLocate}
    (hl : l ≠ d.loc) : (fx.foldl Effect.onGap g).expected l = g.expected l := by
  by_cases ho : ∃ e, Opens g d e
  · obtain ⟨e, ho⟩ := ho
    have hanswer : d.answer ⟨d.loc, e⟩ = none := by
      cases hsnap : d.answer ⟨d.loc, e⟩ with
      | none => rfl
      | some snap => exact absurd ⟨ho, hsnap⟩ (hno e snap)
    rw [h.of_opens ho, Delivery.afterReport, hanswer]
    dsimp only
    split_ifs
    · exact expected_accepted hl
    · rfl
  · rcases h.of_not_opens (not_exists.mp ho) with rfl | ⟨rfl, -⟩
    · exact expected_accepted hl
    · rfl

def SparesOthers (h : FeedHandler) (d : Delivery) : Prop :=
  ∀ l, l ≠ d.loc → (h.deliver d).1.gap.expected l = h.gap.expected l

/-- The answer is for another locate, and not what that one expects anyway. -/
def Strays (g : GapDetector) (d : Delivery) : Prop :=
  ∃ e snap, Recovers g d e snap ∧ snap.stockLocate ≠ d.loc ∧
    g.expected snap.stockLocate ≠ snap.lastAppliedSeq + 1

/-- A datagram disturbs another locate exactly when it opens a gap whose answer strays. -/
theorem sparesOthers_iff (h : FeedHandler) (d : Delivery) : SparesOthers h d ↔ ¬ Strays h.gap d := by
  have hgap := (h.deliver_replays d).gap
  have hemits := h.deliver_emits d
  constructor
  · rintro hspares ⟨e, snap, hr, hl, hmoved⟩
    have hafter := hspares snap.stockLocate hl
    rw [hgap, hemits.elsewhere_recovered hr hl, if_pos rfl] at hafter
    exact hmoved hafter.symm
  · intro hstay l hl
    rw [hgap]
    by_cases hr : ∃ e snap, Recovers h.gap d e snap
    · obtain ⟨e, snap, hr⟩ := hr
      rw [hemits.elsewhere_recovered hr hl]
      split_ifs with hsnap
      · subst hsnap
        by_contra hmoved
        exact hstay ⟨e, snap, hr, hl, Ne.symm hmoved⟩
      · rfl
    · push Not at hr
      exact hemits.elsewhere hr hl

/-- Sequence 5 after 1 on locate 1, with an answer for locate 2: that one now expects 8. -/
theorem foreign_answer_moves : ¬ ∀ (depth : ℕ) (skip : Bool) (cs : List FeedCall) (d : Delivery),
    SparesOthers ((FeedHandler.new depth skip).calls cs).1 d := by
  intro h
  have hmoved := h 10 false [.datagram ⟨bareDatagram 1, none⟩]
    ⟨bareDatagram 5, some (fun _ => some ⟨2, 7, sampleSymbol, [], []⟩)⟩ 2 (by decide)
  exact absurd hmoved (by decide)

end MdfeedItch
