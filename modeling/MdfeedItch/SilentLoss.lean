import MdfeedItch.SequenceAdmission

/-! # When recovery loses no message silently

With `skip_gaps` off a gap is only passed by an answer of the requester. The
handler advances past it whatever the answer says, so messages are lost when the
answer is for another locate or stops short of the gap's end, and only then. -/
namespace MdfeedItch
open Std FiniteMapSums FeedHandler

/-- The sequence was handed to the decoder, or an installed snapshot of its locate reaches it. -/
def Held (loc : StockLocate) (n : SequenceNumber) (t : List Effect) : Prop :=
  n ∈ acceptedSeqs loc t ∨
    ∃ snap, .installed snap ∈ t ∧ snap.stockLocate = loc ∧ n ≤ snap.lastAppliedSeq

/-- From the first accepted sequence of a tracked locate on, everything below the expected one is held. -/
def NoSilentLoss (g : GapDetector) (t : List Effect) : Prop :=
  ∀ loc e first rest, g.expected_[loc]? = some e → acceptedSeqs loc t = first :: rest →
    ∀ n, first ≤ n → n < e → Held loc n t

/-- If the datagram opens a gap that the requester answers, the answer is for its
locate and reaches the sequence before it. -/
def Reaching (g : GapDetector) (d : Delivery) : Prop :=
  d.Framed → ∀ e snap, g.expected_[d.loc]? = some e → e < d.seq → d.answer ⟨d.loc, e⟩ = some snap →
    snap.stockLocate = d.loc ∧ d.seq ≤ snap.lastAppliedSeq + 1

theorem Held.mono_left {loc : StockLocate} {n : SequenceNumber} {t : List Effect} (h : Held loc n t)
    (fx : List Effect) : Held loc n (t ++ fx) := by
  rcases h with hacc | ⟨snap, hsnap, hrest⟩
  · exact Or.inl (by rw [acceptedSeqs_append]; exact List.mem_append_left _ hacc)
  · exact Or.inr ⟨snap, List.mem_append_left _ hsnap, hrest⟩

theorem Held.mono_right {loc : StockLocate} {n : SequenceNumber} {fx : List Effect} (h : Held loc n fx)
    (t : List Effect) : Held loc n (t ++ fx) := by
  rcases h with hacc | ⟨snap, hsnap, hrest⟩
  · exact Or.inl (by rw [acceptedSeqs_append]; exact List.mem_append_right _ hacc)
  · exact Or.inr ⟨snap, List.mem_append_right _ hsnap, hrest⟩

/-- What one datagram does to the sequences of its own locate, and to no other. -/
structure Fills (g g' : GapDetector) (d : Delivery) (fx : List Effect) : Prop where
  elsewhere : ∀ loc, loc ≠ d.loc → g'.expected_[loc]? = g.expected_[loc]? ∧ acceptedSeqs loc fx = []
  here : (g'.expected_[d.loc]? = g.expected_[d.loc]? ∧ acceptedSeqs d.loc fx = []) ∨
    ∃ e', g'.expected_[d.loc]? = some e' ∧
      ((g.expected_[d.loc]? = none ∧ acceptedSeqs d.loc fx = [d.seq] ∧ ∀ n, d.seq ≤ n → n < e' → Held d.loc n fx) ∨
        ∃ e, g.expected_[d.loc]? = some e ∧ ∀ n, e ≤ n → n < e' → Held d.loc n fx)

/-- Without an accepted sequence nothing has to be held. -/
theorem Fills.of_unmoved (g : GapDetector) (d : Delivery) {fx : List Effect} (h : ∀ loc, acceptedSeqs loc fx = []) :
    Fills g g d fx := ⟨fun loc _ => ⟨rfl, h loc⟩, Or.inl ⟨rfl, h d.loc⟩⟩

/-- A locate that is moved on must be held up to there. -/
theorem Fills.of_setExpected {g : GapDetector} {d : Delivery} {fx : List Effect} {e' : SequenceNumber}
    (helsewhere : ∀ loc, loc ≠ d.loc → acceptedSeqs loc fx = [])
    (hheld : (g.expected_[d.loc]? = none ∧ acceptedSeqs d.loc fx = [d.seq] ∧
        ∀ n, d.seq ≤ n → n < e' → Held d.loc n fx) ∨
      ∃ e, g.expected_[d.loc]? = some e ∧ ∀ n, e ≤ n → n < e' → Held d.loc n fx) :
    Fills g (g.setExpected d.loc e') d fx := by
  refine ⟨fun loc hloc => ⟨?_, helsewhere loc hloc⟩, Or.inr ⟨e', ?_, hheld⟩⟩
  · rw [GapDetector.lookup_setExpected, if_neg hloc]
  · rw [GapDetector.lookup_setExpected, if_pos rfl]

theorem Emits.fills {g : GapDetector} {d : Delivery} {fx : List Effect} (h : Emits g false d fx)
    (hb : d.Bounded) (hreach : Reaching g d) : Fills g (fx.foldl Effect.onGap g) d fx := by
  cases h with
  | silent hwhy => exact Fills.of_unmoved g d (fun _ => rfl)
  | bootstrap hframed hzero =>
    have hgap : [d.accepted].foldl Effect.onGap g = g := if_pos hzero
    rw [hgap]
    exact Fills.of_unmoved g d (fun _ => by simp [hzero])
  | next hframed hseq hnext =>
    rw [List.foldl_cons, onGap_accepted hseq, List.foldl_nil]
    have hself : ∀ n, d.seq ≤ n → n < d.seq + 1 → Held d.loc n [d.accepted] := by
      intro n hle hlt
      have heq : n = d.seq := UInt64.le_antisymm ((lt_next (hb.1 hframed)).mp hlt) hle
      exact Or.inl (by simp [hseq, heq])
    refine Fills.of_setExpected (fun loc hloc => by simp [Ne.symm hloc]) ?_
    cases hold : g.expected_[d.loc]? with
    | none => exact Or.inl ⟨rfl, by simp [hseq], hself⟩
    | some e =>
      obtain rfl := hnext e hold
      exact Or.inr ⟨d.seq, rfl, hself⟩
  | unfilled hframed hseq hold hgap hnone hwhy => exact Fills.of_unmoved g d (fun _ => rfl)
  | skipped hframed hseq hold hgap hnone hskip => cases hskip
  | @covered e snap hframed hseq hold hgap hsnap hcov =>
    obtain ⟨hloc, -⟩ := hreach hframed _ _ hold hgap hsnap
    have hg : [missing d.loc e d.seq, .installed snap].foldl Effect.onGap g =
        g.setExpected d.loc (snap.lastAppliedSeq + 1) := by rw [← hloc]; rfl
    rw [hg]
    refine Fills.of_setExpected (fun loc _ => rfl) (Or.inr ⟨e, hold, fun n _ hlt => Or.inr ?_⟩)
    exact ⟨snap, by simp, hloc, (lt_next (hb.2 _ _ hsnap)).mp hlt⟩
  | @recovered e snap hframed hseq hold hgap hsnap hcov =>
    obtain ⟨hloc, hreached⟩ := hreach hframed _ _ hold hgap hsnap
    have hg : [missing d.loc e d.seq, .installed snap, d.accepted].foldl Effect.onGap g =
        g.setExpected d.loc (d.seq + 1) := by
      simp only [List.foldl_cons, List.foldl_nil, onGap_accepted hseq]
      rw [← hloc]
      exact g.setExpected_twice _ _ _
    rw [hg]
    refine Fills.of_setExpected (fun loc hne => by simp [Ne.symm hne]) (Or.inr ⟨e, hold, fun n _ hlt => ?_⟩)
    by_cases hn : n ≤ snap.lastAppliedSeq
    · exact Or.inr ⟨snap, by simp, hloc, hn⟩
    · -- only the accepted sequence itself lies above the answer
      have hlast : snap.lastAppliedSeq < n := UInt64.not_le.mp hn
      have hle : d.seq ≤ n := UInt64.le_trans hreached ((next_le (hb.2 _ _ hsnap)).mpr hlast)
      have heq : n = d.seq := UInt64.le_antisymm ((lt_next (hb.1 hframed)).mp hlt) hle
      refine Or.inl ?_
      simp [hseq, heq]

/-- A locate is tracked from its first accepted sequence on, and all since is held. -/
def Accounted (g : GapDetector) (t : List Effect) : Prop := ∀ loc,
  match g.expected_[loc]? with
  | none => acceptedSeqs loc t = []
  | some e => ∃ first rest, acceptedSeqs loc t = first :: rest ∧ ∀ n, first ≤ n → n < e → Held loc n t

theorem Accounted.fill {g g' : GapDetector} {t fx : List Effect} {d : Delivery} (h : Accounted g t)
    (hf : Fills g g' d fx) : Accounted g' (t ++ fx) := by
  intro loc
  have hloc := h loc
  rw [acceptedSeqs_append]
  by_cases hne : loc = d.loc
  · subst hne
    rcases hf.here with ⟨hsame, hacc⟩ | ⟨e', hset, ⟨hnone, hacc, hheld⟩ | ⟨e, hold, hheld⟩⟩
    · rw [hsame, hacc, List.append_nil]
      cases hold : g.expected_[d.loc]? with
      | none => rwa [hold] at hloc
      | some e =>
        rw [hold] at hloc
        obtain ⟨first, rest, hfirst, hall⟩ := hloc
        exact ⟨first, rest, hfirst, fun n hle hlt => (hall n hle hlt).mono_left fx⟩
    · rw [hnone] at hloc
      rw [hset, hacc, hloc]
      exact ⟨d.seq, [], rfl, fun n hle hlt => (hheld n hle hlt).mono_right t⟩
    · rw [hold] at hloc
      obtain ⟨first, rest, hfirst, hall⟩ := hloc
      rw [hset, hfirst]
      refine ⟨first, rest ++ acceptedSeqs d.loc fx, rfl, fun n hle hlt => ?_⟩
      by_cases hn : n < e
      · exact (hall n hle hn).mono_left fx
      · exact (hheld n (UInt64.not_lt.mp hn) hlt).mono_right t
  · obtain ⟨hsame, hacc⟩ := hf.elsewhere loc hne
    rw [hsame, hacc, List.append_nil]
    cases hold : g.expected_[loc]? with
    | none => rwa [hold] at hloc
    | some e =>
      rw [hold] at hloc
      obtain ⟨first, rest, hfirst, hall⟩ := hloc
      exact ⟨first, rest, hfirst, fun n hle hlt => (hall n hle hlt).mono_left fx⟩

theorem Accounted.noSilentLoss {g : GapDetector} {t : List Effect} (h : Accounted g t) : NoSilentLoss g t := by
  intro loc e first rest hold hacc n hle hlt
  have hloc := h loc
  rw [hold] at hloc
  obtain ⟨first', rest', hfirst, hall⟩ := hloc
  rw [hacc] at hfirst
  cases hfirst
  exact hall n hle hlt

/-- In a run whose gaps are all answered for their locate and up to their end,
or not at all, no state has lost a sequence silently. -/
theorem noSilentLoss_of_reaching (depth : ℕ) (ds : List Delivery) (hb : ∀ d ∈ ds, d.Bounded)
    (hreach : ∀ pre d, pre ++ [d] <+: ds → Reaching ((FeedHandler.new depth false).feed pre).1.gap d)
    (pre : List Delivery) (hpre : pre <+: ds) :
    NoSilentLoss ((FeedHandler.new depth false).feed pre).1.gap ((FeedHandler.new depth false).feed pre).2 := by
  suffices h : ((FeedHandler.new depth false).feed pre).1.skipGaps = false ∧
      Accounted ((FeedHandler.new depth false).feed pre).1.gap ((FeedHandler.new depth false).feed pre).2 from
    h.2.noSilentLoss
  refine TraceRuns.run_invariant_of_steps FeedHandler.deliver
    (I := fun h t => h.skipGaps = false ∧ Accounted h.gap t) (P := fun h d => d.Bounded ∧ Reaching h.gap d) ?_ ?_ pre ?_
  · rintro h t d ⟨hd, hr⟩ ⟨hskip, hacc⟩
    have hrep := h.deliver_replays d
    have hemits := h.deliver_emits d
    rw [hskip] at hemits
    refine ⟨hrep.skipGaps.trans hskip, ?_⟩
    rw [hrep.gap]
    exact hacc.fill (hemits.fills hd hr)
  · refine ⟨rfl, fun loc => ?_⟩
    simp [FeedHandler.new, GapDetector.new]
  · intro js d hj
    have hjs := hj.trans hpre
    exact ⟨hb d (hjs.subset (by simp)), hreach js d hjs⟩

/-- Sequence 5 after 1 with an answer that reaches 4: nothing is lost. -/
theorem reaching_answer_loses_nothing :
    let ds : List Delivery := [⟨bareDatagram 1, some (emptyAnswer 4)⟩, ⟨bareDatagram 5, some (emptyAnswer 4)⟩]
    let final := (FeedHandler.new 10 false).feed ds
    final.1.gap.expected 1 = 6 ∧ NoSilentLoss final.1.gap final.2 := by
  intro ds final
  have hseq : ∀ d ∈ ds, d.Bounded ∧ d.seq ≤ 5 ∧ d.requester = some (emptyAnswer 4) := by
    intro d hd
    rcases List.mem_cons.mp hd with rfl | hd
    · exact ⟨⟨fun _ => by decide, (emptyAnswer_addressed (by decide) _).1⟩, by decide, rfl⟩
    · obtain rfl := List.mem_singleton.mp hd
      exact ⟨⟨fun _ => by decide, (emptyAnswer_addressed (by decide) _).1⟩, by decide, rfl⟩
  refine ⟨by decide, noSilentLoss_of_reaching 10 ds (fun d hd => (hseq d hd).1) ?_ ds (List.prefix_refl ds)⟩
  intro pre d hpre _ e snap _ _ hsnap
  obtain ⟨-, hle, hreq⟩ := hseq d (hpre.subset (by simp))
  rw [Delivery.answer, hreq] at hsnap
  cases hsnap
  exact ⟨rfl, hle⟩

/-- With an answer that stops at 3, sequence 4 is passed over. -/
theorem lagging_answer_loses : ¬ ∀ ds : List Delivery, (∀ d ∈ ds, d.Bounded) →
    NoSilentLoss ((FeedHandler.new 10 false).feed ds).1.gap ((FeedHandler.new 10 false).feed ds).2 := by
  intro hall
  let ds : List Delivery := [⟨bareDatagram 1, some (emptyAnswer 3)⟩, ⟨bareDatagram 5, some (emptyAnswer 3)⟩]
  have hb : ∀ d ∈ ds, d.Bounded := by
    intro d hd
    rcases List.mem_cons.mp hd with rfl | hd
    · exact ⟨fun _ => by decide, (emptyAnswer_addressed (by decide) _).1⟩
    · obtain rfl := List.mem_singleton.mp hd
      exact ⟨fun _ => by decide, (emptyAnswer_addressed (by decide) _).1⟩
  have htrace : ((FeedHandler.new 10 false).feed ds).2 =
      [.decoded 1 1 [0, 0], .gapReported 1 2 4, .installed ⟨1, 3, Vector.replicate symbolLen 32, [], []⟩,
        .decoded 1 5 [0, 0]] := by decide
  rcases hall ds hb 1 6 1 [5] (by decide) (by decide) 4 (by decide) (by decide) with hacc | ⟨snap, hsnap, _, hle⟩
  · exact absurd hacc (by decide)
  · rw [htrace] at hsnap
    simp only [List.mem_cons, reduceCtorEq, Effect.installed.injEq, false_or, List.not_mem_nil, or_false] at hsnap
    subst hsnap
    exact absurd hle (by decide)

end MdfeedItch
