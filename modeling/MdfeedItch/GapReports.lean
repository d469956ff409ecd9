import MdfeedItch.RecoveryScope

/-! # What the gap observer is told over a run

While a gap stays unfilled the expected sequence stays where it was, so every
further datagram of the locate reports from there again. Reports are apart as long
as a gap opens only behind everything that arrived before. -/
namespace MdfeedItch
open Std FiniteMapSums FeedHandler

/-- No sequence lies in both ranges. -/
def Apart (r r' : SequenceNumber × SequenceNumber) : Prop := r.2 < r'.1 ∨ r'.2 < r.1

/-- What "exactly once" asks of a run without skipping: the reported ranges of a
locate are apart, and no range holds a sequence that had arrived before the report. -/
structure ReportsOnce (depth : ℕ) (ds : List Delivery) : Prop where
  apart : ∀ loc, (gapRanges loc ((FeedHandler.new depth false).feed ds).2).Pairwise Apart
  absent : ∀ pre d, pre ++ [d] <+: ds → ∀ loc,
    ∀ r ∈ gapRanges loc (((FeedHandler.new depth false).feed pre).1.deliver d).2,
      ∀ earlier ∈ pre, earlier.Framed → earlier.loc = loc → earlier.seq < r.1 ∨ r.2 < earlier.seq

/-- A gap that the datagram opens starts behind everything that arrived for its locate. -/
def OpensBehind (depth : ℕ) (pre : List Delivery) (d : Delivery) : Prop :=
  ∀ e, Opens ((FeedHandler.new depth false).feed pre).1.gap d e →
    ∀ earlier ∈ pre, earlier.Framed → earlier.loc = d.loc → earlier.seq < e

variable {g : GapDetector} {skip : Bool} {d : Delivery} {fx : List Effect} {e : SequenceNumber}

@[simp] theorem gapRanges_nil (loc : StockLocate) : gapRanges loc [] = [] := rfl

@[simp] theorem gapRanges_missing (loc l : StockLocate) (e seq : SequenceNumber) (t : List Effect) :
    gapRanges loc (missing l e seq :: t) = if l = loc then (e, seq - 1) :: gapRanges loc t
      else gapRanges loc t := by
  rw [gapRanges, List.filterMap_cons]
  simp only [missing, Effect.range, List.filter_cons, decide_eq_true_eq]
  split_ifs <;> rfl

@[simp] theorem gapRanges_installed (loc : StockLocate) (snap : SnapshotResponse) (t : List Effect) :
    gapRanges loc (.installed snap :: t) = gapRanges loc t := rfl

@[simp] theorem gapRanges_accepted (loc : StockLocate) (d : Delivery) (t : List Effect) :
    gapRanges loc (d.accepted :: t) = gapRanges loc t := rfl

theorem gapRanges_append (loc : StockLocate) (t fx : List Effect) :
    gapRanges loc (t ++ fx) = gapRanges loc t ++ gapRanges loc fx := by
  rw [gapRanges, List.filterMap_append, List.filter_append, List.map_append, gapRanges, gapRanges]

theorem gapRanges_afterReport (loc : StockLocate) (d : Delivery) (g : GapDetector) (skip : Bool)
    (e : SequenceNumber) : gapRanges loc (d.afterReport g skip e) = [] := by
  rw [Delivery.afterReport]
  split
  · rw [gapRanges_installed]
    split_ifs <;> rfl
  · split_ifs <;> rfl

/-- A datagram reports the gap it opens. -/
theorem Emits.gapRanges_opened (h : Emits g skip d fx) (ho : Opens g d e) (loc : StockLocate) :
    gapRanges loc fx = if d.loc = loc then [(e, d.seq - 1)] else [] := by
  rw [h.of_opens ho, gapRanges_missing, gapRanges_afterReport]

theorem Emits.mem_gapRanges (h : Emits g skip d fx) (ho : Opens g d e) :
    (e, d.seq - 1) ∈ gapRanges d.loc fx := by
  rw [h.gapRanges_opened ho, if_pos rfl]
  exact List.mem_singleton_self _

/-- It reports nothing else. -/
theorem Emits.gapRanges_none (h : Emits g skip d fx) (hno : ∀ e, ¬ Opens g d e) (loc : StockLocate) :
    gapRanges loc fx = [] := by
  rcases h.of_not_opens hno with rfl | ⟨rfl, -⟩ <;> rfl

theorem Emits.of_gapRanges (h : Emits g skip d fx) {loc : StockLocate} {r : SequenceNumber × SequenceNumber}
    (hr : r ∈ gapRanges loc fx) : d.loc = loc ∧ ∃ e, Opens g d e ∧ r = (e, d.seq - 1) := by
  by_cases ho : ∃ e, Opens g d e
  · obtain ⟨e, ho⟩ := ho
    rw [h.gapRanges_opened ho loc] at hr
    split_ifs at hr with hloc
    · exact ⟨hloc, e, ho, List.mem_singleton.mp hr⟩
    · cases hr
  · push Not at ho
    rw [h.gapRanges_none ho loc] at hr
    cases hr

/-- A report ends below a datagram of its locate that has arrived. -/
theorem gapRanges_below (depth : ℕ) (ds : List Delivery) (loc : StockLocate) :
    ∀ r ∈ gapRanges loc ((FeedHandler.new depth false).feed ds).2,
      ∃ d ∈ ds, d.Framed ∧ d.loc = loc ∧ r.2 < d.seq := by
  induction ds using List.reverseRecOn with
  | nil =>
    intro r hr
    cases hr
  | append_singleton ds d ih =>
    intro r hr
    rw [feed_concat, gapRanges_append, List.mem_append] at hr
    rcases hr with hr | hr
    · obtain ⟨d', hd', hframed, hloc, hlt⟩ := ih r hr
      exact ⟨d', List.mem_append_left _ hd', hframed, hloc, hlt⟩
    · obtain ⟨hloc, e, ho, rfl⟩ := (((FeedHandler.new depth false).feed ds).1.deliver_emits d).of_gapRanges hr
      exact ⟨d, by simp, ho.framed, hloc, (pred_lt_iff ho.seq).mpr (UInt64.le_refl _)⟩

/-- Gaps that open behind everything that arrived are reported once. -/
theorem ReportsOnce.of_opensBehind {depth : ℕ} {ds : List Delivery}
    (h : ∀ pre d, pre ++ [d] <+: ds → OpensBehind depth pre d) : ReportsOnce depth ds := by
  refine ⟨fun loc => ?_, fun pre d hpre loc r hr earlier hearlier hframed hloc => ?_⟩
  · induction ds using List.reverseRecOn with
    | nil => exact List.Pairwise.nil
    | append_singleton ds d ih =>
      rw [TraceRuns.forall_step_concat] at h
      rw [feed_concat, gapRanges_append]
      have hemits := ((FeedHandler.new depth false).feed ds).1.deliver_emits d
      refine List.pairwise_append.mpr ⟨ih h.1, ?_, fun r hr r' hr' => ?_⟩
      · by_cases ho : ∃ e, Opens ((FeedHandler.new depth false).feed ds).1.gap d e
        · obtain ⟨e, ho⟩ := ho
          rw [hemits.gapRanges_opened ho loc]
          split_ifs
          · exact List.pairwise_singleton _ _
          · exact List.Pairwise.nil
        · push Not at ho
          rw [hemits.gapRanges_none ho loc]
          exact List.Pairwise.nil
      · -- the new range starts above the datagram that caused the old one
        obtain ⟨d', hd', hframed, hloc', hlt⟩ := gapRanges_below depth ds loc r hr
        obtain ⟨hloc, e, ho, rfl⟩ := hemits.of_gapRanges hr'
        exact Or.inl (UInt64.lt_trans hlt (h.2 e ho d' hd' hframed (hloc'.trans hloc.symm)))
  · obtain ⟨hloc', e, ho, rfl⟩ := (((FeedHandler.new depth false).feed pre).1.deliver_emits d).of_gapRanges hr
    exact Or.inl (h pre d hpre e ho earlier hearlier hframed (hloc.trans hloc'.symm))

/-- A datagram that opens no gap leaves its locate expecting something later. -/
theorem Emits.passes (h : Emits g skip d fx) (hb : d.Bounded) (hframed : d.Framed) (hseq : d.seq ≠ 0)
    (hno : ∀ e, ¬ Opens g d e) : d.seq < (fx.foldl Effect.onGap g).expected d.loc := by
  rcases h.of_not_opens hno with rfl | ⟨rfl, hstale⟩
  · rw [List.foldl_cons, List.foldl_nil, onGap_accepted hseq, GapDetector.expected_setExpected, if_pos rfl,
      lt_next (hb.1 hframed)]
    exact UInt64.le_refl _
  · obtain ⟨e, hold, hlt⟩ := hstale hframed hseq
    rw [List.foldl_nil, GapDetector.expected_of_some hold]
    exact hlt

/-- Two reports of a run, the later one by its last datagram, are apart. -/
theorem ReportsOnce.of_pair {depth : ℕ} {ds before after : List Delivery} {earlier : Delivery}
    (h : ReportsOnce depth ds) (hpre : before ++ earlier :: after ++ [d] <+: ds) {loc : StockLocate}
    {r r' : SequenceNumber × SequenceNumber}
    (hr : r ∈ gapRanges loc (((FeedHandler.new depth false).feed before).1.deliver earlier).2)
    (hr' : r' ∈ gapRanges loc
      (((FeedHandler.new depth false).feed (before ++ earlier :: after)).1.deliver d).2) :
    Apart r r' := by
  obtain ⟨rest, rfl⟩ := hpre
  have hall := h.apart loc
  rw [feed_append, gapRanges_append] at hall
  have hpair := (List.pairwise_append.mp hall).1
  rw [feed_concat, gapRanges_append] at hpair
  refine (List.pairwise_append.mp hpair).2.2 r ?_ r' hr'
  rw [List.append_cons, feed_append, feed_concat]
  simp only [gapRanges_append, List.mem_append]
  exact Or.inl (Or.inr hr)

/-- Conversely, once the expected sequences never go back. -/
theorem ReportsOnce.opensBehind {depth : ℕ} {ds : List Delivery} (hds : ∀ d ∈ ds, d.Bounded ∧ d.Addressed)
    (h : ReportsOnce depth ds) : ∀ pre d, pre ++ [d] <+: ds → OpensBehind depth pre d := by
  intro pre d hpre e ho earlier hearlier hframed hloc
  by_contra hlate
  rw [UInt64.not_lt] at hlate
  have hrange := (((FeedHandler.new depth false).feed pre).1.deliver_emits d).mem_gapRanges ho
  -- the range does not hold the earlier sequence, which therefore lies behind it
  have hbeyond : d.seq ≤ earlier.seq := by
    rcases h.absent pre d hpre d.loc _ hrange earlier hearlier hframed hloc with hlt | hlt
    · exact absurd (UInt64.lt_of_lt_of_le hlt hlate) (UInt64.lt_irrefl _)
    · exact (pred_lt_iff ho.seq).mp hlt
  have hgap := UInt64.lt_of_lt_of_le ho.gap hbeyond
  have hseq : earlier.seq ≠ 0 := fun hzero => by
    rw [hzero] at hgap
    exact UInt64.not_lt_zero hgap
  obtain ⟨before, after, rfl⟩ := List.append_of_mem hearlier
  have hmem : ∀ d' ∈ before ++ earlier :: after, d'.Bounded ∧ d'.Addressed := fun d' hd' =>
    hds d' (hpre.subset (List.mem_append_left _ hd'))
  have hemits := ((FeedHandler.new depth false).feed before).1.deliver_emits earlier
  by_cases hopens : ∃ e', Opens ((FeedHandler.new depth false).feed before).1.gap earlier e'
  · -- it opened the gap itself, and both ranges hold `e`
    obtain ⟨e', ho'⟩ := hopens
    have hmono := expected_mono_append (FeedHandler.new depth false) before (earlier :: after)
      (fun d' hd' => hmem d' (List.mem_append_right _ hd')) d.loc
    rw [GapDetector.expected_of_some ho.old, ← hloc, GapDetector.expected_of_some ho'.old] at hmono
    have hrange' := hemits.mem_gapRanges ho'
    rw [hloc] at hrange'
    rcases h.of_pair hpre hrange' hrange with hapart | hapart
    · have hle := (pred_lt_iff hseq).mp hapart
      exact absurd (UInt64.lt_of_lt_of_le hgap hle) (UInt64.lt_irrefl _)
    · have hle := UInt64.le_trans ((pred_lt_iff ho.seq).mp hapart) hmono
      exact absurd (UInt64.lt_of_lt_of_le ho.gap hle) (UInt64.lt_irrefl _)
  · push Not at hopens
    have hpass := hemits.passes (hmem earlier (by simp)).1 hframed hseq hopens
    rw [← (((FeedHandler.new depth false).feed before).1.deliver_replays earlier).gap, hloc] at hpass
    have hmono := expected_mono_append (FeedHandler.new depth false) (before ++ [earlier]) after
      (fun d' hd' => hmem d' (by simp [hd'])) d.loc
    rw [← List.append_cons, GapDetector.expected_of_some ho.old, feed_concat] at hmono
    have hlt := UInt64.lt_of_lt_of_le hpass (UInt64.le_trans hmono hlate)
    exact absurd hlt (UInt64.lt_irrefl _)

/-- Without skipping, a missing sequence is reported once if every gap opens behind
all that arrived for its locate; for answers to the requests alone, only then. -/
theorem reports_once (depth : ℕ) (ds : List Delivery) :
    ((∀ pre d, pre ++ [d] <+: ds → OpensBehind depth pre d) → ReportsOnce depth ds) ∧
    ((∀ d ∈ ds, d.Bounded ∧ d.Addressed) → ReportsOnce depth ds →
      ∀ pre d, pre ++ [d] <+: ds → OpensBehind depth pre d) :=
  ⟨ReportsOnce.of_opensBehind, ReportsOnce.opensBehind⟩

/-- One gap that stays open, seen by one datagram. -/
theorem one_gap_reported : ReportsOnce 10 [⟨bareDatagram 1, none⟩, ⟨bareDatagram 5, none⟩] := by
  refine (reports_once 10 [⟨bareDatagram 1, none⟩, ⟨bareDatagram 5, none⟩]).1 ?_
  refine (TraceRuns.forall_step_iff (P := OpensBehind 10)).mpr (fun n hn e ho earlier hearlier _ _ => ?_)
  match n, hn with
  | 0, _ => cases hearlier
  | 1, _ =>
    obtain rfl : earlier = ⟨bareDatagram 1, none⟩ := List.mem_singleton.mp hearlier
    have hold : some (2 : SequenceNumber) = some e := ho.old
    cases hold
    decide

/-- The sequences 1, 5 and 7 without a recovery channel: 2 to 4 are missing twice. -/
theorem open_gap_reported_twice : ¬ ∀ (depth : ℕ) (ds : List Delivery),
    (∀ d ∈ ds, d.Framed → d.seq < maxSequence) → ReportsOnce depth ds := by
  intro h
  have hapart := (h 10 [⟨bareDatagram 1, none⟩, ⟨bareDatagram 5, none⟩, ⟨bareDatagram 7, none⟩] ?_).apart 1
  · have hranges : gapRanges 1 ((FeedHandler.new 10 false).feed
        [⟨bareDatagram 1, none⟩, ⟨bareDatagram 5, none⟩, ⟨bareDatagram 7, none⟩]).2 =
          [(2, 4), (2, 6)] := by decide
    rw [hranges] at hapart
    rcases List.rel_of_pairwise_cons hapart (List.mem_singleton_self _) with h | h
    · exact absurd h (by decide)
    · exact absurd h (by decide)
  · intro d hd _
    simp only [List.mem_cons, List.not_mem_nil, or_false] at hd
    rcases hd with rfl | rfl | rfl <;> decide

end MdfeedItch
