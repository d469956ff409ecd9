import MdfeedItch.SequenceAdmission

/-! # Calls of `observe` up to the top of the range

The successor of the largest sequence is 0. A detector that accepts that sequence
expects 0 next: it takes the locate from the start again, and the largest sequence
is a gap. As long as it is not accepted, accepted sequences strictly increase and
are stale afterwards. -/
namespace MdfeedItch

theorem le_maxSequence (s : SequenceNumber) : s ≤ maxSequence := by
  have hlt := s.toNat_lt
  have hmax : maxSequence.toNat = 18446744073709551615 := rfl
  rw [UInt64.le_iff_toNat_le]
  omega

/-- A call of `observe` and its answer. -/
structure Observation where
  loc : StockLocate
  seq : SequenceNumber
  result : ObserveResult

namespace Observation

/-- The sequence that the call accepts for a locate. -/
def okSeq (loc : StockLocate) (x : Observation) : Option SequenceNumber :=
  if x.loc = loc ∧ x.result = .ok then some x.seq else none

theorem okSeq_eq_some {x : Observation} {loc : StockLocate} {s : SequenceNumber} :
    x.okSeq loc = some s ↔ (x.loc = loc ∧ x.result = .ok) ∧ x.seq = s := by
  rw [okSeq, Option.ite_none_right_eq_some, Option.some_inj]

/-- A later call accepts a larger sequence. -/
def InOrder (x y : Observation) : Prop := ∀ loc n s, x.okSeq loc = some n → y.okSeq loc = some s → n < s

end Observation

/-- The sequences of a locate for which `observe` has returned ok, in order. -/
def okSeqs (loc : StockLocate) (t : List Observation) : List SequenceNumber := t.filterMap (Observation.okSeq loc)

namespace GapDetector

def observeCall (g : GapDetector) (call : StockLocate × SequenceNumber) : GapDetector × List Observation :=
  ((g.observe call.1 call.2).2, [⟨call.1, call.2, (g.observe call.1 call.2).1⟩])

/-- Calls of `observe` on an empty detector. -/
def observeAll (calls : List (StockLocate × SequenceNumber)) : GapDetector × List Observation :=
  TraceRuns.run observeCall new calls

/-- The call takes the largest sequence, as the first of its locate or as the expected one. -/
def TakesMax (g : GapDetector) (call : StockLocate × SequenceNumber) : Prop :=
  call.2 = maxSequence ∧ ∀ e, g.expected_[call.1]? = some e → e = maxSequence

theorem observe_ok_iff {g : GapDetector} {loc : StockLocate} {seq : SequenceNumber} :
    (g.observe loc seq).1 = .ok ↔ ∀ e, g.expected_[loc]? = some e → e = seq := by
  unfold observe
  cases g.expected_[loc]? with
  | none => exact iff_of_true rfl (by simp)
  | some e =>
    dsimp only
    split_ifs with heq hlt
    · simp [heq]
    · simp [Ne.symm heq]
    · simp [Ne.symm heq]

/-- An accepted sequence moves its locate on; nothing else moves a locate. -/
theorem observe_snd_of_ok {g : GapDetector} {loc : StockLocate} {seq : SequenceNumber}
    (h : (g.observe loc seq).1 = .ok) : (g.observe loc seq).2 = g.setExpected loc (seq + 1) := by
  unfold observe at h ⊢
  cases he : g.expected_[loc]? with
  | none => rfl
  | some e =>
    rw [he] at h
    dsimp only at h ⊢
    split_ifs at h ⊢ with heq
    rw [heq]

theorem observe_snd_of_not_ok {g : GapDetector} {loc : StockLocate} {seq : SequenceNumber}
    (h : (g.observe loc seq).1 ≠ .ok) : (g.observe loc seq).2 = g := by
  unfold observe at h ⊢
  cases he : g.expected_[loc]? with
  | none =>
    rw [he] at h
    exact absurd rfl h
  | some e =>
    rw [he] at h
    dsimp only at h ⊢
    split_ifs at h ⊢ with heq hlt
    · exact absurd rfl h
    · rfl
    · rfl

theorem observe_stale_iff {g : GapDetector} {loc : StockLocate} {seq : SequenceNumber} :
    (g.observe loc seq).1 = .stale ↔ seq < g.expected loc := by
  unfold observe expected
  cases g.expected_[loc]? with
  | none => exact iff_of_false (by simp) UInt64.not_lt_zero
  | some e =>
    rw [Option.getD_some]
    dsimp only
    split_ifs with heq hlt
    · exact iff_of_false (by simp) (heq ▸ UInt64.lt_irrefl _)
    · exact iff_of_true rfl hlt
    · exact iff_of_false (by simp) hlt

theorem takesMax_iff {g : GapDetector} {call : StockLocate × SequenceNumber} :
    g.TakesMax call ↔ call.2 = maxSequence ∧ (g.observe call.1 call.2).1 = .ok := by
  rw [observe_ok_iff, TakesMax]
  refine and_congr_right (fun hmax => ?_)
  rw [hmax]

/-- What was accepted is in order and lies below what is expected next. -/
structure Observed (g : GapDetector) (t : List Observation) : Prop where
  inOrder : t.Pairwise Observation.InOrder
  below : ∀ x ∈ t, ∀ loc s, x.okSeq loc = some s → s < g.expected loc

theorem Observed.call {g : GapDetector} {t : List Observation} (h : Observed g t)
    {call : StockLocate × SequenceNumber} (hmax : ¬ g.TakesMax call) :
    Observed (g.observeCall call).1 (t ++ (g.observeCall call).2) := by
  obtain ⟨loc, seq⟩ := call
  rw [takesMax_iff, not_and'] at hmax
  dsimp only [observeCall] at hmax ⊢
  by_cases hok : (g.observe loc seq).1 = .ok
  · have hlt : seq < maxSequence := UInt64.lt_of_le_of_ne (le_maxSequence seq) (hmax hok)
    -- the accepted sequence is the expected one, or the first of its locate
    have hle : g.expected loc ≤ seq := by
      rw [← UInt64.not_lt, ← observe_stale_iff, hok]
      simp
    rw [observe_snd_of_ok hok, hok]
    refine ⟨List.pairwise_append.mpr ⟨h.inOrder, List.pairwise_singleton _ _, fun x hx y hy l n s hn hs => ?_⟩,
      fun x hx l s hs => ?_⟩
    · obtain rfl := List.mem_singleton.mp hy
      obtain ⟨⟨rfl, -⟩, rfl⟩ := Observation.okSeq_eq_some.mp hs
      exact UInt64.lt_of_lt_of_le (h.below x hx _ n hn) hle
    · rw [expected_setExpected]
      rcases List.mem_append.mp hx with hx | hx
      · have hbelow := h.below x hx l s hs
        split_ifs with hl
        · rw [hl] at hbelow
          rw [lt_next hlt]
          exact UInt64.le_of_lt (UInt64.lt_of_lt_of_le hbelow hle)
        · exact hbelow
      · obtain rfl := List.mem_singleton.mp hx
        obtain ⟨⟨rfl, -⟩, rfl⟩ := Observation.okSeq_eq_some.mp hs
        rw [if_pos rfl, lt_next hlt]
        exact UInt64.le_refl _
  · rw [observe_snd_of_not_ok hok]
    have hnone : ∀ l s, Observation.okSeq l ⟨loc, seq, (g.observe loc seq).1⟩ ≠ some s :=
      fun l s hs => hok (Observation.okSeq_eq_some.mp hs).1.2
    refine ⟨List.pairwise_append.mpr ⟨h.inOrder, List.pairwise_singleton _ _, fun x hx y hy l n s hn hs => ?_⟩,
      fun x hx l s hs => ?_⟩
    · obtain rfl := List.mem_singleton.mp hy
      exact absurd hs (hnone l s)
    · rcases List.mem_append.mp hx with hx | hx
      · exact h.below x hx l s hs
      · obtain rfl := List.mem_singleton.mp hx
        exact absurd hs (hnone l s)

theorem observeAll_observed {calls : List (StockLocate × SequenceNumber)}
    (h : ∀ pre call, pre ++ [call] <+: calls → ¬ (observeAll pre).1.TakesMax call) :
    Observed (observeAll calls).1 (observeAll calls).2 := by
  refine TraceRuns.run_invariant_of_steps observeCall (I := Observed) (P := fun g call => ¬ g.TakesMax call)
    ?_ ?_ calls h
  · intro g t call hmax hobs
    exact hobs.call hmax
  · exact ⟨List.Pairwise.nil, by simp⟩

/-- Once accepted, the largest sequence stays among the accepted ones. -/
theorem okSeqs_of_takesMax {pre calls : List (StockLocate × SequenceNumber)} {call : StockLocate × SequenceNumber}
    (hpre : pre ++ [call] <+: calls) (hmax : (observeAll pre).1.TakesMax call) :
    maxSequence ∈ okSeqs call.1 (observeAll calls).2 := by
  obtain ⟨rest, rfl⟩ := hpre
  obtain ⟨hseq, hok⟩ := takesMax_iff.mp hmax
  refine List.mem_filterMap.mpr ⟨⟨call.1, call.2, ((observeAll pre).1.observe call.1 call.2).1⟩, ?_, ?_⟩
  · rw [observeAll, TraceRuns.run_append, TraceRuns.run_concat]
    refine List.mem_append_left _ (List.mem_append_right _ ?_)
    exact List.mem_singleton.mpr rfl
  · rw [Observation.okSeq_eq_some]
    exact ⟨⟨rfl, hok⟩, hseq⟩

/-- In any run of `observe` on an empty detector, the accepted sequences of every locate
strictly increase and each is stale when it comes again, exactly when no call takes the
largest sequence. -/
theorem ok_increasing_iff (calls : List (StockLocate × SequenceNumber)) :
    (∀ loc, (okSeqs loc (observeAll calls).2).Pairwise (· < ·) ∧
      ∀ s ∈ okSeqs loc (observeAll calls).2, ((observeAll calls).1.observe loc s).1 = .stale) ↔
    ∀ pre call, pre ++ [call] <+: calls → ¬ (observeAll pre).1.TakesMax call := by
  constructor
  · intro h pre call hpre hmax
    have hstale := (h call.1).2 maxSequence (okSeqs_of_takesMax hpre hmax)
    exact UInt64.not_lt.mpr (le_maxSequence _) (observe_stale_iff.mp hstale)
  · intro h loc
    have hobs := observeAll_observed h
    refine ⟨?_, fun s hs => ?_⟩
    · rw [okSeqs, List.pairwise_filterMap]
      exact hobs.inOrder.imp (fun hxy n hn s hs => hxy loc n s hn hs)
    · obtain ⟨x, hx, hxs⟩ := List.mem_filterMap.mp hs
      exact observe_stale_iff.mpr (hobs.below x hx loc s hxs)

/-- The largest sequence twice. -/
theorem maxSequence_not_stale : ¬ ∀ (calls : List (StockLocate × SequenceNumber)) (loc : StockLocate),
    (okSeqs loc (observeAll calls).2).Pairwise (· < ·) ∧
      ∀ s ∈ okSeqs loc (observeAll calls).2, ((observeAll calls).1.observe loc s).1 = .stale := by
  intro h
  exact absurd ((h [(1, maxSequence)] 1).2 maxSequence (by decide)) (by decide)

end GapDetector

end MdfeedItch
