import MdfeedItch.LogReplication
import MdfeedItch.RecoverySystem

/-! # How far a handler is on every stream

Locate by locate the handler's expected sequence moves like that of a replica of
the locate's log, whatever the messages say. So it never runs ahead of the
publisher, never goes back, and is past every datagram that it heard while the
snapshot server was within reach. -/
namespace MdfeedItch
open Std FiniteMapSums FeedHandler LogReplication

/-- The feed that a snapshot server can serve: it knows the symbol of every locate. -/
structure Served (symByLoc : ExtTreeMap StockLocate Symbol) (published : List (List UInt8)) : Prop
    extends NumberedFeed published where
  tracked : ∀ data ∈ published, (symByLoc[readLocate data]?).isSome

theorem Served.of_prefix {symByLoc : ExtTreeMap StockLocate Symbol} {before published : List (List UInt8)}
    (h : Served symByLoc published) (hpre : before <+: published) : Served symByLoc before :=
  ⟨h.toNumberedFeed.of_prefix hpre, fun data hd => h.tracked data (hpre.subset hd)⟩

namespace RecoverySystem

/-- What the stream of a locate sees of a step. -/
def event (loc : StockLocate) (s : RecoverySystem) : RecoveryAction → Option (Event AnyMessage)
  | .publish data => if readLocate data = loc then (payloadMessage data).map .append else none
  | .directory _ => none
  | .deliver i answered =>
    match s.published[i]? with
    | none => none
    | some data => if readLocate data = loc then some (.hear (readSequence data).toNat answered) else none
  | .resync l => if l = loc then some .refresh else none

/-- A step with the datagrams that the test would send: a directory datagram has no
number, and the publisher numbers what it publishes. -/
def Admits (symByLoc : ExtTreeMap StockLocate Symbol) (s : RecoverySystem) (a : RecoveryAction) : Prop :=
  Served symByLoc (s.step a).1.published ∧ ∀ data, a = .directory data → readSequence data = 0

end RecoverySystem

/-- The handler's position on a locate is that of a replica of the locate's log. -/
structure Tallies {S : Type*} (symByLoc : ExtTreeMap StockLocate Symbol) (loc : StockLocate) (s : RecoverySystem)
    (r : Replica AnyMessage S) : Prop where
  symbols : s.shadow.symByLoc = symByLoc
  log : r.log = messagesOn loc s.published
  lastSeq : (s.shadow.lastSeqByLoc[loc]?).getD 0 = UInt64.ofNat r.log.length
  expected : s.handler.gap.expected_[loc]? = r.expected.map UInt64.ofNat

theorem Shadow.provider_locate (s : Shadow) (req : SnapshotRequest) : (s.provider req).stockLocate = req.stockLocate := by
  unfold provider
  split
  · rfl
  · dsimp only
    split <;> rfl

/-- A snapshot reaches to the last sequence published on the locate. -/
theorem Shadow.provider_lastSeq {s : Shadow} {req : SnapshotRequest} {sym : Symbol}
    (hsym : s.symByLoc[req.stockLocate]? = some sym) :
    (s.provider req).lastAppliedSeq = (s.lastSeqByLoc[req.stockLocate]?).getD 0 := by
  unfold provider
  rw [hsym]
  dsimp only
  split <;> rfl

section Tally
variable {S : Type*} {symByLoc : ExtTreeMap StockLocate Symbol} {loc : StockLocate} {s : RecoverySystem}
  {r : Replica AnyMessage S} {data : List UInt8}

/-- The provider answers for the whole log, also for a locate without a symbol, whose log is empty. -/
theorem Tallies.provider_seq (h : Tallies symByLoc loc s r) (hserved : Served symByLoc s.published) (fromSeq : SequenceNumber) :
    (s.shadow.provider ⟨loc, fromSeq⟩).lastAppliedSeq = UInt64.ofNat r.log.length := by
  cases hsym : s.shadow.symByLoc[loc]? with
  | some sym => rw [Shadow.provider_lastSeq hsym, h.lastSeq]
  | none =>
    have hnil : onLocate loc s.published = [] := by
      refine List.filter_eq_nil_iff.mpr (fun data hd hloc => ?_)
      have htracked := hserved.tracked data hd
      rw [of_decide_eq_true hloc, ← h.symbols, hsym] at htracked
      cases htracked
    have hzero : r.log.length = 0 := by
      rw [h.log, hserved.length_messagesOn, hnil]
      rfl
    rw [hzero]
    unfold Shadow.provider
    rw [hsym]
    rfl

/-- The effects of a published datagram, by its number and the number expected. -/
inductive Hears (s : RecoverySystem) (data : List UInt8) (answered : Bool) : Option ℕ → List Effect → Prop
  | first : Hears s data answered none [(s.delivery data answered).accepted]
  | stale {e : ℕ} (hlt : (readSequence data).toNat < e) : Hears s data answered (some e) []
  | next : Hears s data answered (some (readSequence data).toNat) [(s.delivery data answered).accepted]
  | unanswered {e : ℕ} (hgap : e < (readSequence data).toNat) (hans : answered = false) :
      Hears s data answered (some e) [missing (readLocate data) (UInt64.ofNat e) (readSequence data)]
  | refreshed {e : ℕ} (hgap : e < (readSequence data).toNat) (hans : answered = true) :
      Hears s data answered (some e) [missing (readLocate data) (UInt64.ofNat e) (readSequence data),
        .installed (s.shadow.provider ⟨readLocate data, 0⟩)]

/-- A position of a numbered feed as a 64-bit number. -/
theorem Served.toNat_point (h : Served symByLoc s.published) (hlog : r.log = messagesOn loc s.published) {k : ℕ}
    (hk : k ≤ r.log.length + 1) : (UInt64.ofNat k).toNat = k := by
  have hsmall := h.small loc
  have htop : maxSequence.toNat = 2 ^ 64 - 1 := rfl
  rw [hlog, h.length_messagesOn] at hk
  exact UInt64.toNat_ofNat_of_lt' (by omega : k < 2 ^ 64)

theorem Tallies.hears (h : Tallies symByLoc (readLocate data) s r) (hserved : Served symByLoc s.published)
    (hone : ∀ e, r.expected = some e → 1 ≤ e) (hbound : r.position ≤ r.log.length) (hd : data ∈ s.published)
    (answered : Bool) : Hears s data answered r.expected (s.hand data answered).2 := by
  obtain ⟨hfirst, hlast, -⟩ := hserved.entry hd
  rw [← h.log] at hlast
  have hframed : (s.delivery data answered).Framed := hserved.framed data hd
  have hseq : readSequence data ≠ 0 := by
    intro hzero
    rw [hzero] at hfirst
    exact absurd hfirst (by decide)
  -- what the handler expects, as a number
  have hexp : ∀ {e}, r.expected = some e → (UInt64.ofNat e).toNat = e ∧ e ≤ r.log.length + 1 := by
    intro e he
    have hpos := Replica.position_of_expected he
    have hle : e ≤ r.log.length + 1 := by
      have := hone e he
      omega
    exact ⟨hserved.toNat_point h.log hle, hle⟩
  have hmaps : ∀ {n}, s.handler.gap.expected_[readLocate data]? = some n → ∃ e, r.expected = some e ∧ UInt64.ofNat e = n := by
    intro n hn
    rw [h.expected, Option.map_eq_some_iff] at hn
    exact hn
  have hanswer : ∀ n, (s.delivery data answered).answer ⟨readLocate data, n⟩ =
      if answered then some (s.shadow.provider ⟨readLocate data, 0⟩) else none := fun n => rfl
  have hemits := s.handler.deliver_emits (s.delivery data answered)
  change Hears s data answered r.expected (s.handler.deliver (s.delivery data answered)).2
  generalize (s.handler.deliver (s.delivery data answered)).2 = fx at hemits ⊢
  cases hemits with
  | silent hwhy =>
    obtain ⟨-, -, n, hold, hlt⟩ := hwhy.resolve_left (not_not_intro hframed)
    obtain ⟨e, he, rfl⟩ := hmaps hold
    rw [UInt64.lt_iff_toNat_lt, (hexp he).1] at hlt
    rw [he]
    exact .stale hlt
  | bootstrap _ hzero => exact absurd hzero hseq
  | next _ _ hnext =>
    cases he : r.expected with
    | none => exact .first
    | some e =>
      have hsame := hnext (UInt64.ofNat e) (by rw [Delivery.loc]; exact h.expected.trans (by rw [he]; rfl))
      have hnum : (readSequence data).toNat = e := (congrArg UInt64.toNat hsame).trans (hexp he).1
      rw [← hnum]
      exact .next
  | @unfilled n _ _ hold hgap hnone _ =>
    obtain ⟨e, he, rfl⟩ := hmaps hold
    rw [UInt64.lt_iff_toNat_lt, (hexp he).1] at hgap
    have hans : answered = false := by
      by_contra hsome
      rw [Bool.not_eq_false] at hsome
      have hanswered := (hanswer (UInt64.ofNat e)).symm.trans hnone
      rw [if_pos hsome] at hanswered
      cases hanswered
    rw [he]
    exact .unanswered hgap hans
  | @covered n snap _ _ hold hgap hsnap _ =>
    obtain ⟨e, he, rfl⟩ := hmaps hold
    rw [UInt64.lt_iff_toNat_lt, (hexp he).1] at hgap
    have hanswered := (hanswer (UInt64.ofNat e)).symm.trans hsnap
    split_ifs at hanswered with hans
    cases hanswered
    rw [he]
    exact .refreshed hgap hans
  | @recovered n snap _ _ hold hgap hsnap hcov =>
    -- the snapshot was taken after the datagram was published, so it covers it
    exfalso
    have hanswered := (hanswer n).symm.trans hsnap
    split_ifs at hanswered
    cases hanswered
    have hown : (s.delivery data answered).loc = readLocate data := rfl
    rw [GapDetector.expected_setExpected, Shadow.provider_locate, hown, if_pos rfl, h.provider_seq hserved,
      UInt64.le_iff_toNat_le, ← UInt64.ofNat_one, ← UInt64.ofNat_add, hserved.toNat_point h.log (Nat.le_refl _)] at hcov
    exact absurd (hcov.trans hlast) (by omega)
  | skipped _ _ _ _ hnone _ => cases hnone

/-! ## One step -/

theorem expected_accepted_lookup (g : GapDetector) (d : Delivery) (hseq : d.seq ≠ 0) (l : StockLocate) :
    (Effect.onGap g d.accepted).expected_[l]? = if l = d.loc then some (d.seq + 1) else g.expected_[l]? := by
  rw [onGap_accepted hseq, GapDetector.lookup_setExpected]

/-- A datagram moves its own locate as the replica is moved. -/
theorem Tallies.expected_hand (h : Tallies symByLoc (readLocate data) s r) (hserved : Served symByLoc s.published)
    (hone : ∀ e, r.expected = some e → 1 ≤ e) (hbound : r.position ≤ r.log.length) (hd : data ∈ s.published)
    (answered : Bool) (apply : S → AnyMessage → S) (restore : List AnyMessage → S → S) :
    (s.hand data answered).1.handler.gap.expected_[readLocate data]? =
      (r.step apply restore (.hear (readSequence data).toNat answered)).expected.map UInt64.ofNat := by
  have hnext : (readSequence data) + 1 = UInt64.ofNat ((readSequence data).toNat + 1) := by
    rw [UInt64.ofNat_add, UInt64.ofNat_toNat, UInt64.ofNat_one]
  have hseq : (s.delivery data answered).seq ≠ 0 := by
    intro hzero
    have hfirst := (hserved.entry hd).1
    change readSequence data = 0 at hzero
    rw [hzero] at hfirst
    exact absurd hfirst (by decide)
  have haccepted : (Effect.onGap s.handler.gap (s.delivery data answered).accepted).expected_[readLocate data]? =
      some (UInt64.ofNat ((readSequence data).toNat + 1)) := by
    rw [expected_accepted_lookup _ _ hseq, ← hnext]
    exact if_pos rfl
  have hhears := h.hears hserved hone hbound hd answered
  change (s.handler.deliver (s.delivery data answered)).1.gap.expected_[readLocate data]? = _
  rw [(s.handler.deliver_replays (s.delivery data answered)).gap]
  change ((s.hand data answered).2.foldl Effect.onGap s.handler.gap).expected_[readLocate data]? = _
  have hbefore := h.expected
  generalize hexp : r.expected = expected at hhears hbefore
  generalize (s.hand data answered).2 = fx at hhears ⊢
  cases hhears with
  | first =>
    rw [Replica.step_first hexp]
    exact haccepted
  | stale hlt =>
    rw [Replica.step_stale hexp hlt, hexp]
    exact hbefore
  | next =>
    rw [Replica.step_next hexp]
    exact haccepted
  | unanswered hgap hans =>
    subst hans
    rw [Replica.step_unanswered hexp hgap, hexp]
    exact hbefore
  | refreshed hgap hans =>
    subst hans
    rw [Replica.step_answered hexp hgap]
    change ((s.handler.gap.setExpected _ _).expected_[readLocate data]?) = some (UInt64.ofNat (r.log.length + 1))
    rw [GapDetector.lookup_setExpected, Shadow.provider_locate, if_pos rfl, h.provider_seq hserved, UInt64.ofNat_add,
      UInt64.ofNat_one]

/-- The datagram of another locate moves nothing here. -/
theorem expected_hand_elsewhere (s : RecoverySystem) (data : List UInt8) (answered : Bool) (hl : loc ≠ readLocate data) :
    (s.hand data answered).1.handler.gap.expected_[loc]? = s.handler.gap.expected_[loc]? := by
  change (s.handler.deliver (s.delivery data answered)).1.gap.expected_[loc]? = _
  rw [(s.handler.deliver_replays (s.delivery data answered)).gap]
  have haccepted : ∀ g : GapDetector, (Effect.onGap g (s.delivery data answered).accepted).expected_[loc]? = g.expected_[loc]? := by
    intro g
    by_cases hseq : (s.delivery data answered).seq = 0
    · exact congrArg (fun g' : GapDetector => g'.expected_[loc]?) (if_pos hseq)
    · rw [expected_accepted_lookup g _ hseq]
      exact if_neg hl
  have hinstalled : ∀ {req : SnapshotRequest} {snap}, (s.delivery data answered).answer req = some snap →
      snap.stockLocate = req.stockLocate := by
    intro req snap hsnap
    rw [Delivery.answer, RecoverySystem.delivery, Option.bind_some, RecoverySystem.requester] at hsnap
    split_ifs at hsnap
    cases hsnap
    exact s.shadow.provider_locate req
  have hset : ∀ (g : GapDetector) {req : SnapshotRequest} {snap}, req.stockLocate = readLocate data →
      (s.delivery data answered).answer req = some snap → (Effect.onGap g (.installed snap)).expected_[loc]? = g.expected_[loc]? := by
    intro g req snap hreq hsnap
    rw [Effect.onGap, GapDetector.lookup_setExpected, hinstalled hsnap, hreq, if_neg hl]
  have hemits := s.handler.deliver_emits (s.delivery data answered)
  generalize (s.handler.deliver (s.delivery data answered)).2 = fx at hemits ⊢
  cases hemits with
  | silent _ => rfl
  | bootstrap _ _ | next _ _ _ => exact haccepted _
  | unfilled _ _ _ _ _ _ => rfl
  | covered _ _ _ _ hsnap _ => exact hset _ rfl hsnap
  | recovered _ _ _ _ hsnap _ => exact (haccepted _).trans (hset _ rfl hsnap)
  | skipped _ _ _ _ _ _ => exact haccepted _

/-- Publishing appends to the log of the datagram's locate. -/
theorem Tallies.publish (h : Tallies symByLoc loc s r) (hserved : Served symByLoc (s.published ++ [data]))
    (apply : S → AnyMessage → S) (restore : List AnyMessage → S → S) :
    Tallies symByLoc loc (s.step (.publish data)).1
      ((s.event loc (.publish data)).elim r (r.step apply restore)) := by
  obtain ⟨hnum, m, hm, hlog⟩ := hserved.newest
  have hsym : (s.shadow.update data).symByLoc = symByLoc := by
    rw [Shadow.update, hm]
    exact h.symbols
  have hlookup : ((s.shadow.update data).lastSeqByLoc[loc]?) =
      if loc = readLocate data then some (readSequence data) else s.shadow.lastSeqByLoc[loc]? := by
    rw [Shadow.update, hm]
    exact lookup_insert s.shadow.lastSeqByLoc (readLocate data) loc (readSequence data)
  by_cases hl : readLocate data = loc
  · subst hl
    have hevent : s.event (readLocate data) (.publish data) = some (.append m) := by
      rw [RecoverySystem.event, if_pos rfl, hm]
      rfl
    rw [hevent]
    refine ⟨hsym, ?_, ?_, h.expected⟩
    · change r.log ++ [m] = _
      rw [h.log]
      exact hlog.symm
    · change ((s.shadow.update data).lastSeqByLoc[readLocate data]?).getD 0 = UInt64.ofNat (r.log ++ [m]).length
      rw [hlookup, if_pos rfl, Option.getD_some, List.length_append, List.length_singleton, h.log, ← hnum, UInt64.ofNat_toNat]
  · have hevent : s.event loc (.publish data) = none := if_neg hl
    rw [hevent]
    refine ⟨hsym, ?_, ?_, h.expected⟩
    · change r.log = messagesOn loc (s.published ++ [data])
      rw [messagesOn_concat, if_neg hl, List.append_nil, h.log]
    · change ((s.shadow.update data).lastSeqByLoc[loc]?).getD 0 = UInt64.ofNat r.log.length
      rw [hlookup, if_neg (Ne.symm hl), h.lastSeq]

/-- A snapshot on demand moves its own locate to the end of the log. -/
theorem Tallies.resync (h : Tallies symByLoc loc s r) (hserved : Served symByLoc s.published) (l : StockLocate)
    (apply : S → AnyMessage → S) (restore : List AnyMessage → S → S) :
    Tallies symByLoc loc (s.step (.resync l)).1
      ((s.event loc (.resync l)).elim r (r.step apply restore)) := by
  have hlookup : (s.step (.resync l)).1.handler.gap.expected_[loc]? = if loc = l
      then some ((s.shadow.provider ⟨l, 0⟩).lastAppliedSeq + 1) else s.handler.gap.expected_[loc]? := by
    change ((s.handler.gap.setExpected (s.shadow.provider ⟨l, 0⟩).stockLocate _).expected_[loc]?) = _
    rw [GapDetector.lookup_setExpected, Shadow.provider_locate]
  by_cases hl : l = loc
  · subst hl
    have hevent : s.event l (.resync l) = some .refresh := if_pos rfl
    rw [hevent]
    refine ⟨h.symbols, h.log, h.lastSeq, ?_⟩
    rw [hlookup, if_pos rfl, h.provider_seq hserved]
    change _ = some (UInt64.ofNat (r.log.length + 1))
    rw [UInt64.ofNat_add, UInt64.ofNat_one]
  · have hevent : s.event loc (.resync l) = none := if_neg hl
    rw [hevent]
    refine ⟨h.symbols, h.log, h.lastSeq, ?_⟩
    rw [hlookup, if_neg (Ne.symm hl)]
    exact h.expected

/-- A directory datagram moves no locate. -/
theorem expected_directory (s : RecoverySystem) (hseq : readSequence data = 0) :
    (s.step (.directory data)).1.handler.gap = s.handler.gap := by
  change (s.handler.deliver (s.delivery data true)).1.gap = _
  rw [(s.handler.deliver_replays (s.delivery data true)).gap]
  have hzero : (s.delivery data true).seq = 0 := hseq
  have hemits := s.handler.deliver_emits (s.delivery data true)
  generalize (s.handler.deliver (s.delivery data true)).2 = fx at hemits ⊢
  cases hemits with
  | silent _ => rfl
  | bootstrap _ _ => exact if_pos hzero
  | next _ hne _ | unfilled _ hne _ _ _ _ | covered _ hne _ _ _ _ | recovered _ hne _ _ _ _ | skipped _ hne _ _ _ _ =>
    exact absurd hzero hne

theorem Tallies.deliver (h : Tallies symByLoc loc s r) (hserved : Served symByLoc s.published)
    (hone : ∀ e, r.expected = some e → 1 ≤ e) (hbound : r.position ≤ r.log.length) (i : ℕ) (answered : Bool)
    (apply : S → AnyMessage → S) (restore : List AnyMessage → S → S) :
    Tallies symByLoc loc (s.step (.deliver i answered)).1
      ((s.event loc (.deliver i answered)).elim r (r.step apply restore)) := by
  cases hi : s.published[i]? with
  | none =>
    simp only [RecoverySystem.step, RecoverySystem.event, hi]
    exact h
  | some data =>
    simp only [RecoverySystem.step, RecoverySystem.event, hi]
    by_cases hl : readLocate data = loc
    · subst hl
      rw [if_pos rfl, Option.elim_some]
      have hlog : (r.step apply restore (.hear (readSequence data).toNat answered)).log = r.log := by
        rw [Replica.log_step, List.append_nil]
      refine ⟨h.symbols, hlog.trans h.log, ?_, ?_⟩
      · rw [hlog]
        exact h.lastSeq
      · exact h.expected_hand hserved hone hbound (List.mem_of_getElem? hi) answered apply restore
    · rw [if_neg hl, Option.elim_none]
      refine ⟨h.symbols, h.log, h.lastSeq, ?_⟩
      rw [expected_hand_elsewhere s data answered (Ne.symm hl)]
      exact h.expected

end Tally

/-! ## Runs -/

/-- The stream that a locate's replica starts with. -/
def initialReplica {S : Type*} (started : List StockLocate) (loc : StockLocate) (start : S) : Replica AnyMessage S :=
  ⟨[], if loc ∈ started then some 1 else none, .scratch 0, start⟩

section Runs
variable {S : Type*} {symByLoc : ExtTreeMap StockLocate Symbol} {loc : StockLocate} {s : RecoverySystem}
  {r : Replica AnyMessage S} {apply : S → AnyMessage → S} {restore : List AnyMessage → S → S} {start : S}
  {Legal : S → Prop} {Good : List AnyMessage → Prop} {a : RecoveryAction}

theorem RecoverySystem.Admits.served (h : s.Admits symByLoc a) : Served symByLoc s.published :=
  Served.of_prefix h.1 (s.published_step a)

theorem Tallies.possible (h : Tallies symByLoc loc s r) (hserved : Served symByLoc s.published) {e : Event AnyMessage}
    (he : s.event loc a = some e) : e.Possible r := by
  cases a with
  | publish data =>
    simp only [RecoverySystem.event] at he
    split_ifs at he
    obtain ⟨m, -, rfl⟩ := Option.map_eq_some_iff.mp he
    trivial
  | directory data => cases he
  | deliver i answered =>
    cases hi : s.published[i]? with
    | none =>
      simp only [RecoverySystem.event, hi] at he
      cases he
    | some data =>
      simp only [RecoverySystem.event, hi] at he
      split_ifs at he with hl
      cases he
      obtain ⟨hfirst, hlast, -⟩ := hserved.entry (List.mem_of_getElem? hi)
      rw [hl, ← h.log] at hlast
      exact ⟨hfirst, hlast⟩
  | resync l =>
    simp only [RecoverySystem.event] at he
    split_ifs at he
    cases he
    trivial

/-- One step of the system is at most one event of a locate's replica. -/
theorem Tallies.step (h : Tallies symByLoc loc s r) (hf : r.Follows apply restore start Legal) (hadm : s.Admits symByLoc a) :
    Tallies symByLoc loc (s.step a).1 ((s.event loc a).elim r (r.step apply restore)) := by
  cases a with
  | publish data => exact h.publish hadm.1 apply restore
  | directory data =>
    refine ⟨h.symbols, h.log, h.lastSeq, ?_⟩
    rw [expected_directory s (hadm.2 data rfl)]
    exact h.expected
  | deliver i answered => exact h.deliver hadm.served hf.expects hf.bound i answered apply restore
  | resync l => exact h.resync hadm.served l apply restore

theorem Tallies.follows_step (h : Tallies symByLoc loc s r) (hf : r.Follows apply restore start Legal)
    (hk : Keeps apply restore Legal Good) (hadm : s.Admits symByLoc a) (hgood : Good (messagesOn loc s.published)) :
    ((s.event loc a).elim r (r.step apply restore)).Follows apply restore start Legal := by
  cases he : s.event loc a with
  | none => exact hf
  | some e => exact hf.step hk (h.log ▸ hgood) (h.possible hadm.served he)

theorem lookup_started (started : List StockLocate) (loc : StockLocate) (g : GapDetector) :
    (started.foldl (fun g loc => g.start loc) g).expected_[loc]? = if loc ∈ started then some 1 else g.expected_[loc]? := by
  induction started generalizing g with
  | nil => simp
  | cons l started ih =>
    rw [List.foldl_cons, ih, GapDetector.start, GapDetector.lookup_setExpected]
    by_cases hmem : loc ∈ started
    · simp [hmem]
    · simp [hmem]

theorem Tallies.initial (depth : ℕ) (skip : Bool) (symByLoc : ExtTreeMap StockLocate Symbol) (started : List StockLocate)
    (loc : StockLocate) (start : S) :
    Tallies symByLoc loc (RecoverySystem.new depth skip symByLoc started) (initialReplica started loc start) := by
  refine ⟨rfl, rfl, ?_, ?_⟩
  · simp [RecoverySystem.new, initialReplica]
  · change ((started.foldl (fun g loc => g.start loc) GapDetector.new).expected_[loc]?) = _
    rw [lookup_started, initialReplica]
    split_ifs
    · rfl
    · simp [GapDetector.new]

theorem initialReplica_follows (started : List StockLocate) (loc : StockLocate) (hlegal : Legal start) :
    (initialReplica started loc start).Follows apply restore start Legal := by
  have hpos : (initialReplica started loc start).position = 0 := by
    unfold initialReplica Replica.position
    split_ifs <;> rfl
  refine ⟨fun e he => ?_, ?_, ?_, fun _ => rfl, fun n hn => ?_, fun n hn => ?_, hlegal⟩
  · unfold initialReplica at he
    split_ifs at he
    cases he
    exact Nat.le_refl 1
  · rw [hpos]
    exact Nat.zero_le _
  · exact Nat.zero_le _
  · cases hn
    rw [hpos]
    rfl
  · cases hn

/-- The replica of a locate after a list of steps. -/
def RecoverySystem.replicaAfter (s : RecoverySystem) (loc : StockLocate) (apply : S → AnyMessage → S)
    (restore : List AnyMessage → S → S) (r : Replica AnyMessage S) (acts : List RecoveryAction) : Replica AnyMessage S :=
  (TraceRuns.observed RecoverySystem.step (fun s a => (s.event loc a).toList) s acts).foldl (Replica.step apply restore) r

theorem published_run (s : RecoverySystem) {pre acts : List RecoveryAction} (hpre : pre <+: acts) :
    (s.run pre).1.published <+: (s.run acts).1.published := by
  obtain ⟨rest, rfl⟩ := hpre
  induction rest using List.reverseRecOn with
  | nil => rw [List.append_nil]
  | append_singleton rest a ih =>
    rw [← List.append_assoc, RecoverySystem.run_concat]
    exact ih.trans (RecoverySystem.published_step _ a)

/-- Every step of a run is admitted when the final feed is one that can be served. -/
theorem admits_of_final {s : RecoverySystem} {acts : List RecoveryAction}
    (hserved : Served symByLoc (s.run acts).1.published)
    (hdir : ∀ data, .directory data ∈ acts → readSequence data = 0) :
    ∀ pre a, pre ++ [a] <+: acts → (s.run pre).1.Admits symByLoc a := by
  intro pre a hpre
  have hgrows := published_run s hpre
  rw [RecoverySystem.run_concat] at hgrows
  exact ⟨hserved.of_prefix hgrows, fun data ha => hdir data (hpre.subset (by simp [ha]))⟩

/-- Along every run the handler's position is the replica's, and the replica follows its log. -/
theorem tallies_run {s : RecoverySystem} {r : Replica AnyMessage S} (h : Tallies symByLoc loc s r)
    (hf : r.Follows apply restore start Legal) (hk : Keeps apply restore Legal Good) {acts : List RecoveryAction}
    (hadm : ∀ pre a, pre ++ [a] <+: acts → (s.run pre).1.Admits symByLoc a)
    (hgood : Good (messagesOn loc (s.run acts).1.published)) :
    Tallies symByLoc loc (s.run acts).1 (s.replicaAfter loc apply restore r acts) ∧
      (s.replicaAfter loc apply restore r acts).Follows apply restore start Legal := by
  have hlogs : ∀ pre a, pre ++ [a] <+: acts → Good (messagesOn loc (s.run pre).1.published) := fun pre a hpre =>
    hk.before (((published_run s ((List.prefix_append pre [a]).trans hpre)).filter _).filterMap _) hgood
  refine TraceRuns.run_simulates RecoverySystem.step (fun s a => (s.event loc a).toList)
    (R := fun s _ r => Tallies symByLoc loc s r ∧ Replica.Follows apply restore start Legal r)
    (P := fun s a => s.Admits symByLoc a ∧ Good (messagesOn loc s.published)) ?_ ⟨h, hf⟩ acts
    (fun pre a hpre => ⟨hadm pre a hpre, hlogs pre a hpre⟩)
  rintro s t r a ⟨ha, hgood⟩ ⟨ht, hfollows⟩
  have hstep := And.intro (ht.step hfollows ha) (ht.follows_step hfollows hk ha hgood)
  cases he : s.event loc a with
  | none => rwa [he] at hstep
  | some e => rwa [he] at hstep

end Runs

/-- Positions alone: any state will do. -/
theorem keeps_positions : Keeps (M := AnyMessage) (S := Unit) (fun s _ => s) (fun _ s => s) (fun _ => True) (fun _ => True) :=
  ⟨fun _ _ => trivial, fun _ _ _ => trivial, fun _ _ => trivial⟩

theorem initialReplica_positions (started : List StockLocate) (loc : StockLocate) :
    (initialReplica started loc ()).Follows (fun s _ => s) (fun _ s => s) () (fun _ => True) :=
  initialReplica_follows started loc trivial

/-- Locate 1 with the sample symbol. -/
def sampleLocates : ExtTreeMap StockLocate Symbol := (∅ : ExtTreeMap StockLocate Symbol).insert 1 sampleSymbol

end MdfeedItch
