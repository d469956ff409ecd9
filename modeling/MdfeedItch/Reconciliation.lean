import MdfeedItch.RecoveryPositions
import MdfeedItch.SnapshotTransfer

/-! # Snapshots make the handler current

Whatever a run has left in the handler's books, orders that the messages of one
locate placed for another included, an answer of the snapshot provider brings its
symbol to the levels that the publisher shows. So the requests at the end of the
test reconcile every symbol they ask for. -/
namespace MdfeedItch
open Std FiniteMapSums FeedHandler LogReplication

def SameLevels (sym : Symbol) (d d' : DepthBook) : Prop :=
  (d.snapshot sym).bids = (d'.snapshot sym).bids ∧ (d.snapshot sym).asks = (d'.snapshot sym).asks

theorem SameLevels.of_top {sym : Symbol} {d d' : DepthBook}
    (h : ∀ buy, (d.bookAt (symbolKey sym)).top buy = (d'.bookAt (symbolKey sym)).top buy) : SameLevels sym d d' := by
  obtain ⟨hbids, hasks⟩ := d.snapshot_sides sym
  obtain ⟨hbids', hasks'⟩ := d'.snapshot_sides sym
  exact ⟨hbids.trans ((h true).trans hbids'.symm), hasks.trans ((h false).trans hasks'.symm)⟩

theorem Deep.apply {configured : ℕ} {d : DepthBook} (h : Deep configured [] d) (hfit : LevelSumsFit d) (m : AnyMessage) :
    Deep configured [] (d.apply m).book := by
  have hm := DepthBook.apply_follows h.keyed m
  cases ha : m.action with
  | none =>
    rw [ha] at hm
    dsimp only at hm
    rwa [hm]
  | some a =>
    rw [ha] at hm
    exact h.call hfit hm

structure Shadow.Sound (depth : ℕ) (symByLoc : ExtTreeMap StockLocate Symbol) (s : Shadow) : Prop where
  symbols : s.symByLoc = symByLoc
  deep : Deep depth [] s.book

section Shadows
variable {depth : ℕ} {symByLoc : ExtTreeMap StockLocate Symbol} {s : Shadow} {loc : StockLocate} {sym : Symbol}

theorem Shadow.Sound.update (h : s.Sound depth symByLoc) (hfit : LevelSumsFit s.book) (data : List UInt8) :
    (s.update data).Sound depth symByLoc := by
  unfold Shadow.update
  cases payloadMessage data with
  | none => exact h
  | some m => exact ⟨h.symbols, h.deep.apply hfit m⟩

/-- The answer quotes the shadow's book of the locate's symbol, and no book for an unknown one. -/
theorem Shadow.provider_tracked (hsym : s.symByLoc[loc]? = some sym) (fromSeq : SequenceNumber) :
    s.provider ⟨loc, fromSeq⟩ = ⟨loc, (s.lastSeqByLoc[loc]?).getD 0, sym,
      (s.book.bookAt (symbolKey sym)).topBids, (s.book.bookAt (symbolKey sym)).topAsks⟩ := by
  simp only [Shadow.provider, hsym, DepthBook.find, DepthBook.bookAt]
  cases s.book.books[symbolKey sym]? with
  | none => rfl
  | some b => rfl

theorem Shadow.Sound.rebuild (h : s.Sound depth symByLoc) (hfit : LevelSumsFit s.book) (hdepth : depth < 2 ^ 30)
    {snap : SnapshotResponse} (hbids : snap.bids = (s.book.bookAt (symbolKey sym)).topBids)
    (hasks : snap.asks = (s.book.bookAt (symbolKey sym)).topAsks) :
    (∀ buy, snap.rebuild.top buy = (s.book.bookAt (symbolKey sym)).top buy) ∧ snap.rebuild.invariantsOk = true := by
  have hagg := h.deep.aggregated (symbolKey sym)
  have hqty := hfit (symbolKey sym)
  have hbook : (s.book.bookAt (symbolKey sym)).depth = depth := h.deep.depth (symbolKey sym)
  have hok := hagg.levelsKept_iff.mpr ⟨CountsFit.of_small hagg.qtyPos hqty, fun buy p hvisible => ?_⟩
  · have hsides := (SymbolBook.invariantsOk_iff _).mp hok.1
    have hlen : ∀ buy, ((s.book.bookAt (symbolKey sym)).top buy).length ≤ depth := fun buy => hbook ▸ (hsides buy).1
    have hlenBids : snap.bids.length ≤ depth := hbids ▸ hlen true
    have hlenAsks : snap.asks.length ≤ depth := hasks ▸ hlen false
    obtain ⟨htopBids, htopAsks⟩ := rebuild_shows hagg hqty hbids hasks (by omega)
    have htop : ∀ buy, snap.rebuild.top buy = (s.book.bookAt (symbolKey sym)).top buy := by
      intro buy
      cases buy with
      | true => exact htopBids
      | false => exact htopAsks
    refine ⟨htop, (SymbolBook.invariantsOk_iff _).mpr (fun buy => ?_)⟩
    rw [htop]
    refine ⟨?_, (hsides buy).2⟩
    rw [(rebuild_kept snap).2, SnapshotResponse.size, hbids, hasks]
    cases buy with
    | true => exact Nat.le_max_left _ _
    | false => exact Nat.le_max_right _ _
  · -- a visible price has an order, and so shares
    obtain ⟨prices, -, hmem, hp⟩ := hvisible
    have hlive := (hmem p).mp (List.mem_of_mem_take hp)
    have hshares := levelCount_le_levelQty hagg.qtyPos buy p
    have hsmall := hqty buy p
    omega

end Shadows

/-- The handler shows the publisher's levels of a locate's symbol in a sound book, and
goes on behind the last message of the locate. -/
structure Current (loc : StockLocate) (sym : Symbol) (s : RecoverySystem) : Prop where
  levels : SameLevels sym s.handler.book s.shadow.book
  sound : (s.handler.book.bookAt (symbolKey sym)).invariantsOk = true
  next : s.handler.gap.expected_[loc]? = some ((s.shadow.lastSeqByLoc[loc]?).getD 0 + 1)

section Answers
variable {depth : ℕ} {symByLoc : ExtTreeMap StockLocate Symbol} {s : RecoverySystem} {loc : StockLocate} {sym : Symbol}

theorem Shadow.Sound.install {src : Shadow} (h : src.Sound depth symByLoc) (hfit : LevelSumsFit src.book)
    (hdepth : depth < 2 ^ 30) (hsym : symByLoc[loc]? = some sym) (d : DepthBook) (fromSeq : SequenceNumber) :
    SameLevels sym (d.install (src.provider ⟨loc, fromSeq⟩)) src.book ∧
      ((d.install (src.provider ⟨loc, fromSeq⟩)).bookAt (symbolKey sym)).invariantsOk = true := by
  have hanswer := Shadow.provider_tracked (h.symbols ▸ hsym) fromSeq
  obtain ⟨htop, hok⟩ := h.rebuild hfit hdepth (congrArg SnapshotResponse.bids hanswer) (congrArg SnapshotResponse.asks hanswer)
  have hbook := install_bookAt d (src.provider ⟨loc, fromSeq⟩) (symbolKey sym)
  rw [if_pos (by rw [hanswer])] at hbook
  refine ⟨SameLevels.of_top (fun buy => ?_), ?_⟩
  · rw [hbook]
    exact htop buy
  · rw [hbook]
    exact hok

theorem Current.of_resync (h : s.shadow.Sound depth symByLoc) (hfit : LevelSumsFit s.shadow.book) (hdepth : depth < 2 ^ 30)
    (hsym : symByLoc[loc]? = some sym) : Current loc sym (s.step (.resync loc)).1 := by
  obtain ⟨hlevels, hok⟩ := h.install hfit hdepth hsym s.handler.book 0
  refine ⟨hlevels, hok, ?_⟩
  change (s.handler.gap.setExpected (s.shadow.provider ⟨loc, 0⟩).stockLocate
    ((s.shadow.provider ⟨loc, 0⟩).lastAppliedSeq + 1)).expected_[loc]? = _
  rw [Shadow.provider_locate, GapDetector.lookup_setExpected, if_pos rfl, Shadow.provider_tracked (h.symbols ▸ hsym)]
  rfl

theorem resync_elsewhere (s : RecoverySystem) (l : StockLocate) :
    (∀ sym, sym ≠ (s.shadow.provider ⟨l, 0⟩).symbol →
      (s.step (.resync l)).1.handler.book.find sym = s.handler.book.find sym) ∧
      ∀ loc, loc ≠ l → (s.step (.resync l)).1.handler.gap.expected_[loc]? = s.handler.gap.expected_[loc]? := by
  refine ⟨fun sym hne => ?_, fun loc hne => ?_⟩
  · exact (install_find s.handler.book (s.shadow.provider ⟨l, 0⟩) sym).trans (if_neg hne)
  · change (s.handler.gap.setExpected (s.shadow.provider ⟨l, 0⟩).stockLocate
      ((s.shadow.provider ⟨l, 0⟩).lastAppliedSeq + 1)).expected_[loc]? = _
    rw [Shadow.provider_locate, GapDetector.lookup_setExpected, if_neg hne]

theorem Current.resync (hc : Current loc sym s) (h : s.shadow.Sound depth symByLoc) (hfit : LevelSumsFit s.shadow.book)
    (hdepth : depth < 2 ^ 30) (hsym : symByLoc[loc]? = some sym) {l : StockLocate} {sym' : Symbol}
    (hl : symByLoc[l]? = some sym') : Current loc sym (s.step (.resync l)).1 := by
  by_cases hsame : loc = l
  · subst hsame
    exact Current.of_resync h hfit hdepth hsym
  · obtain ⟨hfind, hexpected⟩ := resync_elsewhere s l
    have hnext := (hexpected loc hsame).trans hc.next
    by_cases hsymbol : sym = sym'
    · subst hsymbol
      have hnew := Current.of_resync h hfit hdepth hl
      exact ⟨hnew.levels, hnew.sound, hnext⟩
    · have hkept : (s.step (.resync l)).1.handler.book.bookAt (symbolKey sym) = s.handler.book.bookAt (symbolKey sym) := by
        change (s.handler.book.install (s.shadow.provider ⟨l, 0⟩)).bookAt (symbolKey sym) = _
        rw [install_bookAt, Shadow.provider_tracked (h.symbols ▸ hl), if_neg (fun heq => hsymbol (symbolKey_injective heq).symm)]
      refine ⟨?_, hkept ▸ hc.sound, hnext⟩
      obtain ⟨hbids, hasks⟩ := (s.step (.resync l)).1.handler.book.snapshot_sides sym
      obtain ⟨hbids', hasks'⟩ := s.handler.book.snapshot_sides sym
      rw [hkept] at hbids hasks
      exact ⟨(hbids.trans hbids'.symm).trans hc.levels.1, (hasks.trans hasks'.symm).trans hc.levels.2⟩

end Answers

section Runs
variable {depth : ℕ} {skip : Bool} {symByLoc : ExtTreeMap StockLocate Symbol} {started : List StockLocate}
  {acts : List RecoveryAction} {s : RecoverySystem} {loc : StockLocate} {sym : Symbol}

theorem shadow_step (s : RecoverySystem) (a : RecoveryAction) :
    (s.step a).1.shadow = match a with | .publish data => s.shadow.update data | _ => s.shadow := by
  cases a with
  | publish data => rfl
  | directory data => rfl
  | deliver i answered =>
    simp only [RecoverySystem.step]
    cases s.published[i]? with
    | none => rfl
    | some data => rfl
  | resync l => rfl

theorem sound_run (hfit : ∀ pre, pre <+: acts →
      LevelSumsFit ((RecoverySystem.new depth skip symByLoc started).run pre).1.shadow.book) :
    ((RecoverySystem.new depth skip symByLoc started).run acts).1.shadow.Sound depth symByLoc := by
  have hstep : ∀ (s : RecoverySystem) (t : List Effect) (a : RecoveryAction), LevelSumsFit s.shadow.book →
      s.shadow.Sound depth symByLoc → (s.step a).1.shadow.Sound depth symByLoc := by
    intro s _ a hsmall hsound
    rw [shadow_step]
    cases a with
    | publish data => exact hsound.update hsmall data
    | directory | deliver | resync => exact hsound
  exact TraceRuns.run_invariant_of_steps RecoverySystem.step hstep ⟨rfl, Deep.of_new depth⟩ acts
    (fun pre a hpre => hfit pre ((List.prefix_append pre [a]).trans hpre))

/-- Whatever the feed was, and whatever of it was lost, repeated, reordered or left
unanswered: when the feed is over, a snapshot of each of some locates, in any order and
however often, leaves all of them current. The books of the other symbols and the
positions of the other locates are what they were. -/
theorem end_of_feed_reconciles (hdepth : depth < 2 ^ 30) (hfit : ∀ pre, pre <+: acts →
      LevelSumsFit ((RecoverySystem.new depth skip symByLoc started).run pre).1.shadow.book)
    {locs : List StockLocate} (htracked : ∀ loc ∈ locs, (symByLoc[loc]?).isSome) :
    let feed := ((RecoverySystem.new depth skip symByLoc started).run acts).1
    let final := (feed.run (locs.map .resync)).1
    final.shadow = feed.shadow ∧ (∀ loc ∈ locs, ∀ sym, symByLoc[loc]? = some sym → Current loc sym final) ∧
      (∀ sym, (∀ loc ∈ locs, symByLoc[loc]? ≠ some sym) → final.handler.book.find sym = feed.handler.book.find sym) ∧
      ∀ loc, loc ∉ locs → final.handler.gap.expected_[loc]? = feed.handler.gap.expected_[loc]? := by
  intro feed
  have hsound : feed.shadow.Sound depth symByLoc := sound_run hfit
  have hsums : LevelSumsFit feed.shadow.book := hfit acts (List.prefix_refl acts)
  dsimp only
  induction locs using List.reverseRecOn with
  | nil => exact ⟨rfl, fun loc hloc => absurd hloc (by simp), fun _ _ => rfl, fun _ _ => rfl⟩
  | append_singleton locs l ih =>
    obtain ⟨hshadow, hcurrent, hbooks, hpositions⟩ := ih (fun loc hloc => htracked loc (List.mem_append_left _ hloc))
    obtain ⟨sym', hl⟩ := Option.isSome_iff_exists.mp (htracked l (by simp))
    rw [List.map_append, List.map_singleton, RecoverySystem.run_concat]
    generalize (feed.run (locs.map .resync)).1 = s at hshadow hcurrent hbooks hpositions ⊢
    rw [← hshadow] at hsound hsums
    obtain ⟨hfind, hexpected⟩ := resync_elsewhere s l
    rw [Shadow.provider_tracked (hsound.symbols ▸ hl)] at hfind
    refine ⟨hshadow, fun loc hloc sym hsym => ?_, fun sym hother => ?_, fun loc hloc => ?_⟩
    · rcases List.mem_append.mp hloc with hbefore | hlast
      · exact (hcurrent loc hbefore sym hsym).resync hsound hsums hdepth hsym hl
      · obtain rfl := List.mem_singleton.mp hlast
        exact Current.of_resync hsound hsums hdepth hsym
    · have hne : sym ≠ sym' := fun heq => hother l (by simp) (heq ▸ hl)
      exact (hfind sym hne).trans (hbooks sym (fun loc hloc => hother loc (List.mem_append_left _ hloc)))
    · rw [List.mem_append, not_or, List.mem_singleton] at hloc
      exact (hexpected loc hloc.2).trans (hpositions loc hloc.1)

theorem fits_of_takes {s : RecoverySystem} (h : ∀ n, n ≤ acts.length →
      ∀ e ∈ (s.run (acts.take n)).1.shadow.book.books.toList, sumOver e.2.orders (fun o => o.qty.toNat) < 2 ^ 32) :
    ∀ pre, pre <+: acts → LevelSumsFit (s.run pre).1.shadow.book :=
  TraceRuns.forall_prefix_iff.mpr (fun n hn => LevelSumsFit.of_total (h n hn))

private def foreignDelete (seq id : UInt8) : List UInt8 :=
  [0, 2, 0, 0, 0, 0, 0, 0, 0, seq, 0, 19, 0x44, 0, 2, 0, 0, 0, 0, 0, 0, 0, 9, 0, 0, 0, 0, 0, 0, 0, id]

/-- Of two orders of locate 1 the second is lost, and the first is deleted on locate 2. A
snapshot of locate 1 shows the second one. -/
theorem foreign_delete_reconciled :
    let acts : List RecoveryAction := [.publish (addDatagram 1 7), .deliver 0 true, .publish (addDatagram 2 8),
      .publish (foreignDelete 1 7), .deliver 2 true]
    let final := (((RecoverySystem.new 10 false sampleLocates [1]).run acts).1.run [.resync 1]).1
    Current 1 sampleSymbol final ∧ (final.handler.book.snapshot sampleSymbol).bids = [⟨50, 100, 1⟩] :=
  ⟨(@end_of_feed_reconciles 10 false sampleLocates [1] [.publish (addDatagram 1 7), .deliver 0 true,
    .publish (addDatagram 2 8), .publish (foreignDelete 1 7), .deliver 2 true] (by decide) (fits_of_takes (by decide))
    [1] (List.forall_mem_singleton.mpr (by decide))).2.1 1 (by decide) sampleSymbol (by decide), by decide⟩

/-- The step takes a snapshot of the locate: on demand, or behind a gap. -/
def RecoverySystem.Recovers (s : RecoverySystem) (loc : StockLocate) (a : RecoveryAction) : Prop :=
  a = .resync loc ∨ ∃ i data e, a = .deliver i true ∧ s.published[i]? = some data ∧ readLocate data = loc ∧
    s.handler.gap.expected_[loc]? = some e ∧ e < readSequence data

/-- Behind a gap the handler installs the provider's answer and no more: the datagram it
asked for was published before, and the answer covers it. -/
theorem Tallies.books_of_gap {S : Type*} {r : Replica AnyMessage S} {data : List UInt8}
    (h : Tallies symByLoc (readLocate data) s r) (hserved : Served symByLoc s.published)
    (hone : ∀ e, r.expected = some e → 1 ≤ e) (hbound : r.position ≤ r.log.length) (hd : data ∈ s.published)
    {e : SequenceNumber} (he : s.handler.gap.expected_[readLocate data]? = some e) (hgap : e < readSequence data) :
    (s.hand data true).1.handler.book = s.handler.book.install (s.shadow.provider ⟨readLocate data, 0⟩) ∧
      (s.hand data true).1.handler.gap.expected_[readLocate data]? =
        some ((s.shadow.provider ⟨readLocate data, 0⟩).lastAppliedSeq + 1) := by
  obtain ⟨n, hn, rfl⟩ := Option.map_eq_some_iff.mp (h.expected.symm.trans he)
  have hpoint : n ≤ r.log.length + 1 := by
    have hpos := Replica.position_of_expected hn
    have hpositive := hone n hn
    omega
  rw [UInt64.lt_iff_toNat_lt, hserved.toNat_point h.log hpoint] at hgap
  have hhears := h.hears hserved hone hbound hd true
  have hreplays := s.handler.deliver_replays (s.delivery data true)
  change (s.handler.deliver (s.delivery data true)).1.book = _ ∧
    (s.handler.deliver (s.delivery data true)).1.gap.expected_[readLocate data]? = _
  rw [hreplays.book, hreplays.gap]
  change (s.hand data true).2.foldl Effect.onBook s.handler.book = _ ∧
    ((s.hand data true).2.foldl Effect.onGap s.handler.gap).expected_[readLocate data]? = _
  rw [hn] at hhears
  generalize (s.hand data true).2 = fx at hhears ⊢
  cases hhears with
  | stale hlt => omega
  | next => exact absurd hgap (lt_irrefl _)
  | unanswered _ hans => cases hans
  | refreshed =>
    refine ⟨rfl, ?_⟩
    change (s.handler.gap.setExpected (s.shadow.provider ⟨readLocate data, 0⟩).stockLocate
      ((s.shadow.provider ⟨readLocate data, 0⟩).lastAppliedSeq + 1)).expected_[readLocate data]? = _
    rw [Shadow.provider_locate, GapDetector.lookup_setExpected, if_pos rfl]

/-- Right after a recovery, whatever the messages were and in whatever state it found the
handler, the locate is current, and the handler expects the next message to be published. -/
theorem recovery_is_current (hdepth : depth < 2 ^ 30) (hfit : ∀ pre, pre <+: acts →
      LevelSumsFit ((RecoverySystem.new depth skip symByLoc started).run pre).1.shadow.book)
    (hserved : Served symByLoc ((RecoverySystem.new depth skip symByLoc started).run acts).1.published)
    (hdir : ∀ data, .directory data ∈ acts → readSequence data = 0) (hsym : symByLoc[loc]? = some sym)
    {a : RecoveryAction} (ha : ((RecoverySystem.new depth skip symByLoc started).run acts).1.Recovers loc a) :
    let after := (((RecoverySystem.new depth skip symByLoc started).run acts).1.step a).1
    Current loc sym after ∧
      after.handler.gap.expected_[loc]? = some (UInt64.ofNat ((messagesOn loc after.published).length + 1)) := by
  have hsound := sound_run hfit
  have hsums := hfit acts (List.prefix_refl acts)
  obtain ⟨htallies, hfollows⟩ := tallies_run (Tallies.initial depth skip symByLoc started loc ())
    (initialReplica_positions started loc) keeps_positions (admits_of_final hserved hdir) trivial
  generalize ((RecoverySystem.new depth skip symByLoc started).run acts).1 = s at hsound hsums hserved ha htallies hfollows ⊢
  have hlast : (s.shadow.lastSeqByLoc[loc]?).getD 0 + 1 = UInt64.ofNat ((messagesOn loc s.published).length + 1) := by
    rw [htallies.lastSeq, htallies.log, UInt64.ofNat_add, UInt64.ofNat_one]
  have hboth : ∀ {s' : RecoverySystem}, s'.shadow = s.shadow → s'.published = s.published → Current loc sym s' →
      Current loc sym s' ∧ s'.handler.gap.expected_[loc]? = some (UInt64.ofNat ((messagesOn loc s'.published).length + 1)) := by
    intro s' hshadow hpublished hcurrent
    refine ⟨hcurrent, hcurrent.next.trans ?_⟩
    rw [hshadow, hpublished, hlast]
  rcases ha with rfl | ⟨i, data, e, rfl, hi, rfl, he, hgap⟩
  · exact hboth rfl rfl (Current.of_resync hsound hsums hdepth hsym)
  · have hstep : s.step (.deliver i true) = s.hand data true := by simp only [RecoverySystem.step, hi]
    obtain ⟨hbook, hnext⟩ := htallies.books_of_gap hserved hfollows.expects hfollows.bound (List.mem_of_getElem? hi) he hgap
    rw [hstep]
    refine hboth rfl rfl ?_
    obtain ⟨hlevels, hok⟩ := hsound.install hsums hdepth hsym s.handler.book 0
    refine ⟨?_, ?_, hnext.trans ?_⟩
    · rw [hbook]
      exact hlevels
    · rw [hbook]
      exact hok
    · rw [Shadow.provider_tracked (hsound.symbols ▸ hsym)]
      rfl

theorem gap_is_current :
    let acts : List RecoveryAction := [.publish (addDatagram 1 7), .deliver 0 true, .publish (addDatagram 2 8),
      .publish (addDatagram 3 9)]
    let after := (((RecoverySystem.new 10 false sampleLocates [1]).run acts).1.step (.deliver 2 true)).1
    Current 1 sampleSymbol after ∧ (after.handler.book.snapshot sampleSymbol).bids = [⟨50, 300, 3⟩] := by
  intro acts after
  have hpublished : ((RecoverySystem.new 10 false sampleLocates [1]).run acts).1.published =
      [addDatagram 1 7, addDatagram 2 8, addDatagram 3 9] := by decide
  have hserved : Served sampleLocates [addDatagram 1 7, addDatagram 2 8, addDatagram 3 9] :=
    ⟨@NumberedFeed.of_locates _ [1] (by decide) (by decide) (by decide) (by decide) (by decide), by decide⟩
  exact ⟨(recovery_is_current (by decide) (fits_of_takes (by decide)) (hpublished.symm ▸ hserved) (by simp [acts]) (by decide)
    (Or.inr ⟨2, addDatagram 3 9, 2, rfl, by decide, by decide, by decide, by decide⟩)).1, by decide⟩

end Runs

end MdfeedItch
