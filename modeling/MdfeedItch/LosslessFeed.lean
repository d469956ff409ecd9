import MdfeedItch.SequenceAdmission

/-! # A feed without loss passes through unchanged

On a feed whose locates count up without holes the handler applies every
decodable payload once and in order; datagrams delivered again are counted as
stale and change nothing. -/
namespace MdfeedItch
open Std FiniteMapSums FeedHandler

/-- The nonzero sequences of a locate, in order of delivery. -/
def nonzeroSeqs (loc : StockLocate) (feed : List (List UInt8)) : List SequenceNumber :=
  (feed.filter (fun data => readLocate data = loc ∧ readSequence data ≠ 0)).map readSequence

/-- Every datagram carries a header and a length, and each locate's nonzero
sequences are consecutive. -/
structure LossFree (feed : List (List UInt8)) : Prop where
  framed : ∀ data ∈ feed, transportHeaderSize + 2 ≤ data.length
  bounded : ∀ data ∈ feed, readSequence data < maxSequence
  consecutive : ∀ loc, (nonzeroSeqs loc feed).IsChain (fun s next => next = s + 1)

/-- A feed with datagrams delivered again, each at any point after its first delivery. -/
inductive Redelivers : List (List UInt8) → List (List UInt8) → ℕ → Prop
  | nil : Redelivers [] [] 0
  | deliver {feed arrived : List (List UInt8)} {n : ℕ} (h : Redelivers feed arrived n) (data : List UInt8) :
      Redelivers (feed ++ [data]) (arrived ++ [data]) n
  | again {feed arrived : List (List UInt8)} {n : ℕ} (h : Redelivers feed arrived n) (data : List UInt8)
      (hmem : data ∈ feed) (hseq : readSequence data ≠ 0) : Redelivers feed (arrived ++ [data]) (n + 1)

/-- The books after decoding each payload behind its header and applying what decodes. -/
def decodeDirect (depth : ℕ) (feed : List (List UInt8)) : DepthBook :=
  feed.foldl (fun d data => d.receive (data.drop transportHeaderSize)) (DepthBook.new depth)

theorem nonzeroSeqs_concat (loc : StockLocate) (feed : List (List UInt8)) (data : List UInt8) :
    nonzeroSeqs loc (feed ++ [data]) = if readLocate data = loc ∧ readSequence data ≠ 0
      then nonzeroSeqs loc feed ++ [readSequence data] else nonzeroSeqs loc feed := by
  unfold nonzeroSeqs
  rw [List.filter_append, List.map_append]
  by_cases h : readLocate data = loc ∧ readSequence data ≠ 0
  · rw [if_pos h]
    simp [h.1, h.2]
  · rw [if_neg h, List.filter_singleton]
    simp [h]

theorem mem_nonzeroSeqs {feed : List (List UInt8)} {data : List UInt8} (h : data ∈ feed)
    (hseq : readSequence data ≠ 0) : readSequence data ∈ nonzeroSeqs (readLocate data) feed :=
  List.mem_map_of_mem (List.mem_filter.mpr ⟨h, by simp [hseq]⟩)

theorem LossFree.initial {feed : List (List UInt8)} {data : List UInt8} (h : LossFree (feed ++ [data])) :
    LossFree feed := by
  refine ⟨fun d hd => h.framed d (by simp [hd]), fun d hd => h.bounded d (by simp [hd]), fun loc => ?_⟩
  have hchain := h.consecutive loc
  rw [nonzeroSeqs_concat] at hchain
  split_ifs at hchain
  · exact (List.isChain_append.mp hchain).1
  · exact hchain

theorem LossFree.seq_lt {feed : List (List UInt8)} (h : LossFree feed) (loc : StockLocate) {s : SequenceNumber}
    (hs : s ∈ nonzeroSeqs loc feed) : s < maxSequence := by
  obtain ⟨data, hdata, rfl⟩ := List.mem_map.mp hs
  exact h.bounded data (List.mem_filter.mp hdata).1

/-- A locate expects the sequence after the last of those delivered, which is the largest. -/
def Follows (expected : Option SequenceNumber) (seqs : List SequenceNumber) : Prop :=
  (expected = none ∧ seqs = []) ∨
    ∃ before last, seqs = before ++ [last] ∧ expected = some (last + 1) ∧ ∀ s ∈ seqs, s ≤ last

theorem Emits.of_next {g : GapDetector} {skip : Bool} {d : Delivery} {fx : List Effect} (h : Emits g skip d fx)
    (hframed : d.Framed) (hnext : ∀ e, g.expected_[d.loc]? = some e → d.seq = e) : fx = [d.accepted] := by
  have hnot : ∀ {e}, g.expected_[d.loc]? = some e → ¬ e < d.seq ∧ ¬ d.seq < e := by
    intro e hold
    rw [hnext e hold]
    exact ⟨UInt64.lt_irrefl e, UInt64.lt_irrefl e⟩
  cases h with
  | silent hwhy =>
    rcases hwhy with hshort | ⟨-, -, e, hold, hlt⟩
    · exact absurd hframed hshort
    · exact absurd hlt (hnot hold).2
  | bootstrap _ _ => rfl
  | next _ _ _ => rfl
  | unfilled _ _ hold hgap => exact absurd hgap (hnot hold).1
  | covered _ _ hold hgap => exact absurd hgap (hnot hold).1
  | recovered _ _ hold hgap => exact absurd hgap (hnot hold).1
  | skipped _ _ hold hgap => exact absurd hgap (hnot hold).1

theorem Emits.of_bootstrap {g : GapDetector} {skip : Bool} {d : Delivery} {fx : List Effect} (h : Emits g skip d fx)
    (hframed : d.Framed) (hzero : d.seq = 0) : fx = [d.accepted] := by
  cases h with
  | silent hwhy =>
    rcases hwhy with hshort | ⟨-, hseq, -⟩
    · exact absurd hframed hshort
    · exact absurd hzero hseq
  | bootstrap _ _ => rfl
  | next _ _ _ => rfl
  | unfilled _ hseq => exact absurd hzero hseq
  | covered _ hseq => exact absurd hzero hseq
  | recovered _ hseq => exact absurd hzero hseq
  | skipped _ hseq => exact absurd hzero hseq

theorem Emits.of_stale {g : GapDetector} {skip : Bool} {d : Delivery} {fx : List Effect} (h : Emits g skip d fx)
    (hseq : d.seq ≠ 0) {e : SequenceNumber} (hold : g.expected_[d.loc]? = some e) (hlt : d.seq < e) : fx = [] := by
  have hnot : ∀ {e'}, g.expected_[d.loc]? = some e' → ¬ e' < d.seq := by
    intro e' hold' hgap
    have heq : e' = e := Option.some.inj (hold'.symm.trans hold)
    rw [heq] at hgap
    exact UInt64.lt_asymm hlt hgap
  cases h with
  | silent _ => rfl
  | bootstrap _ hzero => exact absurd hzero hseq
  | next _ _ hnext =>
    rw [hnext e hold] at hlt
    exact absurd hlt (UInt64.lt_irrefl e)
  | unfilled _ _ hold' hgap => exact absurd hgap (hnot hold')
  | covered _ _ hold' hgap => exact absurd hgap (hnot hold')
  | recovered _ _ hold' hgap => exact absurd hgap (hnot hold')
  | skipped _ _ hold' hgap => exact absurd hgap (hnot hold')

/-- The state of a handler that has passed a feed through and seen `n` datagrams again. -/
structure PassedThrough (h : FeedHandler) (depth : ℕ) (feed : List (List UInt8)) (n : ℕ) : Prop where
  book : h.book = decodeDirect depth feed
  noGap : h.stats.gapsDetected = 0
  stale : h.stats.staleMsgs = UInt64.ofNat n
  tracked : ∀ loc, Follows (h.gap.expected_[loc]?) (nonzeroSeqs loc feed)

theorem PassedThrough.deliver {h : FeedHandler} {depth n : ℕ} {feed : List (List UInt8)} (hp : PassedThrough h depth feed n)
    (d : Delivery) (hfree : LossFree (feed ++ [d.data])) : PassedThrough (h.deliver d).1 depth (feed ++ [d.data]) n := by
  have hframed : d.Framed := hfree.framed d.data (by simp)
  have hmax : d.seq < maxSequence := hfree.bounded d.data (by simp)
  have hchain := hfree.consecutive d.loc
  have hemits := h.deliver_emits d
  have hlast : ∀ before last, d.seq ≠ 0 → nonzeroSeqs d.loc feed = before ++ [last] → d.seq = last + 1 := by
    intro before last hseq hbefore
    rw [nonzeroSeqs_concat, if_pos ⟨rfl, hseq⟩, hbefore] at hchain
    exact (List.isChain_append.mp hchain).2.2 last (by simp) d.seq (by simp [Delivery.seq])
  -- either way the datagram is accepted and nothing else happens
  have hfx : (h.deliver d).2 = [d.accepted] := by
    by_cases hzero : d.seq = 0
    · exact hemits.of_bootstrap hframed hzero
    · refine hemits.of_next hframed (fun e hold => ?_)
      rcases hp.tracked d.loc with ⟨hnone, _⟩ | ⟨before, last, hbefore, hexp, _⟩
      · rw [hnone] at hold
        cases hold
      · rw [hexp] at hold
        cases hold
        exact hlast before last hzero hbefore
  obtain ⟨hbook, hgap, -, hreported⟩ := h.deliver_replays d
  rw [hfx] at hbook hgap hreported
  refine ⟨?_, ?_, ?_, fun loc => ?_⟩
  · rw [hbook, hp.book, decodeDirect, decodeDirect, List.foldl_append]
    rfl
  · rw [hreported, hp.noGap]
    rfl
  · exact (h.deliver_not_stale hframed (hfx ▸ List.cons_ne_nil _ _)).trans hp.stale
  · rw [hgap, List.foldl_cons, List.foldl_nil, nonzeroSeqs_concat]
    by_cases hzero : d.seq = 0
    · have hsame : Effect.onGap h.gap d.accepted = h.gap := if_pos hzero
      rw [hsame, if_neg (fun hboth => hboth.2 hzero)]
      exact hp.tracked loc
    · rw [onGap_accepted hzero, GapDetector.lookup_setExpected]
      by_cases hloc : d.loc = loc
      · subst hloc
        rw [if_pos rfl, if_pos ⟨rfl, hzero⟩]
        refine Or.inr ⟨nonzeroSeqs d.loc feed, d.seq, rfl, rfl, fun s hs => ?_⟩
        rcases List.mem_append.mp hs with hs | hs
        · rcases hp.tracked d.loc with ⟨_, hnil⟩ | ⟨before, last, hbefore, _, htop⟩
          · rw [hnil] at hs
            cases hs
          · have hbelow : last < maxSequence := hfree.initial.seq_lt d.loc (by rw [hbefore]; simp)
            rw [hlast before last hzero hbefore]
            exact UInt64.le_of_lt ((lt_next hbelow).mpr (htop s hs))
        · rw [List.mem_singleton.mp hs]
          exact UInt64.le_refl _
      · rw [if_neg (Ne.symm hloc), if_neg (fun hboth => hloc hboth.1)]
        exact hp.tracked loc

theorem PassedThrough.again {h : FeedHandler} {depth n : ℕ} {feed : List (List UInt8)} (hp : PassedThrough h depth feed n)
    (d : Delivery) (hfree : LossFree feed) (hmem : d.data ∈ feed) (hseq : d.seq ≠ 0) :
    PassedThrough (h.deliver d).1 depth feed (n + 1) := by
  have hframed : d.Framed := hfree.framed d.data hmem
  have hdelivered : d.seq ∈ nonzeroSeqs d.loc feed := mem_nonzeroSeqs hmem hseq
  have hfx : (h.deliver d).2 = [] := by
    rcases hp.tracked d.loc with ⟨_, hnil⟩ | ⟨before, last, hbefore, hexp, htop⟩
    · rw [hnil] at hdelivered
      cases hdelivered
    · have hbelow : last < maxSequence := hfree.seq_lt d.loc (by rw [hbefore]; simp)
      exact (h.deliver_emits d).of_stale hseq hexp ((lt_next hbelow).mpr (htop d.seq hdelivered))
  obtain ⟨hbook, hgap, -, hreported⟩ := h.deliver_replays d
  have hstale := h.deliver_stale hframed
  rw [hfx] at hbook hgap hreported
  rw [if_pos hfx] at hstale
  refine ⟨hbook.trans hp.book, (hreported.trans (UInt64.add_zero _)).trans hp.noGap, ?_, fun loc => ?_⟩
  · rw [hstale, hp.stale]
    exact (UInt64.ofNat_add n 1).symm
  · rw [hgap]
    exact hp.tracked loc

/-- Fed with a loss-free feed in which `n` datagrams arrive again, a fresh handler in
any mode ends with the directly decoded books, no gap and `n` stale datagrams. -/
theorem feed_passes_through (depth : ℕ) (skip : Bool) {feed arrived : List (List UInt8)} {n : ℕ}
    (hfree : LossFree feed) (hagain : Redelivers feed arrived n) (ds : List Delivery)
    (hds : ds.map Delivery.data = arrived) :
    let final := ((FeedHandler.new depth skip).feed ds).1
    final.book = decodeDirect depth feed ∧ final.stats.gapsDetected = 0 ∧
      final.stats.staleMsgs = UInt64.ofNat n := by
  suffices hp : PassedThrough ((FeedHandler.new depth skip).feed ds).1 depth feed n from
    ⟨hp.book, hp.noGap, hp.stale⟩
  induction hagain generalizing ds with
  | nil =>
    rw [List.map_eq_nil_iff] at hds
    subst hds
    refine ⟨rfl, rfl, rfl, fun loc => Or.inl ⟨?_, rfl⟩⟩
    simp [FeedHandler.feed, FeedHandler.new, GapDetector.new]
  | deliver h data ih =>
    obtain ⟨before, after, rfl, hbefore, hafter⟩ := List.map_eq_append_iff.mp hds
    obtain ⟨d, rfl, rfl⟩ := List.map_eq_singleton_iff.mp hafter
    rw [feed_concat]
    exact (ih hfree.initial before hbefore).deliver d hfree
  | again h data hmem hseq ih =>
    obtain ⟨before, after, rfl, hbefore, hafter⟩ := List.map_eq_append_iff.mp hds
    obtain ⟨d, rfl, rfl⟩ := List.map_eq_singleton_iff.mp hafter
    rw [feed_concat]
    exact (ih hfree before hbefore).again d hfree hmem hseq

/-- Two orders added on locate 1, both datagrams delivered twice. -/
theorem doubled_feed_passes_through :
    let feed := [addDatagram 1 7, addDatagram 2 8]
    let ds : List Delivery := [addDatagram 1 7, addDatagram 1 7, addDatagram 2 8, addDatagram 2 8].map (fun data => ⟨data, none⟩)
    let final := ((FeedHandler.new 10 false).feed ds).1
    (final.book.snapshot #v[65, 65, 80, 76, 32, 32, 32, 32]).bids = [⟨50, 200, 2⟩] ∧
      final.book = decodeDirect 10 feed ∧ final.stats.gapsDetected = 0 ∧ final.stats.staleMsgs = 2 := by
  intro feed ds final
  have hfree : LossFree feed := by
    refine ⟨by decide, by decide, fun loc => ?_⟩
    by_cases hloc : loc = 1
    · subst hloc
      decide
    · have hone : ∀ data ∈ feed, readLocate data = 1 := by decide
      have hnil : nonzeroSeqs loc feed = [] := by
        rw [nonzeroSeqs, List.map_eq_nil_iff, List.filter_eq_nil_iff]
        intro data hdata
        simp [hone data hdata, Ne.symm hloc]
      rw [hnil]
      exact List.IsChain.nil
  have hagain : Redelivers feed (ds.map Delivery.data) 2 :=
    (((Redelivers.nil.deliver (addDatagram 1 7)).again (addDatagram 1 7) (by decide) (by decide)).deliver
      (addDatagram 2 8)).again (addDatagram 2 8) (by decide) (by decide)
  exact ⟨by decide, feed_passes_through 10 false hfree hagain ds rfl⟩

end MdfeedItch
