import MdfeedItch.SequenceAdmission
import MdfeedItch.IntervalTiling

/-! # Skip mode accounts for every sequence

Without a requester and with `skip_gaps` on, the accepted sequences and the
reported ranges of a locate tile everything from its first sequence to the
largest one; all other datagrams are counted as stale. -/
namespace MdfeedItch
open Std FiniteMapSums FeedHandler IntervalTiling

namespace Effect

/-- The range of sequences of a locate that an effect accounts for. -/
def piece (loc : StockLocate) : Effect → Option (ℕ × ℕ)
  | .gapReported l first last => if l = loc then some (first.toNat, last.toNat) else none
  | .decoded l seq _ => if l = loc then some (seq.toNat, seq.toNat) else none
  | .installed _ => none

def isDecoded : Effect → Bool
  | .decoded .. => true
  | _ => false

end Effect

/-- Accepted sequences, as ranges of length one, and reported ranges of a locate, oldest first. -/
def pieces (loc : StockLocate) (t : List Effect) : List (ℕ × ℕ) := t.filterMap (Effect.piece loc)

/-- The sequences delivered on a locate. -/
def sequencesOf (loc : StockLocate) (ds : List Delivery) : List SequenceNumber :=
  (ds.filter (fun d => d.loc = loc)).map Delivery.seq

/-- A datagram of the replay mode: long enough, sequenced, and no requester set. -/
structure Replayed (d : Delivery) : Prop where
  framed : d.Framed
  seq_pos : d.seq ≠ 0
  seq_lt : d.seq < maxSequence
  noRequester : d.requester = none

theorem pieces_append (loc : StockLocate) (t fx : List Effect) :
    pieces loc (t ++ fx) = pieces loc t ++ pieces loc fx := List.filterMap_append

theorem pieces_accepted (loc : StockLocate) (d : Delivery) :
    pieces loc [d.accepted] = if d.loc = loc then [(d.seq.toNat, d.seq.toNat)] else [] := by
  simp only [pieces, List.filterMap_cons, List.filterMap_nil, Delivery.accepted, Effect.piece]
  split_ifs <;> rfl

theorem pieces_skipped (loc : StockLocate) (d : Delivery) (e : SequenceNumber) :
    pieces loc [missing d.loc e d.seq, d.accepted] =
      if d.loc = loc then [(e.toNat, (d.seq - 1).toNat), (d.seq.toNat, d.seq.toNat)] else [] := by
  simp only [pieces, List.filterMap_cons, List.filterMap_nil, Delivery.accepted, missing, Effect.piece]
  split_ifs <;> rfl

/-- One datagram in skip mode: dropped as stale, or accepted with the range before it reported. -/
inductive Skips (g : GapDetector) (d : Delivery) : List Effect → GapDetector → Prop
  | stale {e} (hold : g.expected_[d.loc]? = some e) (hlt : d.seq < e) : Skips g d [] g
  | first (hnew : g.expected_[d.loc]? = none) : Skips g d [d.accepted] (g.setExpected d.loc (d.seq + 1))
  | next (hold : g.expected_[d.loc]? = some d.seq) : Skips g d [d.accepted] (g.setExpected d.loc (d.seq + 1))
  | skipped {e} (hold : g.expected_[d.loc]? = some e) (hgap : e < d.seq) :
      Skips g d [missing d.loc e d.seq, d.accepted] (g.setExpected d.loc (d.seq + 1))

theorem Emits.skips {g : GapDetector} {d : Delivery} {fx : List Effect} (h : Emits g true d fx) (hd : Replayed d) :
    Skips g d fx (fx.foldl Effect.onGap g) := by
  have hanswer : ∀ req, d.answer req = none := fun req => by simp [Delivery.answer, hd.noRequester]
  have hgap : ∀ g', Effect.onGap g' d.accepted = g'.setExpected d.loc (d.seq + 1) := onGap_accepted hd.seq_pos
  cases h with
  | silent hwhy =>
    rcases hwhy with hshort | ⟨-, -, e, hold, hlt⟩
    · exact absurd hd.framed hshort
    · exact .stale hold hlt
  | bootstrap hframed hzero => exact absurd hzero hd.seq_pos
  | next hframed hseq hnext =>
    rw [List.foldl_cons, hgap]
    cases hold : g.expected_[d.loc]? with
    | none => exact .first hold
    | some e => exact .next (hnext e hold ▸ hold)
  | unfilled hframed hseq hold hlt hnone hwhy => exact absurd (hwhy hd.noRequester) (by decide)
  | covered hframed hseq hold hlt hsnap hcov =>
    rw [hanswer] at hsnap
    cases hsnap
  | recovered hframed hseq hold hlt hsnap hcov =>
    rw [hanswer] at hsnap
    cases hsnap
  | skipped hframed hseq hold hlt hnone hskip =>
    simp only [List.foldl_cons, List.foldl_nil, hgap]
    exact .skipped hold hlt

/-- The pieces of a locate tile the interval from its first sequence to the
expected one, and the largest sequence delivered lies right below. -/
def TiledAt (expected : Option SequenceNumber) (ps : List (ℕ × ℕ)) : List SequenceNumber → Prop
  | [] => expected = none ∧ ps = []
  | first :: rest => ∃ last ∈ first :: rest, (∀ s ∈ first :: rest, s ≤ last) ∧ last < maxSequence ∧
      expected = some (last + 1) ∧ Tiles first.toNat ps (last.toNat + 1)

theorem TiledAt.drop {e s : SequenceNumber} {ps : List (ℕ × ℕ)} {seqs : List SequenceNumber}
    (h : TiledAt (some e) ps seqs) (hlt : s < e) : TiledAt (some e) ps (seqs ++ [s]) := by
  cases seqs with
  | nil => cases h.1
  | cons first rest =>
    obtain ⟨last, hmem, htop, hmax, he, htiles⟩ := h
    refine ⟨last, List.mem_append_left [s] hmem, fun x hx => ?_, hmax, he, htiles⟩
    rcases List.mem_append.mp (show x ∈ (first :: rest) ++ [s] from hx) with hx | hx
    · exact htop x hx
    · rw [List.mem_singleton.mp hx]
      cases he
      exact (lt_next hmax).mp hlt

theorem TiledAt.start {s : SequenceNumber} {ps : List (ℕ × ℕ)} {seqs : List SequenceNumber}
    (h : TiledAt none ps seqs) (hs : s < maxSequence) :
    TiledAt (some (s + 1)) (ps ++ [(s.toNat, s.toNat)]) (seqs ++ [s]) := by
  cases seqs with
  | nil =>
    obtain ⟨-, rfl⟩ := h
    refine ⟨s, List.mem_singleton_self s, fun x hx => ?_, hs, rfl, .single (Nat.le_refl _)⟩
    rw [List.mem_singleton.mp hx]
    exact UInt64.le_refl s
  | cons first rest =>
    obtain ⟨last, -, -, -, he, -⟩ := h
    cases he

/-- A sequence at or above the expected one becomes the largest, its pieces tile up to it. -/
theorem TiledAt.grow {e s : SequenceNumber} {ps qs : List (ℕ × ℕ)} {seqs : List SequenceNumber}
    (h : TiledAt (some e) ps seqs) (hs : s < maxSequence) (hle : e ≤ s) (hqs : Tiles e.toNat qs (s.toNat + 1)) :
    TiledAt (some (s + 1)) (ps ++ qs) (seqs ++ [s]) := by
  cases seqs with
  | nil => cases h.1
  | cons first rest =>
    obtain ⟨last, hmem, htop, hmax, he, htiles⟩ := h
    cases he
    have habove : last ≤ s := UInt64.le_of_lt ((next_le hmax).mp hle)
    refine ⟨s, by simp, fun x hx => ?_, hs, rfl, ?_⟩
    · rcases List.mem_append.mp (show x ∈ (first :: rest) ++ [s] from hx) with hx | hx
      · exact UInt64.le_trans (htop x hx) habove
      · rw [List.mem_singleton.mp hx]
        exact UInt64.le_refl s
    · rw [toNat_succ hmax] at hqs
      exact htiles.append hqs

/-- After a run every locate is tiled by its pieces. -/
def Tiled (g : GapDetector) (t : List Effect) (ds : List Delivery) : Prop :=
  ∀ loc, TiledAt (g.expected_[loc]?) (pieces loc t) (sequencesOf loc ds)

theorem sequencesOf_concat (loc : StockLocate) (ds : List Delivery) (d : Delivery) :
    sequencesOf loc (ds ++ [d]) = if d.loc = loc then sequencesOf loc ds ++ [d.seq] else sequencesOf loc ds := by
  unfold sequencesOf
  rw [List.filter_append, List.map_append]
  by_cases h : d.loc = loc <;> simp [h]

/-- A datagram touches the sequences of its own locate only. -/
theorem Skips.elsewhere {g g' : GapDetector} {d : Delivery} {fx : List Effect} (h : Skips g d fx g')
    {loc : StockLocate} (hne : d.loc ≠ loc) : g'.expected_[loc]? = g.expected_[loc]? ∧ pieces loc fx = [] := by
  have hset : (g.setExpected d.loc (d.seq + 1)).expected_[loc]? = g.expected_[loc]? := by
    rw [GapDetector.lookup_setExpected, if_neg hne.symm]
  cases h with
  | stale hold hlt => exact ⟨rfl, rfl⟩
  | first hnew => exact ⟨hset, by rw [pieces_accepted, if_neg hne]⟩
  | next hold => exact ⟨hset, by rw [pieces_accepted, if_neg hne]⟩
  | skipped hold hgap => exact ⟨hset, by rw [pieces_skipped, if_neg hne]⟩

theorem Tiled.skip {g g' : GapDetector} {t fx : List Effect} {ds : List Delivery} {d : Delivery}
    (h : Tiled g t ds) (hs : Skips g d fx g') (hd : Replayed d) : Tiled g' (t ++ fx) (ds ++ [d]) := by
  intro loc
  have hloc := h loc
  rw [sequencesOf_concat, pieces_append]
  by_cases hne : d.loc = loc
  · subst hne
    rw [if_pos rfl]
    have hset : (g.setExpected d.loc (d.seq + 1)).expected_[d.loc]? = some (d.seq + 1) := by
      rw [GapDetector.lookup_setExpected, if_pos rfl]
    cases hs with
    | stale hold hlt =>
      rw [hold] at hloc ⊢
      rw [show pieces d.loc ([] : List Effect) = [] from rfl, List.append_nil]
      exact hloc.drop hlt
    | first hnew =>
      rw [hnew] at hloc
      rw [hset, pieces_accepted, if_pos rfl]
      exact hloc.start hd.seq_lt
    | next hold =>
      rw [hold] at hloc
      rw [hset, pieces_accepted, if_pos rfl]
      exact hloc.grow hd.seq_lt (UInt64.le_refl _) (.single (Nat.le_refl _))
    | @skipped e hold hgap =>
      rw [hold] at hloc
      rw [hset, pieces_skipped, if_pos rfl]
      have hlt := UInt64.lt_iff_toNat_lt.mp hgap
      have hseq : d.seq ≠ 0 := fun hzero => UInt64.not_lt_zero (hzero ▸ hgap)
      have hpred := toNat_pred hseq
      refine hloc.grow hd.seq_lt (UInt64.le_of_lt hgap) (.cons (by omega) ?_)
      rw [hpred]
      exact .single (Nat.le_refl _)
  · obtain ⟨hsame, hnone⟩ := hs.elsewhere hne
    rw [if_neg hne, hsame, hnone, List.append_nil]
    exact hloc

/-- A datagram is accepted or stale. -/
theorem Skips.counted {g g' : GapDetector} {d : Delivery} {fx : List Effect} (h : Skips g d fx g') :
    (if fx = [] then 1 else 0) + UInt64.ofNat (fx.countP Effect.isDecoded) = 1 := by
  cases h with
  | stale hold hlt => rfl
  | first hnew => rfl
  | next hold => rfl
  | skipped hold hgap => rfl

theorem feed_tiled (depth : ℕ) (ds : List Delivery) (hds : ∀ d ∈ ds, Replayed d) :
    let final := (FeedHandler.new depth true).feed ds
    Tiled final.1.gap final.2 ds ∧
      final.1.stats.staleMsgs + UInt64.ofNat (final.2.countP Effect.isDecoded) = UInt64.ofNat ds.length := by
  induction ds using List.reverseRecOn with
  | nil =>
    refine ⟨fun loc => ?_, rfl⟩
    simp [TiledAt, sequencesOf, FeedHandler.feed, FeedHandler.new, GapDetector.new, pieces]
  | append_singleton ds d ih =>
    obtain ⟨htiled, hcount⟩ := ih (fun d' hd' => hds d' (by simp [hd']))
    have hd := hds d (by simp)
    dsimp only at htiled hcount ⊢
    rw [feed_concat]
    have hskip : ((FeedHandler.new depth true).feed ds).1.skipGaps = true :=
      ((FeedHandler.new depth true).feed_replays ds).skipGaps
    have hemits := ((FeedHandler.new depth true).feed ds).1.deliver_emits d
    rw [hskip] at hemits
    have hskips := hemits.skips hd
    have hone := hskips.counted
    refine ⟨?_, ?_⟩
    · rw [(FeedHandler.deliver_replays _ d).gap]
      exact htiled.skip hskips hd
    · rw [List.length_append, List.countP_append, FeedHandler.deliver_stale _ hd.framed, List.length_singleton,
        UInt64.ofNat_add, UInt64.ofNat_add, ← hcount]
      calc _ = (_ + _) + ((if _ = [] then 1 else 0) + UInt64.ofNat (List.countP Effect.isDecoded _)) := by ac_rfl
        _ = _ := congrArg _ hone

/-- In skip mode the accepted sequences and the reported ranges of a locate are
pairwise disjoint and together the interval from its first to its largest
sequence, which is the one before the expected; every gap is a reported range and
every other datagram is counted as stale. -/
theorem skip_mode_accounts (depth : ℕ) (ds : List Delivery) (hds : ∀ d ∈ ds, Replayed d) :
    let final := (FeedHandler.new depth true).feed ds
    (∀ loc first rest, sequencesOf loc ds = first :: rest →
      ∃ last ∈ first :: rest, (∀ s ∈ first :: rest, s ≤ last) ∧ final.1.gap.expected loc = last + 1 ∧
        (pieces loc final.2).Pairwise (fun p q => p.2 < q.1) ∧
        ∀ n, (∃ p ∈ pieces loc final.2, p.1 ≤ n ∧ n ≤ p.2) ↔ first.toNat ≤ n ∧ n ≤ last.toNat) ∧
    final.1.stats.gapsDetected = UInt64.ofNat (final.2.countP Effect.isReport) ∧
    final.1.stats.staleMsgs + UInt64.ofNat (final.2.countP Effect.isDecoded) = UInt64.ofNat ds.length := by
  intro final
  obtain ⟨htiled, hcount⟩ := feed_tiled depth ds hds
  refine ⟨fun loc first rest hseqs => ?_, ?_, hcount⟩
  · have hloc := htiled loc
    rw [hseqs] at hloc
    obtain ⟨last, hmem, htop, -, he, htiles⟩ := hloc
    refine ⟨last, hmem, htop, GapDetector.expected_of_some he, htiles.pairwise, fun n => ?_⟩
    rw [htiles.covers, Nat.lt_succ_iff]
  · have hrep := ((FeedHandler.new depth true).feed_replays ds).reported
    exact hrep.trans (UInt64.zero_add _)

/-- Sequences 1, 3, 2, 5: the gaps at 2 and 4 are reported and the late 2 is stale. -/
theorem skipped_session_accounts :
    let ds : List Delivery := [⟨bareDatagram 1, none⟩, ⟨bareDatagram 3, none⟩, ⟨bareDatagram 2, none⟩, ⟨bareDatagram 5, none⟩]
    let final := (FeedHandler.new 10 true).feed ds
    pieces 1 final.2 = [(1, 1), (2, 2), (3, 3), (4, 4), (5, 5)] ∧
      final.1.stats.gapsDetected = UInt64.ofNat (final.2.countP Effect.isReport) ∧
      final.1.stats.staleMsgs + UInt64.ofNat (final.2.countP Effect.isDecoded) = 4 := by
  intro ds final
  refine ⟨by decide, (skip_mode_accounts 10 ds ?_).2⟩
  intro d hd
  simp only [ds, List.mem_cons, List.not_mem_nil, or_false] at hd
  rcases hd with rfl | rfl | rfl | rfl <;> exact ⟨by decide, by decide, by decide, rfl⟩

end MdfeedItch
