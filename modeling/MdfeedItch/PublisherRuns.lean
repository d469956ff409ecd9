import MdfeedItch.PublisherLoop

/-! # Runs of the snapshot publisher

Whatever the calls of `send` do, every connection is written exactly the frames
captured since it was accepted, until a send to it fails; and captures are as frequent
as the policy says. -/
namespace MdfeedItch
open Broadcasts PublisherSystem

theorem capturesOf_append (t fx : List PublisherEffect) : capturesOf (t ++ fx) = capturesOf t ++ capturesOf fx :=
  List.filterMap_append

theorem capturesOf_accepted (cfd : Option ℕ) : capturesOf (cfd.toList.map PublisherEffect.accepted) = [] := by
  cases cfd <;> rfl

/-- The captures are the items of the broadcast. -/
theorem items_events (t : List PublisherEffect) :
    items (t.map PublisherEffect.event) = (capturesOf t).map Capture.frame := by
  rw [items, capturesOf, List.filterMap_map, List.map_filterMap]
  refine List.filterMap_congr (fun e _ => ?_)
  cases e <;> rfl

section Pass
variable {p p' : BookSnapshotPublisher} {cfd : Option ℕ} {now : Int64} {msgs : UInt64} {book : DepthBook}
  {order : List Symbol} {fx : List PublisherEffect}

/-- A pass takes no capture, or the next one. -/
theorem Passes.captures (h : Passes p cfd now msgs book order p' fx) :
    (capturesOf fx = [] ∧ p'.seq = p.seq ∧ p'.published = p.published) ∨
      (capturesOf fx = [⟨book, order, p.seq + 1⟩] ∧ p'.seq = p.seq + 1 ∧ p'.published = p.published + 1) := by
  cases h with
  | quiet hquiet => exact Or.inl ⟨capturesOf_accepted cfd, rfl, rfl⟩
  | published hdue hround hnone =>
    right
    refine ⟨?_, rfl, rfl⟩
    rw [capturesOf_append, capturesOf_accepted, List.nil_append, capturesOf, List.filterMap_cons]
    exact congrArg _ hnone

/-- A pass accepts and broadcasts. -/
theorem Passes.broadcast (h : Passes p cfd now msgs book order p' fx) {t : List (Event ℕ UInt8)}
    (hold : Broadcast p.subscribers t) (hnew : ∀ fd ∈ cfd, .joined fd ∉ t) :
    Broadcast p'.subscribers (t ++ fx.map PublisherEffect.event) := by
  have hjoined : Broadcast (p.subscribers ++ cfd.toList)
      (t ++ (cfd.toList.map PublisherEffect.accepted).map PublisherEffect.event) := by
    cases cfd with
    | none => simpa using hold
    | some fd => exact hold.join (hnew fd rfl)
  cases h with
  | quiet hquiet => exact hjoined
  | published hdue hround hnone =>
    rw [List.map_append, ← List.append_assoc]
    exact hjoined.publish hround

/-- Who is accepted in a pass is its subscriber. -/
theorem Passes.accepted (h : Passes p cfd now msgs book order p' fx) {fd : ℕ}
    (hjoined : .joined fd ∈ fx.map PublisherEffect.event) : fd ∈ cfd := by
  have hfirst : .joined fd ∈ (cfd.toList.map PublisherEffect.accepted).map PublisherEffect.event → fd ∈ cfd := by
    intro hmem
    cases cfd with
    | none => cases hmem
    | some fd' =>
      cases List.mem_singleton.mp hmem
      rfl
  cases h with
  | quiet hquiet => exact hfirst hjoined
  | published hdue hround hnone =>
    rw [List.map_append] at hjoined
    rcases List.mem_append.mp hjoined with hmem | hmem
    · exact hfirst hmem
    · exact absurd ((List.mem_cons.mp hmem).resolve_left (by rintro ⟨⟩)) hround.joined_not_mem

end Pass

section Run
variable {depth : ℕ} {policy : BookSnapshotPolicy} {now : Int64} {is : List PublisherPass} {s s' : PublisherSystem}
  {t fx : List PublisherEffect} {i : PublisherPass}

theorem PublisherSystem.pass_spec (h : s.pass i = some (s', fx)) :
    s'.book = s.bookFor i ∧ s'.msgCounter = s.msgCounter + UInt64.ofNat i.notes ∧
      s'.connections = s.connections + (if i.connects then 1 else 0) ∧
      Passes s.publisher (if i.connects then some s.connections else none) i.now s'.msgCounter s'.book i.order
        s'.publisher fx := by
  obtain ⟨⟨p, effects⟩, hpass, heq⟩ := Option.map_eq_some_iff.mp h
  cases heq
  exact ⟨rfl, rfl, rfl, BookSnapshotPublisher.pass_passes hpass⟩

/-- The publisher broadcasts to connections that it has numbered. -/
theorem PublisherSystem.Runs.broadcast (h : Runs depth policy now is s t) :
    Broadcast s.publisher.subscribers (t.map PublisherEffect.event) ∧
      ∀ fd, .joined fd ∈ t.map PublisherEffect.event → fd < s.connections := by
  induction h with
  | start => exact ⟨.start, fun fd hfd => absurd hfd List.not_mem_nil⟩
  | @pass is s s' t fx hrun i horder hpass ih =>
    obtain ⟨hold, hbound⟩ := ih
    obtain ⟨-, -, hconnections, hpasses⟩ := s.pass_spec hpass
    rw [List.map_append, hconnections]
    have hnumber : ∀ fd ∈ (if i.connects then some s.connections else none),
        i.connects = true ∧ fd = s.connections := by
      intro fd hfd
      by_cases hconnects : i.connects
      · rw [if_pos hconnects] at hfd
        exact ⟨hconnects, (Option.mem_some.mp hfd).symm⟩
      · rw [if_neg hconnects] at hfd
        cases hfd
    refine ⟨hpasses.broadcast hold (fun fd hfd hjoined => ?_), fun fd hfd => ?_⟩
    · have hlt := hbound fd hjoined
      rw [(hnumber fd hfd).2] at hlt
      exact Nat.lt_irrefl _ hlt
    · rcases List.mem_append.mp hfd with hmem | hmem
      · exact Nat.lt_of_lt_of_le (hbound fd hmem) (Nat.le_add_right _ _)
      · obtain ⟨hconnects, rfl⟩ := hnumber fd (hpasses.accepted hmem)
        rw [if_pos hconnects]
        exact Nat.lt_succ_self _

/-- The captures are numbered from 1 on, and counted. -/
structure CapturesNumbered (p : BookSnapshotPublisher) (cs : List Capture) : Prop where
  seq : p.seq = UInt64.ofNat cs.length
  published : p.published = p.seq
  numbers : ∀ (n : ℕ) (c : Capture), cs[n]? = some c → c.sequence = UInt64.ofNat (n + 1)

theorem PublisherSystem.Runs.numbered (h : Runs depth policy now is s t) : CapturesNumbered s.publisher (capturesOf t) := by
  induction h with
  | start => exact ⟨rfl, rfl, fun n c hc => by simp [capturesOf] at hc⟩
  | @pass is s s' t fx hrun i horder hpass ih =>
    obtain ⟨-, -, -, hpasses⟩ := s.pass_spec hpass
    rw [capturesOf_append]
    rcases hpasses.captures with ⟨hnone, hseq, hpublished⟩ | ⟨hone, hseq, hpublished⟩
    · rw [hnone, List.append_nil]
      exact ⟨hseq.trans ih.seq, by rw [hpublished, hseq, ih.published], ih.numbers⟩
    · rw [hone]
      refine ⟨?_, by rw [hpublished, hseq, ih.published], fun n c hc => ?_⟩
      · rw [hseq, ih.seq, List.length_append, UInt64.ofNat_add]
        rfl
      · rcases Nat.lt_or_ge n (capturesOf t).length with hlt | hge
        · exact ih.numbers n c (by rwa [List.getElem?_append_left hlt] at hc)
        · rw [List.getElem?_append_right hge] at hc
          obtain ⟨hlen, hget⟩ := List.getElem?_eq_some_iff.mp hc
          have hlast : n = (capturesOf t).length := by
            rw [List.length_singleton] at hlen
            omega
          subst hlast
          simp only [Nat.sub_self, List.getElem_cons_zero] at hget
          rw [← hget, ih.seq, UInt64.ofNat_add]
          rfl

end Run

theorem PublisherSystem.Runs.served {depth : ℕ} {policy : BookSnapshotPolicy} {now : Int64} {is : List PublisherPass}
    {s : PublisherSystem} {t : List PublisherEffect} (hrun : Runs depth policy now is s t) {fd : ℕ}
    {before after : List PublisherEffect} (ht : t = before ++ .accepted fd :: after) :
    let events := t.map PublisherEffect.event
    let frames := (capturesOf after).map Capture.frame
    (Kept fd s.publisher.subscribers events frames ∨ CutOff fd s.publisher.subscribers events frames) ∧
      departures fd (events ++ s.publisher.subscribers.map .left) = 1 := by
  intro events frames
  have hevents : events = before.map PublisherEffect.event ++ .joined fd :: after.map PublisherEffect.event := by
    rw [show events = t.map PublisherEffect.event from rfl, ht, List.map_append]
    rfl
  have hserved := hrun.broadcast.1.served hevents
  rw [items_events] at hserved
  exact ⟨hserved, hrun.broadcast.1.closed_once hevents⟩

namespace BookSnapshotPublisher

/-- Fewer messages than the stride, and less time than the interval, since the last capture. -/
def Fresh (p : BookSnapshotPublisher) (now : Int64) (msgs : UInt64) : Prop :=
  (p.policy.everyMessages ≠ 0 → msgs - p.lastMsgMark < p.policy.everyMessages) ∧
    (p.policy.interval ≠ 0 → now.toInt - p.lastPublish.toInt < p.policy.interval.toInt * 1000000)

/-- A clock that has not gone back, and an interval whose nanoseconds fit in 64 bits. -/
structure Timely (p : BookSnapshotPublisher) (now : Int64) : Prop where
  since : 0 ≤ p.lastPublish
  steady : p.lastPublish ≤ now
  positive : 0 ≤ p.policy.interval
  fits : p.policy.interval ≤ 9223372036854

theorem Timely.interval_le_iff {p : BookSnapshotPublisher} {now : Int64} (h : p.Timely now) :
    p.policy.interval * 1000000 ≤ now - p.lastPublish ↔
      p.policy.interval.toInt * 1000000 ≤ now.toInt - p.lastPublish.toInt := by
  have hpos : 0 ≤ p.policy.interval.toInt := Int64.le_iff_toInt_le.mp h.positive
  have hfits : p.policy.interval.toInt ≤ 9223372036854 := Int64.le_iff_toInt_le.mp h.fits
  have hproduct : (p.policy.interval * 1000000).toInt = p.policy.interval.toInt * 1000000 := by
    rw [Int64.toInt_mul, show (1000000 : Int64).toInt = 1000000 from rfl]
    exact Int.bmod_eq_of_le (by omega) (by omega)
  rw [Int64.le_iff_toInt_le, hproduct, Int64.toInt_sub_of_le _ _ h.since h.steady]

theorem shouldPublish_eq_false {p : BookSnapshotPublisher} {now : Int64} {msgs : UInt64} (h : p.Timely now) :
    p.shouldPublish now msgs = false ↔ p.Fresh now msgs := by
  rw [shouldPublish, Fresh]
  split_ifs with hstride hinterval
  · simp only [false_iff, not_and]
    intro hfresh
    exact absurd (hfresh hstride.1) (UInt64.not_lt.mpr hstride.2)
  · simp only [false_iff, not_and]
    intro _ hfresh
    exact absurd (hfresh hinterval.1) (not_lt.mpr (h.interval_le_iff.mp hinterval.2))
  · simp only [true_iff]
    exact ⟨fun hne => UInt64.not_le.mp (fun hle => hstride ⟨hne, hle⟩),
      fun hne => not_le.mp (fun hle => hinterval ⟨hne, h.interval_le_iff.mpr hle⟩)⟩

theorem shouldPublish_eq_true {p : BookSnapshotPublisher} {now : Int64} {msgs : UInt64} (h : p.Timely now)
    (hdue : p.shouldPublish now msgs = true) :
    (p.policy.everyMessages ≠ 0 ∧ p.policy.everyMessages ≤ msgs - p.lastMsgMark) ∨
      (p.policy.interval ≠ 0 ∧ p.policy.interval.toInt * 1000000 ≤ now.toInt - p.lastPublish.toInt) := by
  rw [shouldPublish] at hdue
  split_ifs at hdue with hstride hinterval
  · exact Or.inl hstride
  · exact Or.inr ⟨hinterval.1, h.interval_le_iff.mp hinterval.2⟩

end BookSnapshotPublisher

/-- The calls of `note_message`. -/
def notesOf (is : List PublisherPass) : ℕ := (is.map PublisherPass.notes).sum

/-- The clock never goes back, from `start` on. -/
def Steady (now : Int64) (is : List PublisherPass) : Prop := (now :: is.map PublisherPass.now).Pairwise (· ≤ ·)

/-- The time that the last pass has read. -/
def lastTime (now : Int64) (is : List PublisherPass) : Int64 := (is.map PublisherPass.now).getLastD now

/-- The marks of the publisher, and the captures by what has triggered them. -/
structure Cadence (policy : BookSnapshotPolicy) (now : Int64) (is : List PublisherPass) (s : PublisherSystem)
    (captures : ℕ) : Prop where
  kept : s.publisher.policy = policy
  counter : s.msgCounter.toNat = notesOf is
  mark : s.publisher.lastMsgMark ≤ s.msgCounter
  started : now ≤ s.publisher.lastPublish
  clock : s.publisher.lastPublish ≤ lastTime now is
  triggers : ∃ byStride byInterval, captures = byStride + byInterval ∧
    byStride * policy.everyMessages.toNat ≤ s.publisher.lastMsgMark.toNat ∧
    byInterval * (policy.interval.toInt * 1000000) ≤ s.publisher.lastPublish.toInt - now.toInt ∧
    (policy.everyMessages = 0 → byStride = 0) ∧ (policy.interval = 0 → byInterval = 0)

/-- The interval is not negative, and its nanoseconds fit in 64 bits. -/
def BookSnapshotPolicy.Representable (policy : BookSnapshotPolicy) : Prop :=
  0 ≤ policy.interval ∧ policy.interval ≤ 9223372036854

theorem lastTime_concat (now : Int64) (is : List PublisherPass) (i : PublisherPass) : lastTime now (is ++ [i]) = i.now := by
  rw [lastTime, List.map_append, List.map_singleton, List.getLastD_concat]

theorem Steady.before {now : Int64} {is : List PublisherPass} {i : PublisherPass} (h : Steady now (is ++ [i])) :
    Steady now is ∧ lastTime now is ≤ i.now := by
  rw [Steady, List.map_append, ← List.cons_append, List.pairwise_append] at h
  obtain ⟨hbefore, -, hlast⟩ := h
  refine ⟨hbefore, hlast _ ?_ i.now (List.mem_singleton_self _)⟩
  rw [lastTime]
  cases hnil : is.map PublisherPass.now with
  | nil => exact List.mem_singleton_self now
  | cons x xs =>
    rw [List.getLastD_eq_getLast?, List.getLast?_eq_some_getLast (List.cons_ne_nil x xs)]
    exact List.mem_cons_of_mem _ (List.getLast_mem _)

theorem Cadence.timely {policy : BookSnapshotPolicy} {now now' : Int64} {is : List PublisherPass} {s : PublisherSystem}
    {n : ℕ} (h : Cadence policy now is s n) (htime : lastTime now is ≤ now') (hstart : 0 ≤ now)
    (hpolicy : policy.Representable) : s.publisher.Timely now' :=
  ⟨Int64.le_trans hstart h.started, Int64.le_trans h.clock htime, h.kept ▸ hpolicy.1, h.kept ▸ hpolicy.2⟩

theorem Cadence.pass {policy : BookSnapshotPolicy} {now : Int64} {is : List PublisherPass} {s s' : PublisherSystem} {n : ℕ}
    (h : Cadence policy now is s n) {i : PublisherPass} {fx : List PublisherEffect} (hpass : s.pass i = some (s', fx))
    (hnotes : notesOf (is ++ [i]) < 2 ^ 64) (hclock : Steady now (is ++ [i])) (hstart : 0 ≤ now)
    (hpolicy : policy.Representable) :
    Cadence policy now (is ++ [i]) s' (n + (capturesOf fx).length) := by
  obtain ⟨-, hmsgs, -, hpasses⟩ := s.pass_spec hpass
  obtain ⟨byStride, byInterval, hn, hstride, hinterval, hnostride, hnointerval⟩ := h.triggers
  have htime := hclock.before.2
  have hsum : notesOf (is ++ [i]) = notesOf is + i.notes := by
    rw [notesOf, notesOf, List.map_append, List.sum_append, List.map_singleton, List.sum_singleton]
  have hcounter : s'.msgCounter.toNat = notesOf (is ++ [i]) := by
    rw [hmsgs, UInt64.toNat_add, h.counter, UInt64.toNat_ofNat', Nat.add_mod_mod, ← hsum, Nat.mod_eq_of_lt hnotes]
  have hmark : s.publisher.lastMsgMark ≤ s'.msgCounter := by
    have hold := UInt64.le_iff_toNat_le.mp h.mark
    rw [UInt64.le_iff_toNat_le, hcounter, hsum]
    rw [h.counter] at hold
    omega
  have hmark' := UInt64.le_iff_toNat_le.mp hmark
  have hpublish := Int64.le_trans h.clock htime
  have htimely := h.timely htime hstart hpolicy
  obtain ⟨book', msgs', connections', p'⟩ := s'
  dsimp only at hcounter hmark hmark' hpasses
  cases hpasses with
  | quiet hquiet =>
    have hnone : (capturesOf
        ((if i.connects then some s.connections else none).toList.map PublisherEffect.accepted)).length = 0 := by
      rw [capturesOf_accepted, List.length_nil]
    rw [hnone, Nat.add_zero]
    exact ⟨h.kept, hcounter, hmark, h.started, (lastTime_concat now is i).symm ▸ hpublish,
      byStride, byInterval, hn, hstride, hinterval, hnostride, hnointerval⟩
  | @published hdue live fx hround hnone =>
    have hone : (capturesOf ((if i.connects then some s.connections else none).toList.map PublisherEffect.accepted ++
        .captured ⟨book', i.order, s.publisher.seq + 1⟩ :: fx)).length = 1 := by
      rw [capturesOf_append, capturesOf_accepted, List.nil_append, capturesOf, List.filterMap_cons]
      exact congrArg (fun cs => cs.length + 1) hnone
    rw [hone]
    refine ⟨h.kept, hcounter, UInt64.le_refl _, Int64.le_trans h.started hpublish,
      (lastTime_concat now is i).symm ▸ Int64.le_refl _, ?_⟩
    rcases BookSnapshotPublisher.shouldPublish_eq_true htimely hdue with ⟨hne, hle⟩ | ⟨hne, hle⟩
    · rw [h.kept, UInt64.le_iff_toNat_le, UInt64.toNat_sub_of_le _ _ hmark] at hle
      refine ⟨byStride + 1, byInterval, by omega, ?_, ?_, fun hzero => absurd (h.kept ▸ hzero) hne, hnointerval⟩
      · rw [Nat.succ_mul]
        dsimp only
        omega
      · dsimp only
        have hpast : s.publisher.lastPublish.toInt ≤ i.now.toInt := Int64.le_iff_toInt_le.mp (Int64.le_trans h.clock htime)
        omega
    · rw [h.kept] at hle
      refine ⟨byStride, byInterval + 1, by omega, Nat.le_trans hstride hmark', ?_, hnostride,
        fun hzero => absurd (h.kept ▸ hzero) hne⟩
      push_cast
      rw [add_mul, one_mul]
      omega

/-- A pass leaves the last capture fresh. -/
theorem Passes.fresh {p p' : BookSnapshotPublisher} {cfd : Option ℕ} {now : Int64} {msgs : UInt64} {book : DepthBook}
    {order : List Symbol} {fx : List PublisherEffect} (h : Passes p cfd now msgs book order p' fx) (htimely : p.Timely now) :
    p'.Fresh now msgs := by
  cases h with
  | quiet hquiet => exact (BookSnapshotPublisher.shouldPublish_eq_false htimely).mp hquiet
  | published hdue hround hnone =>
    refine ⟨fun hne => ?_, fun hne => ?_⟩
    · rw [UInt64.sub_self]
      exact UInt64.pos_iff_ne_zero.mpr hne
    · have hpos := Int64.le_iff_toInt_le.mp htimely.positive
      have hne' : p.policy.interval.toInt ≠ 0 := fun hzero => hne (Int64.toInt_inj.mp hzero)
      rw [Int64.toInt_zero] at hpos
      dsimp only
      omega

end MdfeedItch
