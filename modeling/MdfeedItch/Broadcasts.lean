import Mathlib.Data.List.Nodup
import Mathlib.Tactic.Common

/-! # A broadcaster that drops its slow receivers

Receivers join one by one. Every item goes to all that are there, to one after the
other; where it gets out only in part, the receiver is cut off. What a receiver has
been written depends on nothing but the items published since it joined and the
place where it was cut off. -/
namespace MdfeedItch.Broadcasts

/-- What the broadcaster does. -/
inductive Event (ρ α : Type*)
  | joined (r : ρ)
  | published (item : List α)
  | wrote (r : ρ) (part : List α)
  | left (r : ρ)

variable {ρ α : Type*}

/-- An item goes round: the events, and the receivers that are left. -/
inductive Round (item : List α) : List ρ → List (Event ρ α) → List ρ → Prop
  | done : Round item [] [] []
  | whole {rs live : List ρ} {fx : List (Event ρ α)} (r : ρ) (h : Round item rs fx live) :
      Round item (r :: rs) (.wrote r item :: fx) (r :: live)
  | cut {rs live : List ρ} {fx : List (Event ρ α)} (r : ρ) {n : ℕ} (hn : n < item.length) (h : Round item rs fx live) :
      Round item (r :: rs) (.wrote r (item.take n) :: .left r :: fx) live

/-- The receivers after a history; nobody joins twice. -/
inductive Broadcast : List ρ → List (Event ρ α) → Prop
  | start : Broadcast [] []
  | join {rs : List ρ} {t : List (Event ρ α)} (h : Broadcast rs t) {r : ρ} (hnew : .joined r ∉ t) :
      Broadcast (rs ++ [r]) (t ++ [.joined r])
  | publish {rs live : List ρ} {t fx : List (Event ρ α)} (h : Broadcast rs t) {item : List α}
      (hround : Round item rs fx live) : Broadcast live (t ++ .published item :: fx)

/-- The items that were published. -/
def items (t : List (Event ρ α)) : List (List α) :=
  t.filterMap (fun | .published item => some item | _ => none)

theorem Round.sublist {item : List α} {rs live : List ρ} {fx : List (Event ρ α)} (h : Round item rs fx live) :
    live.Sublist rs := by
  induction h with
  | done => exact .slnil
  | whole r h ih => exact ih.cons_cons r
  | cut r hn h ih => exact ih.cons r

section Receiver
variable [DecidableEq ρ] (r : ρ)

def Event.part : Event ρ α → List α
  | .wrote r' part => if r' = r then part else []
  | _ => []

def Event.isJoined : Event ρ α → Bool
  | .joined r' => r' = r
  | _ => false

def Event.isLeft : Event ρ α → Bool
  | .left r' => r' = r
  | _ => false

/-- All that was written to a receiver. -/
def written (t : List (Event ρ α)) : List α := t.flatMap (Event.part r)

/-- How often a receiver was cut off. -/
def departures (t : List (Event ρ α)) : ℕ := t.countP (Event.isLeft r)

def sinceStep (since : Option (List (List α))) : Event ρ α → Option (List (List α))
  | .joined r' => if r' = r then some [] else since
  | .published item => since.map (· ++ [item])
  | .wrote .. | .left .. => since

/-- The items published since a receiver joined. -/
def sinceJoin (t : List (Event ρ α)) : Option (List (List α)) := t.foldl (sinceStep r) none

theorem written_append (t fx : List (Event ρ α)) : written r (t ++ fx) = written r t ++ written r fx :=
  List.flatMap_append

theorem departures_append (t fx : List (Event ρ α)) : departures r (t ++ fx) = departures r t + departures r fx :=
  List.countP_append

theorem written_cons (e : Event ρ α) (t : List (Event ρ α)) : written r (e :: t) = e.part r ++ written r t :=
  List.flatMap_cons

@[simp] theorem departures_wrote (r' : ρ) (part : List α) (t : List (Event ρ α)) :
    departures r (.wrote r' part :: t) = departures r t := List.countP_cons_of_neg Bool.false_ne_true

@[simp] theorem departures_left (r' : ρ) (t : List (Event ρ α)) :
    departures r (.left r' :: t) = departures r t + if r' = r then 1 else 0 := by
  simp [departures, List.countP_cons, Event.isLeft]

@[simp] theorem written_wrote (r' : ρ) (part : List α) (t : List (Event ρ α)) :
    written r (.wrote r' part :: t) = (if r' = r then part else []) ++ written r t := written_cons r _ t

@[simp] theorem written_left (r' : ρ) (t : List (Event ρ α)) : written r (.left r' :: t) = written r t :=
  written_cons r _ t

variable {r} {rs live : List ρ} {t fx : List (Event ρ α)} {item : List α}

/-- Who is not there is not written to. -/
theorem Round.of_not_mem (h : Round item rs fx live) (hr : r ∉ rs) : written r fx = [] ∧ departures r fx = 0 := by
  induction h with
  | done => exact ⟨rfl, rfl⟩
  | whole r' h ih | cut r' hn h ih =>
    have hne : r' ≠ r := fun heq => hr (heq ▸ List.mem_cons_self)
    have hnot := ih (fun hmem => hr (List.mem_cons_of_mem _ hmem))
    simpa [hne] using hnot

/-- Who is there gets the whole item and stays, or gets a part of it and is cut off. -/
theorem Round.of_mem (h : Round item rs fx live) (hnodup : rs.Nodup) (hr : r ∈ rs) :
    (r ∈ live ∧ departures r fx = 0 ∧ written r fx = item) ∨
      (r ∉ live ∧ departures r fx = 1 ∧ ∃ n, n < item.length ∧ written r fx = item.take n) := by
  induction h with
  | done => cases hr
  | whole r' h ih =>
    obtain ⟨hnot, hnodup⟩ := List.nodup_cons.mp hnodup
    by_cases heq : r' = r
    · subst heq
      obtain ⟨hwritten, hleft⟩ := h.of_not_mem hnot
      left
      simp [hwritten, hleft]
    · have hthere := ih hnodup ((List.mem_cons.mp hr).resolve_left (Ne.symm heq))
      simpa [heq, Ne.symm heq] using hthere
  | cut r' hn h ih =>
    obtain ⟨hnot, hnodup⟩ := List.nodup_cons.mp hnodup
    by_cases heq : r' = r
    · subst heq
      obtain ⟨hwritten, hleft⟩ := h.of_not_mem hnot
      right
      refine ⟨fun hlive => hnot (h.sublist.subset hlive), ?_, _, hn, ?_⟩
      · simp [hleft]
      · simp [hwritten]
    · have hthere := ih hnodup ((List.mem_cons.mp hr).resolve_left (Ne.symm heq))
      simpa [heq] using hthere

theorem Round.sinceStep (h : Round item rs fx live) (since : Option (List (List α))) :
    fx.foldl (sinceStep r) since = since := by
  induction h with
  | done => rfl
  | whole r' h ih | cut r' hn h ih => exact ih

/-- The receiver is there, and has been written all items since it joined. -/
def Kept (r : ρ) (rs : List ρ) (t : List (Event ρ α)) (since : List (List α)) : Prop :=
  r ∈ rs ∧ departures r t = 0 ∧ written r t = since.flatten

/-- The receiver has been written the items since it joined, up to one that was cut short. -/
def CutOff (r : ρ) (rs : List ρ) (t : List (Event ρ α)) (since : List (List α)) : Prop :=
  r ∉ rs ∧ departures r t = 1 ∧ ∃ whole item later n, since = whole ++ item :: later ∧ n < item.length ∧
    written r t = whole.flatten ++ item.take n

/-- What holds after every history. -/
structure Sound (rs : List ρ) (t : List (Event ρ α)) : Prop where
  nodup : rs.Nodup
  present : ∀ r ∈ rs, .joined r ∈ t
  absent : ∀ r, .joined r ∉ t → written r t = [] ∧ departures r t = 0 ∧ sinceJoin r t = none
  served : ∀ r since, sinceJoin r t = some since → Kept r rs t since ∨ CutOff r rs t since

theorem Sound.join (h : Sound rs t) (hnew : .joined r ∉ t) : Sound (rs ++ [r]) (t ++ [.joined r]) := by
  have hnot : r ∉ rs := fun hmem => hnew (h.present r hmem)
  have hquiet : ∀ r', written r' (t ++ [Event.joined r]) = written r' t ∧
      departures r' (t ++ [Event.joined r]) = departures r' t := by
    intro r'
    rw [written_append, departures_append]
    exact ⟨List.append_nil _, rfl⟩
  have hsince : ∀ r', sinceJoin r' (t ++ [Event.joined r]) = if r = r' then some [] else sinceJoin r' t := by
    intro r'
    rw [sinceJoin, List.foldl_append]
    rfl
  refine ⟨?_, ?_, ?_, ?_⟩
  · exact h.nodup.append (List.nodup_singleton r) (List.disjoint_singleton.mpr hnot)
  · intro r' hr'
    rcases List.mem_append.mp hr' with hold | hlast
    · exact List.mem_append_left _ (h.present r' hold)
    · rw [List.mem_singleton.mp hlast]
      exact List.mem_concat_self
  · intro r' hr'
    obtain ⟨hwritten, hleft, hnone⟩ := h.absent r' (fun hmem => hr' (List.mem_append_left _ hmem))
    have hne : r ≠ r' := fun heq => hr' (heq ▸ List.mem_concat_self)
    rw [(hquiet r').1, (hquiet r').2, hsince, if_neg hne]
    exact ⟨hwritten, hleft, hnone⟩
  · intro r' since hr'
    rw [Kept, CutOff, (hquiet r').1, (hquiet r').2]
    rw [hsince] at hr'
    by_cases heq : r = r'
    · subst heq
      rw [if_pos rfl] at hr'
      cases hr'
      obtain ⟨hwritten, hleft, -⟩ := h.absent r hnew
      exact Or.inl ⟨List.mem_concat_self, hleft, hwritten⟩
    · rw [if_neg heq] at hr'
      rw [List.mem_append, List.mem_singleton, or_iff_left (Ne.symm heq)]
      exact h.served r' since hr'

theorem Sound.publish (h : Sound rs t) (hround : Round item rs fx live) :
    Sound live (t ++ .published item :: fx) := by
  have hwritten : ∀ r, written r (t ++ .published item :: fx) = written r t ++ written r fx := by
    intro r
    rw [written_append, written_cons]
    rfl
  have hleft : ∀ r, departures r (t ++ .published item :: fx) = departures r t + departures r fx := by
    intro r
    rw [departures_append]
    rfl
  have hsince : ∀ r, sinceJoin r (t ++ .published item :: fx) = (sinceJoin r t).map (· ++ [item]) := by
    intro r
    rw [sinceJoin, List.foldl_append, List.foldl_cons, hround.sinceStep]
    rfl
  refine ⟨h.nodup.sublist hround.sublist, ?_, ?_, ?_⟩
  · intro r hr
    exact List.mem_append_left _ (h.present r (hround.sublist.subset hr))
  · intro r hr
    have hold : .joined r ∉ t := fun hmem => hr (List.mem_append_left _ hmem)
    obtain ⟨hw, hl, hs⟩ := h.absent r hold
    obtain ⟨hw', hl'⟩ := hround.of_not_mem (fun hmem => hold (h.present r hmem))
    rw [hwritten, hleft, hsince, hw, hl, hs, hw', hl']
    exact ⟨rfl, rfl, rfl⟩
  · intro r since' hr
    rw [hsince] at hr
    obtain ⟨since, hold, rfl⟩ := Option.map_eq_some_iff.mp hr
    rw [Kept, CutOff, hwritten, hleft]
    rcases h.served r since hold with ⟨hmem, hl, hw⟩ | ⟨hmem, hl, whole, cut, later, n, hsplit, hn, hw⟩
    · rcases hround.of_mem h.nodup hmem with ⟨hlive, hl', hw'⟩ | ⟨hlive, hl', n, hn, hw'⟩
      · left
        refine ⟨hlive, by rw [hl, hl'], ?_⟩
        rw [hw, hw', List.flatten_append, List.flatten_singleton]
      · right
        exact ⟨hlive, by rw [hl, hl'], since, item, [], n, rfl, hn, by rw [hw, hw']⟩
    · -- who has left stays away, and nothing more is written to it
      right
      obtain ⟨hw', hl'⟩ := hround.of_not_mem hmem
      refine ⟨fun hlive => hmem (hround.sublist.subset hlive), by rw [hl, hl'], whole, cut, later ++ [item], n, ?_,
        hn, ?_⟩
      · rw [hsplit, List.append_assoc, List.cons_append]
      · rw [hw, hw', List.append_nil]

theorem Broadcast.sound (h : Broadcast rs t) : Sound rs t := by
  induction h with
  | start =>
    refine ⟨List.nodup_nil, fun r hr => absurd hr List.not_mem_nil, fun r _ => ⟨rfl, rfl, rfl⟩, fun r since hr => ?_⟩
    cases hr
  | join h hnew ih => exact ih.join hnew
  | publish h hround ih => exact ih.publish hround

theorem Event.isJoined_iff (e : Event ρ α) : e.isJoined r ↔ e = .joined r := by
  cases e with
  | joined r' => simp [isJoined]
  | published item | wrote r' part | left r' => simp [isJoined]

theorem Round.countP_isJoined (h : Round item rs fx live) : fx.countP (Event.isJoined r) = 0 := by
  induction h with
  | done => rfl
  | whole r' h ih | cut r' hn h ih => exact ih

theorem Round.joined_not_mem (h : Round item rs fx live) : .joined r ∉ fx := fun hmem =>
  List.countP_eq_zero.mp h.countP_isJoined _ hmem ((Event.isJoined_iff _).mpr rfl)

theorem Broadcast.countP_isJoined (h : Broadcast rs t) : t.countP (Event.isJoined r) ≤ 1 := by
  induction h with
  | start => exact Nat.zero_le 1
  | @join rs t h r' hnew ih =>
    rw [List.countP_append, List.countP_singleton]
    by_cases heq : r' = r
    · have hnone : t.countP (Event.isJoined r) = 0 :=
        List.countP_eq_zero.mpr (fun e he hjoined => hnew (heq ▸ (e.isJoined_iff.mp hjoined) ▸ he))
      rw [hnone]
      split_ifs <;> omega
    · rw [if_neg (by simp [Event.isJoined, heq])]
      exact ih
  | publish h hround ih =>
    rw [List.countP_append, List.countP_cons_of_neg (by exact Bool.false_ne_true), hround.countP_isJoined]
    exact ih

theorem sinceStep_items (since : List (List α)) (honce : .joined r ∉ t) :
    t.foldl (sinceStep r) (some since) = some (since ++ items t) := by
  induction t generalizing since with
  | nil => rw [items, List.filterMap_nil, List.append_nil, List.foldl_nil]
  | cons e t ih =>
    obtain ⟨hne, hnot⟩ := not_or.mp (mt List.mem_cons.mpr honce)
    cases e with
    | joined r' =>
      have hother : r' ≠ r := fun heq => hne (heq ▸ rfl)
      rw [List.foldl_cons, Broadcasts.sinceStep, if_neg hother]
      exact ih since hnot
    | published item =>
      have hnext := ih (since ++ [item]) hnot
      rw [List.append_assoc] at hnext
      exact hnext
    | wrote r' part | left r' => exact ih since hnot

/-- The items since a receiver joined are those published behind its joining. -/
theorem Broadcast.sinceJoin_eq (h : Broadcast rs t) {before after : List (Event ρ α)}
    (ht : t = before ++ .joined r :: after) : sinceJoin r t = some (items after) := by
  have hjoined : (Event.joined r : Event ρ α).isJoined r := (Event.isJoined_iff _).mpr rfl
  have hcount : t.countP (Event.isJoined r) ≤ 1 := h.countP_isJoined
  rw [ht, List.countP_append, List.countP_cons_of_pos hjoined] at hcount
  have honce : .joined r ∉ after := by
    intro hmem
    have hpos := List.countP_pos_iff.mpr ⟨_, hmem, hjoined⟩
    omega
  have hstart : sinceStep r (before.foldl (sinceStep r) none) (.joined r) = some [] := if_pos rfl
  rw [ht, sinceJoin, List.foldl_append, List.foldl_cons, hstart, sinceStep_items _ honce, List.nil_append]

/-- Every receiver has been written exactly the items published since it joined, one after the
other, or has been cut off in one of them. -/
theorem Broadcast.served (h : Broadcast rs t) {before after : List (Event ρ α)}
    (ht : t = before ++ .joined r :: after) :
    Kept r rs t (items after) ∨ CutOff r rs t (items after) :=
  h.sound.served r _ (h.sinceJoin_eq ht)

/-- When all that are left leave, everybody who ever joined has left once. -/
theorem Broadcast.closed_once (h : Broadcast rs t) {before after : List (Event ρ α)}
    (ht : t = before ++ .joined r :: after) :
    departures r (t ++ rs.map .left) = 1 := by
  have hlast : departures r (rs.map (Event.left : ρ → Event ρ α)) = rs.count r := by
    rw [departures, List.countP_map, List.count]
    exact List.countP_congr (fun r' _ => by simp [Event.isLeft])
  rw [departures_append, hlast]
  rcases h.served ht with ⟨hmem, hleft, -⟩ | ⟨hmem, hleft, -⟩
  · rw [hleft, List.count_eq_one_of_mem h.sound.nodup hmem]
  · rw [hleft, List.count_eq_zero_of_not_mem hmem]

end Receiver

end MdfeedItch.Broadcasts
