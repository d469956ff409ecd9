import Mathlib.Tactic.Common

/-! # A replica of a log behind a channel that loses entries

A source appends to a log. A replica hears of entries by their number, counted from
1, in any order, repeatedly or not at all. It applies the entry it expects, drops
what it has passed, and asks for the state of the whole log when it hears of an
entry behind a hole; the request may fail. Entries, states and what a restored
state keeps of the old one are arbitrary. -/
namespace MdfeedItch.LogReplication

/-- Where the history of a replica's state begins: with the initial state and the
entry after the first `n`, or with a snapshot of the first `n` entries. -/
inductive Origin
  | scratch (n : ℕ)
  | snapshot (n : ℕ)
  deriving DecidableEq, Repr

/-- The number of entries before the history begins. -/
def Origin.point : Origin → ℕ
  | .scratch n | .snapshot n => n

/-- The log, the number of the next entry (`none` before the first one), the state. -/
structure Replica (M S : Type*) where
  log : List M
  expected : Option ℕ
  origin : Origin
  state : S

/-- What can happen: the log grows, the replica hears of an entry, with or without
an answer if it asks, or it takes a snapshot on its own. -/
inductive Event (M : Type*)
  | append (m : M)
  | hear (n : ℕ) (answered : Bool)
  | refresh

namespace Replica
variable {M S : Type*}

/-- The number of entries that the replica is past. -/
def position (r : Replica M S) : ℕ := r.expected.elim 0 (fun e => e - 1)

variable (apply : S → M → S) (restore : List M → S → S)

/-- The next entry is applied. -/
def accept (r : Replica M S) (n : ℕ) : Replica M S :=
  { r with expected := some (n + 1), state := (r.log[n - 1]?).elim r.state (apply r.state) }

def refresh (r : Replica M S) : Replica M S :=
  ⟨r.log, some (r.log.length + 1), .snapshot r.log.length, restore r.log r.state⟩

def step (r : Replica M S) : Event M → Replica M S
  | .append m => { r with log := r.log ++ [m] }
  | .hear n answered =>
    match r.expected with
    -- the first entry heard is taken for the first one there is
    | none => { r.accept apply n with origin := .scratch (n - 1) }
    | some e =>
      if n < e then r
      else if n = e then r.accept apply n
      else if answered then r.refresh restore
      else r
  | .refresh => r.refresh restore

end Replica

section Hearing
variable {M S : Type*} {apply : S → M → S} {restore : List M → S → S} {r : Replica M S} {n e : ℕ} {answered : Bool}

theorem Replica.step_first (h : r.expected = none) :
    r.step apply restore (.hear n answered) = { r.accept apply n with origin := .scratch (n - 1) } := by
  simp only [step, h]

theorem Replica.step_stale (h : r.expected = some e) (hlt : n < e) : r.step apply restore (.hear n answered) = r := by
  simp only [step, h, if_pos hlt]

theorem Replica.step_next (h : r.expected = some n) : r.step apply restore (.hear n answered) = r.accept apply n := by
  simp only [step, h, if_neg (Nat.lt_irrefl n), if_true]

theorem Replica.step_unanswered (h : r.expected = some e) (hgap : e < n) :
    r.step apply restore (.hear n false) = r := by
  simp only [step, h, if_neg (Nat.lt_asymm hgap), if_neg (Nat.ne_of_gt hgap), Bool.false_eq_true, if_false]

theorem Replica.step_answered (h : r.expected = some e) (hgap : e < n) :
    r.step apply restore (.hear n true) = r.refresh restore := by
  simp only [step, h, if_neg (Nat.lt_asymm hgap), if_neg (Nat.ne_of_gt hgap), if_true]

end Hearing

/-- An event that the source can cause: only entries of the log are heard of. -/
def Event.Possible {M S : Type*} (r : Replica M S) : Event M → Prop
  | .hear n _ => 1 ≤ n ∧ n ≤ r.log.length
  | _ => True

open Replica

section Steps
variable {M S : Type*} {apply : S → M → S} {restore : List M → S → S} {start : S} {Legal : S → Prop} {r : Replica M S}

/-- The state is the entries from its origin to the replica's position; a snapshot
was restored over a legal state. -/
structure Replica.Follows (apply : S → M → S) (restore : List M → S → S) (start : S) (Legal : S → Prop)
    (r : Replica M S) : Prop where
  expects : ∀ e, r.expected = some e → 1 ≤ e
  bound : r.position ≤ r.log.length
  point : r.origin.point ≤ r.position
  unheard : r.expected = none → r.origin = .scratch 0
  scratch : ∀ n, r.origin = .scratch n → r.state = ((r.log.take r.position).drop n).foldl apply start
  snapshot : ∀ n, r.origin = .snapshot n → ∃ s, Legal s ∧
    r.state = ((r.log.take r.position).drop n).foldl apply (restore (r.log.take n) s)
  legal : Legal r.state

theorem Replica.position_of_expected {e : ℕ} (h : r.expected = some e) : r.position = e - 1 := by
  rw [position, h]
  rfl

theorem Replica.position_of_unheard (h : r.expected = none) : r.position = 0 := by
  rw [position, h]
  rfl

theorem Replica.Follows.expected_eq (h : r.Follows apply restore start Legal) {e : ℕ} (he : r.expected = some e) :
    e = r.position + 1 := by
  have hone := h.expects e he
  rw [position_of_expected he]
  omega

/-- Appending changes nothing before the end of the log. -/
theorem Replica.Follows.append (h : r.Follows apply restore start Legal) (m : M) :
    Replica.Follows apply restore start Legal { r with log := r.log ++ [m] } := by
  have hpos : Replica.position { r with log := r.log ++ [m] } = r.position := rfl
  have htake : ∀ k, k ≤ r.log.length → (r.log ++ [m]).take k = r.log.take k := fun k hk =>
    List.take_append_of_le_length hk
  refine ⟨h.expects, ?_, h.point, h.unheard, fun n hn => ?_, fun n hn => ?_, h.legal⟩
  · rw [hpos, List.length_append]
    exact Nat.le_add_right_of_le h.bound
  · rw [hpos, htake _ h.bound]
    exact h.scratch n hn
  · obtain ⟨s, hs, hstate⟩ := h.snapshot n hn
    have hle : n ≤ r.position := by
      have hpoint := h.point
      rwa [hn] at hpoint
    refine ⟨s, hs, ?_⟩
    rw [hpos, htake _ h.bound, htake n (Nat.le_trans hle h.bound)]
    exact hstate

theorem Replica.Follows.refresh (h : r.Follows apply restore start Legal) (hrestore : Legal (restore r.log r.state)) :
    (r.refresh restore).Follows apply restore start Legal := by
  refine ⟨fun e he => ?_, Nat.le_refl _, Nat.le_refl _, fun he => ?_, fun n hn => ?_, fun n hn => ?_, hrestore⟩
  · cases he
    exact Nat.le_add_left 1 _
  · cases he
  · cases hn
  · cases hn
    refine ⟨r.state, h.legal, ?_⟩
    have hpos : (r.refresh restore).position = r.log.length := rfl
    rw [hpos]
    simp [Replica.refresh]

/-- A part of the log with the entry after it. -/
theorem drop_take_succ (log : List M) {k c : ℕ} (hk : k ≤ c) (hc : c < log.length) :
    (log.take (c + 1)).drop k = (log.take c).drop k ++ [log[c]] := by
  rw [List.take_succ_eq_append_getElem hc, List.drop_append_of_le_length]
  rw [List.length_take_of_le (Nat.le_of_lt hc)]
  exact hk

/-- The entry expected next extends the history. -/
theorem Replica.Follows.accept (h : r.Follows apply restore start Legal) {n : ℕ} (hn : r.expected = some n)
    (hlen : n ≤ r.log.length) (happly : ∀ m, m ∈ r.log → Legal (apply r.state m)) :
    (r.accept apply n).Follows apply restore start Legal := by
  have hnext := h.expected_eq hn
  have hlt : r.position < r.log.length := by omega
  have hpos : (r.accept apply n).position = r.position + 1 := by
    rw [position_of_expected (e := n + 1) rfl]
    omega
  have hstate : (r.accept apply n).state = apply r.state r.log[r.position] := by
    have hindex : n - 1 = r.position := by omega
    simp [Replica.accept, hindex, hlt]
  have hpoint := h.point
  refine ⟨fun e he => ?_, ?_, ?_, fun he => ?_, fun k hk => ?_, fun k hk => ?_, ?_⟩
  · cases he
    exact Nat.le_add_left 1 n
  · rw [hpos]
    exact hlt
  · rw [hpos]
    exact Nat.le_succ_of_le hpoint
  · cases he
  · have hkp : k ≤ r.position := by
      change r.origin = .scratch k at hk
      rwa [hk] at hpoint
    have hlog : (r.accept apply n).log = r.log := rfl
    rw [hstate, hpos, hlog, drop_take_succ r.log hkp hlt, List.foldl_append, ← h.scratch k hk]
    rfl
  · have hkp : k ≤ r.position := by
      change r.origin = .snapshot k at hk
      rwa [hk] at hpoint
    obtain ⟨s, hs, hbefore⟩ := h.snapshot k hk
    refine ⟨s, hs, ?_⟩
    have hlog : (r.accept apply n).log = r.log := rfl
    rw [hstate, hpos, hlog, drop_take_succ r.log hkp hlt, List.foldl_append, ← hbefore]
    rfl
  · rw [hstate]
    exact happly _ (List.getElem_mem hlt)

/-- The first entry heard opens the history, wherever it is. -/
theorem Replica.Follows.hearFirst (h : r.Follows apply restore start Legal) (hnone : r.expected = none) {n : ℕ}
    (hone : 1 ≤ n) (hlen : n ≤ r.log.length) (happly : ∀ m, m ∈ r.log → Legal (apply r.state m)) :
    Replica.Follows apply restore start Legal { r.accept apply n with origin := .scratch (n - 1) } := by
  have hstart : r.state = start := by
    rw [h.scratch 0 (h.unheard hnone), position_of_unheard hnone]
    rfl
  have hindex : n - 1 < r.log.length := by omega
  have hpos : Replica.position { r.accept apply n with origin := .scratch (n - 1) } = n := rfl
  have hstate : (r.accept apply n).state = apply r.state r.log[n - 1] := by simp [Replica.accept, hindex]
  refine ⟨fun e he => ?_, ?_, ?_, fun he => ?_, fun k hk => ?_, fun k hk => ?_, ?_⟩
  · cases he
    exact Nat.le_add_left 1 n
  · rw [hpos]
    exact hlen
  · rw [hpos]
    exact Nat.sub_le n 1
  · cases he
  · cases hk
    have hsplit := drop_take_succ r.log (Nat.le_refl (n - 1)) hindex
    rw [Nat.sub_add_cancel hone, List.drop_eq_nil_of_le (List.length_take_le _ _)] at hsplit
    have hlog : (r.accept apply n).log = r.log := rfl
    rw [hpos, hlog, hsplit, hstate, hstart]
    rfl
  · cases hk
  · change Legal (r.accept apply n).state
    rw [hstate]
    exact happly _ (List.getElem_mem hindex)

/-- States stay legal on logs that are good, entry by entry and by a snapshot of the whole log. -/
structure Keeps (apply : S → M → S) (restore : List M → S → S) (Legal : S → Prop) (Good : List M → Prop) : Prop where
  before : ∀ {l l'}, l <+: l' → Good l' → Good l
  entry : ∀ {l m s}, Good l → m ∈ l → Legal s → Legal (apply s m)
  whole : ∀ {l s}, Good l → Legal s → Legal (restore l s)

variable {Good : List M → Prop}

theorem Replica.Follows.step (h : r.Follows apply restore start Legal) (hk : Keeps apply restore Legal Good) {e : Event M}
    (hgood : Good r.log) (he : e.Possible r) : (r.step apply restore e).Follows apply restore start Legal := by
  cases e with
  | append m => exact h.append m
  | refresh => exact h.refresh (hk.whole hgood h.legal)
  | hear n answered =>
    have hentry : ∀ m, m ∈ r.log → Legal (apply r.state m) := fun m hm => hk.entry hgood hm h.legal
    cases hexp : r.expected with
    | none =>
      rw [step_first hexp]
      exact h.hearFirst hexp he.1 he.2 hentry
    | some e =>
      rcases Nat.lt_trichotomy n e with hlt | rfl | hgap
      · rwa [step_stale hexp hlt]
      · rw [step_next hexp]
        exact h.accept hexp he.2 hentry
      · cases answered with
        | false => rwa [step_unanswered hexp hgap]
        | true =>
          rw [step_answered hexp hgap]
          exact h.refresh (hk.whole hgood h.legal)

/-- The log only grows. -/
theorem Replica.log_step (r : Replica M S) (e : Event M) :
    (r.step apply restore e).log = r.log ++ (match e with | .append m => [m] | _ => []) := by
  cases e with
  | append m => rfl
  | refresh => simp [Replica.step, Replica.refresh]
  | hear n answered =>
    rw [List.append_nil]
    simp only [Replica.step]
    split
    · rfl
    · split_ifs <;> rfl

/-- A replica that expects the first entry never takes a later one for it. -/
def Replica.Opened (r : Replica M S) : Prop := r.expected.isSome ∧ ∀ n, r.origin = .scratch n → n = 0

theorem Replica.Opened.step (h : r.Opened) (e : Event M) : (r.step apply restore e).Opened := by
  obtain ⟨hsome, hscratch⟩ := h
  cases e with
  | append m => exact ⟨hsome, hscratch⟩
  | refresh => exact ⟨rfl, fun n hn => by cases hn⟩
  | hear n answered =>
    obtain ⟨e, he⟩ := Option.isSome_iff_exists.mp hsome
    rcases Nat.lt_trichotomy n e with hlt | rfl | hgap
    · rw [step_stale he hlt]
      exact ⟨hsome, hscratch⟩
    · rw [step_next he]
      exact ⟨rfl, hscratch⟩
    · cases answered with
      | false =>
        rw [step_unanswered he hgap]
        exact ⟨hsome, hscratch⟩
      | true =>
        rw [step_answered he hgap]
        exact ⟨rfl, fun k hk => by cases hk⟩

end Steps

end MdfeedItch.LogReplication
