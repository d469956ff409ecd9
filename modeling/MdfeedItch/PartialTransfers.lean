import Mathlib.Data.List.Basic
import Mathlib.Tactic.Common

/-! # Transfers in pieces

A loop asks a channel for the items that are still missing, gets some of them and asks
again. A schedule lists what the calls do, in the order in which they are made; a loop
without a result is one that makes a call which does not return, or still waits at the
end of its schedule. -/
namespace MdfeedItch.PartialTransfers

/-- What a call does: it is interrupted, it fails for good, it never returns, or it moves
items. -/
inductive Call
  | interrupted
  | failed
  | never
  | moved (n : ℕ)
  deriving DecidableEq, Repr

/-- The items moved by a call that may move up to `limit`: every number from 1 to
`limit` belongs to some `n`. -/
def portion (n limit : ℕ) : ℕ := 1 + n % limit

/-- The calls of a schedule that move items. -/
def moves : List Call → ℕ
  | [] => 0
  | .moved _ :: calls => moves calls + 1
  | _ :: calls => moves calls

variable {α : Type*}

/-- Writes `data` from offset `off` on to the end of a stream. -/
def writeAll (data : List α) (off : ℕ) (stream : List α) : List Call → Option (Bool × List α × List Call)
  | [] => if off < data.length then none else some (true, stream, [])
  | call :: calls =>
    if off < data.length then
      match call with
      | .interrupted => writeAll data off stream calls
      | .failed => some (false, stream, calls)
      | .never => none
      | .moved n =>
        let k := portion n (data.length - off)
        writeAll data (off + k) (stream ++ (data.drop off).take k) calls
    else some (true, stream, call :: calls)

/-- Reads from a stream until `out` has `size` items. The call at the end of the stream
moves nothing, and the loop gives up. -/
def readFull (size : ℕ) (out stream : List α) : List Call → Option (Bool × List α × List α × List Call)
  | [] => if out.length < size then none else some (true, out, stream, [])
  | call :: calls =>
    if out.length < size then
      match call with
      | .interrupted => readFull size out stream calls
      | .failed => some (false, out, stream, calls)
      | .never => none
      | .moved n =>
        if stream.isEmpty then some (false, out, stream, calls)
        else
          let k := portion n (min (size - out.length) stream.length)
          readFull size (out ++ stream.take k) (stream.drop k) calls
    else some (true, out, stream, call :: calls)

/-- All calls of the schedule return, none fails for good, and at least `n` move items. -/
structure Serves (calls : List Call) (n : ℕ) : Prop where
  lossless : .failed ∉ calls ∧ .never ∉ calls
  enough : n ≤ moves calls

theorem portion_pos (n limit : ℕ) : 0 < portion n limit := by
  unfold portion
  omega

theorem portion_le (n : ℕ) {limit : ℕ} (h : 0 < limit) : portion n limit ≤ limit := by
  have := Nat.mod_lt n h
  unfold portion
  omega

/-- Every number up to the limit is the portion of some call. -/
theorem exists_portion {k limit : ℕ} (hpos : 0 < k) (hle : k ≤ limit) : ∃ n, portion n limit = k := by
  refine ⟨k - 1, ?_⟩
  rw [portion, Nat.mod_eq_of_lt (by omega)]
  omega

variable {calls : List Call} {n k : ℕ}

theorem Serves.mono (h : Serves calls n) (hk : k ≤ n) : Serves calls k :=
  ⟨h.lossless, Nat.le_trans hk h.enough⟩

theorem Serves.interrupted (h : Serves (.interrupted :: calls) n) : Serves calls n :=
  ⟨h.lossless.imp List.not_mem_of_not_mem_cons List.not_mem_of_not_mem_cons, h.enough⟩

theorem Serves.moved {m : ℕ} (h : Serves (.moved m :: calls) n) : Serves calls (n - 1) :=
  ⟨h.lossless.imp List.not_mem_of_not_mem_cons List.not_mem_of_not_mem_cons, Nat.sub_le_of_le_add h.enough⟩

theorem Serves.not_failed (h : Serves (.failed :: calls) n) : False := h.lossless.1 (by simp)

theorem Serves.not_never (h : Serves (.never :: calls) n) : False := h.lossless.2 (by simp)

/-- Calls that all move items. -/
theorem Serves.of_replicate (k : ℕ) {m : ℕ} (h : n ≤ m) : Serves (List.replicate m (.moved k)) n := by
  have hmoves : moves (List.replicate m (.moved k)) = m := by
    clear h
    induction m with
    | zero => rfl
    | succ m ih => rw [List.replicate_succ, moves, ih]
  exact ⟨by simp [List.mem_replicate], Nat.le_trans h (Nat.le_of_eq hmoves.symm)⟩

theorem writeAll_done {data : List α} {off : ℕ} (stream : List α) (calls : List Call)
    (h : data.length ≤ off) : writeAll data off stream calls = some (true, stream, calls) := by
  cases calls with
  | nil => rw [writeAll, if_neg (by omega)]
  | cons call calls => cases call <;> rw [writeAll, if_neg (by omega)]

theorem readFull_done {size : ℕ} {out : List α} (stream : List α) (calls : List Call)
    (h : size ≤ out.length) : readFull size out stream calls = some (true, out, stream, calls) := by
  cases calls with
  | nil => rw [readFull, if_neg (by omega)]
  | cons call calls => cases call <;> rw [readFull, if_neg (by omega)]

/-- A write ends with all of its data at the end of the stream, however it is cut up. -/
theorem writeAll_spec {data : List α} {off : ℕ} (stream : List α) {calls : List Call} {m : ℕ}
    (hoff : off ≤ data.length) (hcalls : Serves calls (data.length - off + m)) :
    ∃ left, writeAll data off stream calls = some (true, stream ++ data.drop off, left) ∧ Serves left m := by
  induction calls generalizing off stream with
  | nil =>
    have hnone : data.length - off + m ≤ 0 := hcalls.enough
    refine ⟨[], ?_, hcalls.mono (by omega)⟩
    rw [writeAll_done stream [] (by omega), List.drop_of_length_le (by omega), List.append_nil]
  | cons call calls ih =>
    by_cases hmore : off < data.length
    · cases call with
      | failed => exact hcalls.not_failed.elim
      | never => exact hcalls.not_never.elim
      | interrupted =>
        rw [writeAll, if_pos hmore]
        exact ih stream hoff hcalls.interrupted
      | moved n =>
        rw [writeAll, if_pos hmore]
        have hpos := portion_pos n (data.length - off)
        have hle := portion_le n (show 0 < data.length - off by omega)
        obtain ⟨left, hleft, hserves⟩ := ih (stream ++ (data.drop off).take (portion n (data.length - off)))
          (show off + portion n (data.length - off) ≤ data.length by omega) (hcalls.moved.mono (by omega))
        refine ⟨left, ?_, hserves⟩
        dsimp only
        rw [hleft, List.append_assoc, ← List.drop_drop, List.take_append_drop]
    · refine ⟨call :: calls, ?_, hcalls.mono (by omega)⟩
      rw [writeAll_done stream _ (by omega), List.drop_of_length_le (by omega), List.append_nil]

/-- A read takes exactly the items that it misses off the stream. -/
theorem readFull_enough {size : ℕ} {out stream : List α} {calls : List Call} {m : ℕ}
    (hout : out.length ≤ size) (hroom : size - out.length ≤ stream.length)
    (hcalls : Serves calls (size - out.length + m)) :
    ∃ left, readFull size out stream calls =
        some (true, out ++ stream.take (size - out.length), stream.drop (size - out.length), left) ∧
      Serves left m := by
  induction calls generalizing out stream with
  | nil =>
    have hnone : size - out.length + m ≤ 0 := hcalls.enough
    refine ⟨[], ?_, hcalls.mono (by omega)⟩
    rw [readFull_done stream [] (by omega), show size - out.length = 0 by omega, List.take_zero,
      List.append_nil, List.drop_zero]
  | cons call calls ih =>
    by_cases hmore : out.length < size
    · cases call with
      | failed => exact hcalls.not_failed.elim
      | never => exact hcalls.not_never.elim
      | interrupted =>
        rw [readFull, if_pos hmore]
        exact ih hout hroom hcalls.interrupted
      | moved n =>
        have hne : stream.isEmpty = false := List.isEmpty_eq_false_iff.mpr (List.length_pos_iff.mp (by omega))
        rw [readFull, if_pos hmore, hne, if_neg (by decide), Nat.min_eq_left hroom]
        generalize hk : portion n (size - out.length) = k
        have hpos : 0 < k := hk ▸ portion_pos n _
        have hle : k ≤ size - out.length := hk ▸ portion_le n (by omega)
        have hlen : (out ++ stream.take k).length = out.length + k := by
          rw [List.length_append, List.length_take_of_le (by omega)]
        have hroom' : size - (out ++ stream.take k).length ≤ (stream.drop k).length := by
          rw [List.length_drop]
          omega
        obtain ⟨left, hleft, hserves⟩ := ih (by omega) hroom' (hcalls.moved.mono (by omega))
        refine ⟨left, ?_, hserves⟩
        dsimp only
        have hsplit : size - out.length = k + (size - (out.length + k)) := by omega
        rw [hleft, hlen, List.append_assoc, List.drop_drop, hsplit, List.take_add]
    · refine ⟨call :: calls, ?_, hcalls.mono (by omega)⟩
      rw [readFull_done stream _ (by omega), show size - out.length = 0 by omega, List.take_zero,
        List.append_nil,
        List.drop_zero]

/-- A stream that ends too early is read to its end, and the read fails. -/
theorem readFull_short {size : ℕ} {out stream : List α} {calls : List Call}
    (hshort : out.length + stream.length < size) (hcalls : Serves calls (stream.length + 1)) :
    ∃ left, readFull size out stream calls = some (false, out ++ stream, [], left) := by
  induction calls generalizing out stream with
  | nil => exact absurd hcalls.enough (Nat.not_succ_le_zero _)
  | cons call calls ih =>
    cases call with
    | failed => exact hcalls.not_failed.elim
    | never => exact hcalls.not_never.elim
    | interrupted =>
      rw [readFull, if_pos (by omega)]
      exact ih hshort hcalls.interrupted
    | moved n =>
      rw [readFull, if_pos (by omega)]
      by_cases hend : stream = []
      · rw [hend, List.append_nil]
        exact ⟨calls, rfl⟩
      · have hlen := List.length_pos_iff.mpr hend
        rw [if_neg (by simp [hend])]
        generalize hk : portion n (min (size - out.length) stream.length) = k
        have hpos : 0 < k := hk ▸ portion_pos n _
        have hle : k ≤ stream.length := Nat.le_trans (hk ▸ portion_le n (by omega)) (Nat.min_le_right _ _)
        have hsum : (out ++ stream.take k).length + (stream.drop k).length = out.length + stream.length := by
          rw [List.length_append, List.length_take_of_le hle, List.length_drop]
          omega
        have hshort' : (out ++ stream.take k).length + (stream.drop k).length < size := by omega
        obtain ⟨left, hleft⟩ := ih hshort' (hcalls.moved.mono (by rw [List.length_drop]; omega))
        refine ⟨left, ?_⟩
        rw [hleft, List.append_assoc, List.take_append_drop]

/-- Whatever the calls do, a write has put a first part of its data on the stream: all of it
where it succeeds, and not all of it where it fails. -/
theorem writeAll_prefix {data out stream : List α} {off : ℕ} {calls left : List Call} {ok : Bool}
    (h : writeAll data off stream calls = some (ok, out, left)) :
    ∃ n, out = stream ++ (data.drop off).take n ∧ (ok = true → out = stream ++ data.drop off) ∧
      (ok = false → off + n < data.length) := by
  induction calls generalizing off stream with
  | nil =>
    by_cases hmore : off < data.length
    · rw [writeAll, if_pos hmore] at h
      cases h
    · rw [writeAll_done stream [] (by omega)] at h
      cases h
      refine ⟨0, by simp, fun _ => ?_, fun hok => by cases hok⟩
      rw [List.drop_of_length_le (by omega), List.append_nil]
  | cons call calls ih =>
    by_cases hmore : off < data.length
    · cases call with
      | interrupted =>
        rw [writeAll, if_pos hmore] at h
        exact ih h
      | failed =>
        rw [writeAll, if_pos hmore] at h
        cases h
        exact ⟨0, by simp, fun hok => (by cases hok), fun _ => hmore⟩
      | never =>
        rw [writeAll, if_pos hmore] at h
        cases h
      | moved n =>
        rw [writeAll, if_pos hmore] at h
        dsimp only at h
        generalize portion n (data.length - off) = k at h
        obtain ⟨m, hout, hall, hpart⟩ := ih h
        refine ⟨k + m, ?_, fun hok => ?_, fun hok => Nat.add_assoc off k m ▸ hpart hok⟩
        · rw [hout, List.append_assoc, List.take_add, List.drop_drop]
        · rw [hall hok, List.append_assoc, ← List.drop_drop, List.take_append_drop]
    · rw [writeAll_done stream _ (by omega)] at h
      cases h
      refine ⟨0, by simp, fun _ => ?_, fun hok => by cases hok⟩
      rw [List.drop_of_length_le (by omega), List.append_nil]

/-- Whatever the calls do, a read has moved items from the front of the stream, and has
its size exactly where it succeeds. -/
theorem readFull_prefix {size : ℕ} {out stream out' rest : List α} {calls left : List Call} {ok : Bool}
    (hout : out.length ≤ size) (h : readFull size out stream calls = some (ok, out', rest, left)) :
    ∃ taken, out' = out ++ taken ∧ stream = taken ++ rest ∧ (ok = true → out'.length = size) ∧
      (ok = false → out'.length < size) := by
  induction calls generalizing out stream with
  | nil =>
    by_cases hmore : out.length < size
    · rw [readFull, if_pos hmore] at h
      cases h
    · rw [readFull_done stream [] (by omega)] at h
      cases h
      exact ⟨[], (List.append_nil _).symm, rfl, fun _ => by omega, fun hok => by cases hok⟩
  | cons call calls ih =>
    by_cases hmore : out.length < size
    · cases call with
      | interrupted =>
        rw [readFull, if_pos hmore] at h
        exact ih hout h
      | failed =>
        rw [readFull, if_pos hmore] at h
        cases h
        exact ⟨[], (List.append_nil _).symm, rfl, fun hok => (by cases hok), fun _ => hmore⟩
      | never =>
        rw [readFull, if_pos hmore] at h
        cases h
      | moved n =>
        rw [readFull, if_pos hmore] at h
        by_cases hend : stream.isEmpty
        · rw [if_pos hend] at h
          cases h
          exact ⟨[], (List.append_nil _).symm, rfl, fun hok => (by cases hok), fun _ => hmore⟩
        · rw [if_neg hend] at h
          dsimp only at h
          have hpos : 0 < stream.length := List.length_pos_iff.mpr (fun hnil => hend (by rw [hnil]; rfl))
          have hle := portion_le n (show 0 < min (size - out.length) stream.length by omega)
          generalize portion n (min (size - out.length) stream.length) = k at h hle
          have hlen : (out ++ stream.take k).length = out.length + k := by
            rw [List.length_append, List.length_take_of_le (by omega)]
          obtain ⟨taken, hout', hrest, hsize⟩ := ih (by omega) h
          refine ⟨stream.take k ++ taken, ?_, ?_, hsize⟩
          · rw [hout', List.append_assoc]
          · rw [List.append_assoc, ← hrest, List.take_append_drop]
    · rw [readFull_done stream _ (by omega)] at h
      cases h
      exact ⟨[], (List.append_nil _).symm, rfl, fun _ => by omega, fun hok => by cases hok⟩

end MdfeedItch.PartialTransfers
