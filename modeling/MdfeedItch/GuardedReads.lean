import MdfeedItch.ByteLayout

/-! # Readers that check the room before they read

The data of a reader ends in front of the last `behind` bytes of its buffer; a
negative number is an end outside of the buffer. A guarded reader compares the
distance to that end with what it is about to read and stops when it falls short. `Safe behind n c`: with `n` bytes
of data left, `c` stays inside them. -/
namespace MdfeedItch.GuardedReads
open ByteCursor ByteLayout

/-- The distance of the cursor from the end of the data. -/
def room (behind : ℤ) : Cursor ℤ := fun bs => some ((bs.length : ℤ) - behind, bs)

/-- Goes on only with `n` bytes of room. -/
def guarded {α : Type} (behind : ℤ) (n : ℕ) (short : α) (c : Cursor α) : Cursor α := do
  let left ← room behind
  if left < n then return short else c

/-- A read at an offset of a buffer. -/
def readAt {α : Type} (c : Cursor α) (bytes : List UInt8) (off : ℕ) : Option α :=
    (c.run (bytes.drop off)).map Prod.fst

def Safe {α : Type} (behind n : ℕ) (c : Cursor α) : Prop :=
  ∀ bs, behind + n ≤ bs.length → ∃ a rest, c.run bs = some (a, rest) ∧ behind ≤ rest.length

variable {α β : Type} {behind n k : ℕ}

theorem run_room (behind : ℤ) (bs : List UInt8) :
    (room behind).run bs = some ((bs.length : ℤ) - behind, bs) := rfl

theorem run_guarded (behind : ℤ) (short : α) (c : Cursor α) (bs : List UInt8) :
    (guarded behind n short c).run bs =
      if (bs.length : ℤ) < behind + n then some (short, bs) else c.run bs := by
  have hstep : (guarded behind n short c).run bs =
      (if (bs.length : ℤ) - behind < n then pure short else c : Cursor α).run bs := by
    rw [guarded, StateT.run_bind, run_room]
    rfl
  rw [hstep]
  by_cases hshort : (bs.length : ℤ) < behind + n
  · rw [if_pos hshort, if_pos (by omega)]
    rfl
  · rw [if_neg hshort, if_neg (by omega)]

theorem run_guarded_enough {behind : ℤ} {short : α} {c : Cursor α} {bs : List UInt8}
    (h : behind + n ≤ (bs.length : ℤ)) : (guarded behind n short c).run bs = c.run bs := by
  rw [run_guarded, if_neg (by omega)]

theorem run_guarded_eq_some {behind : ℤ} {c : Cursor (Option α)} {bs rest : List UInt8} {a : α} :
    (guarded behind n none c).run bs = some (some a, rest) ↔
      behind + n ≤ (bs.length : ℤ) ∧ c.run bs = some (some a, rest) := by
  rw [run_guarded]
  split_ifs with hshort
  · refine iff_of_false (by simp) (fun h => ?_)
    omega
  · exact (and_iff_right (not_lt.mp hshort)).symm

theorem Safe.pure (a : α) : Safe behind n (Pure.pure a : Cursor α) := by
  intro bs h
  exact ⟨a, bs, rfl, by omega⟩

theorem Safe.bind {c : Cursor α} {f : α → Cursor β} (hc : Safe behind n c) (hf : ∀ a, Safe behind 0 (f a)) :
    Safe behind n (c >>= f) := by
  intro bs h
  obtain ⟨a, mid, ha, hmid⟩ := hc bs h
  obtain ⟨b, rest, hb, hrest⟩ := hf a mid hmid
  exact ⟨b, rest, run_bind_eq_some.mpr ⟨a, mid, ha, hb⟩, hrest⟩

/-- A read of a fixed number of bytes uses them up. -/
theorem Safe.read {c : Cursor α} {f : α → Cursor β} (hc : Reads c n) (hf : ∀ a, Safe behind k (f a)) :
    Safe behind (n + k) (c >>= f) := by
  intro bs h
  obtain ⟨a, ha⟩ := hc bs (by omega)
  obtain ⟨b, rest, hb, hrest⟩ := hf a (bs.drop n) (by rw [List.length_drop]; omega)
  exact ⟨b, rest, run_bind_eq_some.mpr ⟨a, _, ha, hb⟩, hrest⟩

/-- The check of a guarded reader pays for what it reads. -/
theorem Safe.guarded {c : Cursor α} (hc : Safe behind n c) (short : α) :
    Safe behind 0 (guarded behind n short c) := by
  intro bs h
  rw [run_guarded]
  split_ifs with hshort
  · exact ⟨short, bs, rfl, h⟩
  · exact hc bs (by omega)

theorem Safe.ite {p : Prop} [Decidable p] {c d : Cursor α} (hc : Safe behind n c) (hd : Safe behind n d) :
    Safe behind n (if p then c else d) := by
  split_ifs
  · exact hc
  · exact hd

theorem Safe.room : Safe behind n (room behind) := by
  intro bs h
  exact ⟨_, bs, rfl, by omega⟩

/-- A counted run of values of one size. -/
theorem reads_many {c : Cursor α} (h : Reads c n) (k : ℕ) : Reads (takeMany c k) (k * n) := by
  induction k with
  | zero =>
    rw [Nat.zero_mul]
    exact Reads.pure []
  | succ k ih =>
    have hall := h.bind (fun a => ih.bind (fun as => Reads.pure (a :: as)))
    have hsize : n + (k * n + 0) = (k + 1) * n := by ring
    rwa [hsize] at hall

/-- What the reader finds does not depend on what follows the buffer. -/
def Local (c : ℕ → Cursor α) : Prop :=
    ∀ behind bs a rest (t : List UInt8), (c behind).run bs = some (a, rest) →
  (c (behind + t.length)).run (bs ++ t) = some (a, rest ++ t)

theorem Local.accepts {c : Cursor α} {P : α → Prop} {write : α → List UInt8} (h : Accepts c P write) :
    Local (fun _ => c) := by
  intro behind bs a rest t hrun
  obtain ⟨hP, rfl⟩ := (h _ _ _).mp hrun
  rw [List.append_assoc]
  exact h.run hP _

theorem Local.pure (a : α) : Local (fun _ => (Pure.pure a : Cursor α)) := by
  intro behind bs b rest t hrun
  obtain ⟨rfl, rfl⟩ := run_pure_eq_some.mp hrun
  rfl

theorem Local.bind {c : ℕ → Cursor α} {f : ℕ → α → Cursor β} (hc : Local c)
    (hf : ∀ a, Local (fun behind => f behind a)) :
    Local (fun behind => c behind >>= f behind) := by
  intro behind bs b rest t hrun
  obtain ⟨a, mid, ha, hb⟩ := run_bind_eq_some.mp hrun
  exact run_bind_eq_some.mpr ⟨a, mid ++ t, hc _ _ _ _ t ha, hf a _ _ _ _ t hb⟩

theorem Local.ite {p : Prop} [Decidable p] {c d : ℕ → Cursor α} (hc : Local c) (hd : Local d) :
    Local (fun behind => if p then c behind else d behind) := by
  split_ifs
  · exact hc
  · exact hd

theorem Local.room : Local (fun behind => room behind) := by
  intro behind bs a rest t hrun
  obtain ⟨rfl, rfl⟩ := Prod.mk_inj.mp (Option.some.inj hrun)
  rw [run_room, List.length_append]
  refine congrArg some (Prod.ext ?_ rfl)
  dsimp only
  omega

theorem Local.guarded {c : ℕ → Cursor α} (hc : Local c) (n : ℕ) (short : α) :
    Local (fun behind => guarded behind n short (c behind)) :=
  Local.room.bind (fun _ => (Local.pure short).ite hc)

theorem readAt_run {c : Cursor α} {bytes rest : List UInt8} {off : ℕ} {a : α}
    (h : c.run (bytes.drop off) = some (a, rest)) :
    readAt c bytes off = some a := by
  rw [readAt, h]
  rfl

theorem readAt_eq_some {c : Cursor α} {bytes : List UInt8} {off : ℕ} {a : α}
    (h : readAt c bytes off = some a) :
    ∃ rest, c.run (bytes.drop off) = some (a, rest) := by
  obtain ⟨⟨b, rest⟩, hrun, rfl⟩ := Option.map_eq_some_iff.mp h
  exact ⟨rest, hrun⟩

theorem readAt_takeBytes {bytes : List UInt8} {off : ℕ} (h : off + n ≤ bytes.length) :
    readAt (takeBytes n) bytes off = some ((bytes.drop off).take n) := by
  have hroom : n ≤ (bytes.drop off).length := by
    rw [List.length_drop]
    omega
  exact readAt_run (if_pos hroom)

end MdfeedItch.GuardedReads
