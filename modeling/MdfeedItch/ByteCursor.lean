import Mathlib.Data.Nat.Digits.Lemmas
import Mathlib.Data.List.Basic
import Mathlib.Tactic.Common

/-! # Big-endian numbers and reading cursors over byte strings

A cursor is a pointer into a buffer, kept as the bytes from the pointer on. A
read past the end of the buffer has no result. `Reads c n` says that `c` is safe
wherever `n` bytes remain and moves the pointer by exactly `n`. -/
namespace MdfeedItch.ByteCursor

/-- The number with the given big-endian bytes. -/
def ofBytes (bs : List UInt8) : ℕ := bs.foldl (fun v b => v * 256 + b.toNat) 0

private theorem foldl_eq_ofDigits (bs : List UInt8) (v : ℕ) :
    bs.foldl (fun v b => v * 256 + b.toNat) v =
      Nat.ofDigits 256 (bs.reverse.map UInt8.toNat) + 256 ^ bs.length * v := by
  induction bs generalizing v with
  | nil => simp
  | cons b bs ih =>
    rw [List.foldl_cons, ih, List.reverse_cons, List.map_append, Nat.ofDigits_append]
    simp only [List.map_cons, List.map_nil, Nat.ofDigits_singleton, List.length_map,
      List.length_reverse, List.length_cons, pow_succ]
    ring

theorem ofBytes_eq_ofDigits (bs : List UInt8) :
    ofBytes bs = Nat.ofDigits 256 (bs.reverse.map UInt8.toNat) := by
  rw [ofBytes, foldl_eq_ofDigits, Nat.mul_zero, Nat.add_zero]

private theorem digit_lt (bs : List UInt8) : ∀ d ∈ bs.reverse.map UInt8.toNat, d < 256 := by
  intro d hd
  obtain ⟨b, _, rfl⟩ := List.mem_map.mp hd
  exact b.toNat_lt

theorem ofBytes_lt (bs : List UInt8) : ofBytes bs < 256 ^ bs.length := by
  have h := Nat.ofDigits_lt_base_pow_length (by norm_num) (digit_lt bs)
  simpa [ofBytes_eq_ofDigits] using h

/-- Equally long byte strings with the same value are equal. -/
theorem ofBytes_injective {bs cs : List UInt8} (hlen : bs.length = cs.length)
    (h : ofBytes bs = ofBytes cs) : bs = cs := by
  rw [ofBytes_eq_ofDigits, ofBytes_eq_ofDigits] at h
  have hd := Nat.ofDigits_inj_of_len_eq (by norm_num) (by simpa using hlen) (digit_lt bs) (digit_lt cs) h
  have hinj : Function.Injective UInt8.toNat := fun a b hab => UInt8.toNat_inj.mp hab
  exact List.reverse_injective (List.map_injective_iff.mpr hinj hd)

abbrev Cursor (α : Type) := StateT (List UInt8) Option α

/-- The next `n` bytes. -/
def takeBytes (n : ℕ) : Cursor (List UInt8) := fun bs =>
  if n ≤ bs.length then some (bs.take n, bs.drop n) else none

/-- The next `n` bytes as a big-endian number. -/
def takeWord (n : ℕ) : Cursor ℕ := do
  let bs ← takeBytes n
  return ofBytes bs

def Reads {α : Type} (c : Cursor α) (n : ℕ) : Prop :=
  ∀ bs, n ≤ bs.length → ∃ a, c.run bs = some (a, bs.drop n)

theorem takeBytes_reads (n : ℕ) : Reads (takeBytes n) n := fun bs h =>
  ⟨bs.take n, if_pos h⟩

theorem Reads.pure {α : Type} (a : α) : Reads (pure a : Cursor α) 0 := fun bs _ => ⟨a, by simp⟩

theorem Reads.bind {α β : Type} {c : Cursor α} {f : α → Cursor β} {n k : ℕ}
    (hc : Reads c n) (hf : ∀ a, Reads (f a) k) : Reads (c >>= f) (n + k) := by
  intro bs h
  obtain ⟨a, ha⟩ := hc bs (by omega)
  obtain ⟨b, hb⟩ := hf a (bs.drop n) (by rw [List.length_drop]; omega)
  refine ⟨b, ?_⟩
  rw [StateT.run_bind, ha]
  simpa [List.drop_drop] using hb

theorem takeWord_reads (n : ℕ) : Reads (takeWord n) n :=
  (takeBytes_reads n).bind (fun bs => .pure (ofBytes bs))

end MdfeedItch.ByteCursor
