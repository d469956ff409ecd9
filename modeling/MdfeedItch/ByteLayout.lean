import MdfeedItch.ByteCursor

/-! # Byte strings written field by field

The writing side of `ByteCursor`. `toBytes` inverts `ofBytes`; `overwrite` is a
`memcpy` into a buffer; fields written at consecutive offsets leave their bytes
one after the other. `Accepts c P write` is what a reader has to satisfy to be the
inverse of a writer in both directions. -/
namespace MdfeedItch.ByteLayout
open ByteCursor

/-- The low `n` bytes of a number, highest first. -/
def toBytes : ℕ → ℕ → List UInt8
  | 0, _ => []
  | n + 1, v => UInt8.ofNat (v / 256 ^ n) :: toBytes n v

@[simp] theorem length_toBytes (n v : ℕ) : (toBytes n v).length = n := by
  induction n with
  | zero => rfl
  | succ n ih => rw [toBytes, List.length_cons, ih]

theorem ofBytes_cons (b : UInt8) (bs : List UInt8) : ofBytes (b :: bs) =
    b.toNat * 256 ^ bs.length + ofBytes bs := by
  rw [ofBytes_eq_ofDigits, ofBytes_eq_ofDigits, List.reverse_cons, List.map_append, Nat.ofDigits_append]
  simp only [List.map_cons, List.map_nil, Nat.ofDigits_singleton, List.length_map, List.length_reverse]
  ring

/-- Reading back what was written gives the number, cut to the width. -/
theorem ofBytes_toBytes (n v : ℕ) : ofBytes (toBytes n v) = v % 256 ^ n := by
  induction n with
  | zero => rw [pow_zero, Nat.mod_one]; rfl
  | succ n ih =>
    rw [toBytes, ofBytes_cons, ih, length_toBytes, UInt8.toNat_ofNat', Nat.mod_pow_succ (x := v) (b := 256)]
    ring

theorem toBytes_ofBytes {n : ℕ} {bs : List UInt8} (h : bs.length = n) : toBytes n (ofBytes bs) = bs := by
  refine ofBytes_injective (by simp [h]) ?_
  rw [ofBytes_toBytes, ← h, Nat.mod_eq_of_lt (ofBytes_lt bs)]

theorem toBytes_mod (n v : ℕ) : toBytes n (v % 256 ^ n) = toBytes n v := by
  refine ofBytes_injective (by simp) ?_
  rw [ofBytes_toBytes, ofBytes_toBytes, Nat.mod_mod]

/-- The buffer after `bs` is copied to the offset. -/
def overwrite (out : List UInt8) (off : ℕ) (bs : List UInt8) : List UInt8 :=
  out.take off ++ bs ++ out.drop (off + bs.length)

/-- A field: its offset and its bytes. -/
abbrev Field := ℕ × List UInt8

/-- The fields are written one after the other. -/
def overwriteAll (out : List UInt8) (fields : List Field) : List UInt8 :=
  fields.foldl (fun out f => overwrite out f.1 f.2) out

/-- Each field starts where the one before it ends. -/
def Consecutive : ℕ → List Field → Prop
  | _, [] => True
  | off, f :: fields => f.1 = off ∧ Consecutive (off + f.2.length) fields

/-- The bytes of all fields. -/
def fieldBytes (fields : List Field) : List UInt8 := fields.flatMap Prod.snd

theorem overwrite_front (front back bs : List UInt8) :
    overwrite (front ++ back) front.length bs = (front ++ bs) ++ back.drop bs.length := by
  have hdrop : (front ++ back).drop (front.length + bs.length) = back.drop bs.length := by
    rw [← List.drop_drop, List.drop_left]
  rw [overwrite, hdrop, List.take_left]

/-- Consecutive fields replace the front of the buffer and nothing behind it. -/
theorem overwriteAll_consecutive {front back : List UInt8} {fields : List Field}
    (h : Consecutive front.length fields) :
    overwriteAll (front ++ back) fields = front ++ fieldBytes fields ++ back.drop (fieldBytes fields).length := by
  induction fields generalizing front back with
  | nil => simp [overwriteAll, fieldBytes]
  | cons f fields ih =>
    obtain ⟨hoff, hrest⟩ := h
    have hbytes : fieldBytes (f :: fields) = f.2 ++ fieldBytes fields := rfl
    have hstep : overwriteAll (front ++ back) (f :: fields) =
      overwriteAll ((front ++ f.2) ++ back.drop f.2.length) fields := by
      rw [overwriteAll, List.foldl_cons, hoff, overwrite_front]
      rfl
    rw [hstep, ih (by rwa [List.length_append]), hbytes, List.drop_drop,
      List.length_append]
    simp only [List.append_assoc]

/-- One write; `none` is a write that leaves the buffer. -/
def writeAt (out : List UInt8) (f : Field) : Option (List UInt8) :=
  if f.1 + f.2.length ≤ out.length then some (overwrite out f.1 f.2) else none

def writeAll (out : List UInt8) (fields : List Field) : Option (List UInt8) := fields.foldlM writeAt out

theorem length_overwrite {out bs : List UInt8} {off : ℕ} (h : off + bs.length ≤ out.length) :
    (overwrite out off bs).length = out.length := by
  rw [overwrite, List.length_append, List.length_append, List.length_take, List.length_drop]
  omega

/-- Writes that end inside of the buffer are all done. -/
theorem writeAll_eq {out : List UInt8} {fields : List Field} (h : ∀ f ∈ fields, f.1 + f.2.length ≤ out.length) :
    writeAll out fields = some (overwriteAll out fields) := by
  induction fields generalizing out with
  | nil => rfl
  | cons f fields ih =>
    have hfirst := h f (by simp)
    have hrest := @ih (overwrite out f.1 f.2) (fun g hg => by
      rw [length_overwrite hfirst]
      exact h g (by simp [hg]))
    rw [writeAll, List.foldlM_cons, writeAt, if_pos hfirst]
    exact hrest

theorem Consecutive.within {off : ℕ} {fields : List Field} (h : Consecutive off fields) :
    ∀ f ∈ fields, f.1 + f.2.length ≤ off + (fieldBytes fields).length := by
  induction fields generalizing off with
  | nil => simp
  | cons g fields ih =>
    obtain ⟨hoff, hrest⟩ := h
    have hbytes : (fieldBytes (g :: fields)).length = g.2.length + (fieldBytes fields).length := List.length_append
    intro f hf
    rcases List.mem_cons.mp hf with rfl | hf
    · omega
    · have := ih hrest f hf
      omega

section Accepts
variable {α β : Type}

/-- The reader returns `a` and `rest` exactly on `write a ++ rest`, for the values with `P`. -/
def Accepts (c : Cursor α) (P : α → Prop) (write : α → List UInt8) : Prop :=
  ∀ bs a rest, c.run bs = some (a, rest) ↔ P a ∧ bs = write a ++ rest

theorem run_bind_eq_some {c : Cursor α} {f : α → Cursor β} {bs rest : List UInt8} {b : β} :
    (c >>= f).run bs = some (b, rest) ↔
      ∃ a mid, c.run bs = some (a, mid) ∧ (f a).run mid = some (b, rest) := by
  rw [StateT.run_bind]
  constructor
  · intro h
    obtain ⟨⟨a, mid⟩, ha, hb⟩ := Option.bind_eq_some_iff.mp h
    exact ⟨a, mid, ha, hb⟩
  · rintro ⟨a, mid, ha, hb⟩
    exact Option.bind_eq_some_iff.mpr ⟨(a, mid), ha, hb⟩

/-- A read that succeeds hands over to what follows it. -/
theorem run_bind_of_run {c : Cursor α} {bs mid : List UInt8} {a : α} (h : c.run bs = some (a, mid)) (f : α → Cursor β) :
    (c >>= f).run bs = (f a).run mid := by
  rw [StateT.run_bind, h]
  rfl

theorem run_pure_eq_some {a b : α} {bs rest : List UInt8} :
    (pure a : Cursor α).run bs = some (b, rest) ↔ a = b ∧ bs = rest := by
  rw [StateT.run_pure]
  exact Option.some_inj.trans Prod.mk_inj

theorem takeBytes_accepts (n : ℕ) : Accepts (takeBytes n) (fun bs => bs.length = n) id := by
  intro bs a rest
  constructor
  · intro h
    have hrun : takeBytes n bs = some (a, rest) := h
    rw [takeBytes] at hrun
    split_ifs at hrun with hlen
    obtain ⟨rfl, rfl⟩ := Prod.mk_inj.mp (Option.some.inj hrun)
    exact ⟨List.length_take_of_le hlen, (List.take_append_drop n bs).symm⟩
  · rintro ⟨rfl, rfl⟩
    have hrun : takeBytes a.length (a ++ rest) = some (a, rest) := by
      rw [takeBytes, if_pos (by simp), List.take_left, List.drop_left]
    exact hrun

/-- A reader of values that correspond to others. -/
theorem Accepts.map {c : Cursor α} {P : α → Prop} {write : α → List UInt8} (h : Accepts c P write)
    {Q : β → Prop}
    (f : α → β) (g : β → α) (hf : ∀ a, P a → Q (f a) ∧ g (f a) = a) (hg : ∀ b, Q b → P (g b) ∧ f (g b) = b) :
    Accepts (f <$> c) Q (fun b => write (g b)) := by
  intro bs b rest
  rw [← bind_pure_comp, run_bind_eq_some]
  constructor
  · rintro ⟨a, mid, ha, hpure⟩
    obtain ⟨rfl, rfl⟩ := run_pure_eq_some.mp hpure
    obtain ⟨hP, rfl⟩ := (h bs a mid).mp ha
    obtain ⟨hQ, hback⟩ := hf a hP
    exact ⟨hQ, by dsimp only; rw [hback]⟩
  · rintro ⟨hQ, rfl⟩
    obtain ⟨hP, hback⟩ := hg b hQ
    exact ⟨g b, rest, (h _ _ _).mpr ⟨hP, rfl⟩, run_pure_eq_some.mpr ⟨hback, rfl⟩⟩

theorem takeWord_accepts (n : ℕ) : Accepts (takeWord n) (fun v => v < 256 ^ n) (toBytes n) := by
  have h := (takeBytes_accepts n).map ofBytes (toBytes n) (Q := fun v => v < 256 ^ n)
    (fun bs hbs => ⟨hbs ▸ ofBytes_lt bs, toBytes_ofBytes hbs⟩)
    (fun v hv => ⟨length_toBytes n v, by rw [ofBytes_toBytes, Nat.mod_eq_of_lt hv]⟩)
  rwa [← bind_pure_comp] at h

theorem Accepts.congr {c : Cursor α} {P Q : α → Prop} {write write' : α → List UInt8} (h : Accepts c P write)
    (hP : ∀ a, P a ↔ Q a) (hwrite : ∀ a, write a = write' a) : Accepts c Q write' := by
  intro bs a rest
  rw [h, hP, hwrite]

/-- A reader of a record starts with one field of it. `K` is what the fields read
before say about the record. -/
theorem Accepts.field {c : Cursor α} {f : α → Cursor β} {P : α → Prop} {write : α → List UInt8}
    (hc : Accepts c P write)
    (get : β → α) {K Q : β → Prop} {write' : β → List UInt8}
    (hf : ∀ a, Accepts (f a) (fun b => (get b = a ∧ K b) ∧ Q b) write') :
    Accepts (c >>= f) (fun b => K b ∧ P (get b) ∧ Q b) (fun b => write (get b) ++ write' b) := by
  intro bs b rest
  rw [run_bind_eq_some]
  constructor
  · rintro ⟨a, mid, ha, hb⟩
    obtain ⟨hP, rfl⟩ := (hc _ _ _).mp ha
    obtain ⟨⟨⟨rfl, hK⟩, hQ⟩, rfl⟩ := (hf _ _ _ _).mp hb
    exact ⟨⟨hK, hP, hQ⟩, by simp⟩
  · rintro ⟨⟨hK, hP, hQ⟩, rfl⟩
    exact ⟨get b, write' b ++ rest, (hc _ _ _).mpr ⟨hP, by simp⟩, (hf _ _ _ _).mpr ⟨⟨⟨rfl, hK⟩, hQ⟩, rfl⟩⟩

/-- A record whose fields are all read. -/
theorem Accepts.done {a : α} {K : α → Prop} (h : ∀ b, K b ↔ b = a) :
    Accepts (pure a) (fun b => K b ∧ True) (fun _ => []) := by
  intro bs b rest
  rw [run_pure_eq_some]
  constructor
  · rintro ⟨rfl, rfl⟩
    exact ⟨⟨(h a).mpr rfl, trivial⟩, rfl⟩
  · rintro ⟨⟨hK, -⟩, rfl⟩
    exact ⟨((h b).mp hK).symm, rfl⟩

/-- A reader of one variant among several. -/
theorem Accepts.variant {c : Cursor α} {f : α → β} {P : α → Prop} {Q : β → Prop} {write : β → List UInt8}
    (h : Accepts c P (fun a => write (f a))) (hQ : ∀ b, Q b ↔ ∃ a, f a = b ∧ P a) :
    Accepts (f <$> c) Q write := by
  intro bs b rest
  rw [← bind_pure_comp, run_bind_eq_some, hQ]
  constructor
  · rintro ⟨a, mid, ha, hpure⟩
    obtain ⟨rfl, rfl⟩ := run_pure_eq_some.mp hpure
    obtain ⟨hP, rfl⟩ := (h bs a mid).mp ha
    exact ⟨⟨a, rfl, hP⟩, rfl⟩
  · rintro ⟨⟨a, rfl, hP⟩, rfl⟩
    exact ⟨a, rest, (h _ _ _).mpr ⟨hP, rfl⟩, run_pure_eq_some.mpr ⟨rfl, rfl⟩⟩

/-- A reader accepts every value in front of any bytes, and only there. -/
theorem Accepts.run {c : Cursor α} {P : α → Prop} {write : α → List UInt8} (h : Accepts c P write) {a : α}
    (ha : P a)
    (rest : List UInt8) : c.run (write a ++ rest) = some (a, rest) := (h _ a rest).mpr ⟨ha, rfl⟩

/-- A counted run of values, each read by the same reader. -/
def takeMany (c : Cursor α) : ℕ → Cursor (List α)
  | 0 => pure []
  | n + 1 => do
    let a ← c
    let as ← takeMany c n
    return a :: as

theorem Accepts.many {c : Cursor α} {P : α → Prop} {write : α → List UInt8} (h : Accepts c P write) (n : ℕ) :
    Accepts (takeMany c n) (fun as => as.length = n ∧ ∀ a ∈ as, P a) (fun as => as.flatMap write) := by
  induction n with
  | zero =>
    intro bs as rest
    rw [takeMany, run_pure_eq_some]
    constructor
    · rintro ⟨rfl, rfl⟩
      exact ⟨⟨rfl, by simp⟩, rfl⟩
    · rintro ⟨⟨hlen, -⟩, rfl⟩
      obtain rfl := List.length_eq_zero_iff.mp hlen
      exact ⟨rfl, rfl⟩
  | succ n ih =>
    intro bs as rest
    simp only [takeMany, run_bind_eq_some, run_pure_eq_some]
    constructor
    · rintro ⟨a, mid, ha, as', mid', has, rfl, rfl⟩
      obtain ⟨hP, rfl⟩ := (h _ _ _).mp ha
      obtain ⟨⟨hlen, hall⟩, rfl⟩ := (ih _ _ _).mp has
      refine ⟨⟨by rw [List.length_cons, hlen], ?_⟩, ?_⟩
      · simpa using ⟨hP, hall⟩
      · rw [List.flatMap_cons, List.append_assoc]
    · rintro ⟨⟨hlen, hall⟩, rfl⟩
      obtain ⟨a, as', rfl⟩ := List.exists_cons_of_length_eq_add_one hlen
      refine ⟨a, as'.flatMap write ++ rest, (h _ _ _).mpr ⟨hall a (by simp), ?_⟩, as', rest,
        (ih _ _ _).mpr ⟨⟨?_, ?_⟩, rfl⟩, rfl, rfl⟩
      · rw [List.flatMap_cons, List.append_assoc]
      · simpa using hlen
      · intro b hb
        exact hall b (by simp [hb])

end Accepts

end MdfeedItch.ByteLayout
