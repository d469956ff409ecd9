import MdfeedItch.SymbolBook
import MdfeedItch.FiniteMapSums

/-! # Price levels as sums over the live orders

The shares and the number of live orders at a price are sums over the order
table. A ladder `Reflects` these sums when it has a level exactly at the prices
with live orders and stores both sums modulo `2 ^ 32`. One delta keeps a ladder
faithful as long as it does not take a stored total to zero or below while other
orders still rest at the price. -/
namespace MdfeedItch
open Std FiniteMapSums

namespace RestingOrder

/-- The shares an order contributes to one price of one side. -/
def qtyOn (buy : Bool) (p : Price) (o : RestingOrder) : ℕ :=
  if o.side.isBuy = buy ∧ o.price = p then o.qty.toNat else 0

/-- The same for the number of orders. -/
def countOn (buy : Bool) (p : Price) (o : RestingOrder) : ℕ :=
  if o.side.isBuy = buy ∧ o.price = p then 1 else 0

theorem countOn_pos {o : RestingOrder} {buy : Bool} {p : Price} :
    0 < o.countOn buy p ↔ o.side.isBuy = buy ∧ o.price = p := by
  unfold countOn
  split_ifs with h <;> simp [h]

theorem on_other {o : RestingOrder} {buy : Bool} {p : Price} (h : buy ≠ o.side.isBuy ∨ p ≠ o.price) :
    o.qtyOn buy p = 0 ∧ o.countOn buy p = 0 := by
  have hne : ¬ (o.side.isBuy = buy ∧ o.price = p) := by
    rintro ⟨rfl, rfl⟩
    exact h.elim (fun hb => hb rfl) (fun hp => hp rfl)
  simp [qtyOn, countOn, hne]

@[simp] theorem qtyOn_self (o : RestingOrder) : o.qtyOn o.side.isBuy o.price = o.qty.toNat := by
  simp [qtyOn]

@[simp] theorem countOn_self (o : RestingOrder) : o.countOn o.side.isBuy o.price = 1 := by
  simp [countOn]

end RestingOrder

/-- Shares of the live orders at a price of one side. -/
def levelQty (orders : OrderTable) (buy : Bool) (p : Price) : ℕ := sumOver orders (fun o => o.qtyOn buy p)

/-- Number of live orders at a price of one side. -/
def levelCount (orders : OrderTable) (buy : Bool) (p : Price) : ℕ :=
  sumOver orders (fun o => o.countOn buy p)

theorem levelCount_pos_iff (orders : OrderTable) (buy : Bool) (p : Price) :
    0 < levelCount orders buy p ↔
      ∃ (id : OrderId) (o : OrderState), orders[id]? = some o ∧ o.side.isBuy = buy ∧ o.price = p := by
  simp only [levelCount, sumOver_pos_iff, RestingOrder.countOn_pos]

theorem live_at {t : OrderTable} {id : OrderId} {o : OrderState} (h : t[id]? = some o) :
    0 < levelCount t o.side.isBuy o.price := (levelCount_pos_iff t _ _).mpr ⟨id, o, h, rfl, rfl⟩

/-- How one insertion, change or removal moves the sums of a table: by `qtyDelta`
and `countDelta` at one price of one side, and nowhere else. -/
structure LevelChange (old new : OrderTable) (buy : Bool) (price : Price) (qtyDelta countDelta : ℤ) :
    Prop where
  qty_at : (levelQty new buy price : ℤ) = levelQty old buy price + qtyDelta
  count_at : (levelCount new buy price : ℤ) = levelCount old buy price + countDelta
  elsewhere : ∀ buy' p, buy' ≠ buy ∨ p ≠ price →
    levelQty new buy' p = levelQty old buy' p ∧ levelCount new buy' p = levelCount old buy' p

/-- Rewriting one key moves the sums at one price of one side when both the old
and the new order under the key, if any, rest there. -/
theorem LevelChange.of_lookup (old new : OrderTable) (id : OrderId) (buy : Bool) (price : Price)
    (hoff : ∀ x, x ≠ id → new[x]? = old[x]?)
    (hold : ∀ o, old[id]? = some o → o.side.isBuy = buy ∧ o.price = price)
    (hnew : ∀ o, new[id]? = some o → o.side.isBuy = buy ∧ o.price = price) :
    LevelChange old new buy price
      ((new[id]?).elim 0 (fun o => (o.qty.toNat : ℤ)) - (old[id]?).elim 0 (fun o => (o.qty.toNat : ℤ)))
      ((new[id]?).elim 0 (fun _ => 1) - (old[id]?).elim 0 (fun _ => 1)) := by
  have moved : ∀ f : OrderState → ℕ, sumOver new f + weightAt old f id = sumOver old f + weightAt new f id :=
    fun f => sumOver_update new old f f id (fun x hx => by rw [weightAt, weightAt, hoff x hx])
  have here : ∀ t : OrderTable, (∀ o, t[id]? = some o → o.side.isBuy = buy ∧ o.price = price) →
      (weightAt t (fun o => o.qtyOn buy price) id : ℤ) = (t[id]?).elim 0 (fun o => (o.qty.toNat : ℤ)) ∧
      (weightAt t (fun o => o.countOn buy price) id : ℤ) = (t[id]?).elim 0 (fun _ => 1) := by
    intro t ht
    cases hid : t[id]? with
    | none => simp [weightAt, hid]
    | some o =>
      obtain ⟨rfl, rfl⟩ := ht o hid
      simp [weightAt, hid]
  have away : ∀ t : OrderTable, (∀ o, t[id]? = some o → o.side.isBuy = buy ∧ o.price = price) →
      ∀ buy' p, buy' ≠ buy ∨ p ≠ price →
      weightAt t (fun o => o.qtyOn buy' p) id = 0 ∧ weightAt t (fun o => o.countOn buy' p) id = 0 := by
    intro t ht buy' p hne
    cases hid : t[id]? with
    | none => simp [weightAt, hid]
    | some o =>
      obtain ⟨rfl, rfl⟩ := ht o hid
      simpa [weightAt, hid] using RestingOrder.on_other hne
  refine ⟨?_, ?_, ?_⟩
  · have h := moved (fun o => o.qtyOn buy price)
    rw [← (here new hnew).1, ← (here old hold).1]
    simp only [levelQty]; omega
  · have h := moved (fun o => o.countOn buy price)
    rw [← (here new hnew).2, ← (here old hold).2]
    simp only [levelCount]; omega
  · intro buy' p hne
    have hq := moved (fun o => o.qtyOn buy' p)
    have hc := moved (fun o => o.countOn buy' p)
    rw [(away new hnew buy' p hne).1, (away old hold buy' p hne).1] at hq
    rw [(away new hnew buy' p hne).2, (away old hold buy' p hne).2] at hc
    exact ⟨hq, hc⟩

theorem LevelChange.insert {t : OrderTable} {id : OrderId} (h : t[id]? = none) (o : OrderState) :
    LevelChange t (t.insert id o) o.side.isBuy o.price o.qty.toNat 1 := by
  have hc := LevelChange.of_lookup t (t.insert id o) id o.side.isBuy o.price
    (fun x hx => by rw [lookup_insert, if_neg hx])
    (by simp [h]) (by simp)
  simpa [h] using hc

theorem LevelChange.erase {t : OrderTable} {id : OrderId} {o : OrderState} (h : t[id]? = some o) :
    LevelChange t (t.erase id) o.side.isBuy o.price (-(o.qty.toNat : ℤ)) (-1) := by
  have hc := LevelChange.of_lookup t (t.erase id) id o.side.isBuy o.price
    (fun x hx => by rw [lookup_erase, if_neg hx])
    (by simp [h]) (by simp)
  simpa [h] using hc

theorem LevelChange.set {t : OrderTable} {id : OrderId} {o : OrderState} (h : t[id]? = some o)
    (qty : Quantity) (ts : Timestamp) :
    LevelChange t (t.insert id ⟨⟨o.side, o.price, qty⟩, ts⟩) o.side.isBuy o.price
      (qty.toNat - o.qty.toNat) 0 := by
  have hc := LevelChange.of_lookup t (t.insert id ⟨⟨o.side, o.price, qty⟩, ts⟩) id o.side.isBuy o.price
    (fun x hx => by rw [lookup_insert, if_neg hx])
    (by simp [h]) (by simp)
  simpa [h] using hc

theorem LevelChange.unchanged {old new : OrderTable} {buy : Bool} {price : Price}
    (h : LevelChange old new buy price 0 0) :
    levelQty new = levelQty old ∧ levelCount new = levelCount old := by
  have hq := h.qty_at
  have hc := h.count_at
  have here : ∀ buy' p, levelQty new buy' p = levelQty old buy' p ∧ levelCount new buy' p = levelCount old buy' p := by
    intro buy' p
    by_cases hp : buy' = buy ∧ p = price
    · obtain ⟨rfl, rfl⟩ := hp
      omega
    · exact h.elsewhere buy' p (by tauto)
  exact ⟨funext₂ fun b p => (here b p).1, funext₂ fun b p => (here b p).2⟩

section Ladder
variable {cmp : Price → Price → Ordering} [TransCmp cmp] [LawfulEqCmp cmp]

/-- The level stored for given sums at a price. -/
def levelFor (qty count : Price → ℕ) (p : Price) : PriceLevel :=
  ⟨p, UInt32.ofNat (qty p), UInt32.ofNat (count p)⟩

def Reflects (levels : ExtTreeMap Price PriceLevel cmp) (qty count : Price → ℕ) : Prop :=
  ∀ p, levels[p]? = if count p = 0 then none else some (levelFor qty count p)

/-- A stored 32-bit total `n` stays positive under the delta `d`. -/
def StaysPositive (n : ℕ) (d : ℤ) : Prop := 0 < (n % 2 ^ 32 : ℤ) + d

instance (n : ℕ) (d : ℤ) : Decidable (StaysPositive n d) := inferInstanceAs (Decidable (0 < _))

theorem ofInt_eq_ofNat {i : ℤ} {n : ℕ} (h : i % 2 ^ 32 = n % 2 ^ 32) : UInt32.ofInt i = UInt32.ofNat n := by
  apply UInt32.toNat_inj.mp
  rw [UInt32.ofInt, UInt32.toNat_ofNat', UInt32.toNat_ofNat', h]
  omega

theorem stored_add {n n' : ℕ} {d : ℤ} (h : (n' : ℤ) = n + d) :
    UInt32.ofInt ((n : ℤ) % 2 ^ 32 + d) = UInt32.ofNat n' := by
  apply ofInt_eq_ofNat
  rw [h]
  omega

omit [LawfulEqCmp cmp] in
/-- A delta at a price without a level creates the level of the new sums. -/
theorem levelDelta_create {levels : ExtTreeMap Price PriceLevel cmp} {qty count : Price → ℕ}
    (h : Reflects levels qty count) {price : Price} {qtyDelta countDelta : ℤ}
    (habsent : count price = 0) (hpos : 0 < qtyDelta) :
    levelDelta levels price qtyDelta countDelta =
      some (levels.insert price ⟨price, UInt32.ofInt qtyDelta, UInt32.ofInt countDelta⟩) := by
  have hle : ¬ qtyDelta ≤ 0 := by omega
  simp [levelDelta, h price, habsent, hle]

omit [LawfulEqCmp cmp] in
/-- A delta at an existing level erases it or stores the new sums. -/
theorem levelDelta_update {levels : ExtTreeMap Price PriceLevel cmp} {qty count : Price → ℕ}
    (h : Reflects levels qty count) {price : Price} {qtyDelta countDelta : ℤ} {qty' count' : Price → ℕ}
    (hlive : 0 < count price) (hq : (qty' price : ℤ) = qty price + qtyDelta)
    (hc : (count' price : ℤ) = count price + countDelta) :
    levelDelta levels price qtyDelta countDelta =
      if ¬ StaysPositive (qty price) qtyDelta ∨ ¬ StaysPositive (count price) countDelta
      then some (levels.erase price) else some (levels.insert price (levelFor qty' count' price)) := by
  have hne : count price ≠ 0 := Nat.pos_iff_ne_zero.mp hlive
  have hqs : ((UInt32.ofNat (qty price)).toNat : ℤ) = qty price % 2 ^ 32 := by
    rw [UInt32.toNat_ofNat']; omega
  have hcs : ((UInt32.ofNat (count price)).toNat : ℤ) = count price % 2 ^ 32 := by
    rw [UInt32.toNat_ofNat']; omega
  simp only [levelDelta, h price, hne, if_false, levelFor, stored_add hq, stored_add hc, hqs, hcs,
    StaysPositive, Int.not_lt]

/-- A delta that erases no level with live orders keeps the ladder faithful. -/
theorem Reflects.levelDelta {levels : ExtTreeMap Price PriceLevel cmp} {qty count qty' count' : Price → ℕ}
    (h : Reflects levels qty count) {price : Price} {qtyDelta countDelta : ℤ}
    (hq : (qty' price : ℤ) = qty price + qtyDelta) (hc : (count' price : ℤ) = count price + countDelta)
    (hoff : ∀ p, p ≠ price → qty' p = qty p ∧ count' p = count p)
    (hnew : count price = 0 → qty price = 0 ∧ 0 < qtyDelta ∧ 0 < countDelta)
    (hkeep : 0 < count price → 0 < count' price →
      StaysPositive (qty price) qtyDelta ∧ StaysPositive (count price) countDelta) :
    ∃ levels', MdfeedItch.levelDelta levels price qtyDelta countDelta = some levels' ∧
      Reflects levels' qty' count' := by
  have off : ∀ p, p ≠ price → levels[p]? = if count' p = 0 then none else some (levelFor qty' count' p) := by
    intro p hp
    rw [h p, levelFor, levelFor, (hoff p hp).1, (hoff p hp).2]
  rcases Nat.eq_zero_or_pos (count price) with habsent | hlive
  · obtain ⟨hq0, hqpos, hcpos⟩ := hnew habsent
    refine ⟨_, levelDelta_create h habsent hqpos, ?_⟩
    intro p
    by_cases hp : p = price
    · subst hp
      have hq' : UInt32.ofInt qtyDelta = UInt32.ofNat (qty' p) := ofInt_eq_ofNat (by omega)
      have hc' : UInt32.ofInt countDelta = UInt32.ofNat (count' p) := ofInt_eq_ofNat (by omega)
      have hne : count' p ≠ 0 := by omega
      simp [hne, levelFor, hq', hc']
    · rw [lookup_insert, if_neg hp]
      exact off p hp
  · rw [levelDelta_update h hlive hq hc]
    rcases Nat.eq_zero_or_pos (count' price) with hgone | hstays
    · have herase : ¬ StaysPositive (count price) countDelta := by
        unfold StaysPositive; omega
      refine ⟨_, if_pos (Or.inr herase), ?_⟩
      intro p
      by_cases hp : p = price
      · subst hp
        simp [hgone]
      · rw [lookup_erase, if_neg hp]
        exact off p hp
    · obtain ⟨hkq, hkc⟩ := hkeep hlive hstays
      refine ⟨_, if_neg (by simp [hkq, hkc]), ?_⟩
      intro p
      by_cases hp : p = price
      · subst hp
        simp [Nat.pos_iff_ne_zero.mp hstays]
      · rw [lookup_insert, if_neg hp]
        exact off p hp

end Ladder

namespace OrderTable

/-- Every resting order has shares. -/
def QtyPos (t : OrderTable) : Prop := ∀ (id : OrderId) (o : OrderState), t[id]? = some o → 0 < o.qty.toNat

/-- Insert an order unless its id is taken or it has no shares. -/
def place (t : OrderTable) (id : OrderId) (o : OrderState) : OrderTable :=
  if o.qty = 0 ∨ t[id]?.isSome then t else t.insert id o

/-- Set the shares of a live order; zero removes it. -/
def resize (t : OrderTable) (id : OrderId) (qty : Quantity) (ts : Timestamp) : OrderTable :=
  match t[id]? with
  | none => t
  | some o => if qty = 0 then t.erase id else t.insert id ⟨⟨o.side, o.price, qty⟩, ts⟩

/-- What a call means for the live orders. -/
def step (t : OrderTable) : BookOp → OrderTable
  | .add id side price qty ts => t.place id ⟨⟨side, price, qty⟩, ts⟩
  | .modify id newQty ts => t.resize id newQty ts
  | .reduce id delta ts =>
    match t[id]? with
    | none => t
    | some o => t.resize id (if o.qty ≤ delta then 0 else o.qty - delta) ts
  | .delete id _ => t.erase id
  | .replace oldId newId newPrice newQty ts =>
    match t[oldId]? with
    | none => t
    | some o => place (t.erase oldId) newId ⟨⟨o.side, newPrice, newQty⟩, ts⟩

/-- The live orders after the part of a call that takes shares away. -/
def withdraw (t : OrderTable) : BookOp → OrderTable
  | .add .. => t
  | .replace oldId .. => t.erase oldId
  | op => t.step op

def stepAll (ops : List BookOp) : OrderTable := ops.foldl step ∅

theorem erase_of_none {t : OrderTable} {id : OrderId} (h : t[id]? = none) : t.erase id = t := by
  apply ExtTreeMap.ext_getElem?
  intro k
  rw [lookup_erase]
  split_ifs with hk
  · rw [hk, h]
  · rfl

/-- An order that is removed and replaced by another one is gone. -/
theorem place_erase_other {t : OrderTable} {original new : OrderId} (o : OrderState) (hnew : new ≠ original) :
    (place (t.erase original) new o)[original]? = none := by
  unfold place
  split_ifs
  · simp
  · simp [lookup_insert, hnew.symm]

theorem QtyPos.erase {t : OrderTable} (h : t.QtyPos) (id : OrderId) : QtyPos (t.erase id) := by
  intro k o hk
  rw [lookup_erase] at hk
  split_ifs at hk
  exact h k o hk

theorem QtyPos.insert {t : OrderTable} (h : t.QtyPos) (id : OrderId) {o : OrderState}
    (ho : o.qty ≠ 0) : QtyPos (t.insert id o) := by
  intro k o' hk
  rw [lookup_insert] at hk
  split_ifs at hk
  · cases hk
    exact Nat.pos_of_ne_zero (fun hz => ho (UInt32.toNat_inj.mp hz))
  · exact h k o' hk

theorem QtyPos.place {t : OrderTable} (h : t.QtyPos) (id : OrderId) (o : OrderState) :
    QtyPos (t.place id o) := by
  unfold OrderTable.place
  split_ifs with hskip
  · exact h
  · exact h.insert id (fun hz => hskip (Or.inl hz))

theorem QtyPos.resize {t : OrderTable} (h : t.QtyPos) (id : OrderId) (qty : Quantity) (ts : Timestamp) :
    QtyPos (t.resize id qty ts) := by
  unfold OrderTable.resize
  split
  · exact h
  · split_ifs with hz
    · exact h.erase id
    · exact h.insert id hz

theorem QtyPos.step {t : OrderTable} (h : t.QtyPos) (op : BookOp) : QtyPos (t.step op) := by
  cases op with
  | add id side price qty ts => exact h.place id _
  | modify id newQty ts => exact h.resize id newQty ts
  | reduce id delta ts =>
    simp only [OrderTable.step]
    split
    · exact h
    · exact h.resize id _ ts
  | delete id ts => exact h.erase id
  | replace oldId newId newPrice newQty ts =>
    simp only [OrderTable.step]
    split
    · exact h
    · exact QtyPos.place (h.erase oldId) newId _

theorem QtyPos.withdraw {t : OrderTable} (h : t.QtyPos) (op : BookOp) : QtyPos (t.withdraw op) := by
  cases op with
  | add id side price qty ts => exact h
  | modify id newQty ts => exact h.step (.modify id newQty ts)
  | reduce id delta ts => exact h.step (.reduce id delta ts)
  | delete id ts => exact h.erase id
  | replace oldId newId newPrice newQty ts => exact h.erase oldId

end OrderTable

/-- With positive shares a price carries at least as many shares as orders. -/
theorem levelCount_le_levelQty {t : OrderTable} (h : t.QtyPos) (buy : Bool) (p : Price) :
    levelCount t buy p ≤ levelQty t buy p := by
  refine List.sum_le_sum ?_
  intro e he
  have hpos := h e.1 e.2 (ExtTreeMap.mem_toList_iff_getElem?_eq_some.mp he)
  simp only [RestingOrder.countOn, RestingOrder.qtyOn]
  split_ifs <;> omega

/-- No price has more shares than all orders together. -/
theorem levelQty_le_total (t : OrderTable) (buy : Bool) (p : Price) :
    levelQty t buy p ≤ sumOver t (fun o => o.qty.toNat) := by
  refine List.sum_le_sum fun e _ => ?_
  dsimp only [RestingOrder.qtyOn]
  split_ifs <;> omega

theorem levelQty_eq_zero {t : OrderTable} {buy : Bool} {p : Price} (h : levelCount t buy p = 0) :
    levelQty t buy p = 0 := by
  by_contra hne
  obtain ⟨id, o, ho, hpos⟩ := (sumOver_pos_iff t _).mp (Nat.pos_of_ne_zero hne)
  have hon : o.side.isBuy = buy ∧ o.price = p := by
    by_contra hoff
    simp [RestingOrder.qtyOn, hoff] at hpos
  have := (levelCount_pos_iff t buy p).mpr ⟨id, o, ho, hon⟩
  omega

end MdfeedItch
