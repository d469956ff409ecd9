import MdfeedItch.DepthBookRouting

/-! # When the order-id index is exact

`apply` writes the index for every Add and every Replace of a live order, whether
or not the book inserted the order. The index stays exact precisely on runs in
which no such message carries an id that is live in another symbol's book, or no
shares for an id that does not stay live. -/
namespace MdfeedItch
open Std FiniteMapSums

namespace SymbolBook

theorem hasOrder_add (b : SymbolBook) (id x : OrderId) (side : Side) (price : Price) (qty : Quantity)
    (ts : Timestamp) : (b.addOrder id side price qty ts).hasOrder x ↔ (x = id ∧ qty ≠ 0) ∨ b.hasOrder x := by
  rw [hasOrder, hasOrder, addOrder_orders, OrderTable.place]
  by_cases hq : qty = 0
  · simp [hq]
  · by_cases hlive : (b.orders[id]?).isSome
    · rw [if_pos (Or.inr hlive)]
      constructor
      · exact Or.inr
      · rintro (⟨rfl, -⟩ | hx)
        · exact hlive
        · exact hx
    · rw [if_neg (by simp [hq, hlive]), lookup_insert]
      split_ifs with hx <;> simp [hx, hq]

theorem hasOrder_delete (b : SymbolBook) (id x : OrderId) (ts : Timestamp) :
    (b.deleteOrder id ts).2.hasOrder x ↔ b.hasOrder x ∧ x ≠ id := by
  rw [hasOrder, hasOrder, deleteOrder_orders, lookup_erase]
  split_ifs with hx <;> simp [hx]

theorem hasOrder_modify_other (b : SymbolBook) {id x : OrderId} (newQty : Quantity) (ts : Timestamp) (hx : x ≠ id) :
    (b.modifyOrder id newQty ts).2.hasOrder x = b.hasOrder x := by
  unfold modifyOrder hasOrder
  split
  · rfl
  · dsimp only
    split_ifs <;> simp only [applyLevelDelta_orders, lookup_insert, lookup_erase, if_neg hx]

theorem hasOrder_reduce_other (b : SymbolBook) {id x : OrderId} (shares : Quantity) (ts : Timestamp) (hx : x ≠ id) :
    (b.reduceOrder id shares ts).2.hasOrder x = b.hasOrder x := by
  unfold reduceOrder
  split
  · rfl
  · exact hasOrder_modify_other b _ ts hx

theorem hasOrder_replace {b : SymbolBook} {oldId : OrderId} (newId : OrderId) (price : Price) (qty : Quantity)
    (ts : Timestamp) (x : OrderId) (h : b.hasOrder oldId) :
    (b.replaceOrder oldId newId price qty ts).2.hasOrder x ↔
      (x = newId ∧ qty ≠ 0) ∨ (b.hasOrder x ∧ x ≠ oldId) := by
  obtain ⟨o, ho⟩ := Option.isSome_iff_exists.mp h
  simp only [replaceOrder, ho]
  rw [hasOrder_add, hasOrder_delete]

end SymbolBook

namespace DepthBook

/-- The order is live in the book stored under the key. -/
def Holds (d : DepthBook) (key : SymbolKey) (id : OrderId) : Prop := (d.bookAt key).hasOrder id

/-- What the index is for: it names the one book that holds an order, so lookups
and deletions find every live order and nothing else. -/
structure IndexExact (d : DepthBook) : Prop where
  maps : ∀ (id : OrderId) (key : SymbolKey), d.orderToSymbol[id]? = some key ↔ d.Holds key id
  single : ∀ id key key', d.Holds key id → d.Holds key' id → key = key'
  lookup : ∀ id, d.symbolForOrder id = none ↔ ∀ key, ¬ d.Holds key id
  delete : ∀ (m : OrderDeleteMsg) key, d.Holds key m.orderId → ¬ (d.apply (.orderDelete m)).book.Holds key m.orderId

/-- A message that makes the index name a book where its order is not live. -/
def Misfiles (d : DepthBook) (m : AnyMessage) : Prop :=
  match m.action with
  | some (.add a) => (∃ key, key ≠ symbolKey a.symbol ∧ d.Holds key a.orderId) ∨
      (a.shares = 0 ∧ ¬ d.Holds (symbolKey a.symbol) a.orderId)
  | some (.replace r) => ∃ key, d.Holds key r.originalOrderId ∧
      ((∃ other, other ≠ key ∧ d.Holds other r.newOrderId) ∨
        (r.shares = 0 ∧ ¬ (d.Holds key r.newOrderId ∧ r.newOrderId ≠ r.originalOrderId)))
  | _ => False

/-- The index names exactly the live orders and their books. -/
def Filed (d : DepthBook) : Prop :=
  ∀ (id : OrderId) (key : SymbolKey), d.orderToSymbol[id]? = some key ↔ d.Holds key id

/-- An indexed order is live in no other book. -/
theorem Filed.holds_unique {d : DepthBook} (h : d.Filed) {id : OrderId} {key k : SymbolKey}
    (hx : d.orderToSymbol[id]? = some key) (hold : d.Holds k id) : k = key :=
  Option.some.inj (((h id k).mpr hold).symm.trans hx)

theorem Filed.indexExact {d : DepthBook} (h : d.Filed) (hk : d.WellKeyed) : d.IndexExact := by
  refine ⟨h, fun id key key' hold hold' => ?_, fun id => ?_, fun m key hold => ?_⟩
  · exact h.holds_unique ((h id key').mpr hold') hold
  · unfold symbolForOrder
    cases hid : d.orderToSymbol[id]? with
    | none =>
      simp only [true_iff]
      intro key hold
      rw [(h id key).mpr hold] at hid
      cases hid
    | some key =>
      obtain ⟨sym, -, -, hsym, -⟩ := hk.route hid
      simp only [hsym, reduceCtorEq, false_iff, not_forall, not_not]
      exact ⟨key, (h id key).mp hid⟩
  · have hid := (h m.orderId key).mpr hold
    have hfollows := applyDelete_follows hk m.orderId m.ts
    rw [Holds, apply, hfollows.books key, bookAfter, callAt, if_pos hid]
    intro hlive
    exact ((SymbolBook.hasOrder_delete _ _ _ m.ts).mp hlive).2 rfl

/-- An index over several holders, where one entry `id ↦ key` is written and the
holder under `key` takes the id in or not: it is right afterwards exactly when no
other holder has the id and this one has it. -/
theorem exact_after_entry {K I : Type*} [DecidableEq I] {index index' : I → Option K} {holds holds' : K → I → Prop}
    {key : K} {id : I} {enters : Prop} (h : ∀ x k, index x = some k ↔ holds k x)
    (hindex : ∀ x, index' x = if x = id then some key else index x)
    (hholds : ∀ k x, holds' k x ↔ k = key ∧ x = id ∧ enters ∨ holds k x) :
    (∀ x k, index' x = some k ↔ holds' k x) ↔ ¬ ((∃ k, k ≠ key ∧ holds k id) ∨ ¬ enters ∧ ¬ holds key id) := by
  have hat : index' id = some key := by rw [hindex, if_pos rfl]
  constructor
  · rintro hexact (⟨k, hne, hold⟩ | ⟨hnot, hfree⟩)
    · have hk := (hexact id k).mpr ((hholds k id).mpr (Or.inr hold))
      exact hne (Option.some.inj (hk.symm.trans hat))
    · rcases (hholds key id).mp ((hexact id key).mp hat) with ⟨-, -, henters⟩ | hold
      · exact hnot henters
      · exact hfree hold
  · intro hgood x k
    rw [hholds]
    by_cases hx : x = id
    · subst hx
      rw [hat]
      constructor
      · intro hk
        obtain rfl := Option.some.inj hk
        by_cases henters : enters
        · exact Or.inl ⟨rfl, rfl, henters⟩
        · exact Or.inr (by_contra fun hfree => hgood (Or.inr ⟨henters, hfree⟩))
      · rintro (⟨rfl, -⟩ | hold)
        · rfl
        · by_contra hne
          exact hgood (Or.inl ⟨k, fun he => hne (congrArg some he.symm), hold⟩)
    · rw [hindex, if_neg hx, h]
      exact ⟨Or.inr, fun hor => hor.resolve_left (fun hentry => hx hentry.2.1)⟩

/-- After an Add the index is right about the id exactly when the order is live
in the named book and in no other. -/
theorem filed_after_add {d d' : DepthBook} {m : AddOrderMsg} (h : d.Filed) (hf : d.Follows (.add m) d') :
    d'.Filed ↔ ¬ ((∃ key, key ≠ symbolKey m.symbol ∧ d.Holds key m.orderId) ∨
      (m.shares = 0 ∧ ¬ d.Holds (symbolKey m.symbol) m.orderId)) := by
  have hholds : ∀ key id, d'.Holds key id ↔
      key = symbolKey m.symbol ∧ id = m.orderId ∧ m.shares ≠ 0 ∨ d.Holds key id := by
    intro key id
    rw [Holds, hf.books, bookAfter, callAt]
    by_cases hkey : symbolKey m.symbol = key
    · rw [if_pos hkey]
      refine (SymbolBook.hasOrder_add _ _ _ _ _ _ _).trans ?_
      simp [hkey, Holds]
    · rw [if_neg hkey]
      simp [Ne.symm hkey, Holds]
  have hentry := exact_after_entry h hf.index hholds
  rwa [not_not] at hentry

/-- A reduction or deletion keeps the index right: the entry goes when the order does. -/
theorem filed_after_withdrawal {d d' : DepthBook} {a : BookAction} {x : OrderId} (h : d.Filed)
    (ha : (∃ shares ts, a = .reduce x shares ts) ∨ ∃ ts, a = .delete x ts) (hf : d.Follows a d') : d'.Filed := by
  have hcall : ∀ key, d.orderToSymbol[x]? ≠ some key → d.bookAfter a key = d.bookAt key := by
    intro key hne
    rcases ha with ⟨shares, ts, rfl⟩ | ⟨ts, rfl⟩ <;> simp [bookAfter, callAt, hne]
  have hsame : ∀ key id, id ≠ x → (d'.Holds key id ↔ d.Holds key id) := by
    intro key id hid
    rw [Holds, hf.books]
    by_cases hx : d.orderToSymbol[x]? = some key
    · rcases ha with ⟨shares, ts, rfl⟩ | ⟨ts, rfl⟩
      · rw [bookAfter, callAt, if_pos hx]
        exact Eq.to_iff (congrArg (· = true) (SymbolBook.hasOrder_reduce_other _ shares ts hid))
      · rw [bookAfter, callAt, if_pos hx]
        exact (SymbolBook.hasOrder_delete _ _ _ ts).trans (and_iff_left hid)
    · rw [hcall key hx]
      rfl
  have hunrouted : d.orderToSymbol[x]? = none → ∀ id : OrderId, d'.orderToSymbol[id]? = d.orderToSymbol[id]? := by
    intro hx id
    rw [hf.index]
    rcases ha with ⟨shares, ts, rfl⟩ | ⟨ts, rfl⟩ <;> simp only [indexAfter, hx]
  have hrouted : ∀ held, d.orderToSymbol[x]? = some held → ∀ id : OrderId, d'.orderToSymbol[id]? =
      if id = x ∧ (d.bookAt held).hasOrder x ∧ ¬ (d.bookAfter a held).hasOrder x then none else d.orderToSymbol[id]? := by
    intro held hx id
    rw [hf.index]
    rcases ha with ⟨shares, ts, rfl⟩ | ⟨ts, rfl⟩ <;> simp only [indexAfter, hx]
  intro id key
  by_cases hid : id = x
  · subst hid
    cases hx : d.orderToSymbol[id]? with
    | none =>
      rw [hunrouted hx, Holds, hf.books, hcall key (by simp [hx])]
      exact h id key
    | some held =>
      rw [hrouted held hx, hx]
      have hlive : (d.bookAt held).hasOrder id = true := (h id held).mp hx
      rw [Holds, hf.books, hlive]
      by_cases hkey : held = key
      · subst hkey
        split_ifs with hgone
        · simp [hgone.2.2]
        · simp only [true_and, not_not] at hgone
          simp [hgone]
      · have hother : (d.bookAt key).hasOrder id = false := by
          rw [← Bool.not_eq_true]
          intro hold
          exact hkey (h.holds_unique hx hold).symm
        rw [hcall key (by simp [hx, hkey]), hother]
        split_ifs <;> simp [hkey]
  · rw [hsame key id hid, ← h id key]
    cases hx : d.orderToSymbol[x]? with
    | none => rw [hunrouted hx]
    | some held => rw [hrouted held hx, if_neg (fun hgone => hid hgone.1)]

/-- After a Replace of a live order the index is right about the new id exactly
when the new order is live in the book that held the original and in no other. -/
theorem filed_after_replace {d d' : DepthBook} {m : OrderReplaceMsg} (h : d.Filed) (hf : d.Follows (.replace m) d') :
    d'.Filed ↔ ¬ ∃ key, d.Holds key m.originalOrderId ∧
      ((∃ other, other ≠ key ∧ d.Holds other m.newOrderId) ∨
        (m.shares = 0 ∧ ¬ (d.Holds key m.newOrderId ∧ m.newOrderId ≠ m.originalOrderId))) := by
  cases hx : d.orderToSymbol[m.originalOrderId]? with
  | none =>
    -- the original is live nowhere, so nothing happens
    have hsame : ∀ key, d'.bookAt key = d.bookAt key := by
      intro key
      rw [hf.books, bookAfter, callAt, if_neg (by simp [hx])]
    refine ⟨fun _ => ?_, fun _ id key => ?_⟩
    · rintro ⟨key, hold, -⟩
      rw [(h _ key).mpr hold] at hx
      cases hx
    · rw [hf.index, indexAfter, hx, Holds, hsame]
      exact h id key
  | some key =>
    have hlive : d.Holds key m.originalOrderId := (h _ key).mp hx
    -- the original goes first; what is left is the entry of the new id
    have hgone : ∀ (id : OrderId) (k : SymbolKey), (if id = m.originalOrderId then none else d.orderToSymbol[id]?) = some k ↔
        d.Holds k id ∧ id ≠ m.originalOrderId := by
      intro id k
      split_ifs with hid
      · simp [hid]
      · simpa [hid] using h id k
    have hindex : ∀ id : OrderId, d'.orderToSymbol[id]? = if id = m.newOrderId then some key
        else if id = m.originalOrderId then none else d.orderToSymbol[id]? := by
      intro id
      rw [hf.index, indexAfter, hx]
      exact if_pos hlive
    have hholds : ∀ k id, d'.Holds k id ↔
        k = key ∧ id = m.newOrderId ∧ m.shares ≠ 0 ∨ d.Holds k id ∧ id ≠ m.originalOrderId := by
      intro k id
      rw [Holds, hf.books, bookAfter, callAt]
      by_cases hk : k = key
      · subst hk
        rw [if_pos hx]
        refine (SymbolBook.hasOrder_replace m.newOrderId m.price m.shares m.ts id hlive).trans ?_
        simp [Holds]
      · rw [if_neg (by simp [hx, Ne.symm hk])]
        simp only [hk, false_and, false_or]
        exact ⟨fun hold => ⟨hold, fun hid => hk (h.holds_unique hx (hid ▸ hold))⟩, And.left⟩
    have hentry := exact_after_entry hgone hindex hholds
    rw [not_not] at hentry
    refine hentry.trans (not_congr ⟨?_, ?_⟩)
    · rintro (⟨other, hne, hold, -⟩ | hfree)
      · exact ⟨key, hlive, Or.inl ⟨other, hne, hold⟩⟩
      · exact ⟨key, hlive, Or.inr hfree⟩
    · rintro ⟨k, hold, hbad⟩
      obtain rfl := h.holds_unique hx hold
      rcases hbad with ⟨other, hne, hold'⟩ | hfree
      · exact Or.inl ⟨other, hne, hold', fun hid => hne (h.holds_unique hx (hid ▸ hold'))⟩
      · exact Or.inr hfree

/-- One message keeps a right index right exactly when it is not misfiled. -/
theorem filed_apply {d : DepthBook} (hk : d.WellKeyed) (h : d.Filed) (m : AnyMessage) :
    (d.apply m).book.Filed ↔ ¬ d.Misfiles m := by
  have hm := apply_follows hk m
  unfold Misfiles
  cases ha : m.action with
  | none =>
    rw [ha] at hm
    simp [hm, h]
  | some a =>
    rw [ha] at hm
    cases a with
    | add m => exact filed_after_add h hm
    | reduce id shares ts =>
      exact iff_of_true (filed_after_withdrawal h (Or.inl ⟨shares, ts, rfl⟩) hm) not_false
    | delete id ts => exact iff_of_true (filed_after_withdrawal h (Or.inr ⟨ts, rfl⟩) hm) not_false
    | replace m => exact filed_after_replace h hm

theorem new_filed (depth : ℕ) : (new depth).Filed := by
  intro id key
  simp [new, Holds, bookAt, SymbolBook.hasOrder, SymbolBook.new]

/-- In every state of a run the index is exact, just when no message is misfiled. -/
theorem indexExact_iff (depth : ℕ) (msgs : List AnyMessage) :
    (∀ pre, pre <+: msgs → (applyAll depth pre).IndexExact) ↔
      ∀ pre m, pre ++ [m] <+: msgs → ¬ (applyAll depth pre).Misfiles m := by
  constructor
  · intro hexact pre m hpre
    have hbefore : (applyAll depth pre).Filed := (hexact pre ((List.prefix_append pre [m]).trans hpre)).maps
    have hafter : (applyAll depth (pre ++ [m])).Filed := (hexact _ hpre).maps
    rw [applyAll_concat] at hafter
    exact (filed_apply (applyAll_wellKeyed depth pre).1 hbefore m).mp hafter
  · intro hgood pre hpre
    have hfiled : (applyAll depth pre).Filed := by
      induction pre using List.reverseRecOn with
      | nil => exact new_filed depth
      | append_singleton pre m ih =>
        rw [applyAll_concat]
        exact (filed_apply (applyAll_wellKeyed depth pre).1
          (ih ((List.prefix_append pre [m]).trans hpre)) m).mpr (hgood pre m hpre)
    exact hfiled.indexExact (applyAll_wellKeyed depth pre).1

/-- An Add of no shares is indexed although no book holds it. -/
theorem zero_share_add_misfiled : ¬ ∀ (depth : ℕ) (msgs : List AnyMessage) (pre : List AnyMessage),
    pre <+: msgs → (applyAll depth pre).IndexExact := by
  intro hexact
  let sym : Symbol := #v[65, 65, 80, 76, 32, 32, 32, 32]
  let msgs : List AnyMessage := [.addOrder ⟨1, 0, 0, 1, Side.buy, 0, sym, 100⟩]
  have hmaps := ((hexact 10 msgs msgs (List.prefix_refl _)).maps 1 (symbolKey sym)).mp (by decide)
  exact absurd hmaps (by unfold Holds; decide)

end DepthBook

end MdfeedItch
