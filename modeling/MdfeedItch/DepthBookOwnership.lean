import MdfeedItch.DepthBookRouting

/-! # Messages that keep to their own symbols and orders

`Ownership` splits symbol keys and order ids between owners. While the index maps
the ids of an owner to keys of the same owner (`Sorted`), a message that names
things of one owner only changes the books and the index entries of that owner,
and changes them in a way that depends on these alone. -/
namespace MdfeedItch
open Std FiniteMapSums

structure Ownership where
  keys : StockLocate → SymbolKey → Prop
  ids : StockLocate → OrderId → Prop
  keys_unique : ∀ {loc loc' key}, keys loc key → keys loc' key → loc = loc'
  ids_unique : ∀ {loc loc' id}, ids loc id → ids loc' id → loc = loc'

namespace Ownership
variable (o : Ownership)

/-- The keys of an owner, or those without one. -/
def key : Option StockLocate → SymbolKey → Prop
  | some loc, k => o.keys loc k
  | none, k => ∀ loc, ¬ o.keys loc k

/-- The ids of an owner, or those without one. -/
def id : Option StockLocate → OrderId → Prop
  | some loc, x => o.ids loc x
  | none, x => ∀ loc, ¬ o.ids loc x

/-- Everything that an action names belongs to one owner. -/
def Keeps (loc : StockLocate) : BookAction → Prop
  | .add m => o.keys loc (symbolKey m.symbol) ∧ o.ids loc m.orderId
  | .reduce x _ _ | .delete x _ => o.ids loc x
  | .replace m => o.ids loc m.originalOrderId ∧ o.ids loc m.newOrderId

/-- The index maps ids to keys of the same owner. -/
structure Sorted (d : DepthBook) : Prop where
  keyed : d.WellKeyed
  routed : ∀ (x : OrderId) (k : SymbolKey), d.orderToSymbol[x]? = some k → ∃ loc, o.ids loc x ∧ o.keys loc k

/-- Two states with the same books and the same index entries of an owner. -/
structure SameBooks (l : Option StockLocate) (d d' : DepthBook) : Prop where
  depth : d.depth = d'.depth
  books : ∀ k, o.key l k → d.books[k]? = d'.books[k]?
  index : ∀ x, o.id l x → d.orderToSymbol[x]? = d'.orderToSymbol[x]?

variable {o} {d d' : DepthBook} {loc : StockLocate} {l : Option StockLocate} {a : BookAction}

theorem not_keys (hl : some loc ≠ l) {k : SymbolKey} (hk : o.key l k) : ¬ o.keys loc k := by
  cases l with
  | none => exact hk loc
  | some loc' =>
    intro hown
    exact hl (congrArg some (o.keys_unique hown hk))

theorem not_ids (hl : some loc ≠ l) {x : OrderId} (hx : o.id l x) : ¬ o.ids loc x := by
  cases l with
  | none => exact hx loc
  | some loc' =>
    intro hown
    exact hl (congrArg some (o.ids_unique hown hx))

theorem SameBooks.equivalence (o : Ownership) (l : Option StockLocate) : Equivalence (o.SameBooks l) := by
  refine ⟨fun d => ⟨rfl, fun k _ => rfl, fun x _ => rfl⟩, fun {d d'} h => ?_, fun {d d' d''} h h' => ?_⟩
  · exact ⟨h.depth.symm, fun k hk => (h.books k hk).symm, fun x hx => (h.index x hx).symm⟩
  · exact ⟨h.depth.trans h'.depth, fun k hk => (h.books k hk).trans (h'.books k hk),
      fun x hx => (h.index x hx).trans (h'.index x hx)⟩

theorem SameBooks.bookAt (h : o.SameBooks l d d') {k : SymbolKey} (hk : o.key l k) :
    d.bookAt k = d'.bookAt k := by
  rw [DepthBook.bookAt, DepthBook.bookAt, h.books k hk, h.depth]

/-- An id of an owner is routed to a key of the same owner. -/
theorem Sorted.key_of (h : o.Sorted d) {x : OrderId} (hx : o.ids loc x) {k : SymbolKey}
    (hk : d.orderToSymbol[x]? = some k) :
    o.keys loc k := by
  obtain ⟨loc', hx', hk'⟩ := h.routed x k hk
  rwa [o.ids_unique hx hx']

theorem Sorted.new (o : Ownership) (depth : ℕ) : o.Sorted (DepthBook.new depth) := by
  refine ⟨DepthBook.new_wellKeyed depth, fun x k hk => ?_⟩
  simp [DepthBook.new] at hk

theorem callAt_foreign (h : o.Sorted d) (hkeeps : o.Keeps loc a) {k : SymbolKey} (hk : ¬ o.keys loc k) :
    d.callAt k a = none := by
  have hrouted {x : OrderId} (hx : o.ids loc x) : d.orderToSymbol[x]? ≠ some k :=
    fun hindex => hk (h.key_of hx hindex)
  cases a with
  | add m =>
    have hne : symbolKey m.symbol ≠ k := fun hsame => hk (hsame ▸ hkeeps.1)
    exact if_neg hne
  | reduce x shares ts => exact if_neg (hrouted hkeeps)
  | delete x ts => exact if_neg (hrouted hkeeps)
  | replace m => exact if_neg (hrouted hkeeps.1)

theorem callAt_congr (hsame : o.SameBooks (some loc) d d') (hkeeps : o.Keeps loc a) (k : SymbolKey) :
    d.callAt k a = d'.callAt k a := by
  cases a with
  | add m => rfl
  | reduce x shares ts => rw [DepthBook.callAt, DepthBook.callAt, hsame.index x hkeeps]
  | delete x ts => rw [DepthBook.callAt, DepthBook.callAt, hsame.index x hkeeps]
  | replace m => rw [DepthBook.callAt, DepthBook.callAt, hsame.index m.originalOrderId hkeeps.1]

theorem bookAfter_congr (hsame : o.SameBooks (some loc) d d') (hkeeps : o.Keeps loc a) {k : SymbolKey}
    (hk : o.keys loc k) :
    d.bookAfter a k = d'.bookAfter a k := by
  rw [DepthBook.bookAfter, DepthBook.bookAfter, callAt_congr hsame hkeeps, hsame.bookAt hk]

theorem indexAfter_foreign (hkeeps : o.Keeps loc a) {x : OrderId} (hx : ¬ o.ids loc x) :
    d.indexAfter a x = d.orderToSymbol[x]? := by
  have hother {y : OrderId} (hy : o.ids loc y) : x ≠ y := fun heq => hx (heq ▸ hy)
  cases a with
  | add m => exact if_neg (hother hkeeps.2)
  | reduce y shares ts | delete y ts =>
    rw [DepthBook.indexAfter]
    cases d.orderToSymbol[y]? with
    | none => rfl
    | some k => exact if_neg (fun hboth => hother hkeeps hboth.1)
  | replace m =>
    rw [DepthBook.indexAfter]
    cases d.orderToSymbol[m.originalOrderId]? with
    | none => rfl
    | some k =>
      dsimp only
      rw [if_neg (hother hkeeps.2), if_neg (hother hkeeps.1), ite_self]

theorem indexAfter_congr (h : o.Sorted d) (hsame : o.SameBooks (some loc) d d') (hkeeps : o.Keeps loc a)
    {x : OrderId}
    (hx : o.ids loc x) : d.indexAfter a x = d'.indexAfter a x := by
  have hentry := hsame.index x hx
  cases a with
  | add m => rw [DepthBook.indexAfter, DepthBook.indexAfter, hentry]
  | reduce y shares ts | delete y ts =>
    rw [DepthBook.indexAfter, DepthBook.indexAfter, ← hsame.index y hkeeps, hentry]
    cases hy : d.orderToSymbol[y]? with
    | none => rfl
    | some k =>
      have hk := h.key_of hkeeps hy
      dsimp only
      rw [hsame.bookAt hk, bookAfter_congr hsame hkeeps hk]
  | replace m =>
    rw [DepthBook.indexAfter, DepthBook.indexAfter, ← hsame.index m.originalOrderId hkeeps.1, hentry]
    cases hy : d.orderToSymbol[m.originalOrderId]? with
    | none => rfl
    | some k =>
      dsimp only
      rw [hsame.bookAt (h.key_of hkeeps.1 hy)]

end Ownership

namespace DepthBook

theorem lookup_of_tracked {d : DepthBook} {k : SymbolKey} (h : (d.books[k]?).isSome) :
    d.books[k]? = some (d.bookAt k) := by
  obtain ⟨b, hb⟩ := Option.isSome_iff_exists.mp h
  rw [bookAt_of_some hb, hb]

/-- A book that a message calls is tracked afterwards. -/
theorem tracked_of_call {d : DepthBook} (h : d.WellKeyed) {m : AnyMessage} {a : BookAction}
    (ha : m.action = some a) {k : SymbolKey}
    {op : BookOp} (hcall : d.callAt k a = some op) : ((d.apply m).book.books[k]?).isSome := by
  apply (apply_tracked d m k).mpr
  have hrouted {x : OrderId} {p : BookOp}
      (hx : (if d.orderToSymbol[x]? = some k then some p else none) = some op) :
      (d.books[k]?).isSome := by
    split_ifs at hx with hindex
    exact h.routed x k hindex
  cases a with
  | add m =>
    rw [callAt] at hcall
    split_ifs at hcall with hk
    exact Or.inr ⟨m, ha, hk⟩
  | reduce x shares ts => exact Or.inl (hrouted hcall)
  | delete x ts => exact Or.inl (hrouted hcall)
  | replace m => exact Or.inl (hrouted hcall)

/-- The book stored under a key after a message. -/
theorem apply_lookup {d : DepthBook} (h : d.WellKeyed) {m : AnyMessage} {a : BookAction}
    (ha : m.action = some a) (k : SymbolKey) :
    (d.apply m).book.books[k]? =
      if (d.callAt k a).isSome then some (d.bookAfter a k) else d.books[k]? := by
  have hm := apply_follows h m
  rw [ha] at hm
  have hbook := hm.books k
  cases hcall : d.callAt k a with
  | some op =>
    rw [lookup_of_tracked (tracked_of_call h ha hcall), hbook]
    rfl
  | none =>
    have hstays : d.bookAfter a k = d.bookAt k := by rw [bookAfter, hcall]
    have htracked : ((d.apply m).book.books[k]?).isSome ↔ (d.books[k]?).isSome := by
      rw [apply_tracked, ha]
      constructor
      · rintro (hold | ⟨r, hr, hk⟩)
        · exact hold
        · cases hr
          rw [callAt, if_pos hk] at hcall
          cases hcall
      · exact Or.inl
    rw [hstays] at hbook
    cases hold : d.books[k]? with
    | some b =>
      have hnew := htracked.mpr (by rw [hold]; rfl)
      rw [lookup_of_tracked hnew, hbook, bookAt_of_some hold]
      rfl
    | none =>
      have hnew : ¬ ((d.apply m).book.books[k]?).isSome :=
        fun hsome => by simpa [hold] using htracked.mp hsome
      simpa using hnew

end DepthBook

namespace Ownership
variable {o : Ownership} {d d' : DepthBook} {loc : StockLocate} {l : Option StockLocate} {m : AnyMessage}

/-- A message leaves alone what is not its owner's. -/
theorem apply_elsewhere (h : o.Sorted d) (hkeeps : ∀ a, m.action = some a → o.Keeps loc a)
    (hl : some loc ≠ l) :
    o.SameBooks l (d.apply m).book d := by
  have hm := DepthBook.apply_follows h.keyed m
  cases ha : m.action with
  | none =>
    rw [ha] at hm
    rw [hm]
    exact (SameBooks.equivalence o l).refl d
  | some a =>
    rw [ha] at hm
    have hown := hkeeps a ha
    refine ⟨hm.depth, fun k hk => ?_, fun x hx => ?_⟩
    · rw [DepthBook.apply_lookup h.keyed ha, callAt_foreign h hown (not_keys hl hk)]
      rfl
    · rw [hm.index, indexAfter_foreign hown (not_ids hl hx)]

/-- What a message makes of its owner's books and index entries depends on them only. -/
theorem apply_here (h : o.Sorted d) (h' : o.Sorted d') (hkeeps : ∀ a, m.action = some a → o.Keeps loc a)
    (hsame : o.SameBooks (some loc) d d') : o.SameBooks (some loc) (d.apply m).book (d'.apply m).book := by
  have hm := DepthBook.apply_follows h.keyed m
  have hm' := DepthBook.apply_follows h'.keyed m
  cases ha : m.action with
  | none =>
    rw [ha] at hm hm'
    rw [hm, hm']
    exact hsame
  | some a =>
    rw [ha] at hm hm'
    have hown := hkeeps a ha
    refine ⟨?_, fun k hk => ?_, fun x hx => ?_⟩
    · rw [hm.depth, hm'.depth, hsame.depth]
    · rw [DepthBook.apply_lookup h.keyed ha, DepthBook.apply_lookup h'.keyed ha, callAt_congr hsame hown,
        bookAfter_congr hsame hown hk,
        hsame.books k hk]
    · rw [hm.index, hm'.index, indexAfter_congr h hsame hown hx]

/-- The index stays sorted. -/
theorem Sorted.apply (h : o.Sorted d) (hkeeps : ∀ a, m.action = some a → o.Keeps loc a) :
    o.Sorted (d.apply m).book := by
  refine ⟨(DepthBook.apply_wellKeyed h.keyed m).1, fun x k hindex => ?_⟩
  have hm := DepthBook.apply_follows h.keyed m
  cases ha : m.action with
  | none =>
    rw [ha] at hm
    rw [hm] at hindex
    exact h.routed x k hindex
  | some a =>
    rw [ha] at hm
    have hown := hkeeps a ha
    rw [hm.index] at hindex
    by_cases hx : o.ids loc x
    · -- an entry of the owner points to an old key of the owner or to that of an Add
      rcases DepthBook.indexAfter_origin hindex with hold | ⟨r, rfl, hk⟩ | ⟨r, rfl, hold⟩
      · exact h.routed x k hold
      · exact ⟨loc, hx, hk ▸ hown.1⟩
      · exact ⟨loc, hx, h.key_of hown.1 hold⟩
    · rw [indexAfter_foreign hown hx] at hindex
      exact h.routed x k hindex

/-- States that agree for every owner, and outside of them, are the same. -/
theorem eq_of_sameBooks (h : o.Sorted d) (h' : o.Sorted d') (hsame : ∀ l, o.SameBooks l d d') : d = d' := by
  have hbooks : d.books = d'.books := by
    apply ExtTreeMap.ext_getElem?
    intro k
    by_cases hk : ∃ loc, o.keys loc k
    · obtain ⟨loc, hk⟩ := hk
      exact (hsame (some loc)).books k hk
    · exact (hsame none).books k (not_exists.mp hk)
  have hindex : d.orderToSymbol = d'.orderToSymbol := by
    apply ExtTreeMap.ext_getElem?
    intro x
    by_cases hx : ∃ loc, o.ids loc x
    · obtain ⟨loc, hx⟩ := hx
      exact (hsame (some loc)).index x hx
    · exact (hsame none).index x (not_exists.mp hx)
  -- the symbol under a key is the one with that key
  have hsymbols : d.symbolIndex = d'.symbolIndex := by
    apply ExtTreeMap.ext_getElem?
    intro k
    have htracked := (h.keyed.tracked k).symm.trans ((by rw [hbooks] : _ ↔ _).trans (h'.keyed.tracked k))
    cases hs : d.symbolIndex[k]? with
    | none =>
      rw [hs] at htracked
      simpa using htracked
    | some sym =>
      obtain ⟨sym', hs'⟩ := Option.isSome_iff_exists.mp (htracked.mp (by rw [hs]; rfl))
      rw [hs', Option.some_inj]
      exact symbolKey_injective ((h.keyed.symbol k sym hs).trans (h'.keyed.symbol k sym' hs').symm)
  obtain ⟨depth, books, symbolIndex, orderToSymbol⟩ := d
  obtain ⟨depth', books', symbolIndex', orderToSymbol'⟩ := d'
  have hdepth := (hsame none).depth
  subst hbooks hindex hsymbols hdepth
  rfl

end Ownership

end MdfeedItch
