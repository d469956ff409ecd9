import MdfeedItch.BookSnapshotWire
import MdfeedItch.DepthBookRouting
import MdfeedItch.FeedHandler

/-! # The maps of a depth book under all its calls

Besides messages, a `DepthBook` is changed by `book_for` and by the book that
`apply_snapshot` assigns. None of the calls leaves a key in one map that another
one lacks, so the lookups that the arms of `apply` do not check succeed. -/
namespace MdfeedItch
open Std FiniteMapSums

theorem install_bookAt (d : DepthBook) (snap : SnapshotResponse) (key : SymbolKey) :
    (d.install snap).bookAt key = if symbolKey snap.symbol = key then snap.rebuild else d.bookAt key := by
  rw [DepthBook.install, DepthBook.setBook_bookAt, DepthBook.bookFor_bookAt]

theorem install_wellKeyed {d : DepthBook} (h : d.WellKeyed) (snap : SnapshotResponse) :
    (d.install snap).WellKeyed ∧ (d.install snap).depth = d.depth := by
  obtain ⟨hkeyed, htracked⟩ := h.bookFor snap.symbol
  refine ⟨hkeyed.setBook snap.rebuild htracked, ?_⟩
  rw [DepthBook.install, DepthBook.setBook_depth, DepthBook.bookFor_depth]

theorem bookFor_lookup_other (d : DepthBook) {sym : Symbol} {key : SymbolKey} (hkey : key ≠ symbolKey sym) :
    (d.bookFor sym).books[key]? = d.books[key]? := by
  unfold DepthBook.bookFor
  dsimp only
  split
  · rfl
  · rw [DepthBook.setBook, lookup_insert, if_neg hkey]

theorem install_lookup (d : DepthBook) (snap : SnapshotResponse) (key : SymbolKey) :
    (d.install snap).books[key]? = if key = symbolKey snap.symbol then some snap.rebuild else d.books[key]? := by
  rw [DepthBook.install, DepthBook.setBook, lookup_insert]
  split_ifs with hkey
  · rfl
  · exact bookFor_lookup_other d hkey

theorem install_orderToSymbol (d : DepthBook) (snap : SnapshotResponse) :
    (d.install snap).orderToSymbol = d.orderToSymbol := by
  rw [DepthBook.install, DepthBook.setBook_orderToSymbol, DepthBook.bookFor_orderToSymbol]

namespace DepthBook

/-- A call that may change the maps. -/
inductive BookCall
  | message (m : AnyMessage)
  | symbol (sym : Symbol)
  | snapshot (snap : SnapshotResponse)

def call (d : DepthBook) : BookCall → DepthBook
  | .message m => (d.apply m).book
  | .symbol sym => d.bookFor sym
  | .snapshot snap => d.install snap

/-- An empty book of the given depth after a sequence of calls. -/
def calls (depth : ℕ) (cs : List BookCall) : DepthBook := cs.foldl call (DepthBook.new depth)

theorem calls_concat (depth : ℕ) (cs : List BookCall) (c : BookCall) :
    calls depth (cs ++ [c]) = (calls depth cs).call c := by simp [calls]

theorem WellKeyed.call {d : DepthBook} (h : d.WellKeyed) (c : BookCall) : (d.call c).WellKeyed := by
  cases c with
  | message m => exact (apply_wellKeyed h m).1
  | symbol sym => exact (h.bookFor sym).1
  | snapshot snap => exact (install_wellKeyed h snap).1

theorem calls_wellKeyed (depth : ℕ) (cs : List BookCall) : (calls depth cs).WellKeyed := by
  induction cs using List.reverseRecOn with
  | nil => exact new_wellKeyed depth
  | append_singleton cs c ih =>
    rw [calls_concat]
    exact ih.call c

theorem mem_allSymbols {d : DepthBook} (h : d.WellKeyed) {sym : Symbol} :
    sym ∈ d.allSymbols ↔ d.symbolIndex[symbolKey sym]? = some sym := by
  unfold allSymbols
  rw [List.mem_map]
  constructor
  · rintro ⟨⟨key, s⟩, hmem, rfl⟩
    have hindex := ExtTreeMap.mem_toList_iff_getElem?_eq_some.mp hmem
    rwa [h.symbol key s hindex]
  · intro hindex
    exact ⟨(symbolKey sym, sym), ExtTreeMap.mem_toList_iff_getElem?_eq_some.mpr hindex, rfl⟩

/-- The tracked symbols are those with a book. -/
theorem mem_allSymbols_iff {d : DepthBook} (h : d.WellKeyed) {sym : Symbol} :
    sym ∈ d.allSymbols ↔ (d.find sym).isSome := by
  rw [mem_allSymbols h, find, h.tracked]
  constructor
  · intro hindex
    rw [hindex]
    rfl
  · intro hsome
    obtain ⟨s, hs⟩ := Option.isSome_iff_exists.mp hsome
    rw [hs, Option.some_inj]
    exact symbolKey_injective (h.symbol _ s hs)

/-- The listed symbols have the keys of the index. -/
theorem map_symbolKey_allSymbols {d : DepthBook} (h : d.WellKeyed) :
    d.allSymbols.map symbolKey = d.symbolIndex.keys := by
  rw [allSymbols, List.map_map, ← ExtTreeMap.map_fst_toList_eq_keys]
  refine List.map_congr_left (fun e he => ?_)
  exact h.symbol e.1 e.2 (ExtTreeMap.mem_toList_iff_getElem?_eq_some.mp he)

/-- What the members of a `DepthBook` take for granted about its maps. -/
structure Directory (d : DepthBook) : Prop where
  sameKeys : ∀ key : SymbolKey, (d.books[key]?).isSome ↔ (d.symbolIndex[key]?).isSome
  symbol : ∀ (key : SymbolKey) (sym : Symbol), d.symbolIndex[key]? = some sym → ∀ s, symbolKey s = key ↔ s = sym
  routed : ∀ (id : OrderId) (key : SymbolKey), d.orderToSymbol[id]? = some key → (d.books[key]?).isSome
  dereferenced : ∀ (id : OrderId) (key : SymbolKey), d.orderToSymbol[id]? = some key →
    ∃ sym b, d.symbolIndex[key]? = some sym ∧ d.books[key]? = some b ∧ d.route id = some (key, sym, b)
  listedOnce : (d.allSymbols.map symbolKey).Nodup
  listed : ∀ key : SymbolKey, key ∈ d.allSymbols.map symbolKey ↔ (d.books[key]?).isSome

theorem WellKeyed.directory {d : DepthBook} (h : d.WellKeyed) : d.Directory := by
  refine ⟨h.tracked, fun key sym hsym s => ?_, h.routed, fun id key hid => ?_, ?_, fun key => ?_⟩
  · rw [← h.symbol key sym hsym, symbolKey_injective.eq_iff]
  · obtain ⟨sym, hroute, -, hsym, hbook⟩ := h.route hid
    exact ⟨sym, d.bookAt key, hsym, hbook, hroute⟩
  · rw [map_symbolKey_allSymbols h]
    exact ExtTreeMap.nodup_keys
  · rw [map_symbolKey_allSymbols h, ExtTreeMap.mem_keys, ExtTreeMap.mem_iff_isSome_getElem?, h.tracked]

/-- Whatever calls a book has seen, no lookup by a stored key fails. -/
theorem maps_never_dangle (depth : ℕ) (cs : List BookCall) :
    Function.Injective symbolKey ∧ (calls depth cs).Directory :=
  ⟨symbolKey_injective, (calls_wellKeyed depth cs).directory⟩

end DepthBook

end MdfeedItch
