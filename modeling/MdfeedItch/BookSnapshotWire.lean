import MdfeedItch.DepthBook
import MdfeedItch.FrameRoundTrip
import MdfeedItch.GuardedReads

/-! # Book-snapshot frames

`sim/book_snapshot.cpp`: capture, CRC-32, encoder and decoder of the frames that the
publisher pushes. The decoder checks its room in front of the stored checksum; the
read itself goes through the whole buffer. -/
namespace MdfeedItch
open ByteCursor ByteLayout GuardedReads

/-- `put_level`, the same in both snapshot formats. -/
def levelBytes (l : PriceLevel) : List UInt8 := u32Bytes l.price ++ (u32Bytes l.totalQty ++ u32Bytes l.orderCount)

/-- The body of the loops that read levels. -/
def readLevel : Cursor PriceLevel := do
  let price ← readU32
  let totalQty ← readU32
  let orderCount ← readU32
  return { price, totalQty, orderCount }

abbrev snapshotMaxLevels : ℕ := 10

/-- The bytes of `BSN1`. -/
def snapshotMagic : List UInt8 := [0x42, 0x53, 0x4E, 0x31]

structure BookSnapshotSymbol where
  symbol : Symbol
  bids : List PriceLevel
  asks : List PriceLevel
  deriving DecidableEq, Repr

structure BookSnapshot where
  sequence : UInt64
  symbols : List BookSnapshotSymbol
  deriving DecidableEq, Repr

/-- One round of the loop that fills a table entry. -/
def crcRound (c : UInt32) : UInt32 := if c &&& 1 ≠ 0 then (0xEDB88320 : UInt32) ^^^ (c >>> 1) else c >>> 1

def crcTable : Vector UInt32 256 := Vector.ofFn (fun i => crcRound^[8] (UInt32.ofNat i))

/-- The body of the loop of `crc32`. -/
def crcUpdate (c : UInt32) (b : UInt8) : UInt32 :=
  crcTable.get ((c ^^^ b.toUInt32) &&& 0xFF).toUInt8.toFin ^^^ (c >>> 8)

def crc32 (data : List UInt8) : UInt32 := data.foldl crcUpdate 0xFFFFFFFF ^^^ 0xFFFFFFFF

/-- The tracked symbols, by key. `all_symbols` lists them in the order of a hash map. -/
def DepthBook.allSymbols (d : DepthBook) : List Symbol := d.symbolIndex.toList.map Prod.snd

/-- `capture_book_snapshot` where `all_symbols` came out in the given order. -/
def captureBookSnapshot (book : DepthBook) (order : List Symbol) (sequence : UInt64) : BookSnapshot :=
  ⟨sequence, order.filterMap (fun sym => (book.find sym).map (fun sb =>
    ⟨sym, sb.topBids.take snapshotMaxLevels, sb.topAsks.take snapshotMaxLevels⟩))⟩

def recordBytes (rec : BookSnapshotSymbol) : List UInt8 :=
  arrayBytes rec.symbol ++ (u8Bytes (UInt8.ofNat rec.bids.length) ++ (rec.bids.flatMap levelBytes ++
    (u8Bytes (UInt8.ofNat rec.asks.length) ++ rec.asks.flatMap levelBytes)))

/-- The fields behind the magic. -/
def snapshotFields (snap : BookSnapshot) : List UInt8 :=
  u64Bytes snap.sequence ++ (u32Bytes (UInt32.ofNat snap.symbols.length) ++ snap.symbols.flatMap recordBytes)

/-- What the checksum covers: magic to last record. -/
def coveredBytes (snap : BookSnapshot) : List UInt8 := snapshotMagic ++ snapshotFields snap

/-- A body with its checksum and the length prefix around it. -/
def frameAround (covered : List UInt8) : List UInt8 :=
  let body := covered ++ u32Bytes (crc32 covered)
  u32Bytes (UInt32.ofNat body.length) ++ body

def encodeBookSnapshot (snap : BookSnapshot) : List UInt8 := frameAround (coveredBytes snap)

/-- One pass of the loop over symbols; no value where one of its checks returns.
`behind` bytes of the buffer lie at and behind `crc_start`. -/
def decodeRecord (behind : ℤ) : Cursor (Option BookSnapshotSymbol) :=
  guarded behind (symbolLen + 1) none do
    let symbol ← readSymbol
    let nb ← readU8
    if snapshotMaxLevels < nb.toNat then return none
    else guarded behind (nb.toNat * 12 + 1) none do
      let bids ← takeMany readLevel nb.toNat
      let na ← readU8
      if snapshotMaxLevels < na.toNat then return none
      else guarded behind (na.toNat * 12) none do
        let asks ← takeMany readLevel na.toNat
        return some { symbol, bids, asks }

/-- The loop over symbols: what it pushed and whether it ran to its end. -/
def decodeRecords (behind : ℤ) : ℕ → List BookSnapshotSymbol → Cursor (List BookSnapshotSymbol × Bool)
  | 0, acc => pure (acc, true)
  | n + 1, acc => do
    match ← decodeRecord behind with
    | none => return (acc, false)
    | some rec => decodeRecords behind n (acc ++ [rec])

/-- The call of `reserve`: its argument, and the bytes from the cursor up to `crc_start`. -/
structure ReserveCall where
  symCount : UInt32
  left : ℤ

/-- From the sequence to the final comparison of the cursor with `crc_start`, with the call of
`reserve` in front of the loop. -/
def decodeSnapshotFields (behind : ℤ) : Cursor (ReserveCall × BookSnapshot × Bool) := do
  let sequence ← readU64
  let symCount ← readU32
  let left ← room behind
  let (symbols, complete) ← decodeRecords behind symCount.toNat []
  let rest ← room behind
  return (⟨symCount, left⟩, ⟨sequence, symbols⟩, complete && decide (rest = 0))

/-- `decode_book_snapshot` with its call of `reserve`, where it comes to that, and its flag `ok`.
No result stands for a read outside the buffer. -/
def decodeReserving (bytes : List UInt8) : Option (Option ReserveCall × BookSnapshot × Bool) :=
  if bytes.length < 4 then some (none, ⟨0, []⟩, false)
  else do
    let bodyLen := (← readAt readU32 bytes 0).toNat
    if bytes.length < 4 + bodyLen then return (none, ⟨0, []⟩, false)
    else if bodyLen < 20 then return (none, ⟨0, []⟩, false)
    else
      let magic ← readAt (takeBytes 4) bytes 4
      if magic ≠ snapshotMagic then return (none, ⟨0, []⟩, false)
      else
        let crcStart := 4 + bodyLen - 4
        let storedCrc ← readAt readU32 bytes crcStart
        let covered ← readAt (takeBytes (bodyLen - 4)) bytes 4
        if storedCrc ≠ crc32 covered then return (none, ⟨0, []⟩, false)
        else
          let (call, result) ← readAt (decodeSnapshotFields ((bytes.length : ℤ) - crcStart)) bytes 8
          return (some call, result)

/-- What `decode_book_snapshot` returns where `reserve` does not throw. -/
def decodeBookSnapshot (bytes : List UInt8) : Option (BookSnapshot × Bool) := (decodeReserving bytes).map Prod.snd

def reserveCall (bytes : List UInt8) : Option ReserveCall := (decodeReserving bytes).bind Prod.fst

end MdfeedItch
