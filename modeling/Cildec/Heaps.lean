import Cildec.Compressed
import Cildec.Lib.LittleEndian
import Cildec.Lib.Slice
import Cildec.Lib.Utf8
import Cildec.Token

/-!
# The metadata heaps (`src/heaps.rs`)

Constructing a heap only records its byte range. The four kinds share a span and differ in
how an index is read: up to a NUL, behind a length prefix, or sixteen bytes at a time.
Indices are `u32` and so `Nat` below `u32Max + 1`.
-/

namespace Cildec

open Wire

/-- The byte range of a heap, and its absolute offset in the input. -/
structure Span where
  data : List UInt8
  base : Nat
  deriving DecidableEq, Repr

/-- The range of a heap that is absent. -/
def Span.empty : Span := ⟨[], 0⟩

/-- The bytes from `offset` on. -/
def Span.at_ (span : Span) (offset : Nat) (context : String) : Result (List UInt8) :=
  if offset ≤ span.data.length then .ok (span.data.drop offset)
  else .error (Error.new .outOfRange (satAdd span.base offset) context)

/-- The entry behind the length prefix at `offset`, and its size with the prefix. -/
def Span.entry (span : Span) (offset : Nat) (context : String) : Result (List UInt8 × Nat) := do
  let rest ← span.at_ offset context
  let base := satAdd span.base offset
  let (len, used) ← (Compressed.readU32 rest).mapError (·.rebase base)
  match slice? rest used (used + len) with
  | some body => return (body, used + len)
  | none => throw (Error.new .outOfRange base context)

/-- `next` of an iterator that stands at `pos` of a heap of `len` bytes: the entry there and
its offset, and the position after it. -/
def entryNext (len : Nat) (read : Nat → Result (α × Nat)) (pos : Nat) :
    Option (Nat × α) × Nat :=
  if len ≤ pos then (none, pos)
  else
    match read pos with
    | .error _ => (none, pos)
    | .ok (value, size) =>
        if size ≤ u32Max ∧ pos + size ≤ u32Max then (some (pos, value), pos + size)
        else (none, pos)

/-- The `#Strings` heap. -/
structure StringsHeap where
  span : Span
  deriving DecidableEq, Repr

def StringsHeap.new (data : List UInt8) (base : Nat) : StringsHeap := ⟨⟨data, base⟩⟩

def StringsHeap.empty : StringsHeap := ⟨Span.empty⟩

/-- The bytes of the entry at `index`, up to its NUL; a last entry may lack it. -/
def StringsHeap.bytes (heap : StringsHeap) (index : Nat) : Result (List UInt8) := do
  let rest ← heap.span.at_ index "#Strings"
  return rest.take ((rest.idxOf? 0).getD rest.length)

/-- The entry at `index`, with invalid UTF-8 replaced. -/
def StringsHeap.lossy (heap : StringsHeap) (index : Nat) : Result String := do
  let bytes ← heap.bytes index
  return fromUtf8Lossy bytes

/-- The iterator over the entries, each up to its NUL. -/
structure StringsIter where
  data : List UInt8
  pos : Nat
  deriving DecidableEq, Repr

def StringsHeap.iter (heap : StringsHeap) : StringsIter := ⟨heap.span.data, 0⟩

def StringsIter.next (it : StringsIter) : Option (Nat × List UInt8) × StringsIter :=
  if it.data.length ≤ it.pos then (none, it)
  else
    let start := it.pos
    let rest := it.data.drop start
    let len := (rest.idxOf? 0).getD rest.length
    (some (start % 2 ^ 32, rest.take len), { it with pos := start + len + 1 })

/-- The `#Blob` heap. -/
structure BlobHeap where
  span : Span
  deriving DecidableEq, Repr

def BlobHeap.new (data : List UInt8) (base : Nat) : BlobHeap := ⟨⟨data, base⟩⟩

def BlobHeap.empty : BlobHeap := ⟨Span.empty⟩

/-- The blob at `index` together with its total encoded size. -/
def BlobHeap.getWithSize (heap : BlobHeap) (index : Nat) : Result (List UInt8 × Nat) :=
  heap.span.entry index "#Blob"

/-- The bytes of the blob at `index`, without its length prefix. -/
def BlobHeap.get (heap : BlobHeap) (index : Nat) : Result (List UInt8) := do
  let (bytes, _) ← heap.span.entry index "#Blob"
  return bytes

/-- The absolute offset of the body of the blob at `index`. -/
def BlobHeap.bodyOffset (heap : BlobHeap) (index : Nat) : Result Nat := do
  let rest ← heap.span.at_ index "#Blob"
  let base := satAdd heap.span.base index
  let (_, used) ← (Compressed.readU32 rest).mapError (·.rebase base)
  return satAdd base used

/-- The iterator over the blobs. -/
structure BlobIter where
  heap : BlobHeap
  pos : Nat
  deriving DecidableEq, Repr

def BlobHeap.iter (heap : BlobHeap) : BlobIter := ⟨heap, 0⟩

def BlobIter.next (it : BlobIter) : Option (Nat × List UInt8) × BlobIter :=
  let (item, pos) := entryNext it.heap.span.data.length it.heap.getWithSize it.pos
  (item, { it with pos })

/-- The `#GUID` heap. -/
structure GuidHeap where
  span : Span
  deriving DecidableEq, Repr

def GuidHeap.new (data : List UInt8) (base : Nat) : GuidHeap := ⟨⟨data, base⟩⟩

def GuidHeap.empty : GuidHeap := ⟨Span.empty⟩

/-- The number of complete GUIDs in the heap. -/
def GuidHeap.count (heap : GuidHeap) : Nat := heap.span.data.length / 16

/-- The GUID at a 1-based index. Index 0 means "no GUID". -/
def GuidHeap.get (heap : GuidHeap) (index : Nat) : Result (List UInt8) :=
  if index = 0 then .error (Error.new .outOfRange heap.span.base "#GUID")
  else
    match checkedMul (index - 1) 16 with
    | none => .error (Error.new .outOfRange heap.span.base "#GUID")
    | some start =>
        match slice? heap.span.data start (start + 16) with
        | some bytes => .ok bytes
        | none => .error (Error.new .outOfRange (satAdd heap.span.base start) "#GUID")

/-- The `#US` heap. -/
structure UserStringsHeap where
  span : Span
  deriving DecidableEq, Repr

def UserStringsHeap.new (data : List UInt8) (base : Nat) : UserStringsHeap := ⟨⟨data, base⟩⟩

def UserStringsHeap.empty : UserStringsHeap := ⟨Span.empty⟩

/-- One `#US` entry: its UTF-16LE bytes and the flag byte behind them. -/
structure UserString where
  bytes : List UInt8
  flag : Option UInt8
  oddLength : Bool
  deriving DecidableEq, Repr

/-- The UTF-16 code units, in order. -/
def UserString.codeUnits (s : UserString) : List UInt16 :=
  (List.range (s.bytes.length / 2)).map fun i =>
    UInt16.ofNat (leNat ((s.bytes.drop (2 * i)).take 2))

/-- The last byte is the flag; of an even length the last byte before it is dropped. -/
def splitUserString (body : List UInt8) : UserString :=
  match body.getLast? with
  | none => ⟨[], none, false⟩
  | some flag =>
      let rest := body.dropLast
      if rest.length % 2 ≠ 0 then ⟨rest.dropLast, some flag, true⟩
      else ⟨rest, some flag, false⟩

/-- The entry at a raw heap offset. -/
def UserStringsHeap.getAt (heap : UserStringsHeap) (offset : Nat) : Result UserString := do
  let (body, _) ← heap.span.entry offset "#US"
  return splitUserString body

/-- The entry at the offset a token carries. -/
def UserStringsHeap.get (heap : UserStringsHeap) (token : UserStringToken) : Result UserString :=
  heap.getAt token.offset

/-- The entry at `offset` together with its total encoded size. -/
def UserStringsHeap.getWithSize (heap : UserStringsHeap) (offset : Nat) :
    Result (UserString × Nat) := do
  let (body, size) ← heap.span.entry offset "#US"
  return (splitUserString body, size)

/-- The iterator over the user strings. -/
structure UserStringsIter where
  heap : UserStringsHeap
  pos : Nat
  deriving DecidableEq, Repr

def UserStringsHeap.iter (heap : UserStringsHeap) : UserStringsIter := ⟨heap, 0⟩

/-- The token of the user string at an offset. -/
def userStringToken (offset : Nat) : Nat := 0x70000000 ||| offset

def UserStringsIter.next (it : UserStringsIter) :
    Option (Nat × UserString) × UserStringsIter :=
  let (item, pos) := entryNext it.heap.span.data.length it.heap.getWithSize it.pos
  (item.map fun (offset, value) => (userStringToken offset, value), { it with pos })

end Cildec
