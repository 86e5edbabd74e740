import RocksdbJs.Lib.ByteBlock
import RocksdbJs.Lib.LengthPrefixed
import RocksdbJs.Spec.StoreGets

/-! `Store.getRange` and `Store.getCount` of `store.ts`, the `DBIterator` of `dbi-iterator.ts` and the native
iterator's constructor and `Next`. The bounds of a range are written back to back into the key buffer that
JavaScript shares with the binding; an item comes back through the shared buffers or in buffers of its own. -/

namespace RocksdbJs
namespace Ranges
open Reads

variable {K W : Type}

/-- `writeKey` and `readKey` of a key encoding by the bytes they write and read, `null`, and `===`. -/
structure KeyEncoder (K : Type) where
  encode : K → Slice
  readKey : Slice → K
  isNull : K → Bool
  strictEq : K → K → Bool
  strictEq_sound : ∀ a b, strictEq a b = true → a = b

/-- `'binary'`, for keys that are buffers. -/
def KeyEncoder.binary : KeyEncoder Slice where
  encode := id
  readKey := id
  isNull := fun _ => false
  strictEq := fun a b => decide (a = b)
  strictEq_sound := fun _ _ h => of_decide_eq_true h

instance neZero32 : NeZero (2 ^ 32) := ⟨by decide⟩

/-- `'uint32'`: `setUint32` and `getUint32` with the lowest byte first. A key too short to be read is never written. -/
def KeyEncoder.uint32 : KeyEncoder (Fin (2 ^ 32)) where
  encode := fun k => LengthPrefixed.le32 k
  readKey := fun b => Fin.ofNat _ ((LengthPrefixed.readLE32 b 0).getD 0)
  isNull := fun _ => false
  strictEq := fun a b => decide (a = b)
  strictEq_sound := fun _ _ h => of_decide_eq_true h

inductive RangeError
  | zeroLengthKey
  /-- The key does not fit in what is left of the key buffer. -/
  | outOfRange
  | transactionNotFound
deriving DecidableEq, Repr

/-- `KEY_BUFFER_SIZE`. -/
def keyBufferSize : ℕ := 4096

def valueBufferSize : ℕ := 65536

/-- `KEY_BUFFER`. -/
structure KeyBuffer where
  bytes : Slice
  length_eq : bytes.length = keyBufferSize

namespace KeyEncoder

variable (enc : KeyEncoder K)

/-- Writes the key from an offset on and returns where it ends. -/
def writeKey (key : K) (target : KeyBuffer) (start : ℕ) : Except RangeError (KeyBuffer × ℕ) :=
  if h : start + (enc.encode key).length ≤ keyBufferSize then
    .ok (⟨ByteBlock.writeAt target.bytes (enc.encode key) start,
      (ByteBlock.length_writeAt (by rw [target.length_eq]; exact h)).trans target.length_eq⟩,
        start + (enc.encode key).length)
  else .error .outOfRange

/-- `Store.encodeKey`, with the bytes that `getCount` copies out of the key buffer. -/
def encodeKey (key : K) (keyBuffer : KeyBuffer) : Except RangeError (KeyBuffer × Slice) :=
  match enc.writeKey key keyBuffer 0 with
  | .error e => .error e
  | .ok (keyBuffer, bytesWritten) =>
    if bytesWritten = 0 then .error .zeroLengthKey else .ok (keyBuffer, ByteBlock.readAt keyBuffer.bytes 0 bytesWritten)

end KeyEncoder

/-- What a stored value comes to: what a decoder makes of it, its bytes in a buffer of their own, or the whole
of `VALUE_BUFFER`. -/
inductive Decoded (W : Type)
  | object (w : W)
  | buffer (bytes : Slice)
  | sharedBuffer
deriving DecidableEq, Repr

/-- An `Encoder` as far as values are decoded with it; `decode` and `readKey` read up to the end they are given. -/
structure Decoder (W : Type) where
  decode : Option (Slice → Decoded W) := none
  readKey : Option (Slice → Decoded W) := none
  needsStableBuffer : Bool := false

structure Store (K W : Type) where
  encoder : KeyEncoder K
  decoder : Option (Decoder W) := none

namespace Store

variable (store : Store K W)

/-- The decoder's `decode`, after `open` has put one over `readKey` where it is missing. -/
def decode : Option (Slice → Decoded W) := store.decoder.bind fun d => d.decode <|> d.readKey

def decoderCopies : Bool := store.decoder.any fun d => !d.needsStableBuffer || (d.readKey.isSome && d.decode.isNone)

/-- `decodeValue` of `VALUE_BUFFER`, which is never empty itself, with its end set behind the value. -/
def decodeShared (value : Slice) : Decoded W :=
  match store.decode with
  | some f => f value
  | none => .sharedBuffer

/-- `decodeValue` of a buffer that holds the value alone. -/
def decodeOwn (value : Slice) : Decoded W :=
  match store.decode with
  | some f => if 0 < value.length then f value else .buffer value
  | none => .buffer value

end Store

structure RangeOptions (K : Type) where
  startKey : Option K := none
  endKey : Option K := none
  exclusiveStart : Option Bool := none
  inclusiveEnd : Option Bool := none

structure IteratorOptions (K : Type) extends RangeOptions K where
  key : Option K := none
  reverse : Option Bool := none
  values : Option Bool := none
  limit : Option ℤ := none

namespace IteratorOptions

variable (o : IteratorOptions K)

def isReverse : Bool := o.reverse.getD false

def includeValues : Bool := o.values.getD true

/-- `options?.key ?? other`. -/
def keyOr (enc : KeyEncoder K) (other : Option K) : Option K :=
  match o.key with
  | some k => if enc.isNull k then other else some k
  | none => other

/-- The start and the end as they are encoded, swapped in reverse. -/
def startUnencoded (enc : KeyEncoder K) : Option K := o.keyOr enc (if o.isReverse then o.endKey else o.startKey)

def endUnencoded (enc : KeyEncoder K) : Option K := o.keyOr enc (if o.isReverse then o.startKey else o.endKey)

def exclusiveStartFlag : Bool := if o.isReverse then o.exclusiveStart.getD true else o.exclusiveStart.getD false

def inclusiveEndFlag : Bool :=
  if o.isReverse then o.inclusiveEnd.getD true else if o.key.isSome then true else o.inclusiveEnd.getD false

end IteratorOptions

/-- The key buffer with both bounds, and their offsets in it. -/
structure BoundOffsets where
  keyBuffer : KeyBuffer
  startKeyEnd : ℕ
  endKeyStart : ℕ
  endKeyEnd : ℕ

namespace KeyEncoder

variable (enc : KeyEncoder K)

def writeStart (keyBuffer : KeyBuffer) : Option K → Except RangeError (KeyBuffer × ℕ)
  | none => .ok (keyBuffer, 0)
  | some key =>
    match enc.writeKey key keyBuffer 0 with
    | .error e => .error e
    | .ok (keyBuffer, startKeyEnd) => if startKeyEnd = 0 then .error .zeroLengthKey else .ok (keyBuffer, startKeyEnd)

/-- The end goes behind the start, unless it is the very same key. -/
def writeBounds (keyBuffer : KeyBuffer) (start last : Option K) : Except RangeError BoundOffsets :=
  match enc.writeStart keyBuffer start with
  | .error e => .error e
  | .ok (keyBuffer, startKeyEnd) =>
    match last with
    | none => .ok ⟨keyBuffer, startKeyEnd, 0, 0⟩
    | some key =>
      if start.any (enc.strictEq key) then .ok ⟨keyBuffer, startKeyEnd, 0, startKeyEnd⟩
      else
        match enc.writeKey key keyBuffer startKeyEnd with
        | .error e => .error e
        | .ok (keyBuffer, endKeyEnd) =>
          if endKeyEnd = startKeyEnd then .error .zeroLengthKey
            else .ok ⟨keyBuffer, startKeyEnd, startKeyEnd, endKeyEnd⟩

end KeyEncoder

/-- The start key of the native constructor is absent rather than empty. -/
theorem BoundOffsets.startKey_ne_nil (b : BoundOffsets) :
    (if 0 < b.startKeyEnd then some (ByteBlock.readAt b.keyBuffer.bytes 0 b.startKeyEnd) else none) ≠ some [] := by
  intro h
  split_ifs at h with hpos
  have hlen := congrArg List.length (Option.some.inj h)
  have hsize : b.keyBuffer.bytes.length = 4096 := b.keyBuffer.length_eq
  rw [ByteBlock.readAt, List.length_take, List.length_drop, List.length_nil] at hlen
  omega

/-- The options of the native constructor, which takes the bounds out of the key buffer by their offsets. -/
def BoundOffsets.iteratorOptions (b : BoundOffsets) (reverse exclusiveStart inclusiveEnd values : Bool) :
    DBIteratorOptions where
  startKey := if 0 < b.startKeyEnd then some (ByteBlock.readAt b.keyBuffer.bytes 0 b.startKeyEnd) else none
  endKey := if b.endKeyStart < b.endKeyEnd then some
    (ByteBlock.readAt b.keyBuffer.bytes b.endKeyStart (b.endKeyEnd - b.endKeyStart)) else none
  inclusiveEnd := inclusiveEnd
  exclusiveStart := exclusiveStart
  reverse := reverse
  values := values
  nonempty := fun _ => b.startKey_ne_nil

/-- What `NativeIterator`'s `next` returns. -/
inductive NextResult
  | done
  | fast (key : Slice) (value : Option Slice)
  | slow (key : Slice) (value : Option Slice)

structure NativeIterator where
  handle : DBIteratorHandle Slice
  needsStableValueBuffer : Bool

namespace NativeIterator

/-- Everything of the item fits in the shared buffers. -/
def fitsInShared (it : NativeIterator) (key : Slice) (value : Option Slice) : Bool :=
  decide (key.length ≤ keyBufferSize) && value.all fun v => !it.needsStableValueBuffer &&
    decide (v.length ≤ valueBufferSize)

def next (it : NativeIterator) : NextResult × NativeIterator :=
  match it.handle.next with
  | (none, h) => (.done, { it with handle := h })
  | (some (key, value), h) =>
    (if it.fitsInShared key value then .fast key value else .slow key value, { it with handle := h })

end NativeIterator

structure Item (K W : Type) where
  key : K
  value : Option (Decoded W)
deriving DecidableEq, Repr

/-- The iterator of `dbi-iterator.ts`. -/
structure DBIterator (K W : Type) where
  store : Store K W
  iterator : NativeIterator
  limit : Option ℤ
  yielded : ℕ := 0

namespace DBIterator

/-- The next item, or `none` when the range is done; the limit is kept here. -/
def next (it : DBIterator K W) : Option (Item K W) × DBIterator K W :=
  if it.limit.any fun l : ℤ => decide (l ≤ it.yielded) then (none, it)
  else
    match it.iterator.next with
    | (.done, native) => (none, { it with iterator := native })
    | (.fast key value, native) =>
      (some ⟨it.store.encoder.readKey key, value.map it.store.decodeShared⟩,
        { it with iterator := native, yielded := it.yielded + 1 })
    | (.slow key value, native) =>
      (some ⟨it.store.encoder.readKey key, value.map it.store.decodeOwn⟩,
        { it with iterator := native, yielded := it.yielded + 1 })

/-- What `n` calls of `next` yield. -/
def fetch : ℕ → DBIterator K W → List (Item K W)
  | 0, _ => []
  | n + 1, it =>
    match it.next with
    | (none, _) => []
    | (some x, it') => x :: fetch n it'

end DBIterator

/-- The handle's constructor over a database: no transaction's writes lie over what is committed. -/
def newDatabaseIterator (table : OrderedTable Slice Slice) (o : DBIteratorOptions) : DBIteratorHandle Slice where
  options := o
  iterator := DBIteratorHandle.seek o ⟨table.items o.inBounds, none⟩
  pinned := false

/-- The native iterator of a context. The options' transaction is not asked for. -/
def newNativeIterator (committed : Database Slice) (o : DBIteratorOptions) : GetContext Slice → DBIteratorHandle Slice
  | .database column => newDatabaseIterator (committed column) o
  | .databaseWith column _ => newDatabaseIterator (committed column) o
  | .transaction t => t.newIterator committed o

/-- `Store.getRange`. -/
def Store.getRange (store : Store K W) (keyBuffer : KeyBuffer) (committed : Database Slice) (ctx : GetContext Slice)
    (options : IteratorOptions K) : Except RangeError (DBIterator K W) :=
  match store.encoder.writeBounds keyBuffer (options.startUnencoded store.encoder)
    (options.endUnencoded store.encoder) with
  | .error e => .error e
  | .ok b =>
    let native := b.iteratorOptions options.isReverse options.exclusiveStartFlag
      options.inclusiveEndFlag options.includeValues
    .ok {
      store
      iterator := ⟨newNativeIterator committed native ctx, options.includeValues && !store.decoderCopies⟩
      limit := options.limit }

/-- The loop of `Database::GetCount` is the one of `TransactionHandle::getCount`. -/
def databaseCount (table : OrderedTable Slice Slice) (o : DBIteratorOptions) : ℕ :=
  let it := (newDatabaseIterator table o).iterator
  it.count (it.entries.length + 1)

/-- `getCount` of a database and of a transaction. A transaction that a handle is asked to count through does so
in its own column family. -/
def bindingGetCount (committed : Database Slice) (o : DBIteratorOptions) : GetContext Slice → Except RangeError ℕ
  | .database column => .ok (databaseCount (committed column) o)
  | .databaseWith _ none => .error .transactionNotFound
  | .databaseWith _ (some t) => .ok (t.getCount committed o)
  | .transaction t => .ok (t.getCount committed o)

def KeyEncoder.encodeOption (enc : KeyEncoder K) (keyBuffer : KeyBuffer) :
    Option K → Except RangeError (KeyBuffer × Option Slice)
  | none => .ok (keyBuffer, none)
  | some key =>
    match enc.encodeKey key keyBuffer with
    | .error e => .error e
    | .ok (keyBuffer, bytes) => .ok (keyBuffer, some bytes)

/-- `Store.getCount`: each bound is encoded alone and copied. -/
def Store.getCount (store : Store K W) (keyBuffer : KeyBuffer) (committed : Database Slice) (ctx : GetContext Slice)
    (options : RangeOptions K) : Except RangeError ℕ :=
  match store.encoder.encodeOption keyBuffer options.startKey with
  | .error e => .error e
  | .ok (keyBuffer, startKey) =>
    match store.encoder.encodeOption keyBuffer options.endKey with
    | .error e => .error e
    | .ok (_, endKey) =>
      let native : DBIteratorOptions := {
        startKey := startKey
        endKey := endKey
        exclusiveStart := options.exclusiveStart.getD false
        inclusiveEnd := options.inclusiveEnd.getD false
        values := false
        nonempty := fun h => absurd h (by decide) }
      bindingGetCount committed native ctx

def Store.getKeysCount (store : Store K W) (keyBuffer : KeyBuffer) (committed : Database Slice) (ctx : GetContext Slice)
    (options : RangeOptions K) : Except RangeError ℕ := store.getCount keyBuffer committed ctx options

end Ranges
end RocksdbJs
