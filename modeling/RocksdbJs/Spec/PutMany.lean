import RocksdbJs.Lib.LengthPrefixed
import RocksdbJs.Spec.TransactionReads

/-! `putSync` and `putManySync`: the methods of `store.ts` with the buffers that the encoders use again, the two
native decoders of `database.cpp` and `transaction_handle.cpp`, and the single puts beside them. The store
is open, a key is one that encodes, and the array of entries is shorter than `2 ^ 32`. -/

namespace RocksdbJs
namespace PutMany

open Reads LengthPrefixed

inductive DecodeError
  | keysTruncated
  | keyOverruns
  | valuesTruncated
  | valueOverruns
deriving DecidableEq, Repr

def DecodeError.text : DecodeError → String
  | .keysTruncated => "putMany: keys buffer truncated (length prefix)"
  | .keyOverruns => "putMany: key overruns keys buffer"
  | .valuesTruncated => "putMany: values buffer truncated (length prefix)"
  | .valueOverruns => "putMany: value overruns values buffer"

/-- What a call throws. The statuses of RocksDB are numbers. -/
inductive PutError
  /-- Of `writeUInt32LE`. -/
  | valueOutOfRange
  /-- The context has no such method. -/
  | notAFunction
  /-- Of `getNapiBufferFromArg`. -/
  | startAfterEnd
  | transactionNotFound
  | closed
  | notPending
  | decode (e : DecodeError)
  | rocksdb (code : ℕ)
deriving DecidableEq, Repr

structure DBHandle where
  column : ℕ
  enableVerificationTable : Bool
deriving DecidableEq, Repr

structure TransactionHandle extends Reads.TransactionHandle Slice where
  closed : Bool := false
  enableVerificationTable : Bool
  /-- With the trackers that hold them. -/
  lockedVTSlots : List (ℕ × ℕ) := []

inductive VTCall
  | lockSlotForWrite (slot tracker : ℕ)
  | releaseWriteIntent (slot tracker : ℕ)
deriving DecidableEq, Repr

structure Native where
  pessimistic : Bool
  committed : Database Slice
  transactions : ℕ → Option TransactionHandle
  /-- Of the verification table, if there is one. -/
  slotFor : Option (ℕ → Slice → ℕ)
  vtCalls : List VTCall := []

/-- What RocksDB and the table answer: the status of the put with a number, if it fails, the tracker of
its lock, and the status of the batch's `Write`. -/
structure Answers where
  puts : ℕ → Option ℕ
  trackers : ℕ → ℕ
  write : Option ℕ

/-- One side of a decoder's turn: the next length and as many bytes. `none` is a read outside the buffer. -/
def readEntry (buffer : Slice) (truncated overruns : DecodeError) (o : ℕ) : Option (Except DecodeError (Slice × ℕ)) :=
  if buffer.length < o + 4 then some (.error truncated)
  else (readLE32 buffer o).bind fun len =>
    if buffer.length < o + 4 + len then some (.error overruns)
    else (bytesAt buffer (o + 4) len).map fun bytes => .ok (bytes, o + 4 + len)

/-- The loop of the decoders, where `body` is what a turn does with its number, key and value. -/
def forEntries {σ : Type} (keys values : Slice) (body : ℕ → Slice → Slice → σ → Option PutError × σ) :
    ℕ → ℕ → ℕ → ℕ → σ → Option (Option PutError × σ)
  | 0, _, _, _, s => some (none, s)
  | n + 1, i, ko, vo, s =>
    (readEntry keys .keysTruncated .keyOverruns ko).bind fun
      | .error e => some (some (.decode e), s)
      | .ok (key, ko') => (readEntry values .valuesTruncated .valueOverruns vo).bind fun
        | .error e => some (some (.decode e), s)
        | .ok (value, vo') =>
          match body i key value s with
          | (some e, s') => some (some e, s')
          | (none, s') => forEntries keys values body n (i + 1) ko' vo' s'

namespace TransactionHandle

def lockVTSlot (t : TransactionHandle) (st : Native) (h : DBHandle) (key : Slice) (tracker : ℕ) : TransactionHandle :=
  match st.slotFor with
  | none => t
  | some slotFor => { t with lockedVTSlots := t.lockedVTSlots ++ [(slotFor h.column key, tracker)] }

/-- `txn->Put` and the lock after it. -/
def put (t : TransactionHandle) (st : Native) (h : DBHandle) (key value : Slice) (status : Option ℕ) (tracker : ℕ) :
    Option PutError × TransactionHandle :=
  match status with
  | some code => (some (.rocksdb code), t)
  | none =>
    let t := { t with writes := Function.update t.writes h.column ((t.writes h.column).write key (some (some value))) }
    (none, if h.enableVerificationTable then t.lockVTSlot st h key tracker else t)

/-- A pessimistic transaction takes its snapshot with its first put. -/
def pin (t : TransactionHandle) (st : Native) : TransactionHandle :=
  if t.disableSnapshot = false ∧ t.snapshotSet = false ∧ st.pessimistic = true then
    { t with snapshotSet := true, snapshot := some st.committed }
  else t

def ownHandle (t : TransactionHandle) : DBHandle := ⟨t.column, t.enableVerificationTable⟩

def putSync (t : TransactionHandle) (st : Native) (dbHandleOverride : Option DBHandle) (key value : Slice)
    (status : Option ℕ) (tracker : ℕ) : Option PutError × TransactionHandle :=
  if t.closed then (some .closed, t)
  else if t.state ≠ .pending then (some .notPending, t)
  else
    let t := t.pin st
    t.put st (dbHandleOverride.getD t.ownHandle) key value status tracker

def putManySync (t : TransactionHandle) (st : Native) (keys values : Slice) (count : ℕ)
    (dbHandleOverride : Option DBHandle) (a : Answers) : Option (Option PutError × TransactionHandle) :=
  if t.closed then some (some .closed, t)
  else if t.state ≠ .pending then some (some .notPending, t)
  else
    let t := t.pin st
    let h := dbHandleOverride.getD t.ownHandle
    forEntries keys values (fun i key value t => t.put st h key value (a.puts i) (a.trackers i)) count 0 0 0 t

end TransactionHandle

namespace Native

def withTransaction (st : Native) (id : ℕ) (t : TransactionHandle) : Native :=
  { st with transactions := Function.update st.transactions id (some t) }

def call (st : Native) (c : VTCall) : Native := { st with vtCalls := st.vtCalls ++ [c] }

end Native

/-- The table of a handle that has it enabled. -/
def DBHandle.table (h : DBHandle) (st : Native) : Option (ℕ → Slice → ℕ) :=
  if h.enableVerificationTable then st.slotFor else none

/-- `Database::PutSync`. -/
def DBHandle.putSync (h : DBHandle) (st : Native) (key value : Slice) (txnId : Option ℕ)
    (status : Option ℕ) (tracker : ℕ) :
    Option PutError × Native :=
  match txnId with
  | some id =>
    match st.transactions id with
    | none => (some .transactionNotFound, st)
    | some t =>
      let r := t.putSync st (some h) key value status tracker
      (r.1, st.withTransaction id r.2)
  | none =>
    let slot := (h.table st).map fun slotFor => slotFor h.column key
    let locked := slot.elim st fun slot => st.call (.lockSlotForWrite slot tracker)
    let written := if status.isNone then { locked with committed := applyWrite st.committed (h.column, key,
      some value) } else locked
    (status.map .rocksdb, slot.elim written fun slot => written.call (.releaseWriteIntent slot tracker))

/-- The batch as it is built, and the intents taken for it. -/
structure Building where
  batch : WriteBatch Slice := []
  vtLocks : List (ℕ × ℕ) := []

/-- A turn of the batch's loop: the lock and the put. -/
def DBHandle.build (h : DBHandle) (st : Native) (a : Answers) (i : ℕ) (key value : Slice) (b : Building) :
    Option PutError × Building :=
  let vtLocks := (h.table st).elim b.vtLocks fun slotFor => b.vtLocks ++ [(slotFor h.column key, a.trackers i)]
  match a.puts i with
  | some code => (some (.rocksdb code), { b with vtLocks })
  | none => (none, ⟨b.batch ++ [(h.column, key, some value)], vtLocks⟩)

/-- `Database::PutManySync`. -/
def DBHandle.putManySync (h : DBHandle) (st : Native) (keys values : Slice) (count : ℕ) (txnId : Option ℕ)
    (a : Answers) :
    Option (Option PutError × Native) :=
  match txnId with
  | some id =>
    match st.transactions id with
    | none => some (some .transactionNotFound, st)
    | some t => (t.putManySync st keys values count (some h) a).map fun r => (r.1, st.withTransaction id r.2)
  | none =>
    (forEntries keys values (h.build st a) count 0 0 0 {}).map fun r =>
      let locked :=
        { st with vtCalls := st.vtCalls ++ r.2.vtLocks.map fun l : ℕ × ℕ => VTCall.lockSlotForWrite l.1 l.2 }
      let status := r.1.or (a.write.map .rocksdb)
      let written := if status.isNone then { locked with committed := applyBatch st.committed r.2.batch } else locked
      (status, { written with
        vtCalls := written.vtCalls ++ r.2.vtLocks.map fun l : ℕ × ℕ => VTCall.releaseWriteIntent l.1 l.2 })

/-- What the encoders give, and where: a value's bytes stand in the encoder's own buffer, between others,
or in one of their own, and the encoder may first have encoded the key of its shared structures. The encoder's own
buffer is shorter than `2 ^ 32`. -/
structure Codec (K V : Type) where
  writeKey : K → Slice
  encode : V → Slice
  reused : V → Option (Slice × Slice)
  sharedStructuresKey : V → Option K
  bounded : ∀ v before after, reused v = some (before, after) → before.length + (encode v).length < 2 ^ 32

/-- The buffers that are used again. -/
structure Scratch where
  keyBuffer : Slice := []
  valueBuffer : Slice := []

inductive Target
  | keyBuffer
  | valueBuffer
  | own (bytes : Slice)

/-- A buffer with its `start` and `end`. -/
structure EncodedView where
  buffer : Target
  start : ℕ
  stop : ℕ

def Scratch.contents (s : Scratch) : Target → Slice
  | .keyBuffer => s.keyBuffer
  | .valueBuffer => s.valueBuffer
  | .own bytes => bytes

variable {K V : Type}

namespace Codec

def encodeKey (c : Codec K V) (s : Scratch) (key : K) : Scratch × EncodedView :=
  ({ s with keyBuffer := c.writeKey key ++ s.keyBuffer.drop (c.writeKey key).length },
    ⟨.keyBuffer, 0, (c.writeKey key).length⟩)

def encodeValue (c : Codec K V) (s : Scratch) (value : V) : Scratch × EncodedView :=
  let s := (c.sharedStructuresKey value).elim s fun key => (c.encodeKey s key).1
  match c.reused value with
  | some (before, after) =>
    ({ s with valueBuffer := before ++ c.encode value ++ after },
      ⟨.valueBuffer, before.length, before.length + (c.encode value).length⟩)
  | none => (s, ⟨.own (c.encode value), 0, (c.encode value).length⟩)

end Codec

def copyEncoded (s : Scratch) (b : EncodedView) : Slice := ((s.contents b.buffer).take b.stop).drop b.start

/-- The offsets are read as 32-bit numbers. -/
def getNapiBufferFromArg (s : Scratch) (b : EncodedView) : Except PutError Slice :=
  let start := b.start % 2 ^ 32
  let stop := b.stop % 2 ^ 32
  if stop < start then .error .startAfterEnd else .ok (((s.contents b.buffer).take stop).drop start)

/-- The object that a method of the store is called with. -/
inductive StoreContext
  | database (h : DBHandle)
  | transaction (id : ℕ)

/-- A transaction's own method leaves the id out. -/
def StoreContext.putSync (ctx : StoreContext) (st : Native) (key value : Slice) (txnId status : Option ℕ)
    (tracker : ℕ) :
    Option PutError × Native :=
  match ctx with
  | .database h => h.putSync st key value txnId status tracker
  | .transaction id =>
    match st.transactions id with
    | none => (some .closed, st)
    | some t =>
      let r := t.putSync st none key value status tracker
      (r.1, st.withTransaction id r.2)

/-- `Store.putSync`, with the number of the call. -/
def Codec.putSync (c : Codec K V) (ctx : StoreContext) (txnId : Option ℕ) (a : Answers) (i : ℕ)
    (s : Scratch) (st : Native) (key : K) (value : V) : Option PutError × Scratch × Native :=
  let v := c.encodeValue s value
  let k := c.encodeKey v.1 key
  match getNapiBufferFromArg k.1 k.2, getNapiBufferFromArg k.1 v.2 with
  | .error e, _ => (some e, k.1, st)
  | _, .error e => (some e, k.1, st)
  | .ok keySlice, .ok valueSlice =>
    let r := ctx.putSync st keySlice valueSlice txnId (a.puts i) (a.trackers i)
    (r.1, k.1, r.2)

/-- A loop of `putSync`, which the first that throws ends. -/
def Codec.putSyncLoop (c : Codec K V) (ctx : StoreContext) (txnId : Option ℕ) (a : Answers) :
    ℕ → Scratch → Native → List (K × V) → Option PutError × Native
  | _, _, st, [] => (none, st)
  | i, s, st, (key, value) :: entries =>
    match c.putSync ctx txnId a i s st key value with
    | (some e, _, st') => (some e, st')
    | (none, s', st') => c.putSyncLoop ctx txnId a (i + 1) s' st' entries

/-- The copies of `putManySync`, key and value. -/
def Codec.parts (c : Codec K V) : Scratch → List (K × V) → List (Slice × Slice)
  | _, [] => []
  | s, (key, value) :: entries =>
    let v := c.encodeValue s value
    let valuePart := copyEncoded v.1 v.2
    let k := c.encodeKey v.1 key
    (copyEncoded k.1 k.2, valuePart) :: c.parts k.1 entries

/-- What the binding has of a buffer without `end`: its length is cut to 32 bits. -/
def bufferData (buffer : Slice) : Slice := buffer.take (buffer.length % 2 ^ 32)

/-- `Store.putManySync`. A transaction of the binding has no `putManySync`. -/
def Codec.putManySync (c : Codec K V) (ctx : StoreContext) (txnId : Option ℕ) (a : Answers) (s : Scratch) (st : Native)
    (entries : List (K × V)) : Option (Option PutError × Native) :=
  if entries.length = 0 then some (none, st)
  else
    let parts := c.parts s entries
    if parts.any fun p => 2 ^ 32 ≤ p.1.length || 2 ^ 32 ≤ p.2.length then some (some .valueOutOfRange, st)
    else
      let keysBuf := LengthPrefixed.encode (parts.map Prod.fst)
      let valuesBuf := LengthPrefixed.encode (parts.map Prod.snd)
      match ctx with
      | .database h => h.putManySync st (bufferData keysBuf) (bufferData valuesBuf) entries.length txnId a
      | .transaction _ => some (some .notAFunction, st)

end PutMany
end RocksdbJs
