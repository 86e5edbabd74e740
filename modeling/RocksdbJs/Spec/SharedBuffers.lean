import RocksdbJs.Spec.LogFormat

/-! The user shared buffers of a column family: `getUserSharedBuffer` and `userSharedBufferFinalize` of
`db_descriptor.cpp` with `releaseUserSharedBuffer` of `db_descriptor.h`. The mutex is held over the whole of the first
and of the last, but not where a finalizer drops its own reference. -/

namespace RocksdbJs

/-- A finalizer that has left `releaseUserSharedBuffer` has yet to drop its reference. Where no
`ArrayBuffer` was created, no finalizer ever runs. -/
inductive FinalizePhase
  | live
  | released
  | leaked
deriving DecidableEq, Repr

structure UserSharedBufferFinalizeData where
  serial : ℕ
  key : Bytes
  sharedData : ℕ
  phase : FinalizePhase
deriving DecidableEq, Repr

structure SharedBuffers where
  userSharedBuffers : Bytes → Option ℕ := fun _ => none
  /-- What each storage was copied from. -/
  storages : List Bytes := []
  finalizeData : List UserSharedBufferFinalizeData := []
  nextSerial : ℕ := 0

inductive SharedAction
  | getUserSharedBuffer (key defaultBuffer : Bytes) (created : Bool)
  | release (serial : ℕ)
  | finish (serial : ℕ)
deriving DecidableEq, Repr

namespace SharedBuffers

/-- The entry of the key, or one made from the default buffer. -/
def entry (s : SharedBuffers) (key defaultBuffer : Bytes) : ℕ × SharedBuffers :=
  match s.userSharedBuffers key with
  | some storage => (storage, s)
  | none =>
    (s.storages.length,
      { s with
        userSharedBuffers := Function.update s.userSharedBuffers key (some s.storages.length)
        storages := s.storages ++ [defaultBuffer] })

/-- The storage of the `ArrayBuffer` that a call gives. -/
def getUserSharedBuffer (s : SharedBuffers) (key defaultBuffer : Bytes) (created : Bool) : Option ℕ × SharedBuffers :=
  let (storage, s') := s.entry key defaultBuffer
  (if created then some storage else none,
    { s' with
      finalizeData := ⟨s.nextSerial, key, storage, if created then .live else .leaked⟩ :: s.finalizeData
      nextSerial := s.nextSerial + 1 })

/-- `use_count` of a storage that is only ever in the map under `key`. -/
def useCount (s : SharedBuffers) (key : Bytes) (storage : ℕ) : ℕ :=
  (if s.userSharedBuffers key = some storage then 1 else 0) +
    (s.finalizeData.filter fun d => d.sharedData = storage).length

def releaseUserSharedBuffer (s : SharedBuffers) (key : Bytes) (sharedData : ℕ) : SharedBuffers :=
  if s.userSharedBuffers key = some sharedData then
    if s.useCount key sharedData ≤ 2 then { s with userSharedBuffers := Function.update s.userSharedBuffers key none }
      else s
  else s

def step (s : SharedBuffers) : SharedAction → Option SharedBuffers
  | .getUserSharedBuffer key defaultBuffer created => some (s.getUserSharedBuffer key defaultBuffer created).2
  | .release serial =>
    (s.finalizeData.find? fun d => d.serial = serial ∧ d.phase = .live).map fun d =>
      { s.releaseUserSharedBuffer d.key d.sharedData with
        finalizeData := s.finalizeData.map fun x => if x.serial = serial then { x with phase := .released } else x }
  | .finish serial =>
    (s.finalizeData.find? fun d => d.serial = serial ∧ d.phase = .released).map fun _ =>
      { s with finalizeData := s.finalizeData.filter fun x => x.serial ≠ serial }

end SharedBuffers

end RocksdbJs
