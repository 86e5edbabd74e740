import RocksdbJs.Spec.LogFormat

/-! The verification table of `verification_table.cpp`: words and slots, write intents and their
trackers, and the one CAS by which a read publishes the version it has read. A word is below
`2 ^ 64`; its bits 63 and 62 are told by its size. -/

namespace RocksdbJs

/-- What `slotFor` hashes: the database (the address of its descriptor), the column family and the key. -/
structure Location where
  db : ℕ
  cf : ℕ
  key : Bytes
deriving DecidableEq, Repr

section Words

def VT_TAG_BIT : ℕ := 2 ^ 63

def VT_SETTLED_BIT : ℕ := 2 ^ 62

/-- Bit 63 is clear and the word is not zero. -/
def vtIsVersion (v : ℕ) : Bool := v != 0 && decide (v < VT_TAG_BIT)

/-- Bit 63 is set and bit 62 is clear. -/
def vtIsLock (v : ℕ) : Bool := decide (VT_TAG_BIT ≤ v) && decide (v < VT_TAG_BIT + VT_SETTLED_BIT)

/-- The mask of the generation is its remainder modulo `2 ^ 62`. -/
def vtEncodeSettled (gen : ℕ) : ℕ := VT_TAG_BIT + VT_SETTLED_BIT + gen % VT_SETTLED_BIT

/-- The first 8 bytes of a value. -/
def extractVersionFromValue (value : Bytes) : ℕ := if value.length < 8 then 0 else BigEndian.read 8 value 0

/-- The word of the number a caller passes as `expectedVersion`. -/
def parseExpectedVersion (v : ℕ) : Option ℕ := if vtIsLock v || v == 0 then none else some v

end Words

/-- What a slot holds. A lock word is the address of its tracker: a tracker lives as long as its
lock, so the word tells it from every other. -/
inductive SlotValue
  | word (v : ℕ)
  | lock (tracker : ℕ)
deriving DecidableEq, Repr

def SlotValue.isLock : SlotValue → Bool
  | .word _ => false
  | .lock _ => true

/-- A tracker whose `refcount` has come down to zero is deleted. -/
structure LockTracker where
  refcount : ℕ := 0
  holders : ℕ := 0
  slotIndex : ℕ := 0
  dbPtr : ℕ := 0
deriving DecidableEq, Repr

def LockTracker.join (t : LockTracker) : LockTracker := { t with holders := t.holders + 1, refcount := t.refcount + 1 }

def LockTracker.leave (t : LockTracker) : LockTracker := { t with holders := t.holders - 1, refcount := t.refcount - 1 }

/-- Two fields say what no field of the source does: how often a slot was locked or settled, and
the key that the read was of which published the version in it. -/
structure VerificationTable where
  slots : ℕ → SlotValue := fun _ => .word 0
  trackers : ℕ → LockTracker := fun _ => {}
  nextTracker : ℕ := 0
  turns : ℕ → ℕ := fun _ => 0
  publisher : ℕ → Option Location := fun _ => none

namespace VerificationTable

def verifyVersion (vt : VerificationTable) (slot expectedVersion : ℕ) : Bool :=
  if expectedVersion == 0 || vtIsLock expectedVersion then false else decide (vt.slots slot = .word expectedVersion)

/-- The CAS of `populateVersionIfUnchanged`, for a read of `loc`. -/
def populateVersionIfUnchanged (vt : VerificationTable) (loc : Location) (slot : ℕ) (observed : SlotValue)
    (newVersion : ℕ) :
    Bool × VerificationTable :=
  if !vtIsVersion newVersion then (false, vt)
  else match observed with
    | .lock _ => (false, vt)
    | .word o =>
      if o = newVersion then (true, vt)
      else if vt.slots slot = .word o then
        (true, { vt with slots := Function.update vt.slots slot (.word newVersion)
                         publisher := Function.update vt.publisher slot (some loc) })
      else (false, vt)

/-- Joins the tracker of a locked slot, and locks another slot with a new one. -/
def lockSlotForWrite (vt : VerificationTable) (slot dbPtr : ℕ) : ℕ × VerificationTable :=
  match vt.slots slot with
  | .lock t => (t, { vt with trackers := Function.update vt.trackers t (vt.trackers t).join })
  | .word _ =>
    (vt.nextTracker,
      { vt with slots := Function.update vt.slots slot (.lock vt.nextTracker)
                trackers := Function.update vt.trackers vt.nextTracker ⟨1, 1, slot, dbPtr⟩
                nextTracker := vt.nextTracker + 1
                turns := Function.update vt.turns slot (vt.turns slot + 1) })

/-- The store of a settled-empty marker with the generation `gen`. -/
def settle (vt : VerificationTable) (slot gen : ℕ) : VerificationTable :=
  { vt with slots := Function.update vt.slots slot (.word (vtEncodeSettled gen))
            turns := Function.update vt.turns slot (vt.turns slot + 1) }

def lastHolder (vt : VerificationTable) (t : ℕ) : Bool := decide ((vt.trackers t).holders = 1)

/-- The last holder takes `gen` and settles the slot, if that still holds its lock. -/
def releaseWriteIntent (vt : VerificationTable) (slot t gen : ℕ) : VerificationTable :=
  let released := { vt with trackers := Function.update vt.trackers t (vt.trackers t).leave }
  if vt.lastHolder t ∧ vt.slots slot = .lock t then released.settle slot gen else released

/-- What `settleAllSlots` does with one slot: its CAS repeats until it lands or the slot is a lock. -/
def settleSlot (vt : VerificationTable) (slot gen : ℕ) : VerificationTable :=
  if (vt.slots slot).isLock then vt else vt.settle slot gen

/-- The tracker of the slot, if `cancelForDB` settles it: one installed by the database. -/
def cancels (vt : VerificationTable) (dbPtr slot : ℕ) : Option ℕ :=
  match vt.slots slot with
  | .word _ => none
  | .lock t => if (vt.trackers t).dbPtr = dbPtr then some t else none

end VerificationTable

end RocksdbJs
