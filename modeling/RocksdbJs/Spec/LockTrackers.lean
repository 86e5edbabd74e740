import RocksdbJs.Spec.VerificationTable

/-! The trackers of `verification_table.cpp` on the heap: at addresses that are used again, with their
32-bit counters and 14-bit generations. A step is one section under `writerMutex_`, or one load or
one CAS of a slot by a thread that has not taken it. -/

namespace RocksdbJs

section Words

/-- The address is below `2 ^ 48`, so its mask is its remainder. -/
def vtEncodeLock (p gen : ℕ) : ℕ := VT_TAG_BIT + gen % 2 ^ 14 * 2 ^ 48 + p % 2 ^ 48

def vtDecodeLock (v : ℕ) : ℕ := v % 2 ^ 48

def vtGenFromLock (v : ℕ) : ℕ := v / 2 ^ 48 % 2 ^ 14

/-- `fetch_add` and `fetch_sub` of one on a `uint32_t`. -/
def fetchAdd32 (n : ℕ) : ℕ := (n + 1) % 2 ^ 32

def fetchSub32 (n : ℕ) : ℕ := (n + (2 ^ 32 - 1)) % 2 ^ 32

end Words

/-- A `LockTracker` in memory. The serial number is of no field of the source: it tells the tracker
from one at the same address later. -/
structure Tracker where
  refcount : ℕ := 1
  holders : ℕ := 1
  generation : ℕ
  slotIndex : ℕ
  dbPtr : ℕ
  woken : Bool := false
  serial : ℕ
deriving DecidableEq, Repr

/-- A call of `populateVersion` that is about to try its CAS. -/
structure PopulateCall where
  slot : ℕ
  newVersion : ℕ
  expected : ℕ
deriving DecidableEq, Repr

/-- A call of `settleAllSlots`: the word it stores, the slot it is at, and what it has loaded there. -/
structure SettleSweep where
  settledValue : ℕ
  i : ℕ := 0
  v : Option ℕ := none
deriving DecidableEq, Repr

/-- The table and what its callers have in hand: the intents that are still to be released, and the
temporary references. The last three fields count the trackers: how many were made, which of them
were deleted, and which were taken from their slot by `cancelForDB`. -/
structure TrackerTable where
  size : ℕ
  slots : ℕ → ℕ := fun _ => 0
  heap : ℕ → Option Tracker := fun _ => none
  vtGlobalGen : ℕ := 0
  vtGlobalSettleGen : ℕ := 1
  intents : List (ℕ × ℕ) := []
  refs : List ℕ := []
  populates : List PopulateCall := []
  sweeps : List SettleSweep := []
  made : ℕ := 0
  freed : List ℕ := []
  cancelled : List ℕ := []

namespace TrackerTable

def put (y : TrackerTable) (p : ℕ) (t : Tracker) : TrackerTable := { y with heap := Function.update y.heap p (some t) }

def store (y : TrackerTable) (slot v : ℕ) : TrackerTable := { y with slots := Function.update y.slots slot v }

/-- The word that the next settled slot gets. -/
def settledWord (y : TrackerTable) : ℕ := vtEncodeSettled y.vtGlobalSettleGen

def vtNextSettleGen (y : TrackerTable) : TrackerTable :=
  { y with vtGlobalSettleGen := (y.vtGlobalSettleGen + 1) % 2 ^ 64 }

/-- The CAS of a slot from `expected` to a settled word, which is taken whether it lands or not. -/
def casSettled (y : TrackerTable) (slot expected : ℕ) : TrackerTable :=
  (if y.slots slot = expected then y.store slot y.settledWord else y).vtNextSettleGen

/-- `operator new` gives an address where nothing lives. -/
def lockSlotForWrite (y : TrackerTable) (slot dbPtr address : ℕ) : Option TrackerTable :=
  let v := y.slots slot
  if vtIsLock v then
    (y.heap (vtDecodeLock v)).map fun t =>
      { y.put (vtDecodeLock v) { t with holders := fetchAdd32 t.holders, refcount := fetchAdd32 t.refcount } with
        intents := (slot, vtDecodeLock v) :: y.intents }
  else if address < 2 ^ 48 ∧ y.heap address = none then
    let gen := y.vtGlobalGen % 2 ^ 14
    some { (y.put address { generation := gen, slotIndex := slot, dbPtr := dbPtr,
                            serial := y.made }).store slot (vtEncodeLock address gen) with
      vtGlobalGen := (y.vtGlobalGen + 1) % 2 ^ 16
      intents := (slot, address) :: y.intents
      made := y.made + 1 }
  else none

/-- The end of a reference: `delete` with the last. -/
def drop (y : TrackerTable) (p : ℕ) (t : Tracker) : TrackerTable :=
  if t.refcount = 1 then { y with heap := Function.update y.heap p none, freed := t.serial :: y.freed }
  else y.put p { t with refcount := fetchSub32 t.refcount }

/-- The last holder settles the slot, if that still holds the lock. -/
def releaseWriteIntent (y : TrackerTable) (slot p : ℕ) : Option TrackerTable :=
  (y.heap p).map fun t =>
    let y := { y with intents := y.intents.erase (slot, p) }
    if t.holders = 1 then
      let left := { t with holders := fetchSub32 t.holders, woken := true }
      ((y.casSettled slot (vtEncodeLock p t.generation)).put p left).drop p left
    else
      let left := { t with holders := fetchSub32 t.holders }
      (y.put p left).drop p left

def refTrackerIfLocked (y : TrackerTable) (slot : ℕ) : Option TrackerTable :=
  let v := y.slots slot
  if vtIsLock v then
    (y.heap (vtDecodeLock v)).map fun t =>
      { y.put (vtDecodeLock v) { t with refcount := fetchAdd32 t.refcount } with refs := vtDecodeLock v :: y.refs }
  else some y

def unrefTracker (y : TrackerTable) (p : ℕ) : Option TrackerTable :=
  (y.heap p).map fun t => { y with refs := y.refs.erase p }.drop p t

/-- What `cancelForDB` does with one slot. -/
def cancelSlot (dbPtr : ℕ) (y : TrackerTable) (i : ℕ) : Option TrackerTable :=
  let v := y.slots i
  if vtIsLock v then
    (y.heap (vtDecodeLock v)).map fun t =>
      if t.dbPtr = dbPtr then
        { (y.casSettled i (vtEncodeLock (vtDecodeLock v) (vtGenFromLock v))).put (vtDecodeLock
          v) { t with woken := true } with
          cancelled := t.serial :: y.cancelled }
      else y
  else some y

def cancelForDB (y : TrackerTable) (dbPtr : ℕ) : Option TrackerTable := (List.range y.size).foldlM (cancelSlot dbPtr) y

/-- `populateVersion` up to its first CAS. -/
def populateVersion (y : TrackerTable) (slot newVersion : ℕ) : TrackerTable :=
  if vtIsVersion newVersion then { y with populates := ⟨slot, newVersion, y.slots slot⟩ :: y.populates } else y

/-- A turn of its loop. The weak CAS may fail for no reason. -/
def populateTurn (y : TrackerTable) (c : PopulateCall) (spurious : Bool) : TrackerTable :=
  let rest := { y with populates := y.populates.erase c }
  if vtIsLock c.expected || c.expected == c.newVersion then rest
  else if y.slots c.slot = c.expected ∧ spurious = false then rest.store c.slot c.newVersion
  else { y with populates := { c with expected := y.slots c.slot } :: y.populates.erase c }

def populateVersionIfUnchanged (y : TrackerTable) (slot observed newVersion : ℕ) : TrackerTable :=
  if !vtIsVersion newVersion || vtIsLock observed || observed == newVersion then y
  else if y.slots slot = observed then y.store slot newVersion
  else y

/-- `settleAllSlots` up to its loop. -/
def settleAllSlots (y : TrackerTable) : TrackerTable :=
  { y.vtNextSettleGen with sweeps := ⟨y.settledWord, 0, none⟩ :: y.sweeps }

/-- What a sweep that has loaded `v` at its slot does next. -/
def SettleSweep.loaded (c : SettleSweep) (v : ℕ) : SettleSweep :=
  if vtIsLock v then { c with i := c.i + 1, v := none } else { c with v := some v }

/-- The load of the next slot, or the CAS of one. -/
def settleTurn (y : TrackerTable) (c : SettleSweep) : TrackerTable :=
  let rest := { y with sweeps := y.sweeps.erase c }
  if c.i < y.size then
    match c.v with
    | none => { rest with sweeps := SettleSweep.loaded c (y.slots c.i) :: rest.sweeps }
    | some v =>
      if y.slots c.i =
        v then { rest.store c.i c.settledValue with sweeps := { c with i := c.i + 1, v := none } :: rest.sweeps }
      else { rest with sweeps := SettleSweep.loaded c (y.slots c.i) :: rest.sweeps }
  else rest

end TrackerTable

/-- A `lock` comes with the address that a new tracker would get. -/
inductive TrackerAction
  | lock (slot dbPtr address : ℕ)
  | release (slot tracker : ℕ)
  | ref (slot : ℕ)
  | unref (tracker : ℕ)
  | cancel (dbPtr : ℕ)
  | populate (slot newVersion : ℕ)
  | populateTurn (c : PopulateCall) (spurious : Bool)
  | populateIfUnchanged (slot observed newVersion : ℕ)
  | settleAll
  | settleTurn (c : SettleSweep)
deriving DecidableEq, Repr

namespace TrackerTable

/-- An intent is released, and a reference is given back, once. -/
def step (y : TrackerTable) : TrackerAction → Option TrackerTable
  | .lock slot dbPtr address => if slot < y.size then y.lockSlotForWrite slot dbPtr address else none
  | .release slot p => if (slot, p) ∈ y.intents then y.releaseWriteIntent slot p else none
  | .ref slot => if slot < y.size then y.refTrackerIfLocked slot else none
  | .unref p => if p ∈ y.refs then y.unrefTracker p else none
  | .cancel dbPtr => y.cancelForDB dbPtr
  | .populate slot newVersion => if slot < y.size then some (y.populateVersion slot newVersion) else none
  | .populateTurn c spurious => if c ∈ y.populates then some (y.populateTurn c spurious) else none
  | .populateIfUnchanged slot observed newVersion =>
    if slot < y.size then some (y.populateVersionIfUnchanged slot observed newVersion) else none
  | .settleAll => some y.settleAllSlots
  | .settleTurn c => if c ∈ y.sweeps then some (y.settleTurn c) else none

end TrackerTable

end RocksdbJs
