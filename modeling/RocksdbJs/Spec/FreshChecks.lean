import RocksdbJs.Spec.LockTrackers

/-! The answers that are given from a slot alone to a number that JavaScript passes as `expectedVersion`:
`Database::VerifyVersion`, and the fast paths of `Database::GetSync` and `Transaction::GetSync`. A number is its
64 bits. -/

namespace RocksdbJs

/-- Bits 63 and 62 are set. -/
def vtIsSettled (v : ℕ) : Bool := decide (VT_TAG_BIT + VT_SETTLED_BIT ≤ v)

/-- A call that may answer `FRESH`. -/
inductive FreshCheck
  | verifyVersion
  | databaseGetSync (wantsPopulate : Bool)
  | transactionGetSync (wantsPopulate : Bool)

namespace TrackerTable

/-- Without a table the slot is a null pointer. -/
def verifyVersion (y : TrackerTable) (slot : Option ℕ) (expectedVersion : ℕ) : Bool :=
  match slot with
  | none => false
  | some slot => if expectedVersion == 0 || vtIsLock expectedVersion then false else y.slots slot == expectedVersion

/-- `Database::VerifyVersion`. -/
def callVerifyVersion (y : TrackerTable) (slot : Option ℕ) (version : ℕ) : Bool :=
  match parseExpectedVersion version with
  | none => false
  | some version => y.verifyVersion slot version

/-- The fast path of both `GetSync`. -/
def fastPath (y : TrackerTable) (slot : Option ℕ) (expectedVersion : ℕ) (wantsPopulate : Bool) : Bool :=
  let hasExpectedVersion := parseExpectedVersion expectedVersion
  let vtSlot := if hasExpectedVersion.isSome || wantsPopulate then slot else none
  let vtObserved := vtSlot.elim 0 y.slots
  vtSlot.isSome && hasExpectedVersion == some vtObserved

def databaseGetSync (y : TrackerTable) (slot : Option ℕ) (expectedVersion : ℕ) (wantsPopulate : Bool) : Bool :=
  y.fastPath slot expectedVersion wantsPopulate

def transactionGetSync (y : TrackerTable) (slot : Option ℕ) (expectedVersion : ℕ) (wantsPopulate : Bool) : Bool :=
  y.fastPath slot expectedVersion wantsPopulate

def answersFresh (y : TrackerTable) (slot : Option ℕ) (version : ℕ) : FreshCheck → Bool
  | .verifyVersion => y.callVerifyVersion slot version
  | .databaseGetSync wantsPopulate => y.databaseGetSync slot version wantsPopulate
  | .transactionGetSync wantsPopulate => y.transactionGetSync slot version wantsPopulate

end TrackerTable

end RocksdbJs
