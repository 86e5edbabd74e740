import RocksdbJs.Spec.LogFormat

/-! The entry of one path and mode of access in `DBRegistry` (`db_registry.cpp`): `OpenDB` with its wait, and
`PurgeIfUnreferenced` with the close it claims. A step is one section under `databasesMutex`, or
the return of a `finishClose`. -/

namespace RocksdbJs

/-- A `DBDescriptor`; `handles` counts the references of handles and of operations. -/
structure DBDescriptor where
  mode : Bool
  closing : Bool := false
  finished : Bool := false
  handles : ℕ := 1
deriving DecidableEq, Repr

/-- A `DBRegistryEntry` in its map node. A call of `OpenDB` that waits has a reference to it. -/
structure RegistryEntry where
  descriptor : Option ℕ := none
  erased : Bool := false
deriving DecidableEq, Repr

/-- A call of `PurgeIfUnreferenced` that has claimed the close of a descriptor, and whether
`finishClose` has returned. -/
structure RegistryCloser where
  descriptor : ℕ
  finished : Bool := false
deriving DecidableEq, Repr

/-- What an `OpenDB` call brings: its mode, and whether `DBDescriptor::open` and the column family
go well. -/
structure OpenCall where
  mode : Bool := true
  opens : Bool := true
  columnOk : Bool := true
deriving DecidableEq, Repr

structure Registry where
  descriptors : List DBDescriptor := []
  entries : List RegistryEntry := []
  databases : Option ℕ := none
  waiting : List (ℕ × OpenCall) := []
  closers : List RegistryCloser := []

namespace Registry

def descriptorAt (y : Registry) (e : ℕ) : Option ℕ := (y.entries[e]?).bind RegistryEntry.descriptor

def setDescriptor (y : Registry) (e : ℕ) (d : Option ℕ) : Registry :=
  { y with entries := y.entries.modify e fun entry => { entry with descriptor := d } }

/-- `databases.erase`: the node and its reference to the descriptor go. -/
def eraseEntry (y : Registry) (e : ℕ) : Registry :=
  { y with
    entries := y.entries.modify e fun _ => { descriptor := none, erased := true }
    databases := if y.databases = some e then none else y.databases }

def isClosing (y : Registry) (d : ℕ) : Bool := (y.descriptors[d]?).any DBDescriptor.closing

/-- The references to a descriptor: of the map, of handles and operations, and of the calls that close it. -/
def useCount (y : Registry) (d : ℕ) : ℕ :=
  (y.entries.countP fun e => decide (e.descriptor = some d)) + ((y.descriptors[d]?).map DBDescriptor.handles).getD 0 +
    y.closers.countP fun c => decide (c.descriptor = d)

/-- `OpenDB` after its wait. -/
def proceed (y : Registry) (e : ℕ) (c : OpenCall) : Registry :=
  match y.descriptorAt e with
  | some d =>
    if (y.descriptors[d]?).any (fun x => x.mode == c.mode) && c.columnOk then
      { y with descriptors := y.descriptors.modify d fun x => { x with handles := x.handles + 1 } }
    else y
  | none =>
    if c.opens then { y.setDescriptor e (some
      y.descriptors.length) with descriptors := y.descriptors ++ [{ mode := c.mode }] }
    else y.eraseEntry e

/-- The predicate of the wait, and what follows: a closing descriptor is taken out of the entry, and the
call waits. -/
def tryOpen (y : Registry) (e : ℕ) (c : OpenCall) : Registry :=
  match y.descriptorAt e with
  | some d => if y.isClosing d then { y.setDescriptor e none with waiting := y.waiting ++ [(e, c)] } else y.proceed e c
  | none => y.proceed e c

/-- The entry that a call of `OpenDB` finds or makes. -/
def findOrEmplace (y : Registry) : ℕ × Registry :=
  match y.databases with
  | some e => (e, y)
  | none => (y.entries.length, { y with entries := y.entries ++ [{}], databases := some y.entries.length })

def openDB (y : Registry) (c : OpenCall) : Registry := y.findOrEmplace.2.tryOpen y.findOrEmplace.1 c

/-- The first section of `PurgeIfUnreferenced`: `beginClose` claims the close. -/
def purgeIfUnreferenced (y : Registry) : Registry :=
  match y.databases.bind y.descriptorAt with
  | none => y
  | some d =>
    if y.useCount d ≤ 1 ∧ y.isClosing d = false then
      { y with
        descriptors := y.descriptors.modify d fun x => { x with closing := true }
        closers := y.closers ++ [{ descriptor := d }] }
    else y

/-- The second: only an entry without a descriptor, or with the one that was closed, is erased. -/
def purgeErase (y : Registry) (c : RegistryCloser) : Registry :=
  let y := { y with closers := y.closers.erase c }
  match y.databases with
  | none => y
  | some e => if y.descriptorAt e = none ∨ y.descriptorAt e = some c.descriptor then y.eraseEntry e else y

end Registry

/-- `wake` is a wait that ends, for a notification or for no reason. -/
inductive RegistryAction
  | openDB (c : OpenCall)
  | wake (e : ℕ) (c : OpenCall)
  | retain (d : ℕ)
  | release (d : ℕ)
  | purge
  | finishClose (c : RegistryCloser)
  | erase (c : RegistryCloser)
deriving DecidableEq, Repr

namespace Registry

/-- A wait whose entry has been erased reads memory that is gone: no step says what comes of it. -/
def step (y : Registry) : RegistryAction → Option Registry
  | .openDB c => some (y.openDB c)
  | .wake e c =>
    if (e, c) ∈ y.waiting ∧ (y.entries[e]?).any (fun x => !x.erased) then
      some ({ y with waiting := y.waiting.erase (e, c) }.tryOpen e c)
    else none
  | .retain d =>
    if (y.descriptors[d]?).any (fun x => decide (0 < x.handles)) then
      some { y with descriptors := y.descriptors.modify d fun x => { x with handles := x.handles + 1 } }
    else none
  | .release d =>
    if (y.descriptors[d]?).any (fun x => decide (0 < x.handles)) then
      some { y with descriptors := y.descriptors.modify d fun x => { x with handles := x.handles - 1 } }
    else none
  | .purge => some y.purgeIfUnreferenced
  | .finishClose c =>
    if c ∈ y.closers ∧ c.finished = false then
      some { y with
        descriptors := y.descriptors.modify c.descriptor fun x => { x with finished := true }
        closers := { c with finished := true } :: y.closers.erase c }
    else none
  | .erase c => if c ∈ y.closers ∧ c.finished = true then some (y.purgeErase c) else none

/-- The step runs `DBDescriptor::open`. -/
def runsOpen (y : Registry) : RegistryAction → Bool
  | .openDB _ => (y.databases.bind y.descriptorAt).isNone
  | .wake e c => decide ((e, c) ∈ y.waiting) && (y.entries[e]?).any (fun x => !x.erased) && (y.descriptorAt e).isNone
  | _ => false

end Registry

end RocksdbJs
