import RocksdbJs.Spec.LogFile

/-! `writeBatchToFile` of `transaction_log_file_posix.cpp` with its array: the buffers are changed in place, and a
cursor goes over them. A step is one call of `writev`. The file, and so the total, stays below `2 ^ 63`
bytes. -/

namespace RocksdbJs

/-- The buffers as they are now, with what was appended to the file and what was returned. -/
structure BatchWrite where
  iovecs : List Bytes
  pendingIdx : ℕ := 0
  totalWritten : ℕ := 0
  appended : Bytes := []
  returned : Option ℤ := none
deriving DecidableEq, Repr

namespace BatchWrite

/-- The inner loop: whole buffers are passed, and one that was written in part is cut. -/
def advance (iovecs : List Bytes) (pendingIdx remainingBytes : ℕ) : List Bytes × ℕ :=
  if h : 0 < remainingBytes ∧ pendingIdx < iovecs.length then
    let iov := iovecs[pendingIdx]
    if iov.length ≤ remainingBytes then advance iovecs (pendingIdx + 1) (remainingBytes - iov.length)
    else (iovecs.set pendingIdx (iov.drop remainingBytes), pendingIdx)
  else (iovecs, pendingIdx)
termination_by iovecs.length - pendingIdx

/-- What the next `writev` is given. -/
def offered (s : BatchWrite) : Bytes :=
  let toWrite := min (s.iovecs.length - s.pendingIdx) IOV_MAX
  ((s.iovecs.drop s.pendingIdx).take toWrite).flatten

def start (iovecs : List Bytes) : BatchWrite := { iovecs, returned := if iovecs.length = 0 then some 0 else none }

/-- A count is at most what was offered. -/
def step (s : BatchWrite) (result : WritevResult) : Option BatchWrite :=
  if s.returned.isSome then none
  else match result with
    | .eintr => some s
    | .error => some { s with returned := some (-1) }
    | .count written =>
      if s.offered.length < written then none
      else if written = 0 then some { s with returned := some (-1) }
      else
        let r := advance s.iovecs s.pendingIdx written
        let totalWritten := s.totalWritten + written
        some { iovecs := r.1
               pendingIdx := r.2
               totalWritten
               appended := s.appended ++ s.offered.take written
               returned := if r.2 < r.1.length then none else some totalWritten }

end BatchWrite

end RocksdbJs
