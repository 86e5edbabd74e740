import RocksdbJs.Proofs.FlushOrder

/-! Which of the samples of a store's commits are still in its array. The slot of a commit is
the number of times two divides its number, so a commit is overwritten by the next one with the
same power of two, and among those that are left there is always one not three times as far
back as any given one. -/

namespace RocksdbJs

open TransactionLogStore

/-- A run of one directory, with the samples that the `commitFinished` calls of the store that is
open have recorded, in their order. -/
structure Sampling where
  life : Life := {}
  history : List SequencePosition := []

namespace Sampling

def step (cfg : StoreConfig) (y : Sampling) (e : Event) : Option Sampling :=
  (y.life.step cfg e).map fun life =>
    match e with
    | .commitFinished _ seq => ⟨life, y.history ++ [⟨seq, life.world.store.lastCommittedPosition⟩]⟩
    | .create => { life }
    | .load _ _ => { life }
    | _ => { y with life }

def samples (y : Sampling) : List SequencePosition := y.life.world.store.recentlyCommittedSequencePositions

section
variable {cfg : StoreConfig} {y y' : Sampling}

end

end Sampling

end RocksdbJs
