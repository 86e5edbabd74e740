import RocksdbJs.Sanity.EntryBuffers

/-! `putManySync` beside a loop of `putSync`. On a database the two leave the same, as long as each of the two
buffers is shorter than `2 ^ 32` bytes, which is what the binding reads of them. A transaction has
no such method in the binding, so there the call throws. -/

namespace RocksdbJs
namespace PutMany

open Reads LengthPrefixed

variable {K V : Type}

section
variable (c : Codec K V)

/-- The encoded entry. -/
def Codec.encoded (e : K × V) : Slice × Slice := (c.writeKey e.1, c.encode e.2)

@[simp] theorem encoded_fst (e : K × V) : (c.encoded e).1 = c.writeKey e.1 := rfl

@[simp] theorem encoded_snd (e : K × V) : (c.encoded e).2 = c.encode e.2 := rfl

theorem window_middle (before x after : Slice) :
    ((before ++ x ++ after).take (before.length + x.length)).drop before.length = x := by
  rw [← List.length_append, List.take_left, List.drop_left]

/-- Offsets of 32 bits are read as they are. -/
theorem getNapiBufferFromArg_eq (s : Scratch) {b : EncodedView} (hle : b.start ≤ b.stop) (hlt : b.stop < 2 ^ 32) :
    getNapiBufferFromArg s b = .ok (copyEncoded s b) := by
  rw [getNapiBufferFromArg, Nat.mod_eq_of_lt hlt, Nat.mod_eq_of_lt (by omega), if_neg (by omega), copyEncoded]

theorem getNapiBufferFromArg_error {s : Scratch} {b : EncodedView} {e : PutError}
    (h : getNapiBufferFromArg s b = .error e) :
    e = .startAfterEnd := by
  simp only [getNapiBufferFromArg] at h
  split at h
  · exact (Except.error.inj h).symm
  · cases h

theorem encodeValue_copy (s : Scratch) (v : V) :
    copyEncoded (c.encodeValue s v).1 (c.encodeValue s v).2 = c.encode v := by
  unfold Codec.encodeValue copyEncoded
  cases c.reused v with
  | none => simp [Scratch.contents]
  | some p => exact window_middle p.1 (c.encode v) p.2

theorem encodeKey_copy (s : Scratch) (k : K) : copyEncoded (c.encodeKey s k).1 (c.encodeKey s k).2 = c.writeKey k := by
  simp [Codec.encodeKey, copyEncoded, Scratch.contents]

/-- A copy is taken before the next call of an encoder. -/
theorem parts_eq (s : Scratch) (entries : List (K × V)) : c.parts s entries = entries.map c.encoded := by
  induction entries generalizing s with
  | nil => rfl
  | cons e entries ih =>
    obtain ⟨k, v⟩ := e
    simp only [Codec.parts, encodeKey_copy, encodeValue_copy, ih]
    rfl

theorem key_native {k : K} (h : (c.writeKey k).length < 2 ^ 32) (s : Scratch) :
    getNapiBufferFromArg (c.encodeKey s k).1 (c.encodeKey s k).2 = .ok (c.writeKey k) := by
  rw [getNapiBufferFromArg_eq _ (Nat.zero_le _) h, encodeKey_copy]

/-- The key's encoding leaves the value's bytes where they are. -/
theorem value_native {v : V} (h : (c.encode v).length < 2 ^ 32) (s : Scratch) (k : K) :
    getNapiBufferFromArg (c.encodeKey (c.encodeValue s v).1 k).1 (c.encodeValue s v).2 = .ok (c.encode v) := by
  have hcopy := encodeValue_copy c s v
  unfold Codec.encodeValue at hcopy ⊢
  cases hr : c.reused v with
  | none =>
    simp only [hr] at hcopy ⊢
    rw [getNapiBufferFromArg_eq _ (Nat.zero_le _) h]
    exact congrArg _ hcopy
  | some p =>
    simp only [hr] at hcopy ⊢
    rw [getNapiBufferFromArg_eq _ (Nat.le_add_right _ _) (c.bounded v p.1 p.2 hr)]
    exact congrArg _ hcopy

end

/-- The loop of `putSync`, on encoded entries. -/
def StoreContext.putLoop (ctx : StoreContext) (txnId : Option ℕ) (a : Answers) :
    ℕ → Native → List (Slice × Slice) → Option PutError × Native
  | _, st, [] => (none, st)
  | i, st, (key, value) :: es =>
    match ctx.putSync st key value txnId (a.puts i) (a.trackers i) with
    | (some e, st') => (some e, st')
    | (none, st') => ctx.putLoop txnId a (i + 1) st' es

theorem putSyncLoop_eq (c : Codec K V) (ctx : StoreContext) (txnId : Option ℕ) (a : Answers) (i : ℕ)
    (s : Scratch) (st : Native) {entries : List (K × V)}
    (h : ∀ e ∈ entries, (c.writeKey e.1).length < 2 ^ 32 ∧ (c.encode e.2).length < 2 ^ 32) :
    c.putSyncLoop ctx txnId a i s st entries = ctx.putLoop txnId a i st (entries.map c.encoded) := by
  induction entries generalizing i s st with
  | nil => rfl
  | cons e entries ih =>
    obtain ⟨k, v⟩ := e
    obtain ⟨⟨hk, hv⟩, hrest⟩ := List.forall_mem_cons.mp h
    simp only [Codec.putSyncLoop, Codec.putSync, key_native c hk, value_native c hv, List.map_cons, Codec.encoded,
      StoreContext.putLoop]
    cases hp : ctx.putSync st (c.writeKey k) (c.encode v) txnId (a.puts i) (a.trackers i) with
    | mk r st' =>
      cases r with
      | some e => rfl
      | none => exact ih _ _ _ hrest

section
variable {t : TransactionHandle} {st : Native} {id : ℕ}

/-- A transaction that takes a put as it is. -/
structure TransactionHandle.Ready (t : TransactionHandle) (st : Native) : Prop where
  isOpen : t.closed = false
  pending : t.state = .pending
  pinned : ¬ (t.disableSnapshot = false ∧ t.snapshotSet = false ∧ st.pessimistic = true)

theorem ready_pin (hopen : t.closed = false) (hpending : t.state = .pending) : (t.pin st).Ready st := by
  unfold TransactionHandle.pin
  split_ifs with hp
  · exact ⟨hopen, hpending, by simp⟩
  · exact ⟨hopen, hpending, hp⟩

theorem ready_put (h : t.Ready st) (d : DBHandle) (key value : Slice) (status : Option ℕ) (tracker : ℕ) :
    (t.put st d key value status tracker).2.Ready st := by
  unfold TransactionHandle.put TransactionHandle.lockVTSlot
  cases status with
  | some code => exact h
  | none =>
    cases st.slotFor with
    | none => split_ifs <;> exact ⟨h.isOpen, h.pending, h.pinned⟩
    | some slotFor =>
      simp only
      split_ifs <;> exact ⟨h.isOpen, h.pending, h.pinned⟩

theorem putSync_of_ready (h : t.Ready st) (o : Option DBHandle) (key value : Slice) (status : Option ℕ) (tracker : ℕ) :
    t.putSync st o key value status tracker = t.put st (o.getD t.ownHandle) key value status tracker := by
  have hpin : t.pin st = t := if_neg h.pinned
  rw [TransactionHandle.putSync, if_neg (by simp [h.isOpen]), if_neg (by simp [h.pending]), hpin]

theorem withTransaction_self (h : st.transactions id = some t) : st.withTransaction id t = st := by
  rw [Native.withTransaction, ← h, Function.update_eq_self]

theorem withTransaction_twice (st : Native) (id : ℕ) (t t' : TransactionHandle) :
    (st.withTransaction id t).withTransaction id t' = st.withTransaction id t' := by
  simp only [Native.withTransaction, Function.update_idem]

/-- The loop of `putSync` in a transaction does what the decoder's loop does with it. -/
theorem putLoop_ready (d : DBHandle) (a : Answers) {es : List (Slice × Slice)} {i : ℕ} (h : t.Ready st)
    (hid : st.transactions id = some t) :
    (StoreContext.database d).putLoop (some id) a i st es =
      ((runEntries (fun i key value t => t.put st d key value (a.puts i) (a.trackers i)) i es t).1,
        st.withTransaction id (runEntries (fun i key value t => t.put st d key value (a.puts i) (a.trackers i)) i es
          t).2) := by
  induction es generalizing i t st with
  | nil => rw [StoreContext.putLoop, runEntries, withTransaction_self hid]
  | cons e es ih =>
    obtain ⟨key, value⟩ := e
    have hput : (StoreContext.database d).putSync st key value (some id) (a.puts i) (a.trackers i) =
        ((t.put st d key value (a.puts i) (a.trackers i)).1,
          st.withTransaction id (t.put st d key value (a.puts i) (a.trackers i)).2) := by
      simp only [StoreContext.putSync, DBHandle.putSync, hid, putSync_of_ready h, Option.getD_some]
    have hready := ready_put h d key value (a.puts i) (a.trackers i)
    simp only [StoreContext.putLoop, hput, runEntries]
    cases hp : t.put st d key value (a.puts i) (a.trackers i) with
    | mk r t' =>
      rw [hp] at hready
      cases r with
      | some e => rfl
      | none =>
        simp only
        have hnext : t'.Ready (st.withTransaction id t') := ⟨hready.isOpen, hready.pending, hready.pinned⟩
        rw [ih hnext (Function.update_self ..), withTransaction_twice]
        rfl

/-- In a transaction the decoder leaves what the loop leaves, the error of a failing put included. -/
theorem putManySync_transaction (d : DBHandle) (a : Answers) {keys values : Slice}
    {es : List (Slice × Slice)} (hne : es ≠ []) (hk : StandAt keys 0 (es.map Prod.fst))
    (hv : StandAt values 0 (es.map Prod.snd)) (st : Native) (id : ℕ) :
    d.putManySync st keys values es.length (some id) a =
      some ((StoreContext.database d).putLoop (some id) a 0 st es) := by
  obtain ⟨⟨key, value⟩, rest, rfl⟩ := List.exists_cons_of_ne_nil hne
  cases hid : st.transactions id with
  | none => simp [DBHandle.putManySync, StoreContext.putLoop, StoreContext.putSync, DBHandle.putSync, hid]
  | some t =>
    simp only [DBHandle.putManySync, hid, TransactionHandle.putManySync]
    by_cases hclosed : t.closed = true
    · simp [hclosed, StoreContext.putLoop, StoreContext.putSync, DBHandle.putSync, hid, TransactionHandle.putSync]
    by_cases hpending : t.state = .pending
    swap
    · simp [hclosed, hpending, StoreContext.putLoop, StoreContext.putSync, DBHandle.putSync, hid,
        TransactionHandle.putSync]
    have hready : (t.pin st).Ready st := ready_pin (by simpa using hclosed) hpending
    -- the first put of the loop pins the transaction, so it can be pinned before
    have hfirst : (StoreContext.database d).putLoop (some id) a 0 st ((key, value) :: rest) =
        (StoreContext.database d).putLoop (some id) a 0 (st.withTransaction id (t.pin st)) ((key, value) :: rest) := by
      have hst : (StoreContext.database d).putSync st key value (some id) (a.puts 0) (a.trackers 0) =
          (StoreContext.database d).putSync (st.withTransaction id (t.pin st)) key value (some id)
            (a.puts 0) (a.trackers 0) := by
        have hself : (st.withTransaction id (t.pin st)).transactions id = some (t.pin st) := Function.update_self ..
        have hpinned : (t.pin st).Ready (st.withTransaction id (t.pin st)) :=
          ⟨hready.isOpen, hready.pending, hready.pinned⟩
        simp only [StoreContext.putSync, DBHandle.putSync, hid, hself, putSync_of_ready hpinned, withTransaction_twice]
        rw [TransactionHandle.putSync, if_neg hclosed, if_neg (not_not.mpr hpending)]
        rfl
      rw [StoreContext.putLoop, StoreContext.putLoop, hst]
    rw [if_neg hclosed, if_neg (not_not.mpr hpending), Option.getD_some, forEntries_eq_runEntries hk hv, hfirst,
      @putLoop_ready (t.pin st) (st.withTransaction id (t.pin st)) id d a _ _ ⟨hready.isOpen,
        hready.pending, hready.pinned⟩
        (Function.update_self ..), withTransaction_twice]
    rfl

end

section
variable (d : DBHandle) (st : Native) (a : Answers)

/-- Where no put fails, the batch's loop collects its entries. -/
theorem runEntries_build (hok : ∀ i, a.puts i = none) (es : List (Slice × Slice)) (i : ℕ) (b : Building) :
    (runEntries (d.build st a) i es b).1 = none ∧
      (runEntries (d.build st a) i es b).2.batch = b.batch ++ es.map fun e => (d.column, e.1, some e.2) := by
  induction es generalizing i b with
  | nil => exact ⟨rfl, (List.append_nil _).symm⟩
  | cons e es ih =>
    obtain ⟨key, value⟩ := e
    simp only [runEntries, DBHandle.build, hok i]
    have hrest := ih (i + 1) ⟨b.batch ++ [(d.column, key, some value)],
      (d.table st).elim b.vtLocks fun slotFor => b.vtLocks ++ [(slotFor d.column key, a.trackers i)]⟩
    refine ⟨hrest.1, hrest.2.trans ?_⟩
    rw [List.append_assoc]
    rfl

/-- A loop of puts without a transaction writes its entries one after another. -/
theorem putLoop_direct (hok : ∀ i, a.puts i = none) (es : List (Slice × Slice)) (i : ℕ) :
    ((StoreContext.database d).putLoop none a i st es).1 = none ∧
      ((StoreContext.database d).putLoop none a i st es).2.committed =
        applyBatch st.committed (es.map fun e => (d.column, e.1, some e.2)) := by
  induction es generalizing i st with
  | nil => exact ⟨rfl, rfl⟩
  | cons e es ih =>
    obtain ⟨key, value⟩ := e
    have hstep : ((StoreContext.database d).putSync st key value none none (a.trackers i)).1 = none ∧
        ((StoreContext.database d).putSync st key value none none (a.trackers i)).2.committed =
          applyWrite st.committed (d.column, key, some value) := by
      simp only [StoreContext.putSync, DBHandle.putSync]
      cases d.table st <;> exact ⟨rfl, rfl⟩
    simp only [StoreContext.putLoop, hok i]
    cases hp : (StoreContext.database d).putSync st key value none none (a.trackers i) with
    | mk r st' =>
      rw [hp] at hstep
      obtain ⟨rfl, hcommitted⟩ := hstep
      have hrest := ih st' (i + 1)
      refine ⟨hrest.1, hrest.2.trans ?_⟩
      rw [hcommitted]
      rfl

/-- Without a transaction: the batch is written whole or not at all. -/
theorem putManySync_direct (hok : ∀ i, a.puts i = none) {keys values : Slice} {es : List (Slice × Slice)}
    (hk : StandAt keys 0 (es.map Prod.fst)) (hv : StandAt values 0 (es.map Prod.snd)) :
    ∃ r, d.putManySync st keys values es.length none a = some r ∧
      (a.write = none → r.1 = none ∧ r.2.committed = ((StoreContext.database d).putLoop none a 0 st es).2.committed) ∧
      (a.write ≠ none → r.1 ≠ none ∧ r.2.committed = st.committed) := by
  obtain ⟨hnone, hbatch⟩ := runEntries_build d st a hok es 0 {}
  rw [DBHandle.putManySync, forEntries_eq_runEntries hk hv]
  refine ⟨_, rfl, fun hw => ⟨?_, ?_⟩, fun hw => ⟨?_, ?_⟩⟩
  · simp [hnone, hw]
  · rw [(putLoop_direct d st a hok es 0).2]
    simp [hnone, hw, hbatch]
  · simp [hnone, hw]
  · obtain ⟨code, hcode⟩ := Option.ne_none_iff_exists'.mp hw
    simp [hnone, hcode]

end

/-- Of every pair of buffers, whatever is in them: the decoders read nothing outside them, and fail, when
RocksDB does not, exactly if an entry does not fit. Without a transaction a failure leaves the database
as it was, and every intent that was taken is released once. -/
def DecodersSafe : Prop :=
  ∀ (keys values : Slice) (count : ℕ) (st : Native) (a : Answers),
    (∀ (t : TransactionHandle) (o : Option DBHandle), ∃ r, t.putManySync st keys values count o a = some r ∧
      (t.closed = false → t.state = .pending → (∀ i, a.puts i = none) →
        (r.1 ≠ none ↔ ¬ EntriesFit keys values 0 0 count))) ∧
    ∀ d : DBHandle, ∃ r, d.putManySync st keys values count none a = some r ∧
      ((∀ i, a.puts i = none) → a.write = none → (r.1 ≠ none ↔ ¬ EntriesFit keys values 0 0 count)) ∧
      (r.1 ≠ none → r.2.committed = st.committed) ∧
      ∃ locks : List (ℕ × ℕ), r.2.vtCalls = st.vtCalls ++ locks.map (fun l => VTCall.lockSlotForWrite l.1 l.2) ++
        locks.map (fun l => VTCall.releaseWriteIntent l.1 l.2)

theorem decoders_safe : DecodersSafe := by
  intro keys values count st a
  refine ⟨fun t o => ?_, fun d => ?_⟩
  · unfold TransactionHandle.putManySync
    by_cases hclosed : t.closed = true
    · exact ⟨_, if_pos hclosed, by simp [hclosed]⟩
    rw [if_neg hclosed]
    by_cases hpending : t.state = .pending
    swap
    · exact ⟨_, if_pos hpending, fun _ h => absurd h hpending⟩
    rw [if_neg (not_not.mpr hpending)]
    obtain ⟨r, hr, hspec⟩ := forEntries_ends keys values
      (fun i key value x => TransactionHandle.put x st (o.getD (t.pin st).ownHandle) key value (a.puts i)
        (a.trackers i)) count 0 0 0 (t.pin st)
    refine ⟨r, hr, fun _ _ hok => not_congr (hspec fun i key value x => ?_).1⟩
    rw [hok i]
    rfl
  · obtain ⟨r, hr, hspec⟩ := forEntries_ends keys values (d.build st a) count 0 0 0 {}
    rw [DBHandle.putManySync, hr]
    refine ⟨_, rfl, fun hok hw => ?_, fun hne => ?_, r.2.vtLocks, ?_⟩
    · have hbody : ∀ i key value b, (d.build st a i key value b).1 = none := fun i key value b => by
        simp [DBHandle.build, hok i]
      rw [hw, ← (hspec hbody).1]
      simp
    · cases hs : r.1.or (a.write.map PutError.rocksdb) with
      | none => simp [hs] at hne
      | some e => simp [hs]
    · simp only
      split_ifs <;> rfl

/-- What only `putManySync` throws. -/
def PutError.ofPutMany : PutError → Bool
  | .valueOutOfRange | .notAFunction | .decode _ => true
  | _ => false

theorem putSync_error (ctx : StoreContext) (st : Native) (key value : Slice) (txnId status : Option ℕ) (tracker : ℕ) :
    ∀ e, (ctx.putSync st key value txnId status tracker).1 = some e → e.ofPutMany = false := by
  have hput : ∀ (t : TransactionHandle) (o : Option DBHandle) (e : PutError),
      (t.putSync st o key value status tracker).1 = some e → e.ofPutMany = false := by
    intro t o e he
    unfold TransactionHandle.putSync TransactionHandle.put at he
    cases status with
    | none =>
      simp only at he
      split_ifs at he <;> obtain rfl := Option.some.inj he <;> rfl
    | some code =>
      simp only at he
      split_ifs at he <;> obtain rfl := Option.some.inj he <;> rfl
  intro e he
  cases ctx with
  | database d =>
    cases txnId with
    | none =>
      simp only [StoreContext.putSync, DBHandle.putSync] at he
      obtain ⟨code, -, rfl⟩ := Option.map_eq_some_iff.mp he
      rfl
    | some id =>
      simp only [StoreContext.putSync, DBHandle.putSync] at he
      split at he
      · obtain rfl := Option.some.inj he
        rfl
      · exact hput _ _ e he
  | transaction id =>
    simp only [StoreContext.putSync] at he
    split at he
    · obtain rfl := Option.some.inj he
      rfl
    · exact hput _ _ e he

theorem putSyncLoop_error (c : Codec K V) (ctx : StoreContext) (txnId : Option ℕ) (a : Answers) {i : ℕ}
    {s : Scratch} {st : Native} {entries : List (K × V)} {e : PutError}
    (h : (c.putSyncLoop ctx txnId a i s st entries).1 = some e) : e.ofPutMany = false := by
  induction entries generalizing i s st with
  | nil => simp [Codec.putSyncLoop] at h
  | cons x entries ih =>
    obtain ⟨k, v⟩ := x
    have hone : ∀ e, (c.putSync ctx txnId a i s st k v).1 = some e → e.ofPutMany = false := by
      intro e he
      simp only [Codec.putSync] at he
      split at he
      · rename_i e' herr
        obtain rfl := Option.some.inj he
        rw [getNapiBufferFromArg_error herr]
        rfl
      · rename_i e' herr _
        obtain rfl := Option.some.inj he
        rw [getNapiBufferFromArg_error herr]
        rfl
      · exact putSync_error _ _ _ _ _ _ _ e he
    simp only [Codec.putSyncLoop] at h
    cases hp : c.putSync ctx txnId a i s st k v with
    | mk r rest =>
      rw [hp] at h hone
      cases r with
      | some e' =>
        obtain rfl := Option.some.inj h
        exact hone _ rfl
      | none => exact ih h

section
variable (c : Codec K V) (ctx : StoreContext) (txnId : Option ℕ) (entries : List (K × V))

/-- The transaction that a call is about. -/
def StoreContext.target : Option ℕ :=
  match ctx with
  | .database _ => txnId
  | .transaction id => some id

/-- The call decodes what was encoded, does in a transaction what the loop does, and without one
does all of it or nothing. -/
def PutsAsLoop : Prop :=
  (∀ s, forEntries (bufferData (encode ((c.parts s entries).map Prod.fst)))
    (bufferData (encode ((c.parts s entries).map Prod.snd)))
      (fun _ key value es => (none, es ++ [(key, value)])) entries.length 0 0 0 [] =
        some (none, entries.map c.encoded)) ∧
  ∀ a s st, ∃ r, c.putManySync ctx txnId a s st entries = some r ∧
    ((ctx.target txnId).isSome → r = c.putSyncLoop ctx txnId a 0 s st entries) ∧
    (ctx.target txnId = none → (∀ i, a.puts i = none) →
      (a.write = none → r.1 = none) ∧
      (r.1 = none → r.2.committed = (c.putSyncLoop ctx txnId a 0 s st entries).2.committed) ∧
      (r.1 ≠ none → r.2.committed = st.committed))

/-- The binding reads the whole of both buffers, and its object has the method. -/
def WithinLimits : Prop :=
  entries = [] ∨ (∃ d, ctx = .database d) ∧ (encode (entries.map fun e => c.writeKey e.1)).length < 2 ^ 32 ∧
    (encode (entries.map fun e => c.encode e.2)).length < 2 ^ 32

variable {c ctx txnId entries}

theorem map_parts (s : Scratch) : (c.parts s entries).map Prod.fst = entries.map (fun e => c.writeKey e.1) ∧
    (c.parts s entries).map Prod.snd = entries.map fun e => c.encode e.2 := by
  rw [parts_eq, List.map_map, List.map_map]
  exact ⟨rfl, rfl⟩

/-- Both lengths of every entry are below those of the buffers. -/
theorem lengths_lt (hk : (encode (entries.map fun e => c.writeKey e.1)).length < 2 ^ 32)
    (hv : (encode (entries.map fun e => c.encode e.2)).length < 2 ^ 32) :
    ∀ e ∈ entries, (c.writeKey e.1).length < 2 ^ 32 ∧ (c.encode e.2).length < 2 ^ 32 := by
  intro e he
  have h1 := length_le_encode (List.mem_map_of_mem (f := fun e : K × V => c.writeKey e.1) he)
  have h2 := length_le_encode (List.mem_map_of_mem (f := fun e : K × V => c.encode e.2) he)
  exact ⟨by omega, by omega⟩

theorem any_long_iff : ((entries.map c.encoded).any fun p => 2 ^ 32 ≤ p.1.length || 2 ^ 32 ≤ p.2.length) = false ↔
    ∀ e ∈ entries, (c.writeKey e.1).length < 2 ^ 32 ∧ (c.encode e.2).length < 2 ^ 32 := by
  simp only [List.any_map, List.any_eq_false, Function.comp_apply, encoded_fst, encoded_snd, Bool.or_eq_true, not_or]
  exact forall₂_congr fun e _ => and_congr (decide_eq_true_iff.not.trans not_le) (decide_eq_true_iff.not.trans not_le)

/-- The binding has only a part of a long buffer, which not all entries fit in. -/
theorem not_standAt_bufferData {xs ys : List Slice} (h : ∀ x ∈ xs, x.length < 2 ^ 32)
    (hlong : 2 ^ 32 ≤ (encode xs).length) (hlen : ys.length = xs.length) :
    ¬ StandAt (bufferData (encode xs)) 0 ys := by
  have hmod : (encode xs).length % 2 ^ 32 < 2 ^ 32 := Nat.mod_lt _ (by norm_num)
  exact not_standAt_take h (hmod.trans_le hlong) hlen

theorem bufferData_of_lt {b : Slice} (h : b.length < 2 ^ 32) : bufferData b = b := by
  rw [bufferData, Nat.mod_eq_of_lt h, List.take_length]

theorem putsAsLoop_of_withinLimits (h : WithinLimits c ctx entries) : PutsAsLoop c ctx txnId entries := by
  rcases h with rfl | ⟨⟨d, rfl⟩, hk, hv⟩
  · exact ⟨fun s => rfl, fun a s st => ⟨(none, st), rfl, fun _ => rfl,
      fun _ _ => ⟨fun _ => rfl, fun _ => rfl, fun _ => rfl⟩⟩⟩
  have hlen := lengths_lt hk hv
  have hks : StandAt (encode (entries.map fun e => c.writeKey e.1)) 0 ((entries.map c.encoded).map Prod.fst) := by
    rw [List.map_map]
    exact standAt_encode fun x hx => by
      obtain ⟨e, he, rfl⟩ := List.mem_map.mp hx
      exact (hlen e he).1
  have hvs : StandAt (encode (entries.map fun e => c.encode e.2)) 0 ((entries.map c.encoded).map Prod.snd) := by
    rw [List.map_map]
    exact standAt_encode fun x hx => by
      obtain ⟨e, he, rfl⟩ := List.mem_map.mp hx
      exact (hlen e he).2
  have hcount : (entries.map c.encoded).length = entries.length := List.length_map _
  refine ⟨fun s => ?_, fun a s st => ?_⟩
  · rw [(map_parts s).1, (map_parts s).2, bufferData_of_lt hk, bufferData_of_lt hv, ← hcount,
      forEntries_eq_runEntries hks hvs]
    have hcollect : ∀ (es acc : List (Slice × Slice)) (i : ℕ),
        runEntries (fun _ key value es => (none, es ++ [(key, value)])) i es acc = (none, acc ++ es) := by
      intro es
      induction es with
      | nil => exact fun acc _ => by rw [List.append_nil]; rfl
      | cons e es ih => exact fun acc i => (ih (acc ++ [e]) (i + 1)).trans (by rw [List.append_assoc]; rfl)
    rw [hcollect, List.nil_append]
  by_cases hnil : entries = []
  · subst hnil
    exact ⟨(none, st), rfl, fun _ => rfl, fun _ _ => ⟨fun _ => rfl, fun _ => rfl, fun _ => rfl⟩⟩
  have hcall : c.putManySync (.database d) txnId a s st entries =
      d.putManySync st (encode (entries.map fun e => c.writeKey e.1)) (encode (entries.map fun e => c.encode e.2))
        (entries.map c.encoded).length
        txnId a := by
    have hany : ((c.parts s entries).any fun p => 2 ^ 32 ≤ p.1.length || 2 ^ 32 ≤ p.2.length) = false := by
      rw [parts_eq]
      exact any_long_iff.mpr hlen
    have hzero : entries.length ≠ 0 := by simpa using hnil
    simp only [Codec.putManySync, if_neg hzero, hany, Bool.false_eq_true, if_false, (map_parts s).1, (map_parts s).2,
      bufferData_of_lt hk,
      bufferData_of_lt hv, hcount]
  rw [hcall, putSyncLoop_eq c _ _ _ _ _ _ hlen]
  cases txnId with
  | some id =>
    exact ⟨_, putManySync_transaction d a (by simpa using hnil) hks hvs st id, fun _ => rfl, fun h => by cases h⟩
  | none =>
    obtain ⟨r, hr, -, hunchanged, -⟩ := (decoders_safe (encode (entries.map fun e => c.writeKey e.1))
      (encode (entries.map fun e => c.encode e.2)) (entries.map c.encoded).length st a).2 d
    refine ⟨r, hr, nofun, fun _ hok => ?_⟩
    obtain ⟨r', hr', hwrites, hfails⟩ := putManySync_direct d st a hok hks hvs
    obtain rfl : r = r' := Option.some.inj (hr.symm.trans hr')
    refine ⟨fun hw => (hwrites hw).1, fun hnone => ?_, hunchanged⟩
    by_cases hw : a.write = none
    · exact (hwrites hw).2
    · exact absurd hnone (hfails hw).1

/-- A transaction that takes every put. -/
def openTransaction : TransactionHandle := { column := 0, enableVerificationTable := false }

def openStore : Native :=
  { pessimistic := false, committed := fun _ => OrderedTable.empty, transactions := fun _ => some openTransaction,
    slotFor := none }

def accepting : Answers := ⟨fun _ => none, fun _ => 0, none⟩

/-- Where one of the buffers is too long, not all entries stand in what the binding has of it. -/
theorem not_entriesFit
    (hlen : ∀ e ∈ entries, (c.writeKey e.1).length < 2 ^ 32 ∧ (c.encode e.2).length < 2 ^ 32)
    (hlong : (encode (entries.map fun e => c.writeKey e.1)).length < 2 ^ 32 →
      ¬ (encode (entries.map fun e => c.encode e.2)).length < 2 ^ 32) :
    ¬ EntriesFit (bufferData (encode (entries.map fun e => c.writeKey e.1)))
    (bufferData (encode (entries.map fun e => c.encode e.2)))
      0 0 entries.length := by
  rintro ⟨⟨ks, hks, hkstand⟩, vs, hvs, hvstand⟩
  have hk : (encode (entries.map fun e => c.writeKey e.1)).length < 2 ^ 32 := by
    by_contra hlong
    refine not_standAt_bufferData (fun x hx => ?_) (not_lt.mp hlong) (by rw [hks, List.length_map]) hkstand
    obtain ⟨e, he, rfl⟩ := List.mem_map.mp hx
    exact (hlen e he).1
  refine not_standAt_bufferData (fun x hx => ?_) (not_lt.mp (hlong hk)) (by rw [hvs, List.length_map]) hvstand
  obtain ⟨e, he, rfl⟩ := List.mem_map.mp hx
  exact (hlen e he).2

/-- Beyond the limits the call fails where a loop would not. -/
theorem putManySync_fails (h : ¬ WithinLimits c ctx entries) :
    ∀ r, c.putManySync ctx txnId accepting {} openStore entries = some r → ∃ e, r.1 = some e ∧ e.ofPutMany = true := by
  intro r hr
  obtain ⟨hne, hlimits⟩ := not_or.mp h
  rw [Codec.putManySync, if_neg (by simpa using hne)] at hr
  simp only [(map_parts _).1, (map_parts _).2] at hr
  split_ifs at hr with hany
  · obtain rfl := Option.some.inj hr
    exact ⟨_, rfl, rfl⟩
  cases ctx with
  | transaction id =>
    obtain rfl := Option.some.inj hr
    exact ⟨_, rfl, rfl⟩
  | database d =>
    simp only at hr
    rw [parts_eq, Bool.not_eq_true, any_long_iff] at hany
    have hunfit := not_entriesFit hany fun hk hv => hlimits ⟨⟨d, rfl⟩, hk, hv⟩
    cases txnId with
    | none =>
      obtain ⟨e, b, hq⟩ := forEntries_unfit (d.build openStore accepting) (fun _ _ _ _ => rfl) hunfit {}
      rw [DBHandle.putManySync, hq] at hr
      obtain rfl := Option.some.inj hr
      exact ⟨.decode e, rfl, rfl⟩
    | some id =>
      obtain ⟨e, t, hq⟩ := forEntries_unfit
        (fun i key value x => TransactionHandle.put x openStore d key value (accepting.puts i) (accepting.trackers i))
          (fun _ _ _ _ => rfl) hunfit openTransaction
      have hmany : openTransaction.putManySync openStore (bufferData (encode (entries.map fun e => c.writeKey e.1)))
          (bufferData (encode (entries.map fun e => c.encode e.2))) entries.length (some d) accepting =
            some (some (.decode e), t) := hq
      have hput : some r = (openTransaction.putManySync openStore
        (bufferData (encode (entries.map fun e => c.writeKey e.1)))
          (bufferData (encode (entries.map fun e => c.encode e.2))) entries.length (some d) accepting).map
            fun r => (r.1, openStore.withTransaction id r.2) := hr.symm
      rw [hmany] at hput
      obtain rfl := Option.some.inj hput
      exact ⟨.decode e, rfl, rfl⟩

theorem putsAsLoop_iff : PutsAsLoop c ctx txnId entries ↔ WithinLimits c ctx entries := by
  refine ⟨fun h => ?_, putsAsLoop_of_withinLimits⟩
  by_contra hlimits
  obtain ⟨r, hr, htxn, hdirect⟩ := h.2 accepting {} openStore
  obtain ⟨e, he, hmany⟩ := putManySync_fails hlimits r hr
  cases ht : ctx.target txnId with
  | some id =>
    rw [htxn (by rw [ht]; rfl)] at he
    rw [putSyncLoop_error c ctx txnId accepting he] at hmany
    cases hmany
  | none =>
    rw [(hdirect ht fun _ => rfl).1 rfl] at he
    cases he

/-- The decoders are safe on all buffers, and the call does what a loop of `putSync` does exactly within the limits: on
an object that has the method, with less than `2 ^ 32` bytes in each buffer. -/
theorem put_many_as_loop (c : Codec K V) (ctx : StoreContext) (txnId : Option ℕ) (entries : List (K × V)) :
    DecodersSafe ∧ (PutsAsLoop c ctx txnId entries ↔ WithinLimits c ctx entries) :=
  ⟨decoders_safe, putsAsLoop_iff⟩

/-- Bytes for themselves. -/
def bytesCodec : Codec Slice Slice where
  writeKey := id
  encode := id
  reused _ := none
  sharedStructuresKey _ := none
  bounded := by simp

/-- `putManySync` of a transaction throws where a loop of its `putSync` writes the entry. -/
theorem transaction_lacks_method : ¬ PutsAsLoop bytesCodec (.transaction 0) none [([97], [1])] := by
  rintro ⟨-, h⟩
  obtain ⟨r, hr, htxn, -⟩ := h accepting {} openStore
  have hthrows : bytesCodec.putManySync (.transaction 0) none accepting {} openStore [([97], [1])] =
      some (some .notAFunction, openStore) := rfl
  have hloop : (bytesCodec.putSyncLoop (.transaction 0) none accepting 0 {} openStore [([97], [1])]).1 = none := rfl
  obtain rfl := Option.some.inj (hthrows.symm.trans hr)
  rw [← htxn rfl] at hloop
  cases hloop

end

end PutMany
end RocksdbJs
