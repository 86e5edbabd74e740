import RocksdbJs.Lib.Runs
import RocksdbJs.Sanity.Append
import RocksdbJs.Spec.WriteBatch

/-! `writeBatchToFile` writes everything or reports failure: whatever the calls of `writev` return,
what has been appended and what the changed buffers still hold are together the batch. -/

namespace RocksdbJs

namespace BatchWrite

/-- What the cursor has left to write. -/
def rest (s : BatchWrite) : List Bytes := s.iovecs.drop s.pendingIdx

/-- The array and its cursor do what the loop over the list of what is left does. -/
theorem advance_rest (iovecs : List Bytes) (pendingIdx remainingBytes : ℕ) :
    (advance iovecs pendingIdx remainingBytes).1.drop (advance iovecs pendingIdx remainingBytes).2 =
      advanceIovecs remainingBytes (iovecs.drop pendingIdx) := by
  induction pendingIdx, remainingBytes using advance.induct iovecs with
  | case1 pendingIdx remainingBytes h iov hle ih =>
    have h0 : remainingBytes ≠ 0 := h.1.ne'
    have hle' : iovecs[pendingIdx].length ≤ remainingBytes := hle
    rw [advance, dif_pos h, List.drop_eq_getElem_cons h.2]
    simp only [advanceIovecs, if_neg h0, if_pos hle']
    exact ih
  | case2 pendingIdx remainingBytes h iov hlt =>
    have h0 : remainingBytes ≠ 0 := h.1.ne'
    have hlt' : ¬ iovecs[pendingIdx].length ≤ remainingBytes := hlt
    rw [advance, dif_pos h, List.drop_eq_getElem_cons h.2]
    simp only [advanceIovecs, if_neg h0, if_neg hlt']
    rw [List.drop_eq_getElem_cons (by rw [List.length_set]; exact h.2), List.getElem_set_self,
      List.drop_set_of_lt (by omega)]
  | case3 pendingIdx remainingBytes h =>
    rw [advance, dif_neg h]
    rcases Nat.eq_zero_or_pos remainingBytes with rfl | hpos
    · cases iovecs.drop pendingIdx <;> simp [advanceIovecs]
    · have hend : iovecs.length ≤ pendingIdx := by
        by_contra hlt
        exact h ⟨hpos, by omega⟩
      simp only [List.drop_eq_nil_of_le hend, advanceIovecs]

theorem advance_idx_le {iovecs : List Bytes} {pendingIdx : ℕ} (h : pendingIdx ≤ iovecs.length) (remainingBytes : ℕ) :
    (advance iovecs pendingIdx remainingBytes).2 ≤ (advance iovecs pendingIdx remainingBytes).1.length := by
  induction pendingIdx, remainingBytes using advance.induct iovecs with
  | case1 pendingIdx remainingBytes hin iov hle ih =>
    rw [advance, dif_pos hin, if_pos hle]
    exact ih hin.2
  | case2 pendingIdx remainingBytes hin iov hlt =>
    rw [advance, dif_pos hin, if_neg hlt, List.length_set]
    exact h
  | case3 pendingIdx remainingBytes hin =>
    rw [advance, dif_neg hin]
    exact h

theorem offered_eq (s : BatchWrite) : s.offered = (s.rest.take IOV_MAX).flatten := by
  have htake : s.rest.take (min (s.iovecs.length - s.pendingIdx) IOV_MAX) = s.rest.take IOV_MAX := by
    rw [← List.length_drop, ← rest, min_comm, ← List.take_take, List.take_length]
  rw [offered]
  exact congrArg _ htake

/-- What holds after every call of `writev` of a batch. -/
structure Exact (batch : List Bytes) (s : BatchWrite) : Prop where
  whole : s.appended ++ s.rest.flatten = batch.flatten
  nonempty : ∀ b ∈ s.rest, b ≠ []
  total : s.totalWritten = s.appended.length
  inside : s.pendingIdx ≤ s.iovecs.length
  running : s.returned = none → s.pendingIdx < s.iovecs.length
  outcome : ∀ t, s.returned = some t → (t = s.totalWritten ∧ s.rest = []) ∨ (t = -1 ∧ s.rest ≠ [])

theorem rest_eq_nil {s : BatchWrite} : s.rest = [] ↔ s.iovecs.length ≤ s.pendingIdx := List.drop_eq_nil_iff

theorem start_exact {batch : List Bytes} (hne : ∀ b ∈ batch, b ≠ []) : Exact batch (start batch) := by
  refine ⟨rfl, hne, rfl, Nat.zero_le _, fun h => ?_, fun t ht => ?_⟩
  · have hlen : batch.length ≠ 0 := by
      intro h0
      simp [start, h0] at h
    exact Nat.pos_of_ne_zero hlen
  · have h0 : batch.length = 0 := by
      by_contra hlen
      simp [start, hlen] at ht
    refine Or.inl ⟨by simpa [start, h0] using ht.symm, ?_⟩
    rw [rest_eq_nil]
    exact h0.le

theorem Exact.fails {batch : List Bytes} {s : BatchWrite} (h : Exact batch s) (hr : s.returned = none) :
    Exact batch { s with returned := some (-1) } := by
  refine ⟨h.whole, h.nonempty, h.total, h.inside, by simp, fun t ht => Or.inr ⟨by simpa using ht.symm, ?_⟩⟩
  intro hnil
  exact absurd (rest_eq_nil.mp hnil) (not_le.mpr (h.running hr))

/-- One call of `writev` keeps what has been appended and what is left the batch. -/
theorem step_exact {batch : List Bytes} {s t : BatchWrite} {result : WritevResult} (h : Exact batch s)
    (hstep : step s result = some t) : Exact batch t := by
  unfold step at hstep
  split_ifs at hstep with hret
  have hr : s.returned = none := by simpa using hret
  cases result with
  | eintr =>
    obtain rfl : s = t := by simpa using hstep
    exact h
  | error =>
    obtain rfl := Option.some.inj hstep
    exact h.fails hr
  | count written =>
    by_cases hmore : s.offered.length < written
    · simp [hmore] at hstep
    by_cases hzero : written = 0
    · obtain rfl : { s with returned := some (-1) } = t := by simpa [hmore, hzero] using hstep
      exact h.fails hr
    · simp only [if_neg hmore, if_neg hzero, Option.some.injEq] at hstep
      subst hstep
      have hrest := advance_rest s.iovecs s.pendingIdx written
      have hle : written ≤ (s.rest.take IOV_MAX).flatten.length := by
        rw [← offered_eq]
        omega
      have hin := advance_idx_le h.inside written
      refine ⟨?_, ?_, ?_, hin, ?_, ?_⟩
      · show (s.appended ++ s.offered.take written) ++ (List.drop _ _).flatten = _
        rw [hrest, offered_eq, List.append_assoc]
        exact (congrArg (s.appended ++ ·) (written_append_rest hle)).trans h.whole
      · show ∀ b ∈ List.drop _ _, b ≠ []
        rw [hrest]
        exact advanceIovecs_ne_nil h.nonempty
      · show s.totalWritten + written = (s.appended ++ s.offered.take written).length
        rw [h.total, List.length_append, List.length_take, min_eq_left (by omega)]
      · intro hnone
        by_contra hlt
        simp only at hnone hlt
        rw [if_neg hlt] at hnone
        exact absurd hnone (by simp)
      · intro v hv
        simp only at hv
        split_ifs at hv with hlt
        refine Or.inl ⟨(Option.some.inj hv).symm, rest_eq_nil.mpr ?_⟩
        exact not_lt.mp hlt

/-- What is left to do: nothing once the call has returned. -/
def pending (s : BatchWrite) : ℕ := if s.returned.isSome then 0 else s.rest.flatten.length + 1

theorem pending_le (s : BatchWrite) : s.pending ≤ s.rest.flatten.length + 1 := by
  unfold pending
  split_ifs
  · exact Nat.zero_le _
  · exact le_refl _

/-- A call that is not interrupted leaves less to write or ends the loop. -/
theorem step_leads {s : BatchWrite} {result : WritevResult} (hr : ¬ s.returned.isSome) (hne : result ≠ .eintr)
    (hcount : ∀ n, result = .count n → n ≤ s.offered.length) : ∃ t, step s result = some t ∧ t.pending < s.pending := by
  have hpos : s.pending = s.rest.flatten.length + 1 := if_neg hr
  cases result with
  | eintr => exact absurd rfl hne
  | error => exact ⟨_, by simp only [step, if_neg hr]; rfl, by rw [hpos]; exact Nat.succ_pos _⟩
  | count n =>
    have hle := hcount n rfl
    by_cases h0 : n = 0
    · exact ⟨_, by simp only [step, if_neg hr, if_neg (not_lt.mpr hle), if_pos h0]; rfl, by
        rw [hpos]; exact Nat.succ_pos _⟩
    refine ⟨_, by simp only [step, if_neg hr, if_neg (not_lt.mpr hle), if_neg h0]; rfl, (pending_le _).trans_lt ?_⟩
    have hfront := (offered_front s.rest).length_le
    rw [offered_eq] at hle
    show (List.drop _ _).flatten.length + 1 < _
    rw [advance_rest, advanceIovecs_flatten, List.length_drop, ← rest, hpos]
    omega

/-- A stream of results of `writev`, each a count at most what its call is offered. -/
def Answers (batch : List Bytes) (stream : ℕ → WritevResult) : Prop :=
  ∀ k s n, Runs.exec step (start batch) (Runs.upTo stream k) = some s → stream k = .count n → n ≤ s.offered.length

theorem returns_of_answers {batch : List Bytes} {stream : ℕ → WritevResult} (hanswers : Answers batch stream)
    (hoften : ∀ n, ∃ k, n ≤ k ∧ stream k ≠ .eintr) :
    ∃ k s, Runs.exec step (start batch) (Runs.upTo stream k) = some s ∧ s.returned.isSome := by
  have hidle : ∀ (s : BatchWrite) (result : WritevResult), ¬ s.returned.isSome → ¬ result ≠ .eintr →
      step s result = some s := by
    intro s result hr heintr
    rw [not_not.mp heintr, step, if_neg hr]
  obtain ⟨k, s, hrun, -, hret⟩ := Runs.exec_terminates_of_often (I := fun _ => True) (D := fun s => s.returned.isSome)
    (C := fun s result => ∀ n, result = .count n → n ≤ s.offered.length) pending hidle
    (fun s result _ hr hne hcount => (step_leads hr hne hcount).imp fun t h => ⟨h.1, trivial, h.2⟩)
    trivial (fun k s hrun _ n hn => hanswers k s n hrun hn) hoften
  exact ⟨k, s, hrun, hret⟩

/-- Whatever the calls of `writev` return: a total that is returned is the length of the buffers,
and they are what was appended; after a failure a proper first part of them was; and a call
that is not interrupted for ever returns. -/
theorem write_batch_exact (batch : List Bytes) (hne : ∀ b ∈ batch, b ≠ []) :
    (∀ results s t, Runs.exec step (start batch) results = some s → s.returned = some t →
      (0 ≤ t → s.appended = batch.flatten ∧ t = batch.flatten.length) ∧
      (t < 0 → s.appended <+: batch.flatten ∧ s.appended ≠ batch.flatten)) ∧
    ∀ stream, Answers batch stream → (∀ n, ∃ k, n ≤ k ∧ stream k ≠ .eintr) →
      ∃ k s, Runs.exec step (start batch) (Runs.upTo stream k) = some s ∧ s.returned.isSome := by
  refine ⟨fun results s t hrun hret => ?_, fun stream hanswers hoften => returns_of_answers hanswers hoften⟩
  have h : Exact batch s := Runs.exec_preserves (fun _ _ _ => step_exact) (start_exact hne) hrun
  have hwhole := h.whole
  rcases h.outcome t hret with ⟨rfl, hnil⟩ | ⟨rfl, hleft⟩
  · rw [hnil, List.flatten_nil, List.append_nil] at hwhole
    refine ⟨fun _ => ⟨hwhole, ?_⟩, fun hneg => ?_⟩
    · rw [h.total, hwhole]
    · omega
  · refine ⟨fun hpos => absurd hpos (by decide), fun _ => ⟨⟨_, hwhole⟩, ?_⟩⟩
    intro heq
    rw [heq, List.append_right_eq_self, List.flatten_eq_nil_iff] at hwhole
    obtain ⟨b, hb⟩ := List.exists_mem_of_ne_nil _ hleft
    exact h.nonempty b hb (hwhole b hb)

/-- A call cut short inside the second buffer, one that is interrupted and one for what is left; and a failure
after the first. -/
theorem write_batch_short :
    ((Runs.exec step (start [[1, 2], [3, 4], [5]]) [.count 3, .eintr, .count 2]).map fun s => s.returned) =
      some (some 5) ∧
    (∀ s, Runs.exec step (start [[1, 2], [3, 4], [5]]) [.count 3, .eintr, .count 2] = some s →
      s.appended = [1, 2, 3, 4, 5]) ∧
    ∃ k s, Runs.exec step (start [[1, 2], [3, 4], [5]])
        (Runs.upTo (fun k => if k = 0 then .count 3 else .error) k) = some s ∧
      s.returned.isSome := by
  have h := write_batch_exact [[1, 2], [3, 4], [5]] (by decide)
  have hret : ((Runs.exec step (start [[1, 2], [3, 4], [5]]) [.count 3, .eintr, .count 2]).map fun s => s.returned) =
      some (some 5) := by
    decide +kernel
  refine ⟨hret, fun s hs => ?_, h.2 _ ?_ fun n => ⟨n + 1, by omega, by simp⟩⟩
  · rw [hs, Option.map_some, Option.some.injEq] at hret
    exact ((h.1 _ s 5 hs hret).1 (by decide)).1
  · intro k s n hs hn
    by_cases hk : k = 0
    · subst hk
      obtain rfl := Option.some.inj hs
      obtain rfl : 3 = n := by simpa using hn
      decide
    · simp [hk] at hn

end BatchWrite

end RocksdbJs
