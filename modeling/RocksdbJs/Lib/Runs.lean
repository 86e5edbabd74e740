import Mathlib.Data.List.Basic
import Mathlib.Tactic

/-! Runs of a partial step function driven by a list of actions, and the one
induction every safety result rests on: what a step preserves under a side
condition, a whole run preserves when the condition holds at each of its steps. -/

namespace Runs

variable {σ α : Type*} (step : σ → α → Option σ)

/-- The state after the actions `as`, if every one of them is enabled in turn. -/
def exec : σ → List α → Option σ
  | s, [] => some s
  | s, a :: as => (step s a).bind fun t => exec t as

/-- `Ok` holds of the state and the action at every step of the run from `s`. -/
def Along (Ok : σ → α → Prop) : σ → List α → Prop
  | _, [] => True
  | s, a :: as => Ok s a ∧ ∀ t, step s a = some t → Along Ok t as

variable {step}

instance decidableAlong (step : σ → α → Option σ) (Ok : σ → α → Prop) [∀ s a, Decidable (Ok s a)] :
    ∀ (s : σ) (as : List α), Decidable (Along step Ok s as)
  | _, [] => inferInstanceAs (Decidable True)
  | s, a :: as =>
    have := fun t => decidableAlong step Ok t as
    inferInstanceAs (Decidable (Ok s a ∧ ∀ t ∈ step s a, Along step Ok t as))

theorem exec_cons {s u : σ} {a : α} {as : List α} :
    exec step s (a :: as) = some u ↔ ∃ t, step s a = some t ∧ exec step t as = some u := by
  simp only [exec, Option.bind_eq_some_iff]

theorem exec_append (s : σ) (as bs : List α) :
    exec step s (as ++ bs) = (exec step s as).bind fun t => exec step t bs := by
  induction as generalizing s with
  | nil => rfl
  | cons a as ih =>
    simp only [List.cons_append, exec]
    cases step s a with
    | none => rfl
    | some t => exact ih t

theorem Along.append {Ok : σ → α → Prop} {s t : σ} {as bs : List α}
    (h : Along step Ok s (as ++ bs)) (ht : exec step s as = some t) :
    Along step Ok s as ∧ Along step Ok t bs := by
  induction as generalizing s with
  | nil =>
    obtain rfl : s = t := by simpa [exec] using ht
    exact ⟨trivial, h⟩
  | cons a as ih =>
    obtain ⟨u, hu, hut⟩ := exec_cons.mp ht
    have hnext := ih (h.2 u hu) hut
    refine ⟨⟨h.1, fun v hv => ?_⟩, hnext.2⟩
    obtain rfl : v = u := Option.some.inj (hv.symm.trans hu)
    exact hnext.1

theorem Along.mono {Ok Ok' : σ → α → Prop} (hm : ∀ s a, Ok s a → Ok' s a) {s : σ} {as : List α}
    (h : Along step Ok s as) : Along step Ok' s as := by
  induction as generalizing s with
  | nil => trivial
  | cons a as ih => exact ⟨hm _ _ h.1, fun t ht => ih (h.2 t ht)⟩

theorem Along.of_forall {Ok : α → Prop} {s : σ} {as : List α} (h : ∀ a ∈ as, Ok a) :
    Along step (fun _ a => Ok a) s as := by
  induction as generalizing s with
  | nil => trivial
  | cons a as ih => exact ⟨h a List.mem_cons_self, fun t _ => ih fun b hb => h b (List.mem_cons_of_mem a hb)⟩

/-- The invariant rule. -/
theorem exec_invariant {Inv : σ → Prop} {Ok : σ → α → Prop}
    (hstep : ∀ s a t, Inv s → Ok s a → step s a = some t → Inv t)
    {s t : σ} {as : List α} (h0 : Inv s) (hok : Along step Ok s as)
    (hrun : exec step s as = some t) : Inv t := by
  induction as generalizing s with
  | nil =>
    obtain rfl : s = t := by simpa [exec] using hrun
    exact h0
  | cons a as ih =>
    obtain ⟨u, hu, hut⟩ := exec_cons.mp hrun
    exact ih (hstep s a u h0 hok.1 hu) (hok.2 u hu) hut

/-- The invariant rule for what every step preserves. -/
theorem exec_preserves {Inv : σ → Prop} (hstep : ∀ s a t, Inv s → step s a = some t → Inv t) {s t : σ} {as : List α}
    (h0 : Inv s) (hrun : exec step s as = some t) : Inv t := by
  induction as generalizing s with
  | nil =>
    obtain rfl : s = t := by simpa [exec] using hrun
    exact h0
  | cons a as ih =>
    obtain ⟨u, hu, hut⟩ := exec_cons.mp hrun
    exact ih (hstep s a u h0 hu) hut

theorem exec_eq_foldlM (s : σ) (as : List α) : exec step s as = as.foldlM step s := by
  induction as generalizing s with
  | nil => rfl
  | cons a as ih =>
    rw [List.foldlM_cons]
    exact congrArg _ (funext ih)

/-- The invariant rule for a loop over a list. -/
theorem foldlM_preserves {Inv : σ → Prop} (hstep : ∀ s a t, Inv s → step s a = some t → Inv t) {s t : σ} {as : List α}
    (h0 : Inv s) (hrun : as.foldlM step s = some t) : Inv t := by
  rw [← exec_eq_foldlM] at hrun
  exact exec_preserves hstep h0 hrun

/-- The simulation rule: where each step maps to a step, a run maps to a run. -/
theorem exec_simulates {τ : Type*} {step' : τ → α → Option τ} (f : σ → τ)
    (hstep : ∀ s a t, step s a = some t → step' (f s) a = some (f t)) {s t : σ} {as : List α}
    (hrun : exec step s as = some t) : exec step' (f s) as = some (f t) := by
  induction as generalizing s with
  | nil =>
    obtain rfl : s = t := by simpa [exec] using hrun
    rfl
  | cons a as ih =>
    obtain ⟨u, hu, hut⟩ := exec_cons.mp hrun
    exact exec_cons.mpr ⟨f u, hstep s a u hu, ih hut⟩

/-- The simulation rule for a loop over a list. -/
theorem foldlM_simulates {τ : Type*} {step' : τ → α → Option τ} (f : σ → τ)
    (hstep : ∀ s a t, step s a = some t → step' (f s) a = some (f t)) {s t : σ} {as : List α}
    (hrun : as.foldlM step s = some t) : as.foldlM step' (f s) = some (f t) := by
  rw [← exec_eq_foldlM] at hrun ⊢
  exact exec_simulates f hstep hrun

/-- What the invariant and the condition give of every step. -/
theorem Along.of_invariant {Inv : σ → Prop} {Ok Q : σ → α → Prop}
    (hstep : ∀ s a t, Inv s → Ok s a → step s a = some t → Inv t) (hQ : ∀ s a, Inv s → Ok s a → Q s a)
    {s : σ} {as : List α} (h0 : Inv s) (hok : Along step Ok s as) : Along step Q s as := by
  induction as generalizing s with
  | nil => trivial
  | cons a as ih => exact ⟨hQ s a h0 hok.1, fun t ht => ih (hstep s a t h0 hok.1 ht) (hok.2 t ht)⟩

/-- The state a run that goes through ends in. -/
def final (step : σ → α → Option σ) (s : σ) (as : List α) : σ := (exec step s as).getD s

theorem exec_final (step : σ → α → Option σ) (s : σ) (as : List α) (h : (exec step s as).isSome) :
    exec step s as = some (final step s as) := by
  obtain ⟨t, ht⟩ := Option.isSome_iff_exists.mp h
  rw [final, ht, Option.getD_some]

theorem step_final (step : σ → α → Option σ) (s : σ) (a : α) (h : (exec step s [a]).isSome) :
    step s a = some (final step s [a]) := by
  obtain ⟨t, ht, hlast⟩ := exec_cons.mp (exec_final step s [a] h)
  rw [ht]
  exact hlast

/-- The first `n` actions of a stream. -/
def upTo (stream : ℕ → α) (n : ℕ) : List α := (List.range n).map stream

theorem upTo_succ (stream : ℕ → α) (n : ℕ) : upTo stream (n + 1) = stream 0 :: upTo (fun k => stream (k + 1)) n := by
  simp [upTo, List.range_succ_eq_map, List.map_map, Function.comp_def]

theorem exec_upTo_succ {s t : σ} {stream : ℕ → α} (ht : step s (stream 0) = some t) {n : ℕ} {u : σ}
    (hu : exec step t (upTo (fun k => stream (k + 1)) n) = some u) : exec step s (upTo stream (n + 1)) = some u := by
  rw [upTo_succ]
  exact exec_cons.mpr ⟨t, ht, hu⟩

/-- The termination rule: from every state of the invariant `I` that is not done (`D`), an
action that meets `C` leads on along a falling measure, so every such stream of actions
comes to a state that is done. -/
theorem exec_terminates {I D : σ → Prop} {C : σ → α → Prop} (m : σ → ℕ)
    (hstep : ∀ s a, I s → ¬ D s → C s a → ∃ t, step s a = some t ∧ I t ∧ m t < m s)
    {s : σ} {stream : ℕ → α} (h0 : I s)
    (hok : ∀ n t, exec step s (upTo stream n) = some t → ¬ D t → C t (stream n)) :
    ∃ n t, exec step s (upTo stream n) = some t ∧ I t ∧ D t := by
  induction hm : m s using Nat.strong_induction_on generalizing s stream with
  | _ k ih =>
    by_cases hdone : D s
    · exact ⟨0, s, rfl, h0, hdone⟩
    obtain ⟨t, ht, hinv, hlt⟩ := hstep s (stream 0) h0 hdone (hok 0 s rfl hdone)
    obtain ⟨n, u, hu, hi, hd⟩ := ih (m t) (hm ▸ hlt) hinv (fun n u hu => hok (n + 1) u (exec_upTo_succ ht hu)) rfl
    exact ⟨n + 1, u, exec_upTo_succ ht hu, hi, hd⟩

theorem often_tail {E : α → Prop} {stream : ℕ → α} (h : ∀ n, ∃ k, n ≤ k ∧ E (stream k)) :
    ∀ n, ∃ k, n ≤ k ∧ E (stream (k + 1)) := by
  intro n
  obtain ⟨k, hk, he⟩ := h (n + 1)
  obtain ⟨k, rfl⟩ := Nat.exists_eq_succ_of_ne_zero (by omega : k ≠ 0)
  exact ⟨k, by omega, he⟩

/-- The termination rule where an action may also do nothing: it is enough that one that does
something (`E`) comes again and again. -/
theorem exec_terminates_of_often {I D : σ → Prop} {C : σ → α → Prop} {E : α → Prop} (m : σ → ℕ)
    (hidle : ∀ s a, ¬ D s → ¬ E a → step s a = some s)
    (hstep : ∀ s a, I s → ¬ D s → E a → C s a → ∃ t, step s a = some t ∧ I t ∧ m t < m s)
    {s : σ} {stream : ℕ → α} (h0 : I s)
    (hok : ∀ n t, exec step s (upTo stream n) = some t → ¬ D t → C t (stream n))
    (hoften : ∀ n, ∃ k, n ≤ k ∧ E (stream k)) :
    ∃ n t, exec step s (upTo stream n) = some t ∧ I t ∧ D t := by
  induction hm : m s using Nat.strong_induction_on generalizing s stream with
  | _ k ih =>
    by_cases hdone : D s
    · exact ⟨0, s, rfl, h0, hdone⟩
    -- inside a level of the measure the induction is on how long nothing happens
    obtain ⟨first, -, hfirst⟩ := hoften 0
    induction first generalizing stream with
    | zero =>
      obtain ⟨t, ht, hinv, hlt⟩ := hstep s (stream 0) h0 hdone hfirst (hok 0 s rfl hdone)
      obtain ⟨n, u, hu, hi, hd⟩ := ih (m t) (hm ▸ hlt) hinv (fun n u hu => hok (n + 1) u (exec_upTo_succ ht hu))
        (often_tail hoften) rfl
      exact ⟨n + 1, u, exec_upTo_succ ht hu, hi, hd⟩
    | succ first ihfirst =>
      by_cases he : E (stream 0)
      · obtain ⟨t, ht, hinv, hlt⟩ := hstep s (stream 0) h0 hdone he (hok 0 s rfl hdone)
        obtain ⟨n, u, hu, hi, hd⟩ := ih (m t) (hm ▸ hlt) hinv (fun n u hu => hok (n + 1) u (exec_upTo_succ ht hu))
          (often_tail hoften) rfl
        exact ⟨n + 1, u, exec_upTo_succ ht hu, hi, hd⟩
      · have ht : step s (stream 0) = some s := hidle s (stream 0) hdone he
        obtain ⟨n, u, hu, hi, hd⟩ := ihfirst (fun n u hu => hok (n + 1) u (exec_upTo_succ ht hu))
          (often_tail hoften) hfirst
        exact ⟨n + 1, u, exec_upTo_succ ht hu, hi, hd⟩

/-- What every step with the one action `a` preserves, the run with that action over and over preserves. -/
theorem exec_const_invariant {I : σ → Prop} {a : α} (hstep : ∀ s t, I s → step s a = some t → I t) {s t : σ} (h0 : I s)
    {n : ℕ} (hrun : exec step s (upTo (fun _ => a) n) = some t) : I t := by
  induction n generalizing s with
  | zero =>
    obtain rfl : s = t := by simpa [upTo, exec] using hrun
    exact h0
  | succ n ih =>
    rw [upTo_succ] at hrun
    obtain ⟨u, hu, hut⟩ := exec_cons.mp hrun
    exact ih (hstep s u h0 hu) hut

end Runs
