import RocksdbJs.Lib.Runs
import RocksdbJs.Sanity.Listeners

/-! The count of listeners is exact: after every sequence of calls it is the number of listeners in the map, so
`notify` passes over no listener when it reads zero, not even between the writes of a call; and what
a call takes out of the map is what it releases. -/

namespace RocksdbJs

namespace EventEmitter

/-- The listener that `removeListener` looks for. -/
def isListener (env : ℕ) (callback : Option ℕ) (l : ListenerCallback) : Bool :=
  l.env == env && l.callbackRef == callback

/-- The listeners that a call takes out of the map: the first of a key with the environment and the function;
those of an owner and of owners that are gone; those of an environment; all. -/
def takes (e : EventEmitter) : EmitterCall → List ListenerCallback
  | .removeListener env key callback => (((e.find key).getD []).find? (isListener env callback)).toList
  | .removeListenersByOwner owner =>
      (e.callbacks.flatMap Prod.snd).filter fun l => l.hasOwner && (e.lock l.owner).all fun o => o.address == owner
  | .removeListenersByEnv env => (e.callbacks.flatMap Prod.snd).filter fun l => l.env == env
  | .releaseAll => e.callbacks.flatMap Prod.snd
  | _ => []

theorem shouldRemove_eq (e : EventEmitter) (owner : ℕ) (l : ListenerCallback) :
    e.shouldRemove owner l = (l.hasOwner && (e.lock l.owner).all fun o => o.address == owner) := by
  rw [shouldRemove]
  cases e.lock l.owner <;> simp

/-- Every threadsafe function is in the map or released, once. -/
structure Counted (e : EventEmitter) : Prop extends Gated e where
  once : (e.released ++ e.registered).Nodup
  fresh : ∀ t ∈ e.released ++ e.registered, t < e.nextCallback

/-- What the writes of any call come to, with the threadsafe functions `made` by it. -/
structure Comes (e : EventEmitter) (writes : List EventEmitter) (made gone : List ℕ) : Prop where
  gated : Gated (writes.getLastD e)
  released : (writes.getLastD e).released = e.released ++ gone
  registered : (e.registered ++ made).Perm (gone ++ (writes.getLastD e).registered)
  made_eq : (made = [] ∧ (writes.getLastD e).nextCallback = e.nextCallback) ∨
    (made = [e.nextCallback] ∧ (writes.getLastD e).nextCallback = e.nextCallback + 1)
  moments : ∀ m ∈ writes, (m.total : ℤ) ≤ m.listenerCount

theorem Keeps.comes {e : EventEmitter} {ws : List EventEmitter} {gone : List ℕ} (h : Keeps e ws gone) :
    Comes e ws [] gone :=
  ⟨h.gated, h.releases.1, by rw [List.append_nil]; exact h.releases.2, Or.inl ⟨rfl, h.fresh⟩, h.moments⟩

section
variable {m : EventEmitter} {visited todo : List (Bytes × List ListenerCallback)} {key : Bytes}
    {ls : List ListenerCallback}

theorem withListeners_at (hat : m.callbacks = visited ++ (key, ls) :: todo)
    (hkey : key ∉ (visited ++ todo).map Prod.fst) (ls' : List ListenerCallback) :
    (m.withListeners key ls').callbacks = visited ++ (key, ls') :: todo := by
  have hid : ∀ xs : List (Bytes × List ListenerCallback), key ∉ xs.map Prod.fst →
      (xs.map fun p => if p.1 = key then (key, ls') else p) = xs := by
    intro xs hxs
    refine (List.map_congr_left fun p hp => if_neg ?_).trans (List.map_id xs)
    rintro rfl
    exact hxs (List.mem_map_of_mem hp)
  rw [List.map_append, List.mem_append, not_or] at hkey
  rw [withListeners, hat, List.map_append, List.map_cons, hid _ hkey.1, hid _ hkey.2, if_pos rfl]

theorem eraseKey_at (hat : m.callbacks = visited ++ (key, ls) :: todo) (hkey : key ∉ (visited ++ todo).map Prod.fst) :
    (m.eraseKey key).callbacks = visited ++ todo := by
  have hid : ∀ xs : List (Bytes × List ListenerCallback), key ∉ xs.map Prod.fst →
      (xs.filter fun p => p.1 ≠ key) = xs := by
    intro xs hxs
    refine List.filter_eq_self.mpr fun p hp => ?_
    simp only [ne_eq, decide_eq_true_eq]
    rintro rfl
    exact hxs (List.mem_map_of_mem hp)
  rw [List.map_append, List.mem_append, not_or] at hkey
  rw [eraseKey, hat, List.filter_append, List.filter_cons_of_neg (by simp), hid _ hkey.1, hid _ hkey.2]

end

section
variable {e : EventEmitter} {env : ℕ} {key : Bytes}

/-- The key is there, or is made first with no listener. -/
theorem placed_at (h : Gated e) (key : Bytes) : ∃ visited todo,
    e.callbacks = visited ++ entryOf key ((e.find key).getD []) ++ todo ∧ key ∉ (visited ++ todo).map Prod.fst ∧
      (if (e.find key).isNone then e.callbacks ++ [(key, [])] else e.callbacks) =
        visited ++ (key, (e.find key).getD []) :: todo := by
  cases hf : e.find key with
  | none =>
    refine ⟨e.callbacks, [], by simp [entryOf], ?_, by simp⟩
    rw [List.append_nil]
    intro hmem
    obtain ⟨p, hp, hkey⟩ := List.mem_map.mp hmem
    exact absurd hkey.symm (by simpa using List.lookup_eq_none_iff.mp hf p hp)
  | some ls =>
    obtain ⟨visited, todo, hat, hkey, hne⟩ := h.find hf
    refine ⟨visited, todo, hat, hkey, ?_⟩
    simp [hat, entryOf_of_ne_nil hne]

theorem addListener_comes (h : Gated e) (callback : Option ℕ) (owner : Option Owner) (calls : AddCalls) :
    ∃ made gone, Comes e (e.addListener env key callback owner calls) made gone := by
  cases callback with
  | none => exact ⟨[], [], (Keeps.nil h).comes⟩
  | some callback =>
    cases calls with
    | fail => exact ⟨[], [], (Keeps.nil h).comes⟩
    | unrefFails =>
      refine ⟨[e.nextCallback], [e.nextCallback], ⟨⟨h.count, h.nonempty, h.unreleased, h.keys⟩, rfl,
        List.perm_append_comm, Or.inr ⟨rfl, rfl⟩, ?_⟩⟩
      intro m hm
      obtain rfl := List.mem_singleton.mp hm
      exact h.count.ge
    | succeed =>
      obtain ⟨visited, todo, hat, hkey, hplaced⟩ := placed_at h key
      have hc := h.count
      have htotal : e.total = sizeOfEntries visited + ((e.find key).getD []).length + sizeOfEntries todo := by
        rw [total, hat, sizeOfEntries_append, sizeOfEntries_append, sizeOfEntries_entryOf]
      set ls := (e.find key).getD []
      set l := e.newListener env callback owner
      let counted : EventEmitter := { e with
        nextCallback := e.nextCallback + 1
        callbacks := if (e.find key).isNone then e.callbacks ++ [(key, [])] else e.callbacks
        listenerCount := e.listenerCount + 1 }
      have hlast : (counted.withListeners key (ls ++ [l])).callbacks = visited ++ entryOf key (ls ++ [l]) ++ todo := by
        rw [withListeners_at hplaced hkey, entryOf_of_ne_nil (by simp), List.append_assoc]
        rfl
      have hun : ∀ x ∈ ls ++ [l], x.Live := by
        intro x hx
        rcases List.mem_append.mp hx with hx | hx
        · refine h.unreleased (key, ls) ?_ x hx
          rw [hat, entryOf_of_ne_nil (List.ne_nil_of_mem hx)]
          simp
        · obtain rfl := List.mem_singleton.mp hx
          exact ⟨rfl, rfl⟩
      have hgated : Gated (counted.withListeners key (ls ++ [l])) := by
        refine h.replace hat hkey hlast hun ?_
        show e.listenerCount + 1 + (ls.length : ℤ) = e.listenerCount + ((ls ++ [l]).length : ℤ)
        rw [List.length_append, List.length_singleton]
        omega
      refine ⟨[e.nextCallback], [], ⟨hgated, (List.append_nil _).symm, ?_, Or.inr ⟨rfl, rfl⟩, ?_⟩⟩
      · show (registeredOf e.callbacks ++ [e.nextCallback]).Perm
          (registeredOf (counted.withListeners key (ls ++ [l])).callbacks)
        rw [hat, hlast]
        simp only [registeredOf_append, registeredOf_entryOf, threadsafeCallbacks, List.filterMap_append,
          List.append_assoc]
        exact (List.perm_append_comm.append_left _).append_left _
      · intro m hm
        simp only [addListener, List.mem_cons, List.not_mem_nil, or_false] at hm
        rcases hm with rfl | rfl | rfl | rfl
        · exact hc.ge
        · rw [total_middle hplaced]
          simp only
          omega
        · rw [total_middle hplaced]
          simp only
          omega
        · exact hgated.count.ge

/-- The search finds the first listener of the environment with the function, where it says. -/
theorem searchListener_find {callback : ℕ} {listeners : List ListenerCallback} (before : List ListenerCallback)
    (hlive : ∀ l ∈ listeners, l.callbackRef.isSome) :
    (searchListener env callback before listeners = .missing ∧
      (listeners.find? (isListener env (some callback))) = none) ∨
    ∃ b l a, searchListener env callback before listeners = .found b l a ∧
      listeners.find? (isListener env (some callback)) = some l ∧ b ++ l :: a = before ++ listeners := by
  induction listeners generalizing before with
  | nil => exact Or.inl ⟨rfl, rfl⟩
  | cons x xs ih =>
    have hrest := ih (before ++ [x]) fun l hl => hlive l (List.mem_cons_of_mem x hl)
    rw [List.append_assoc, List.singleton_append] at hrest
    obtain ⟨fn, hfn⟩ := Option.isSome_iff_exists.mp (hlive x List.mem_cons_self)
    rw [searchListener, hfn]
    by_cases henv : x.env = env
    · by_cases heq : fn = callback
      · have hx : isListener env (some callback) x = true := by simp [isListener, hfn, henv, heq]
        rw [if_pos henv, List.find?_cons_of_pos hx]
        exact Or.inr ⟨before, x, xs, if_pos heq, rfl, rfl⟩
      · have hx : ¬ isListener env (some callback) x = true := by simp [isListener, hfn, heq]
        rw [if_pos henv, List.find?_cons_of_neg hx]
        simpa only [if_neg heq] using hrest
    · have hx : ¬ isListener env (some callback) x = true := by simp [isListener, henv]
      rw [if_neg henv, List.find?_cons_of_neg hx]
      exact hrest

/-- The first listener of the key, the environment and the function is released and removed, and no other. -/
theorem removeListener_keeps (h : Gated e) (callback : Option ℕ) :
    Keeps e (e.removeListener env key callback) (threadsafeCallbacks (e.takes (.removeListener env key callback))) := by
  rw [takes]
  unfold removeListener
  cases hf : e.find key with
  | none => cases callback <;> exact Keeps.nil h
  | some listeners =>
    obtain ⟨visited, todo, hat, hkey, hne⟩ := h.find hf
    have hlive : ∀ l ∈ listeners, l.callbackRef.isSome := by
      intro l hl
      refine (h.unreleased (key, listeners) ?_ l hl).2
      rw [hat, entryOf_of_ne_nil hne]
      simp
    cases callback with
    | none =>
      have hnone : listeners.find? (isListener env none) = none := by
        refine List.find?_eq_none.mpr fun l hl => ?_
        have := hlive l hl
        simp [isListener, Option.isSome_iff_ne_none.mp this]
      rw [Option.getD_some, hnone]
      exact Keeps.nil h
    | some callback =>
      rw [Option.getD_some]
      simp only
      rcases searchListener_find [] hlive with ⟨hs, hfound⟩ | ⟨before, l, after, hs, hfound, hls⟩
      · rw [hs, hfound]
        simp only [List.isEmpty_iff, hne, if_false]
        exact Keeps.nil h
      · rw [hs, hfound]
        rw [List.nil_append] at hls
        subst hls
        have hraw : e.callbacks = visited ++ (key, before ++ l :: after) :: todo := by
          rw [hat, entryOf_of_ne_nil hne, List.append_assoc]
          rfl
        let freed : EventEmitter := { e with released := e.released ++ l.threadsafeCallback.toList }
        have herased : (freed.withListeners key (before ++ after)).callbacks =
            visited ++ (key, before ++ after) :: todo :=
          withListeners_at hraw hkey _
        let counted : EventEmitter :=
          { freed.withListeners key (before ++ after) with listenerCount := e.listenerCount - 1 }
        have hlast : (if (before ++ after).isEmpty then counted.eraseKey key else counted).callbacks =
            visited ++ entryOf key (before ++ after) ++ todo := by
          split_ifs with hempty
          · rw [eraseKey_at (m := counted) herased hkey, entryOf, if_pos hempty, List.append_nil]
          · rw [show counted.callbacks = _ from herased, entryOf, if_neg hempty, List.append_assoc]
            rfl
        have hlen : (before ++ l :: after).length = (before ++ after).length + 1 := by
          rw [List.length_append, List.length_append, List.length_cons]
          omega
        have hun : ∀ x ∈ before ++ after, x.Live := by
          intro x hx
          refine h.unreleased (key, before ++ l :: after) (by rw [hraw]; simp) x ?_
          rw [List.mem_append] at hx
          rw [List.mem_append, List.mem_cons]
          tauto
        have hperm : (threadsafeCallbacks (before ++ l :: after)).Perm (l.threadsafeCallback.toList ++
            threadsafeCallbacks (before ++ after)) := by
          rw [threadsafeCallbacks, threadsafeCallbacks, List.filterMap_append, List.filterMap_append,
            List.filterMap_cons]
          cases l.threadsafeCallback with
          | none => exact List.Perm.refl _
          | some t => exact List.perm_middle
        have hgone : threadsafeCallbacks (some l).toList = l.threadsafeCallback.toList := by
          cases hl : l.threadsafeCallback <;> simp [threadsafeCallbacks, hl]
        rw [hgone]
        refine keeps_fewer h hraw hun ?_ (by omega) ⟨withListeners_at (m := freed) hraw hkey _, rfl⟩
          ⟨herased, rfl⟩ ⟨herased, ?_⟩ hlast ?_ hperm
        · rw [List.length_append, List.length_append, List.length_cons, List.length_cons]
        · show e.listenerCount - 1 + _ = _
          omega
        · split_ifs <;> exact ⟨rfl, rfl, rfl⟩

/-- All listeners are released and removed. -/
theorem releaseAll_keeps (h : Gated e) : Keeps e e.releaseAll (threadsafeCallbacks (e.takes .releaseAll)) := by
  have hsize : sizeOfEntries (e.callbacks.map fun p => (p.1, p.2.map releaseListenerResources)) = e.total := by
    simp [sizeOfEntries, total, List.map_map, Function.comp_def]
  have hreg : threadsafeCallbacks (e.callbacks.flatMap Prod.snd) = e.registered := by
    rw [threadsafeCallbacks, List.filterMap_flatMap]
    rfl
  refine ⟨⟨rfl, by simp [releaseAll], by simp [releaseAll], List.nodup_nil⟩, ⟨rfl, ?_⟩, rfl, ?_⟩
  · rw [takes, hreg]
    show e.registered.Perm (e.registered ++ [])
    rw [List.append_nil]
  · have hc := h.count
    intro m hm
    simp only [releaseAll, List.mem_cons, List.not_mem_nil, or_false] at hm
    rcases hm with rfl | rfl | rfl
    · rw [total, hsize, hc]
    · show (0 : ℤ) ≤ e.listenerCount
      omega
    · exact le_refl _

/-- All listeners of the owner and of owners that are gone are released and removed, and no others. -/
theorem removeListenersByOwner_keeps (h : Gated e) (owner : ℕ) :
    Keeps e (e.removeListenersByOwner owner) (threadsafeCallbacks (e.takes (.removeListenersByOwner owner))) := by
  rw [takes, ← funext (shouldRemove_eq e owner)]
  apply reap_keeps _ h rfl
  intro l hl
  rw [shouldRemove, Bool.and_eq_true] at hl
  exact hl.1

theorem removeListenersByEnv_keeps (h : Gated e) (env : ℕ) :
    Keeps e (e.removeListenersByEnv env) (threadsafeCallbacks (e.takes (.removeListenersByEnv env))) :=
  reap_keeps (fun _ hl => hl) h rfl

/-- A call that writes neither the map nor the count. -/
theorem Keeps.owners (h : Gated e) {e' : EventEmitter} (hcallbacks : e'.callbacks = e.callbacks)
    (hcount : e'.listenerCount = e.listenerCount) (hreleased : e'.released = e.released)
    (hnext : e'.nextCallback = e.nextCallback) : Keeps e [e'] [] := by
  have htotal : e'.total = e.total := congrArg sizeOfEntries hcallbacks
  have hgated : Gated e' := by
    refine ⟨by rw [hcount, htotal, h.count], ?_, ?_, ?_⟩ <;> rw [hcallbacks]
    · exact h.nonempty
    · exact h.unreleased
    · exact h.keys
  refine ⟨hgated, ⟨by simpa using hreleased, ?_⟩, hnext, fun m hm => ?_⟩
  · show (registeredOf e.callbacks).Perm (registeredOf e'.callbacks)
    rw [hcallbacks]
  · obtain rfl := List.mem_singleton.mp hm
    exact hgated.count.ge

end

/-- A call that takes listeners away, or leaves the map alone. -/
def adds : EmitterCall → Bool
  | .addListener .. => true
  | _ => false

theorem writes_keeps {e : EventEmitter} (h : Gated e) {call : EmitterCall} (hcall : adds call = false) :
    Keeps e (e.writes call) (threadsafeCallbacks (e.takes call)) := by
  cases call with
  | create address => exact Keeps.owners h rfl rfl rfl rfl
  | expire owner => exact Keeps.owners h rfl rfl rfl rfl
  | addListener => simp [adds] at hcall
  | removeListener env key callback => exact removeListener_keeps h callback
  | removeListenersByOwner owner => exact removeListenersByOwner_keeps h owner
  | removeListenersByEnv env => exact removeListenersByEnv_keeps h env
  | releaseAll => exact releaseAll_keeps h

theorem writes_comes {e : EventEmitter} (h : Gated e) (call : EmitterCall) :
    ∃ made gone, Comes e (e.writes call) made gone := by
  by_cases hcall : adds call = false
  · exact ⟨[], _, (writes_keeps h hcall).comes⟩
  · cases call with
    | addListener env key callback owner calls => exact addListener_comes h callback owner calls
    | _ => exact absurd rfl hcall

theorem step_eq_some {e e' : EventEmitter} {call : EmitterCall} (h : step e call = some e') :
    (e.writes call).getLastD e = e' := by
  unfold step at h
  split_ifs at h
  exact Option.some.inj h

/-- One call keeps every threadsafe function in the map or released. -/
theorem counted_step (e : EventEmitter) (call : EmitterCall) (e' : EventEmitter) (h : Counted e)
    (hstep : step e call = some e') : Counted e' := by
  obtain ⟨made, gone, hcomes⟩ := writes_comes h.toGated call
  obtain rfl := step_eq_some hstep
  have hperm : ((e.writes call).getLastD e).released ++ ((e.writes call).getLastD e).registered |>.Perm
      (e.released ++ e.registered ++ made) := by
    rw [hcomes.released, List.append_assoc, List.append_assoc]
    exact (hcomes.registered.append_left e.released).symm
  refine ⟨hcomes.gated, ?_, fun t ht => ?_⟩
  · rw [hperm.nodup_iff]
    rcases hcomes.made_eq with ⟨rfl, -⟩ | ⟨rfl, -⟩
    · rw [List.append_nil]
      exact h.once
    · rw [List.nodup_append]
      refine ⟨h.once, List.nodup_singleton _, fun a ha b hb => ?_⟩
      rw [List.mem_singleton.mp hb]
      exact (h.fresh a ha).ne
  · rw [hperm.mem_iff, List.mem_append] at ht
    rcases hcomes.made_eq with ⟨rfl, hnext⟩ | ⟨rfl, hnext⟩ <;> rw [hnext]
    · exact h.fresh t (by simpa using ht)
    · rcases ht with ht | ht
      · exact Nat.lt_succ_of_lt (h.fresh t ht)
      · rw [List.mem_singleton.mp ht]
        exact Nat.lt_succ_self _

theorem counted_empty : Counted {} :=
  ⟨⟨rfl, by simp, by simp, List.nodup_nil⟩, List.nodup_nil, by simp [registered, registeredOf]⟩

theorem Gated.find_of_mem {e : EventEmitter} (h : Gated e) {key : Bytes} {ls : List ListenerCallback}
    (hmem : (key, ls) ∈ e.callbacks) :
    e.find key = some ls := by
  have hsome : (e.find key).isSome := List.lookup_isSome_iff.mpr ⟨(key, ls), hmem, by simp⟩
  obtain ⟨ls', hf⟩ := Option.isSome_iff_exists.mp hsome
  obtain ⟨visited, todo, hat, hkey, hne⟩ := h.find hf
  have hin : (key, ls) ∈ visited ++ entryOf key ls' ++ todo := hat ▸ hmem
  rw [entryOf_of_ne_nil hne, List.append_assoc, List.mem_append, List.mem_append, List.mem_singleton] at hin
  rw [List.map_append, List.mem_append, not_or] at hkey
  rcases hin with hin | hin | hin
  · exact absurd (List.mem_map_of_mem hin) hkey.1
  · rw [hf, (Prod.mk.inj hin).2]
  · exact absurd (List.mem_map_of_mem hin) hkey.2

/-- After every sequence of calls the count is the number of listeners, no key has an empty list and no
listener in the map is released; `notify` calls every listener of its key. A count of zero, read after a
call or between its writes, means that no listener is in the map. No threadsafe function
is released twice, and what a call takes it removes and releases, and nothing else. -/
theorem listener_gate_exact {calls : List EmitterCall} {e : EventEmitter} (hrun : Runs.exec step {} calls = some e) :
    e.listenerCount = e.total ∧ (∀ p ∈ e.callbacks, p.2 ≠ []) ∧
    (∀ p ∈ e.callbacks, ∀ l ∈ p.2, ∃ t, l.threadsafeCallback = some t ∧ t ∈ (e.notify e.listenerCount p.1).2) ∧
    e.released.Nodup ∧
    ∀ call e', step e call = some e' →
      (∀ m ∈ e.writes call, m.listenerCount = 0 → ∀ p ∈ m.callbacks, p.2 = []) ∧
      (adds call = false → e'.released = e.released ++ threadsafeCallbacks (e.takes call) ∧
        e.registered.Perm (threadsafeCallbacks (e.takes call) ++ e'.registered)) := by
  have h : Counted e := Runs.exec_preserves counted_step counted_empty hrun
  have hzero : ∀ m : EventEmitter, (m.total : ℤ) ≤ m.listenerCount → m.listenerCount = 0 →
      ∀ p ∈ m.callbacks, p.2 = [] := by
    intro m hm h0 p hp
    have htotal : m.total = 0 := by omega
    have hlen : p.2.length ≤ m.total :=
      List.single_le_sum (by simp) _ (List.mem_map_of_mem (f := fun p => p.2.length) hp)
    exact List.eq_nil_of_length_eq_zero (by omega)
  refine ⟨h.count, h.nonempty, fun p hp l hl => ?_, h.once.of_append_left, fun call e' hstep =>
    ⟨fun m hm => ?_, fun hcall => ?_⟩⟩
  · obtain ⟨t, ht⟩ := Option.isSome_iff_exists.mp (h.unreleased p hp l hl).1
    have hpos : e.listenerCount ≠ 0 := fun h0 => h.nonempty p hp (hzero e h.count.ge h0 p hp)
    refine ⟨t, ht, ?_⟩
    rw [notify, if_neg hpos, h.find_of_mem hp]
    exact List.mem_filterMap.mpr ⟨l, hl, ht⟩
  · obtain ⟨made, gone, hcomes⟩ := writes_comes h.toGated call
    exact hzero m (hcomes.moments m hm)
  · obtain rfl := step_eq_some hstep
    exact (writes_keeps h.toGated hcall).releases

/-- A listener of an owner that is gone is reaped and one without an owner stays; of two that are the same the
first is removed; the rest are released together. -/
def reapedCalls : List EmitterCall :=
  [.create 8, .addListener 1 [97] (some 5) (some ⟨0, 8⟩) .succeed, .addListener 1 [97] (some 6) none .succeed,
    .addListener 2 [97] (some 6) none .succeed, .addListener 1 [97] (some 6) none .succeed, .expire ⟨0, 8⟩,
    .removeListenersByOwner 9, .removeListener 1 [97] (some 6)]

theorem listener_gate_reaped : ∃ e e', Runs.exec step {} reapedCalls = some e ∧ e.released = [0, 1] ∧
    e.listenerCount = 2 ∧ e.listenerCount = e.total ∧ step e .releaseAll = some e' ∧
    e'.released = [0, 1] ++ threadsafeCallbacks (e.takes .releaseAll) ∧ e'.released = [0, 1, 2, 3] := by
  have he := Runs.exec_final step {} reapedCalls (by decide +kernel)
  have he' := Runs.step_final step (Runs.final step {} reapedCalls) .releaseAll (by decide +kernel)
  have hreleased : (Runs.final step {} reapedCalls).released = [0, 1] := by decide +kernel
  obtain ⟨hcount, -, -, -, hcalls⟩ := listener_gate_exact he
  refine ⟨_, _, he, hreleased, by decide +kernel, hcount, he', ?_, by decide +kernel⟩
  rw [← hreleased]
  exact ((hcalls .releaseAll _ he').2 rfl).1

end EventEmitter

end RocksdbJs
