import RocksdbJs.Spec.EventEmitter

/-! What one replacement of a key's listeners does to the emitter, and what the loop over all keys does
from that: each mutator is such replacements, with the counter written in between. -/

namespace RocksdbJs

/-- The listeners of a part of the map. -/
def sizeOfEntries (entries : List (Bytes × List ListenerCallback)) : ℕ := (entries.map fun p => p.2.length).sum

def registeredOf (entries : List (Bytes × List ListenerCallback)) : List ℕ :=
  entries.flatMap fun p => threadsafeCallbacks p.2

/-- A key without listeners has no entry. -/
def entryOf (key : Bytes) (listeners : List ListenerCallback) : List (Bytes × List ListenerCallback) :=
  if listeners.isEmpty then [] else [(key, listeners)]

theorem entryOf_cons (key : Bytes) (l : ListenerCallback) (ls : List ListenerCallback) :
    entryOf key (l :: ls) = [(key, l :: ls)] := rfl

theorem entryOf_of_ne_nil {key : Bytes} {listeners : List ListenerCallback} (h : listeners ≠ []) :
    entryOf key listeners = [(key, listeners)] := by
  rw [entryOf, if_neg (by simpa using h)]

@[simp] theorem sizeOfEntries_append (xs ys : List (Bytes × List ListenerCallback)) :
    sizeOfEntries (xs ++ ys) = sizeOfEntries xs + sizeOfEntries ys := by
  simp [sizeOfEntries]

@[simp] theorem sizeOfEntries_cons (p : Bytes × List ListenerCallback) (xs : List (Bytes × List ListenerCallback)) :
    sizeOfEntries (p :: xs) = p.2.length + sizeOfEntries xs := by
  simp [sizeOfEntries]

@[simp] theorem sizeOfEntries_entryOf (key : Bytes) (listeners : List ListenerCallback) :
    sizeOfEntries (entryOf key listeners) = listeners.length := by
  cases listeners <;> simp [entryOf, sizeOfEntries]

@[simp] theorem registeredOf_append (xs ys : List (Bytes × List ListenerCallback)) :
    registeredOf (xs ++ ys) = registeredOf xs ++ registeredOf ys := by
  simp [registeredOf]

@[simp] theorem registeredOf_entryOf (key : Bytes) (listeners : List ListenerCallback) :
    registeredOf (entryOf key listeners) = threadsafeCallbacks listeners := by
  cases listeners <;> simp [entryOf, registeredOf, threadsafeCallbacks]

/-- The listener has not been released. -/
def ListenerCallback.Live (l : ListenerCallback) : Prop := l.threadsafeCallback.isSome ∧ l.callbackRef.isSome

/-- What is erased is what was released. -/
theorem eraseReleased_eq {releases erases : ListenerCallback → Bool}
    (hsel : ∀ l, releases l = true → erases (releaseListenerResources l) = true)
    {ls : List ListenerCallback} (hun : ∀ l ∈ ls, l.Live) :
    eraseReleased erases (releaseWhere releases ls) = ls.filter fun l => !releases l := by
  induction ls with
  | nil => rfl
  | cons l ls ih =>
    have hrest := ih fun x hx => hun x (List.mem_cons_of_mem l hx)
    have hl := (hun l List.mem_cons_self).1
    simp only [eraseReleased, releaseWhere, List.map_cons, List.filter_cons] at hrest ⊢
    by_cases hr : releases l = true
    · have hgone : (releaseListenerResources l).threadsafeCallback.isNone = true := rfl
      simp only [hr, if_true, hsel l hr, hgone, Bool.and_self, Bool.not_true, Bool.false_eq_true, if_false]
      exact hrest
    · have hkept : l.threadsafeCallback.isNone = false := by
        simpa [Option.isNone_iff_eq_none, Option.isSome_iff_ne_none] using hl
      simp only [hr, Bool.false_eq_true, if_false, hkept, Bool.and_false, Bool.not_false, if_true, hrest]

theorem threadsafeCallbacks_split (releases : ListenerCallback → Bool) (ls : List ListenerCallback) :
    (threadsafeCallbacks ls).Perm
      (threadsafeCallbacks (ls.filter releases) ++ threadsafeCallbacks (ls.filter fun l => !releases l)) := by
  rw [threadsafeCallbacks, threadsafeCallbacks, threadsafeCallbacks, ← List.filterMap_append]
  exact (List.filter_append_perm releases ls).symm.filterMap _

namespace EventEmitter

def total (e : EventEmitter) : ℕ := sizeOfEntries e.callbacks

/-- The threadsafe functions of the listeners in the map. -/
def registered (e : EventEmitter) : List ℕ := registeredOf e.callbacks

/-- The emitter between two calls. -/
structure Gated (e : EventEmitter) : Prop where
  count : e.listenerCount = e.total
  nonempty : ∀ p ∈ e.callbacks, p.2 ≠ []
  unreleased : ∀ p ∈ e.callbacks, ∀ l ∈ p.2, l.Live
  keys : (e.callbacks.map Prod.fst).Nodup

/-- `gone` is what was released, and what the map lost. -/
def Releases (e e' : EventEmitter) (gone : List ℕ) : Prop :=
  e'.released = e.released ++ gone ∧ e.registered.Perm (gone ++ e'.registered)

theorem Releases.trans {e e' e'' : EventEmitter} {gone gone' : List ℕ} (h : Releases e e' gone)
    (h' : Releases e' e'' gone') :
    Releases e e'' (gone ++ gone') := by
  refine ⟨by rw [h'.1, h.1, List.append_assoc], ?_⟩
  rw [List.append_assoc]
  exact h.2.trans (h'.2.append_left gone)

theorem Releases.refl (e : EventEmitter) : Releases e e [] := ⟨(List.append_nil _).symm, List.Perm.refl _⟩

section
variable {e e' : EventEmitter} {visited todo : List (Bytes × List ListenerCallback)} {key : Bytes}
    {ls ls' : List ListenerCallback}

/-- A key's listeners are replaced, and the count with them. -/
theorem Gated.replace (h : Gated e) (hat : e.callbacks = visited ++ entryOf key ls ++ todo)
    (hkey : key ∉ (visited ++ todo).map Prod.fst) (hat' : e'.callbacks = visited ++ entryOf key ls' ++ todo)
    (hun : ∀ l ∈ ls', l.Live) (hcount : e'.listenerCount + ls.length = e.listenerCount + ls'.length) : Gated e' := by
  have hmem : ∀ p ∈ e'.callbacks, p ∈ e.callbacks ∨ (p = (key, ls') ∧ ls' ≠ []) := by
    intro p hp
    rw [hat', List.mem_append, List.mem_append] at hp
    rw [hat, List.mem_append, List.mem_append]
    rcases hp with (hp | hp) | hp
    · exact Or.inl (Or.inl (Or.inl hp))
    · right
      cases ls' with
      | nil => simp [entryOf] at hp
      | cons l rest => exact ⟨by simpa [entryOf] using hp, by simp⟩
    · exact Or.inl (Or.inr hp)
  refine ⟨?_, fun p hp => ?_, fun p hp => ?_, ?_⟩
  · have hc := h.count
    simp only [total, hat, hat', sizeOfEntries_append, sizeOfEntries_entryOf] at hc ⊢
    omega
  · rcases hmem p hp with hp | ⟨rfl, hne⟩
    · exact h.nonempty p hp
    · exact hne
  · rcases hmem p hp with hp | ⟨rfl, hne⟩
    · exact h.unreleased p hp
    · exact hun
  · have hall : ((visited ++ todo).map Prod.fst).Nodup := by
      refine h.keys.sublist (List.Sublist.map _ ?_)
      rw [hat, List.append_assoc]
      exact (List.Sublist.refl visited).append (List.sublist_append_right _ todo)
    rw [hat']
    cases ls' with
    | nil => simpa [entryOf] using hall
    | cons l rest =>
      have hperm : (visited ++ entryOf key (l :: rest) ++ todo).Perm ((key, l :: rest) :: (visited ++ todo)) := by
        rw [entryOf_cons, List.append_assoc]
        exact List.perm_middle
      rw [(hperm.map Prod.fst).nodup_iff]
      exact List.nodup_cons.mpr ⟨hkey, hall⟩

theorem releases_replace {gone : List ℕ} (hat : e.callbacks = visited ++ entryOf key ls ++ todo)
    (hat' : e'.callbacks = visited ++ entryOf key ls' ++ todo) (hreleased : e'.released = e.released ++ gone)
    (hperm : (threadsafeCallbacks ls).Perm (gone ++ threadsafeCallbacks ls')) : Releases e e' gone := by
  refine ⟨hreleased, ?_⟩
  simp only [registered, hat, hat', registeredOf_append, registeredOf_entryOf]
  have hmid := (hperm.append_left (registeredOf visited)).append_right (registeredOf todo)
  refine hmid.trans ?_
  rw [← List.append_assoc (registeredOf visited), ← List.append_assoc gone, ← List.append_assoc gone]
  exact (List.perm_append_comm.append_right _).append_right _

end

/-- Where the map has a key, and where it can be added. -/
theorem Gated.find {e : EventEmitter} (h : Gated e) {key : Bytes} {ls : List ListenerCallback}
    (hf : e.find key = some ls) :
    ∃ visited todo, e.callbacks = visited ++ entryOf key ls ++ todo ∧
      key ∉ (visited ++ todo).map Prod.fst ∧ ls ≠ [] := by
  obtain ⟨visited, todo, hat, hfirst⟩ := List.lookup_eq_some_iff.mp hf
  have hne : ls ≠ [] := h.nonempty (key, ls) (by rw [hat]; simp)
  have hkeys := h.keys
  rw [hat, (List.perm_middle.map Prod.fst).nodup_iff] at hkeys
  exact ⟨visited, todo, by rw [hat, entryOf_of_ne_nil hne]; simp, (List.nodup_cons.mp hkeys).1, hne⟩

/-- What the writes of a call come to, for the part `gone` of the map that it releases. -/
structure Keeps (e : EventEmitter) (writes : List EventEmitter) (gone : List ℕ) : Prop where
  gated : Gated (writes.getLastD e)
  releases : Releases e (writes.getLastD e) gone
  fresh : (writes.getLastD e).nextCallback = e.nextCallback
  moments : ∀ m ∈ writes, (m.total : ℤ) ≤ m.listenerCount

theorem Keeps.append {e : EventEmitter} {ws ws' : List EventEmitter} {gone gone' : List ℕ} (h : Keeps e ws gone)
    (h' : Keeps (ws.getLastD e) ws' gone') : Keeps e (ws ++ ws') (gone ++ gone') := by
  have hlast : (ws ++ ws').getLastD e = ws'.getLastD (ws.getLastD e) := by
    cases ws with
    | nil => rfl
    | cons w ws => simp [List.getLast?_append, List.getLast?_cons]
  refine ⟨?_, ?_, ?_, fun m hm => ?_⟩
  · rw [hlast]
    exact h'.gated
  · rw [hlast]
    exact h.releases.trans h'.releases
  · rw [hlast, h'.fresh, h.fresh]
  · rcases List.mem_append.mp hm with hm | hm
    · exact h.moments m hm
    · exact h'.moments m hm

theorem Keeps.nil {e : EventEmitter} (h : Gated e) : Keeps e [] [] := ⟨h, Releases.refl e, rfl, by simp⟩

section
variable {releases erases : ListenerCallback → Bool} {e : EventEmitter}
    {visited todo : List (Bytes × List ListenerCallback)} {key : Bytes}
  {ls : List ListenerCallback}

theorem total_middle (h : e.callbacks = visited ++ (key, ls) :: todo) :
    e.total = sizeOfEntries visited + ls.length + sizeOfEntries todo := by
  rw [total, h, sizeOfEntries_append, sizeOfEntries_cons, Nat.add_assoc]

/-- The writes that take listeners out of one key: their resources are freed, they are erased, the count is lowered,
and a key left without listeners is erased. -/
theorem keeps_fewer {freed erased counted last : EventEmitter} {marked kept : List ListenerCallback}
    {gone : List ℕ} (h : Gated e) (hat : e.callbacks = visited ++ (key, ls) :: todo)
    (hun : ∀ l ∈ kept, l.Live) (hmarked : marked.length = ls.length) (hle : kept.length ≤ ls.length)
    (hfreed : freed.callbacks = visited ++ (key, marked) :: todo ∧ freed.listenerCount = e.listenerCount)
    (herased : erased.callbacks = visited ++ (key, kept) :: todo ∧ erased.listenerCount = e.listenerCount)
    (hcounted : counted.callbacks = visited ++ (key, kept) :: todo ∧ counted.listenerCount + ls.length =
      e.listenerCount + kept.length)
    (hlast : last.callbacks = visited ++ entryOf key kept ++ todo)
    (hrest : last.listenerCount = counted.listenerCount ∧ last.nextCallback = e.nextCallback ∧
      last.released = e.released ++ gone)
    (hperm : (threadsafeCallbacks ls).Perm (gone ++ threadsafeCallbacks kept)) :
    Keeps e [freed, erased, counted, last] gone := by
  have hmem : (key, ls) ∈ e.callbacks := by
    rw [hat]
    simp
  have hkeys := h.keys
  rw [hat, (List.perm_middle.map Prod.fst).nodup_iff] at hkeys
  have hat' : e.callbacks = visited ++ entryOf key ls ++ todo := by
    rw [hat, entryOf_of_ne_nil (h.nonempty _ hmem), List.append_assoc]
    rfl
  have hgated : Gated last := by
    refine h.replace hat' (List.nodup_cons.mp hkeys).1 hlast hun ?_
    rw [hrest.1]
    exact hcounted.2
  have hc := h.count
  rw [total_middle hat] at hc
  refine ⟨hgated, releases_replace hat' hlast hrest.2.2 hperm, hrest.2.1, fun m hm => ?_⟩
  simp only [List.mem_cons, List.not_mem_nil, or_false] at hm
  rcases hm with rfl | rfl | rfl | rfl
  · rw [total_middle hfreed.1, hfreed.2]
    omega
  · rw [total_middle herased.1, herased.2]
    omega
  · rw [total_middle hcounted.1]
    omega
  · exact hgated.count.ge

/-- One key's turn. -/
theorem reapKey_keeps (hsel : ∀ l, releases l = true → erases (releaseListenerResources l) = true) (h : Gated e)
    (hat : e.callbacks = visited ++ (key, ls) :: todo) :
    Keeps e (e.reapKey releases erases visited key ls todo) (threadsafeCallbacks (ls.filter releases)) ∧
      ((e.reapKey releases erases visited key ls todo).getLastD e).callbacks =
        visited ++ entryOf key (ls.filter fun l => !releases l) ++ todo := by
  have hun := h.unreleased (key, ls) (by rw [hat]; simp)
  have hkept : eraseReleased erases (releaseWhere releases ls) = ls.filter fun l => !releases l :=
    eraseReleased_eq hsel hun
  set kept := ls.filter fun l => !releases l with hk
  have hle : kept.length ≤ ls.length := List.length_filter_le _ _
  have hlast : ((e.reapKey releases erases visited key ls todo).getLastD e).callbacks =
      visited ++ entryOf key kept ++ todo := by
    simp only [reapKey, hkept, List.getLastD_cons, List.getLastD_nil]
    cases kept <;> simp [entryOf]
  refine ⟨?_, hlast⟩
  simp only [reapKey, hkept, List.getLastD_cons, List.getLastD_nil] at hlast ⊢
  refine keeps_fewer h hat (fun l hl => hun l (List.mem_of_mem_filter hl)) (List.length_map _) hle ⟨rfl, rfl⟩ ⟨rfl,
    rfl⟩ ⟨rfl, ?_⟩ hlast ?_
    (threadsafeCallbacks_split releases ls)
  · simp only [← hk]
    omega
  · split_ifs <;> exact ⟨rfl, rfl, rfl⟩

/-- The whole loop, by induction on the keys still to come. -/
theorem reap_keeps (hsel : ∀ l, releases l = true → erases (releaseListenerResources l) = true) (h : Gated e)
    (hat : e.callbacks = visited ++ todo) :
    Keeps e (reap releases erases e visited todo) (threadsafeCallbacks ((todo.flatMap Prod.snd).filter releases)) := by
  induction todo generalizing e visited with
  | nil => exact Keeps.nil h
  | cons p todo ih =>
    obtain ⟨key, ls⟩ := p
    obtain ⟨hturn, hnext⟩ := reapKey_keeps hsel h hat
    have hkept : eraseReleased erases (releaseWhere releases ls) = ls.filter fun l => !releases l :=
      eraseReleased_eq hsel (h.unreleased (key, ls) (by rw [hat]; simp))
    have hvisited : (if (ls.filter fun l => !releases l).isEmpty then visited
      else visited ++ [(key, ls.filter fun l => !releases l)]) =
        visited ++ entryOf key (ls.filter fun l => !releases l) := by
      cases ls.filter fun l => !releases l <;> simp [entryOf]
    have hrest := ih hturn.gated hnext
    rw [List.flatMap_cons, List.filter_append, threadsafeCallbacks, List.filterMap_append]
    simp only [reap, hkept, hvisited]
    exact hturn.append hrest

end

end EventEmitter

end RocksdbJs
