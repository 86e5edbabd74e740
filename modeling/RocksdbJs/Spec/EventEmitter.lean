import RocksdbJs.Spec.LogFormat

/-! `EventEmitter` of `event_emitter.cpp`. A call holds the mutex from its first write to its last, but
`notify` reads the count without it, so a call is given as the emitters that it writes one
after another. Environments, functions and threadsafe functions are numbers, and the log of
released threadsafe functions stands for Node. -/

namespace RocksdbJs

/-- What a `weak_ptr` points to: an object at an address, by which one of those made over time it is. -/
structure Owner where
  serial : ℕ
  address : ℕ
deriving DecidableEq, Repr

structure ListenerCallback where
  env : ℕ
  threadsafeCallback : Option ℕ
  /-- The function behind the reference. -/
  callbackRef : Option ℕ
  owner : Option Owner
  hasOwner : Bool
deriving DecidableEq, Repr

def releaseListenerResources (listener : ListenerCallback) : ListenerCallback :=
  { listener with threadsafeCallback := none, callbackRef := none }

structure EventEmitter where
  callbacks : List (Bytes × List ListenerCallback) := []
  /-- A `size_t`, which no number of listeners in memory comes to. -/
  listenerCount : ℤ := 0
  /-- The owners that are alive. -/
  owners : List Owner := []
  nextOwner : ℕ := 0
  nextCallback : ℕ := 0
  /-- The calls of `napi_release_threadsafe_function`. -/
  released : List ℕ := []
deriving DecidableEq, Repr

/-- What the N-API calls of `addListener` come to. -/
inductive AddCalls
  | fail
  | unrefFails
  | succeed
deriving DecidableEq, Repr

inductive EmitterCall
  | create (address : ℕ)
  | expire (owner : Owner)
  | addListener (env : ℕ) (key : Bytes) (callback : Option ℕ) (owner : Option Owner) (calls : AddCalls)
  | removeListener (env : ℕ) (key : Bytes) (callback : Option ℕ)
  | removeListenersByOwner (owner : ℕ)
  | removeListenersByEnv (env : ℕ)
  | releaseAll
deriving DecidableEq, Repr

/-- The threadsafe functions of listeners. -/
def threadsafeCallbacks (listeners : List ListenerCallback) : List ℕ :=
  listeners.filterMap ListenerCallback.threadsafeCallback

def releaseWhere (releases : ListenerCallback → Bool) (listeners : List ListenerCallback) : List ListenerCallback :=
  listeners.map fun l => if releases l then releaseListenerResources l else l

def eraseReleased (erases : ListenerCallback → Bool) (listeners : List ListenerCallback) : List ListenerCallback :=
  listeners.filter fun l => !(erases l && l.threadsafeCallback.isNone)

/-- The result of `removeListener`'s search. A reference that is gone makes it throw. -/
inductive ListenerSearch
  | throws
  | missing
  | found (before : List ListenerCallback) (listener : ListenerCallback) (after : List ListenerCallback)
deriving DecidableEq, Repr

def searchListener (env callback : ℕ) : List ListenerCallback → List ListenerCallback → ListenerSearch
  | _, [] => .missing
  | before, listener :: listeners =>
    if listener.env = env then
      match listener.callbackRef with
      | none => .throws
      | some fn =>
        if fn = callback then .found before listener listeners
          else searchListener env callback (before ++ [listener]) listeners
    else searchListener env callback (before ++ [listener]) listeners

namespace EventEmitter

/-- `weak_ptr::lock`. -/
def lock (e : EventEmitter) (owner : Option Owner) : Option Owner := owner.filter (· ∈ e.owners)

def find (e : EventEmitter) (key : Bytes) : Option (List ListenerCallback) := e.callbacks.lookup key

/-- The map with other listeners under a key that it has. -/
def withListeners (e : EventEmitter) (key : Bytes) (listeners : List ListenerCallback) : EventEmitter :=
  { e with callbacks := e.callbacks.map fun p => if p.1 = key then (key, listeners) else p }

def eraseKey (e : EventEmitter) (key : Bytes) : EventEmitter :=
  { e with callbacks := e.callbacks.filter fun p => p.1 ≠ key }

/-- An owner that is gone, or none, leaves `hasOwner` unset. -/
def newListener (e : EventEmitter) (env callback : ℕ) (owner : Option Owner) : ListenerCallback where
  env := env
  threadsafeCallback := some e.nextCallback
  callbackRef := some callback
  owner := owner
  hasOwner := (e.lock owner).isSome

def addListener (e : EventEmitter) (env : ℕ) (key : Bytes) (callback : Option ℕ) (owner : Option Owner)
    (calls : AddCalls) :
    List EventEmitter :=
  match callback, calls with
  | none, _ => []
  | _, .fail => []
  | _, .unrefFails => [{ e with nextCallback := e.nextCallback + 1, released := e.released ++ [e.nextCallback] }]
  | some callback, .succeed =>
    let listener := e.newListener env callback owner
    let listeners := (e.find key).getD []
    let created := { e with nextCallback := e.nextCallback + 1 }
    let placed := { created with callbacks := if (e.find key).isNone then e.callbacks ++ [(key, [])] else e.callbacks }
    let counted := { placed with listenerCount := e.listenerCount + 1 }
    [created, placed, counted, counted.withListeners key (listeners ++ [listener])]

def removeListener (e : EventEmitter) (env : ℕ) (key : Bytes) (callback : Option ℕ) : List EventEmitter :=
  match callback, e.find key with
  | none, _ => []
  | _, none => []
  | some callback, some listeners =>
    match searchListener env callback [] listeners with
    | .throws => []
    | .missing => if listeners.isEmpty then [e.eraseKey key] else []
    | .found before listener after =>
      let freed := { e with released := e.released ++ listener.threadsafeCallback.toList }
      let marked := freed.withListeners key (before ++ releaseListenerResources listener :: after)
      let erased := freed.withListeners key (before ++ after)
      let counted := { erased with listenerCount := e.listenerCount - 1 }
      [marked, erased, counted, if (before ++ after).isEmpty then counted.eraseKey key else counted]

/-- One turn of the loop over the keys: the listeners that `releases` selects are released, then those
that `erases` selects are erased, if they are released. -/
def reapKey (e : EventEmitter) (releases erases : ListenerCallback → Bool)
    (visited : List (Bytes × List ListenerCallback)) (key : Bytes) (listeners : List ListenerCallback)
    (todo : List (Bytes × List ListenerCallback)) : List EventEmitter :=
  let marked := releaseWhere releases listeners
  let kept := eraseReleased erases marked
  let freed := { e with callbacks := visited ++ (key, marked) :: todo
                        released := e.released ++ threadsafeCallbacks (listeners.filter releases) }
  let erased := { freed with callbacks := visited ++ (key, kept) :: todo }
  let counted := { erased with listenerCount := e.listenerCount - ((listeners.length - kept.length : ℕ) : ℤ) }
  [freed, erased, counted, if kept.isEmpty then { counted with callbacks := visited ++ todo } else counted]

/-- The loop that `removeListenersByOwner` and `removeListenersByEnv` share. -/
def reap (releases erases : ListenerCallback → Bool) :
    EventEmitter → List (Bytes × List ListenerCallback) → List (Bytes × List ListenerCallback) → List EventEmitter
  | _, _, [] => []
  | e, visited, (key, listeners) :: todo =>
    let kept := eraseReleased erases (releaseWhere releases listeners)
    let turn := e.reapKey releases erases visited key listeners todo
    turn ++ reap releases erases (turn.getLastD e) (if kept.isEmpty then visited else visited ++ [(key, kept)]) todo

/-- `shouldRemove`: a listener whose owner is the one given, or is gone. -/
def shouldRemove (e : EventEmitter) (owner : ℕ) (l : ListenerCallback) : Bool :=
  l.hasOwner && (((e.lock l.owner).map Owner.address == some owner) || (e.lock l.owner).isNone)

def removeListenersByOwner (e : EventEmitter) (owner : ℕ) : List EventEmitter :=
  reap (e.shouldRemove owner) (fun l => l.hasOwner) e [] e.callbacks

def removeListenersByEnv (e : EventEmitter) (env : ℕ) : List EventEmitter :=
  reap (fun l => l.env == env) (fun l => l.env == env) e [] e.callbacks

def releaseAll (e : EventEmitter) : List EventEmitter :=
  let freed := { e with callbacks := e.callbacks.map fun p => (p.1, p.2.map releaseListenerResources)
                        released := e.released ++ threadsafeCallbacks (e.callbacks.flatMap Prod.snd) }
  let cleared := { freed with callbacks := [] }
  [freed, cleared, { cleared with listenerCount := 0 }]

/-- The emitters that a call writes, the last of which it leaves. -/
def writes (e : EventEmitter) : EmitterCall → List EventEmitter
  | .create address => [{ e with owners := ⟨e.nextOwner, address⟩ :: e.owners, nextOwner := e.nextOwner + 1 }]
  | .expire owner => [{ e with owners := e.owners.filter (· ≠ owner) }]
  | .addListener env key callback owner calls => e.addListener env key callback owner calls
  | .removeListener env key callback => e.removeListener env key callback
  | .removeListenersByOwner owner => e.removeListenersByOwner owner
  | .removeListenersByEnv env => e.removeListenersByEnv env
  | .releaseAll => e.releaseAll

/-- Two objects that are alive have two addresses, and a listener's owner is or was one. -/
def possible (e : EventEmitter) : EmitterCall → Bool
  | .create address => e.owners.all fun o => o.address ≠ address
  | .expire owner => owner ∈ e.owners
  | .addListener _ _ _ (some owner) _ => owner.serial < e.nextOwner
  | _ => true

def step (e : EventEmitter) (call : EmitterCall) : Option EventEmitter :=
  if e.possible call then some ((e.writes call).getLastD e) else none

/-- `notify`, where the count was read as `seen`: whether it found the key, and the threadsafe functions it called. -/
def notify (e : EventEmitter) (seen : ℤ) (key : Bytes) : Bool × List ℕ :=
  if seen = 0 then (false, [])
  else match e.find key with
    | some listeners => (true, threadsafeCallbacks listeners)
    | none => (false, [])

end EventEmitter

end RocksdbJs
