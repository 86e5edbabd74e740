import RocksdbJs.Sanity.BackupTurns

/-! Over all processes at most one operation at a time works on a backup directory, and no lock
outlives what took it: each that is held belongs to a call in flight, to the caller of
`tryFileLock`, or to an operation whose worker was terminated. -/

namespace RocksdbJs
namespace BackupDirs

/-- The call whose step it is. -/
def Event.call? : Event → Option ℕ
  | .op n _ => some n
  | _ => none

/-- The token that JavaScript gives back. -/
def Pc.dropped? : Pc → Option ℕ
  | .drop t => some t
  | _ => none

namespace World

variable {w w' : World} {n : ℕ} {c : Call} {a : Answer} {e : Event}

/-- A token that is given out is in no use, and JavaScript gives back none that an operation works
with. -/
def TokensOk (w : World) (e : Event) : Prop :=
  ∀ n ∈ e.call?, ∀ c ∈ w.calls[n]?,
    (c.pc.acquired?.isSome = true → w.locks (c.process, w.nextToken c.process) = none) ∧
    ∀ t ∈ c.pc.dropped?, ∀ c' ∈ w.calls, c'.process = c.process → c'.pc.token? ≠ some t

instance decidableTokensOk (w : World) (e : Event) : Decidable (w.TokensOk e) :=
  inferInstanceAs (Decidable (∀ n ∈ e.call?, ∀ c ∈ w.calls[n]?,
    (c.pc.acquired?.isSome = true → w.locks (c.process, w.nextToken c.process) = none) ∧
    ∀ t ∈ c.pc.dropped?, ∀ c' ∈ w.calls, c'.process = c.process → c'.pc.token? ≠ some t))

theorem afterLock_fd (t : ℕ) (op : Op) : (afterLock t op).fd? = none := by
  cases op with
  | backup transactionLogs sync => cases transactionLogs <;> rfl
  | _ => rfl

theorem afterLock_opened (t : ℕ) (op : Op) : (afterLock t op).opened? = none := by
  cases op with
  | backup transactionLogs sync => cases transactionLogs <;> rfl
  | _ => rfl

theorem afterLock_acquired (t : ℕ) (op : Op) : (afterLock t op).acquired? = none := by
  cases op with
  | backup transactionLogs sync => cases transactionLogs <;> rfl
  | _ => rfl

theorem afterLock_token {t t' : ℕ} {op : Op} (h : (afterLock t op).token? = some t') : t' = t := by
  cases op with
  | backup transactionLogs sync => cases transactionLogs <;> exact (Option.some.inj h).symm
  | tryFileLock => cases h
  | _ => exact (Option.some.inj h).symm

/-- A step of a restore touches a database and its own call. -/
theorem restoreStep_eq (hc : w.calls[n]? = some c) {r : RestorePc} (hpc : c.pc = .restore r) {dbDir : Dir}
    {backupId : Option ℕ} (h : w.restoreStep n c dbDir backupId r a = some w') :
    ∃ pc dbs, pc.Bare ∧ w' = { w with dbs := dbs, calls := w.calls.set n { c with pc := pc } } := by
  have hgoto : ∀ (v : World) (pc : Pc), v.calls = w.calls → v = { w with dbs := v.dbs } → pc.Bare →
      ∃ pc' dbs, pc'.Bare ∧ v.goto n c pc = { w with dbs := dbs, calls := w.calls.set n { c with pc := pc' } } := by
    intro v pc hcalls hv hbare
    refine ⟨pc, v.dbs, hbare, ?_⟩
    rw [hv]
    rfl
  have hrestore : ∀ r, (Pc.restore r).Bare := fun _ => ⟨rfl, rfl, rfl, rfl⟩
  have hreturned : ∀ ok, (Pc.returned ok).Bare := fun _ => ⟨rfl, rfl, rfl, rfl⟩
  unfold restoreStep at h
  split at h
  all_goals try cases h
  all_goals try exact hgoto _ _ rfl rfl (hrestore _)
  all_goals try exact hgoto _ _ rfl rfl (hreturned _)
  · split
    · exact hgoto _ _ rfl rfl (hreturned _)
    · exact hgoto _ _ rfl rfl (hrestore _)
  · obtain ⟨b, -, rfl⟩ := Option.map_eq_some_iff.mp h
    exact hgoto _ _ rfl rfl (hrestore _)
  · split
    · exact hgoto _ _ rfl rfl (hrestore _)
    · exact hgoto _ _ rfl rfl (hreturned _)
  · obtain ⟨-, h⟩ := Option.ite_none_right_eq_some.mp h
    cases h
    exact hgoto _ _ rfl rfl (hrestore _)
  · next id s =>
    obtain ⟨-, h⟩ := Option.ite_none_right_eq_some.mp h
    cases h
    refine ⟨c.pc, Function.update w.dbs dbDir { w.dbs dbDir with logs := some s }, hpc ▸ hrestore (.wipe id), ?_⟩
    rw [show ({ c with pc := c.pc } : Call) = c from rfl, set_self hc]
    rfl
  · obtain ⟨s, -, rfl⟩ := Option.map_eq_some_iff.mp h
    exact hgoto _ _ rfl rfl (hrestore _)
  · obtain ⟨s, -, rfl⟩ := Option.map_eq_some_iff.mp h
    exact hgoto _ _ rfl rfl (hrestore _)

theorem Turn.token {t : ℕ} {d d' : Directory} {b : Body} {pc : Pc} {names : List String}
    (h : Turn w n c t a d b d' pc names) :
    pc.token? = some t ∧ pc.fd? = none ∧ pc.opened? = none ∧ pc.acquired? = none := by
  cases h <;> exact ⟨rfl, rfl, rfl, rfl⟩

theorem Locked.turn (h : w.Locked) (hc : w.calls[n]? = some c) {t : ℕ} {b : Body} (hpc : c.pc = .body t b)
    (hturn : w.Turns n c t b a w') :
    w'.Locked := by
  obtain ⟨d, pc, names, hturn, rfl⟩ := hturn
  obtain ⟨htoken, hfd, hopened, hacquired⟩ := Turn.token hturn
  refine h.move hc rfl rfl rfl rfl rfl ?_ ?_ ?_ ?_
  · intro fd hf
    rw [hfd] at hf
    cases hf
  · intro fd hf
    rw [hopened] at hf
    cases hf
  · intro fd hf
    rw [hacquired] at hf
    cases hf
  · intro t' ht
    rw [hpc]
    exact htoken.symm.trans ht

theorem Locked.flock (h : w.Locked) (hc : w.calls[n]? = some c) {fd : ℕ} (hpc : c.pc = .flock fd) {r : FlockResult}
    (hs : w.flock n c fd r = some w') : w'.Locked := by
  have hrefuse : Locked (w.goto n c (.refuse fd)) := by
    refine h.move hc rfl rfl rfl rfl rfl ?_ (fun _ hf => by cases hf) (fun _ hf => by cases hf) fun _ ht => by cases ht
    rw [hpc]
    exact fun _ hf => hf
  cases r with
  | acquired =>
    obtain ⟨⟨-, hfree⟩, hs⟩ := Option.ite_none_right_eq_some.mp hs
    cases hs
    exact h.acquire hc hpc hfree
  | wouldBlock =>
    obtain ⟨-, hs⟩ := Option.ite_none_right_eq_some.mp hs
    cases hs
    exact hrefuse
  | interrupted =>
    cases hs
    exact h
  | unsupported =>
    obtain ⟨hnone, hs⟩ := Option.ite_none_right_eq_some.mp hs
    cases hs
    refine h.move hc rfl rfl rfl rfl rfl ?_ ?_ ?_ fun _ ht => by cases ht
    · rw [hpc]
      exact fun _ hf => hf
    · rw [hpc]
      exact fun _ hf => hf
    · intro _ _ hflocks
      rw [hnone] at hflocks
      cases hflocks
  | failed =>
    cases hs
    exact hrefuse

theorem Locked.eraseToken (h : w.Locked) (hc : w.calls[n]? = some c) {t : ℕ} (ok : Bool)
    (hothers : ∀ (m : ℕ) (c' : Call), m ≠ n → w.calls[m]? = some c' → c'.process = c.process → c'.pc.token? ≠ some t) :
    (w.eraseToken n c t ok).Locked := by
  unfold World.eraseToken
  split
  · exact h.bare hc rfl rfl rfl rfl rfl ⟨rfl, rfl, rfl, rfl⟩
  · next fd hl => exact h.erase hc hl ok hothers

theorem Locked.callStep (h : w.Locked) (hc : w.calls[n]? = some c) (hok : w.TokensOk (.op n a))
    (hs : w.callStep n c a = some w') :
    w'.Locked := by
  obtain ⟨hfresh, hdropped⟩ := hok n rfl c (Option.mem_def.mpr hc)
  have hreturned : ∀ ok, (Pc.returned ok).Bare := fun _ => ⟨rfl, rfl, rfl, rfl⟩
  unfold World.callStep at hs
  split at hs
  · obtain ⟨hfree, hs⟩ := Option.ite_none_right_eq_some.mp hs
    cases hs
    exact h.openFile hc hfree
  · cases hs
    exact h.bare hc rfl rfl rfl rfl rfl (hreturned _)
  · next fd r hpc => exact h.flock hc hpc hs
  · next fd hpc =>
    cases hs
    exact h.closeFd hc (by rw [hpc]; rfl) (hreturned _)
  · next fd hpc =>
    cases hs
    exact h.register hc hpc (hfresh (by rw [hpc]; rfl)) (afterLock_fd _ _) (fun _ ht => afterLock_token ht)
      (afterLock_opened _ _) (afterLock_acquired _ _)
  · next t b a hpc => exact h.turn hc hpc (bodyStep_turns hc hpc hs)
  · next t ok hpc =>
    cases hs
    refine h.eraseToken hc ok fun m c' hmn hm hp => ?_
    exact (h.apart n m c c' (Ne.symm hmn) hc hm hp.symm).token t (by rw [hpc]; rfl)
  · next t hpc =>
    cases hs
    exact h.eraseToken hc true fun m c' _ hm hp => hdropped t (by rw [hpc]; rfl) c' (List.mem_of_getElem? hm) hp
  · next fd ok hpc =>
    cases hs
    exact h.closeFd hc (by rw [hpc]; rfl) (hreturned _)
  · next r a hpc =>
    split at hs
    · obtain ⟨pc, dbs, hbare, rfl⟩ := restoreStep_eq hc hpc hs
      exact h.bare hc rfl rfl rfl rfl rfl hbare
    · cases hs
  · cases hs

theorem Locked.crash (h : w.Locked) (p : ℕ) : (w.crash p).Locked := by
  have hfds : ∀ k, k.1 ≠ p → (w.crash p).fds k = w.fds k := fun k hk => if_neg hk
  have hlocks : ∀ k, k.1 ≠ p → (w.crash p).locks k = w.locks k := fun k hk => if_neg hk
  have hholder : ∀ dir k, w.holder dir = some k → k.1 ≠ p → (w.crash p).holder dir = some k := by
    intro dir k hh hk
    simp [World.crash, hh, hk]
  have hlisted : ∀ p' t fd, (w.crash p).locks (p', t) = some fd → p' ≠ p ∧ w.locks (p', t) = some fd := by
    intro p' t fd hl
    by_cases hp : p' = p
    · simp [World.crash, hp] at hl
    · exact ⟨hp, (hlocks (p', t) hp).symm.trans hl⟩
  have hcalls : ∀ (m : ℕ) (c' : Call), (w.crash p).calls[m]? = some c' →
      c'.pc.Bare ∨ (c'.process ≠ p ∧ w.calls[m]? = some c') := by
    intro m c' hm
    simp only [World.crash, List.getElem?_map, Option.map_eq_some_iff] at hm
    obtain ⟨c, hc, rfl⟩ := hm
    split
    · exact .inl ⟨rfl, rfl, rfl, rfl⟩
    · next hp => exact .inr ⟨hp, hc⟩
  refine ⟨⟨?_, ?_, ?_⟩, ?_, ?_⟩
  · intro dir k hk
    obtain ⟨hh, hne⟩ := Option.filter_eq_some_iff.mp hk
    have hne : k.1 ≠ p := by simpa using hne
    exact (hfds k hne).trans (h.tables.held dir k hh)
  · intro p' t fd hl
    obtain ⟨hp, hl⟩ := hlisted p' t fd hl
    obtain ⟨dir, hf, hlock⟩ := h.tables.registered p' t fd hl
    exact ⟨dir, (hfds (p', fd) hp).trans hf, fun hd => hholder dir _ (hlock hd) hp⟩
  · intro p' t t' fd hl hl'
    exact h.tables.once p' t t' fd (hlisted p' t fd hl).2 (hlisted p' t' fd hl').2
  · intro m c' hm
    obtain hbare | ⟨hp, hm⟩ := hcalls m c' hm
    · exact Fits.of_bare hbare
    · have hfits := h.fits m c' hm
      refine ⟨?_, fun f hf => (hfds (c'.process, f) hp).trans (hfits.opened f hf),
        fun f hf hd => hholder _ _ (hfits.acquired f hf hd) hp, ?_⟩
      · intro f hf
        have hin := hfits.inHand f hf
        exact ⟨(hfds (c'.process, f) hp).symm ▸ hin.1, fun t => (hlocks (c'.process, t) hp).symm ▸ hin.2 t⟩
      · intro t ht
        obtain ⟨f, hl, hf⟩ := hfits.working t ht
        exact ⟨f, (hlocks (c'.process, t) hp).trans hl, (hfds (c'.process, f) hp).trans hf⟩
  · intro m k a b hmk hm hk hp
    obtain hbare | ⟨-, hm⟩ := hcalls m a hm
    · exact Call.Apart.of_bare hbare
    · obtain hbare | ⟨-, hk⟩ := hcalls k b hk
      · exact (Call.Apart.of_bare hbare).symm
      · exact h.apart m k a b hmk hm hk hp

/-- A step of an `rm`: the trees below one name, and the wait that may end with it. -/
theorem removalStep_calls {r : Removal} (hs : w.removalStep r a = some w') :
    (w'.calls = w.calls ∨ ∃ c t, w.calls[r.owner]? = some c ∧ c.pc = .body t .await ∧
      w'.calls = w.calls.set r.owner { c with pc := .release t true }) ∧
    w'.flocks = w.flocks ∧ w'.fds = w.fds ∧ w'.holder = w.holder ∧ w'.locks = w.locks := by
  cases a with
  | partly s =>
    obtain ⟨-, hs⟩ := Option.ite_none_right_eq_some.mp hs
    cases hs
    exact ⟨.inl rfl, rfl, rfl, rfl, rfl⟩
  | ok =>
    cases hs
    exact ⟨.inl rfl, rfl, rfl, rfl, rfl⟩
  | failed =>
    cases hs
    simp only
    split
    · next c hc =>
      split
      · next t hpc => exact ⟨.inr ⟨c, t, hc, hpc, rfl⟩, rfl, rfl, rfl, rfl⟩
      · exact ⟨.inl rfl, rfl, rfl, rfl, rfl⟩
    · exact ⟨.inl rfl, rfl, rfl, rfl, rfl⟩
  | _ => cases hs

theorem Locked.same (h : w.Locked) (hcalls : w'.calls = w.calls) (hflocks : w'.flocks = w.flocks)
    (hfds : w'.fds = w.fds) (hholder : w'.holder = w.holder) (hlocks : w'.locks = w.locks) : w'.Locked :=
  ⟨h.tables.congr hflocks hfds hholder hlocks, fun n c hc =>
    (h.fits n c (hcalls ▸ hc)).congr hflocks hfds hholder hlocks,
    fun n m c c' hnm hc hm => h.apart n m c c' hnm (hcalls ▸ hc) (hcalls ▸ hm)⟩

theorem Locked.step (h : w.Locked) (hok : w.TokensOk e) (hs : w.step e = some w') : w'.Locked := by
  cases e with
  | start p dir op =>
    obtain ⟨-, hs⟩ := Option.ite_none_right_eq_some.mp hs
    cases hs
    exact h.start p dir op
  | op n a =>
    obtain ⟨c, hc, hs⟩ := Option.bind_eq_some_iff.mp hs
    exact h.callStep hc hok hs
  | removal r a =>
    obtain ⟨-, hs⟩ := Option.ite_none_right_eq_some.mp hs
    obtain ⟨hcalls | ⟨c, t, hc, hpc, hcalls⟩, hflocks, hfds, hholder, hlocks⟩ := removalStep_calls hs
    · exact h.same hcalls hflocks hfds hholder hlocks
    · refine h.move hc hcalls hflocks hfds hholder hlocks (fun _ hf => by cases hf) (fun _ hf => by cases hf)
        (fun _ hf => by cases hf) ?_
      rw [hpc]
      exact fun _ ht => ht
  | terminate n =>
    obtain ⟨c, hc, hs⟩ := Option.bind_eq_some_iff.mp hs
    unfold World.terminate at hs
    split at hs
    · next t b id hpc _ =>
      cases hs
      refine h.move hc rfl rfl rfl rfl rfl (fun _ hf => by cases hf) (fun _ hf => by cases hf)
        (fun _ hf => by cases hf) ?_
      rw [hpc]
      exact fun _ ht => ht
    · next t b hpc _ =>
      cases hs
      refine h.move hc rfl rfl rfl rfl rfl (fun _ hf => by cases hf) (fun _ hf => by cases hf)
        (fun _ hf => by cases hf) ?_
      rw [hpc]
      exact fun _ ht => ht
    · cases hs
      exact h.bare hc rfl rfl rfl rfl rfl ⟨rfl, rfl, rfl, rfl⟩
    · cases hs
  | crash p =>
    cases hs
    exact h.crash p
  | corrupt dir id =>
    cases hs
    exact h.same rfl rfl rfl rfl rfl

/-- Nothing runs yet; what is on the disks is left open. -/
structure Initial (w : World) : Prop where
  fds : ∀ h, w.fds h = none
  holder : ∀ dir, w.holder dir = none
  locks : ∀ k, w.locks k = none
  calls : w.calls = []
  removals : w.removals = []

theorem Initial.locked (h : w.Initial) : w.Locked := by
  refine ⟨⟨fun dir k hk => ?_, fun p t fd hl => ?_, fun p t t' fd hl => ?_⟩, fun n c hc => ?_, fun n m c c' _ hc => ?_⟩
  · rw [h.holder] at hk
    cases hk
  · rw [h.locks] at hl
    cases hl
  · rw [h.locks] at hl
    cases hl
  · rw [h.calls] at hc
    cases hc
  · rw [h.calls] at hc
    cases hc

theorem Initial.run_locked (h0 : w.Initial) {es : List Event} (hok : Runs.Along World.step TokensOk w es)
    (hrun : Runs.exec World.step w es = some w') : w'.Locked :=
  Runs.exec_invariant (fun _ _ _ h hok hs => Locked.step h hok hs) h0.locked hok hrun

/-- No two calls have the lock of a directory, from the token on that they get for it until they
give that back. -/
def OneWriter (w : World) : Prop :=
  ∀ (n m : ℕ) (c c' : Call), w.calls[n]? = some c → w.calls[m]? = some c' → c.dir = c'.dir → w.flocks c.dir = true →
    c.pc.token?.isSome → c'.pc.token?.isSome → n = m

theorem Locked.oneWriter (h : w.Locked) : w.OneWriter := by
  intro n m c c' hc hm hdir hflocks ht ht'
  obtain ⟨t, ht⟩ := Option.isSome_iff_exists.mp ht
  obtain ⟨t', ht'⟩ := Option.isSome_iff_exists.mp ht'
  -- both descriptors are the one that the kernel has for the directory
  have hheld : ∀ (k : ℕ) (x : Call) (u : ℕ), w.calls[k]? = some x → x.dir = c.dir → x.pc.token? = some u →
      ∃ fd, w.locks (x.process, u) = some fd ∧ w.holder c.dir = some (x.process, fd) := by
    intro k x u hk hx hu
    obtain ⟨fd, hl, hf⟩ := (h.fits k x hk).working u hu
    obtain ⟨dir, hopen, hlock⟩ := h.tables.registered _ u fd hl
    obtain rfl : x.dir = dir := Option.some.inj (hf.symm.trans hopen)
    exact ⟨fd, hl, hx ▸ hlock (hx ▸ hflocks)⟩
  obtain ⟨fd, hl, hlock⟩ := hheld n c t hc rfl ht
  obtain ⟨fd', hl', hlock'⟩ := hheld m c' t' hm hdir.symm ht'
  obtain ⟨hp, rfl⟩ := Prod.mk.inj (Option.some.inj (hlock.symm.trans hlock'))
  obtain rfl : t = t' := h.tables.once _ t t' fd hl (hp ▸ hl')
  by_contra hnm
  exact (h.apart n m c c' hnm hc hm hp).token t ht ht'

theorem one_writer {es : List Event} (h0 : w.Initial) (hok : Runs.Along World.step TokensOk w es)
    (hrun : Runs.exec World.step w es = some w') : w'.OneWriter :=
  (h0.run_locked hok hrun).oneWriter

/-- File systems with `flock`, and nothing on them. -/
def empty : World := { flocks := fun _ => true }

theorem empty_initial : empty.Initial := ⟨fun _ => rfl, fun _ => rfl, fun _ => rfl, rfl, rfl⟩

/-- A call gets the lock of its directory with a descriptor. -/
def takesLock (n fd : ℕ) : List Event := [.op n (.descriptor fd), .op n (.flock .acquired), .op n .ok]

/-- A process that makes a backup dies while another is refused, and the next one gets the lock. -/
def contended : List Event :=
  .flatten [[.start 0 7 (.backup true true), .start 1 7 (.delete 5)], takesLock 0 3,
    [.op 1 (.descriptor 3), .op 1 (.flock .wouldBlock), .op 1 .ok, .op 0 .ok, .crash 0, .start 1 7 .purge],
    takesLock 2 3]

theorem one_writer_contended : (Runs.final step empty contended).OneWriter ∧
    (Runs.final step empty contended).calls.map Call.pc = [.dead, .returned false, .body 1 .openEngine] :=
  ⟨one_writer empty_initial (by decide +kernel) (Runs.exec_final step empty contended (by decide +kernel)), by
    decide +kernel⟩

/-- The call has the token, or has given it to its caller. -/
def Call.HasToken (c : Call) (t : ℕ) : Prop := c.pc.token? = some t ∨ c.pc = .lent t

theorem Call.not_hasToken_of_fd {fd : ℕ} (h : c.pc.fd? = some fd) (t : ℕ) : ¬ Call.HasToken c t := by
  rintro (ht | ht)
  · cases hpc : c.pc <;> simp [hpc, Pc.fd?, Pc.token?] at h ht
  · rw [ht] at h
    cases h

/-- A call of the process has the descriptor, itself or through its token. -/
def InUse (w : World) (h : Handle) : Prop :=
  ∃ (n : ℕ) (c : Call), w.calls[n]? = some c ∧ c.process = h.1 ∧
    (c.pc.fd? = some h.2 ∨ ∃ t, w.locks (h.1, t) = some h.2 ∧ Call.HasToken c t)

structure GivenBack (w : World) : Prop where
  held : ∀ dir h, w.holder dir = some h → w.InUse h
  opened : ∀ h dir, w.fds h = some dir → w.InUse h
  listed : ∀ p t fd, w.locks (p, t) = some fd → ∃ (n : ℕ) (c : Call), w.calls[n]? = some c ∧
    c.process = p ∧ Call.HasToken c t

/-- What is open or listed has a call that accounts for it. -/
structure Accounted (w : World) : Prop where
  opened : ∀ p fd dir, w.fds (p, fd) = some dir →
    (∃ (n : ℕ) (c : Call), w.calls[n]? = some c ∧ c.process = p ∧ c.pc.fd? = some fd) ∨ ∃ t, w.locks (p, t) = some fd
  listed : ∀ p t fd, w.locks (p, t) = some fd → ∃ (n : ℕ) (c : Call), w.calls[n]? = some c ∧
    c.process = p ∧ Call.HasToken c t

theorem Accounted.givenBack (h : w.Accounted) (hlocked : w.Locked) : w.GivenBack := by
  have hopen : ∀ k dir, w.fds k = some dir → w.InUse k := by
    intro k dir hk
    obtain ⟨n, c, hc, hp, hf⟩ | ⟨t, ht⟩ := h.opened k.1 k.2 dir hk
    · exact ⟨n, c, hc, hp, .inl hf⟩
    · obtain ⟨n, c, hc, hp, htoken⟩ := h.listed k.1 t k.2 ht
      exact ⟨n, c, hc, hp, .inr ⟨t, ht, htoken⟩⟩
  exact ⟨fun dir k hk => hopen k dir (hlocked.tables.held dir k hk), hopen, h.listed⟩

/-- A call that goes on without letting go of anything. -/
theorem Accounted.call (h : w.Accounted) (hc : w.calls[n]? = some c) {pc : Pc}
    (hcalls : w'.calls = w.calls.set n { c with pc := pc })
    (hfds : ∀ p fd dir, w'.fds (p, fd) = some dir → w.fds (p, fd) = some dir ∨ (p = c.process ∧ pc.fd? = some fd) ∨
      ∃ t, w'.locks (p, t) = some fd)
    (hlocks : ∀ p t fd, w'.locks (p, t) = some fd → w.locks (p, t) = some fd ∨
      (p = c.process ∧ Call.HasToken { c with pc := pc } t))
    (hunlisted : ∀ p t fd, w.locks (p, t) = some fd → w'.locks (p, t) = some fd ∨ (p = c.process ∧ pc.fd? = some fd))
    (hfd : ∀ fd, c.pc.fd? = some fd → pc.fd? = some fd ∨ w'.fds (c.process, fd) = none ∨
      ∃ t, w'.locks (c.process, t) = some fd)
    (htoken : ∀ t, Call.HasToken c t → Call.HasToken { c with pc := pc } t ∨ w'.locks (c.process, t) = none) :
    w'.Accounted := by
  have hself : w'.calls[n]? = some { c with pc := pc } := by
    rw [hcalls, getElem?_set_call hc, if_pos rfl]
  have hother : ∀ m, m ≠ n → w'.calls[m]? = w.calls[m]? := by
    intro m hmn
    rw [hcalls, getElem?_set_call hc, if_neg hmn]
  constructor
  · intro p fd dir hopen
    obtain hold | ⟨rfl, hnew⟩ | hlisted := hfds p fd dir hopen
    · obtain ⟨m, c', hm, hp, hf⟩ | ⟨t, ht⟩ := h.opened p fd dir hold
      · by_cases hmn : m = n
        · subst hmn
          obtain rfl : c = c' := Option.some.inj (hc.symm.trans hm)
          subst hp
          obtain hf | hnone | hl := hfd fd hf
          · exact .inl ⟨m, _, hself, rfl, hf⟩
          · rw [hnone] at hopen
            cases hopen
          · exact .inr hl
        · exact .inl ⟨m, c', (hother m hmn).trans hm, hp, hf⟩
      · obtain hl | ⟨rfl, hf⟩ := hunlisted p t fd ht
        · exact .inr ⟨t, hl⟩
        · exact .inl ⟨n, _, hself, rfl, hf⟩
    · exact .inl ⟨n, _, hself, rfl, hnew⟩
    · exact .inr hlisted
  · intro p t fd hl
    obtain hold | ⟨rfl, ht⟩ := hlocks p t fd hl
    · obtain ⟨m, c', hm, hp, ht⟩ := h.listed p t fd hold
      by_cases hmn : m = n
      · subst hmn
        obtain rfl : c = c' := Option.some.inj (hc.symm.trans hm)
        subst hp
        obtain ht | hnone := htoken t ht
        · exact ⟨m, _, hself, rfl, ht⟩
        · rw [hnone] at hl
          cases hl
      · exact ⟨m, c', (hother m hmn).trans hm, hp, ht⟩
    · exact ⟨n, _, hself, rfl, ht⟩

/-- A call that goes on, where the tables stay. -/
theorem Accounted.move (h : w.Accounted) (hc : w.calls[n]? = some c) {pc : Pc}
    (hcalls : w'.calls = w.calls.set n { c with pc := pc }) (hfds : w'.fds = w.fds)
    (hlocks : w'.locks = w.locks) (hfd : ∀ fd, c.pc.fd? = some fd → pc.fd? = some fd)
    (htoken : ∀ t, Call.HasToken c t → Call.HasToken { c with pc := pc } t) : w'.Accounted := by
  refine h.call hc hcalls ?_ ?_ ?_ (fun fd hf => .inl (hfd fd hf)) fun t ht => .inl (htoken t ht)
  · rw [hfds]
    exact fun _ _ _ hf => .inl hf
  · rw [hlocks]
    exact fun _ _ _ hl => .inl hl
  · rw [hlocks]
    exact fun _ _ _ hl => .inl hl

theorem Accounted.same (h : w.Accounted) (hcalls : w'.calls = w.calls) (hfds : w'.fds = w.fds)
    (hlocks : w'.locks = w.locks) :
    w'.Accounted := by
  constructor
  · rw [hfds, hcalls, hlocks]
    exact h.opened
  · rw [hcalls, hlocks]
    exact h.listed

theorem Accounted.start (h : w.Accounted) (p : ℕ) (dir : Dir) (op : Op) :
    Accounted { w with calls := w.calls ++ [⟨p, dir, op, firstPc op⟩] } := by
  have hkept : ∀ (m : ℕ) (c : Call), w.calls[m]? = some c → (w.calls ++ [⟨p, dir, op, firstPc op⟩])[m]? = some c :=
    fun m c hm => (List.getElem?_append_left (lt_of_call hm)).trans hm
  constructor
  · intro p fd dir hf
    obtain ⟨m, c, hm, hp, hf⟩ | hl := h.opened p fd dir hf
    · exact .inl ⟨m, c, hkept m c hm, hp, hf⟩
    · exact .inr hl
  · intro p t fd hl
    obtain ⟨m, c, hm, hp, ht⟩ := h.listed p t fd hl
    exact ⟨m, c, hkept m c hm, hp, ht⟩

theorem Accounted.openFile (h : w.Accounted) (hc : w.calls[n]? = some c) (hpc : c.pc = .openFile) (fd : ℕ) :
    Accounted ({ w with fds := Function.update w.fds (c.process, fd) (some c.dir) }.goto n c (.flock fd)) := by
  refine h.call hc rfl ?_ (fun _ _ _ hl => .inl hl) (fun _ _ _ hl => .inl hl) ?_ ?_
  · intro p f dir hf
    by_cases he : (p, f) = (c.process, fd)
    · obtain ⟨rfl, rfl⟩ := Prod.mk.inj he
      exact .inr (.inl ⟨rfl, rfl⟩)
    · exact .inl ((Function.update_of_ne he _ _).symm.trans hf)
  · intro f hf
    rw [hpc] at hf
    cases hf
  · rintro t (ht | ht) <;> rw [hpc] at ht <;> cases ht

theorem Accounted.closeFd (h : w.Accounted) (hc : w.calls[n]? = some c) {fd : ℕ}
    (hfd : c.pc.fd? = some fd) (ok : Bool) :
    Accounted ((w.closeFd (c.process, fd)).goto n c (.returned ok)) := by
  refine h.call hc rfl ?_ (fun _ _ _ hl => .inl hl) (fun _ _ _ hl => .inl hl) ?_ ?_
  · intro p f dir hf
    by_cases he : (p, f) = (c.process, fd)
    · rw [he] at hf
      simp [goto, World.closeFd] at hf
    · exact .inl ((Function.update_of_ne he _ _).symm.trans hf)
  · intro f hf
    obtain rfl : fd = f := Option.some.inj (hfd.symm.trans hf)
    exact .inr (.inl (Function.update_self ..))
  · exact fun t ht => absurd ht (Call.not_hasToken_of_fd hfd t)

theorem Accounted.register (h : w.Accounted) (hc : w.calls[n]? = some c) {fd : ℕ} (hpc : c.pc = .register fd)
    (hfresh : w.locks (c.process, w.nextToken c.process) = none) :
    Accounted ((w.registerHandle (c.process, fd)).goto n c (afterLock (w.nextToken c.process) c.op)) := by
  have hnew : (w.registerHandle (c.process, fd)).locks (c.process, w.nextToken c.process) = some fd :=
    Function.update_self ..
  refine h.call hc rfl (fun _ _ _ hf => .inl hf) ?_ ?_ ?_ ?_
  · intro p t f hl
    by_cases he : (p, t) = (c.process, w.nextToken c.process)
    · obtain ⟨rfl, rfl⟩ := Prod.mk.inj he
      refine .inr ⟨rfl, ?_⟩
      cases hop : c.op with
      | backup transactionLogs sync => cases transactionLogs <;> exact .inl rfl
      | tryFileLock => exact .inr rfl
      | _ => exact .inl rfl
    · exact .inl ((Function.update_of_ne he _ _).symm.trans hl)
  · intro p t f hl
    refine .inl ((Function.update_of_ne ?_ _ _).trans hl)
    intro he
    rw [he, hfresh] at hl
    cases hl
  · intro f hf
    rw [hpc] at hf
    obtain rfl : fd = f := Option.some.inj hf
    exact .inr (.inr ⟨_, hnew⟩)
  · rintro t (ht | ht) <;> rw [hpc] at ht <;> cases ht

theorem Accounted.eraseToken (h : w.Accounted) (hc : w.calls[n]? = some c) {t : ℕ} (ok : Bool) (hfd : c.pc.fd? = none)
    (hown : ∀ t', Call.HasToken c t' → t' = t) : (w.eraseToken n c t ok).Accounted := by
  unfold World.eraseToken
  split
  · next hnone =>
    refine h.call hc rfl (fun _ _ _ hf => .inl hf) (fun _ _ _ hl => .inl hl) (fun _ _ _ hl => .inl hl) ?_ ?_
    · intro f hf
      rw [hfd] at hf
      cases hf
    · intro t' ht
      rw [hown t' ht]
      exact .inr hnone
  · next fd hl =>
    refine h.call hc rfl (fun _ _ _ hf => .inl hf) ?_ ?_ ?_ ?_
    · intro p t' f hl'
      by_cases he : (p, t') = (c.process, t)
      · rw [he] at hl'
        simp [goto] at hl'
      · exact .inl ((Function.update_of_ne he _ _).symm.trans hl')
    · intro p t' f hl'
      by_cases he : (p, t') = (c.process, t)
      · obtain ⟨rfl, rfl⟩ := Prod.mk.inj he
        exact .inr ⟨rfl, hl.symm.trans hl'⟩
      · exact .inl ((Function.update_of_ne he _ _).trans hl')
    · intro f hf
      rw [hfd] at hf
      cases hf
    · intro t' ht
      rw [hown t' ht]
      exact .inr (Function.update_self ..)

theorem Accounted.turn (h : w.Accounted) (hc : w.calls[n]? = some c) {t : ℕ} {b : Body}
    (hpc : c.pc = .body t b) (hturn : w.Turns n c t b a w') :
    w'.Accounted := by
  obtain ⟨d, pc, names, hturn, rfl⟩ := hturn
  refine h.move hc rfl rfl rfl ?_ ?_
  · intro f hf
    rw [hpc] at hf
    cases hf
  · rintro t' (ht | ht)
    · rw [hpc] at ht
      exact .inl ((Turn.token hturn).1.trans ht)
    · rw [hpc] at ht
      cases ht

/-- A call without anything in hand has nothing to let go of. -/
theorem Accounted.idle (h : w.Accounted) (hc : w.calls[n]? = some c) {pc : Pc}
    (hcalls : w'.calls = w.calls.set n { c with pc := pc }) (hfds : w'.fds = w.fds)
    (hlocks : w'.locks = w.locks) (hfd : c.pc.fd? = none) (htoken : ∀ t, ¬ Call.HasToken c t) :
    w'.Accounted := by
  refine h.move hc hcalls hfds hlocks ?_ fun t ht => absurd ht (htoken t)
  intro f hf
  rw [hfd] at hf
  cases hf

theorem Accounted.flock (h : w.Accounted) (hc : w.calls[n]? = some c) {fd : ℕ} (hpc : c.pc = .flock fd)
    {r : FlockResult} (hs : w.flock n c fd r = some w') : w'.Accounted := by
  have htoken : ∀ pc t, Call.HasToken c t → Call.HasToken { c with pc := pc } t := by
    rintro pc t (ht | ht) <;> rw [hpc] at ht <;> cases ht
  have hrefuse : Accounted (w.goto n c (.refuse fd)) := by
    refine h.move hc rfl rfl rfl ?_ (htoken _)
    rw [hpc]
    exact fun _ hf => hf
  cases r with
  | acquired =>
    obtain ⟨-, hs⟩ := Option.ite_none_right_eq_some.mp hs
    cases hs
    refine h.move hc rfl rfl rfl ?_ (htoken _)
    rw [hpc]
    exact fun _ hf => hf
  | wouldBlock =>
    obtain ⟨-, hs⟩ := Option.ite_none_right_eq_some.mp hs
    cases hs
    exact hrefuse
  | interrupted =>
    cases hs
    exact h
  | unsupported =>
    obtain ⟨-, hs⟩ := Option.ite_none_right_eq_some.mp hs
    cases hs
    refine h.move hc rfl rfl rfl ?_ (htoken _)
    rw [hpc]
    exact fun _ hf => hf
  | failed =>
    cases hs
    exact hrefuse

theorem Accounted.callStep (h : w.Accounted) (hc : w.calls[n]? = some c) (hok : w.TokensOk (.op n a))
    (hs : w.callStep n c a = some w') :
    w'.Accounted := by
  obtain ⟨hfresh, hdropped⟩ := hok n rfl c (Option.mem_def.mpr hc)
  unfold World.callStep at hs
  split at hs
  · next fd hpc =>
    obtain ⟨-, hs⟩ := Option.ite_none_right_eq_some.mp hs
    cases hs
    exact h.openFile hc hpc fd
  · next hpc =>
    cases hs
    refine h.idle hc rfl rfl rfl (by rw [hpc]; rfl) ?_
    rintro t (ht | ht) <;> rw [hpc] at ht <;> cases ht
  · next fd r hpc => exact h.flock hc hpc hs
  · next fd hpc =>
    cases hs
    exact h.closeFd hc (by rw [hpc]; rfl) _
  · next fd hpc =>
    cases hs
    exact h.register hc hpc (hfresh (by rw [hpc]; rfl))
  · next t b a hpc => exact h.turn hc hpc (bodyStep_turns hc hpc hs)
  · next t ok hpc =>
    cases hs
    refine h.eraseToken hc ok (by rw [hpc]; rfl) ?_
    rintro t' (ht | ht) <;> rw [hpc] at ht
    · exact (Option.some.inj ht).symm
    · cases ht
  · next t hpc =>
    cases hs
    refine h.eraseToken hc true (by rw [hpc]; rfl) ?_
    rintro t' (ht | ht) <;> rw [hpc] at ht <;> cases ht
  · next fd ok hpc =>
    cases hs
    exact h.closeFd hc (by rw [hpc]; rfl) _
  · next r a hpc =>
    split at hs
    · obtain ⟨pc, dbs, hbare, rfl⟩ := restoreStep_eq hc hpc hs
      refine h.idle hc rfl rfl rfl (by rw [hpc]; rfl) ?_
      rintro t (ht | ht) <;> rw [hpc] at ht <;> cases ht
    · cases hs
  · cases hs

theorem Accounted.crash (h : w.Accounted) (p : ℕ) : (w.crash p).Accounted := by
  have hkept : ∀ (m : ℕ) (c : Call), w.calls[m]? = some c → c.process ≠ p → (w.crash p).calls[m]? = some c := by
    intro m c hm hp
    simp [World.crash, List.getElem?_map, hm, hp]
  have hlisted : ∀ p' t fd, (w.crash p).locks (p', t) = some fd → p' ≠ p ∧ w.locks (p', t) = some fd := by
    intro p' t fd hl
    by_cases hp : p' = p
    · simp [World.crash, hp] at hl
    · exact ⟨hp, (if_neg hp).symm.trans hl⟩
  constructor
  · intro p' fd dir hf
    by_cases hp : p' = p
    · simp [World.crash, hp] at hf
    · obtain ⟨m, c, hm, rfl, hfd⟩ | ⟨t, ht⟩ := h.opened p' fd dir ((if_neg hp).symm.trans hf)
      · exact .inl ⟨m, c, hkept m c hm hp, rfl, hfd⟩
      · exact .inr ⟨t, (if_neg hp).trans ht⟩
  · intro p' t fd hl
    obtain ⟨hp, hl⟩ := hlisted p' t fd hl
    obtain ⟨m, c, hm, rfl, ht⟩ := h.listed p' t fd hl
    exact ⟨m, c, hkept m c hm hp, rfl, ht⟩

theorem Accounted.step (h : w.Accounted) (hok : w.TokensOk e) (hs : w.step e = some w') : w'.Accounted := by
  cases e with
  | start p dir op =>
    obtain ⟨-, hs⟩ := Option.ite_none_right_eq_some.mp hs
    cases hs
    exact h.start p dir op
  | op n a =>
    obtain ⟨c, hc, hs⟩ := Option.bind_eq_some_iff.mp hs
    exact h.callStep hc hok hs
  | removal r a =>
    obtain ⟨-, hs⟩ := Option.ite_none_right_eq_some.mp hs
    obtain ⟨hcalls | ⟨c, t, hc, hpc, hcalls⟩, -, hfds, -, hlocks⟩ := removalStep_calls hs
    · exact h.same hcalls hfds hlocks
    · refine h.move hc hcalls hfds hlocks ?_ ?_
      · intro f hf
        rw [hpc] at hf
        cases hf
      · rintro t' (ht | ht) <;> rw [hpc] at ht
        · exact .inl ht
        · cases ht
  | terminate n =>
    obtain ⟨c, hc, hs⟩ := Option.bind_eq_some_iff.mp hs
    have habandon : ∀ t b, c.pc = .body t b → Accounted (w.goto n c (.abandoned t)) := by
      intro t b hpc
      refine h.move hc rfl rfl rfl ?_ ?_
      · intro f hf
        rw [hpc] at hf
        cases hf
      · rintro t' (ht | ht) <;> rw [hpc] at ht
        · exact .inl ht
        · cases ht
    unfold World.terminate at hs
    split at hs
    · next hpc _ =>
      cases hs
      exact habandon _ _ hpc
    · next hpc _ =>
      cases hs
      exact habandon _ _ hpc
    · next hpc =>
      cases hs
      refine h.idle hc rfl rfl rfl (by rw [hpc]; rfl) ?_
      rintro t (ht | ht) <;> rw [hpc] at ht <;> cases ht
    · cases hs
  | crash p =>
    cases hs
    exact h.crash p
  | corrupt dir id =>
    cases hs
    exact h.same rfl rfl rfl

theorem Initial.accounted (h : w.Initial) : w.Accounted := by
  constructor
  · intro p fd dir hf
    rw [h.fds] at hf
    cases hf
  · intro p t fd hl
    rw [h.locks] at hl
    cases hl

theorem locks_given_back {es : List Event} (h0 : w.Initial) (hok : Runs.Along World.step TokensOk w es)
    (hrun : Runs.exec World.step w es = some w') : w'.GivenBack :=
  (Runs.exec_invariant (fun _ _ _ h hok hs => Accounted.step h hok hs) h0.accounted hok hrun).givenBack
    (h0.run_locked hok hrun)

theorem locks_given_back_contended : (Runs.final step empty contended).GivenBack :=
  locks_given_back empty_initial (by decide +kernel) (Runs.exec_final step empty contended (by decide +kernel))

/-- So where all calls are through, nothing is locked. -/
theorem GivenBack.unlocked (h : w.GivenBack)
    (hthrough : ∀ c ∈ w.calls, c.pc.fd? = none ∧ ∀ t, ¬ Call.HasToken c t) (dir : Dir) :
    w.holder dir = none := by
  cases hheld : w.holder dir with
  | none => rfl
  | some k =>
    obtain ⟨n, c, hc, -, hf | ⟨t, -, ht⟩⟩ := h.held dir k hheld
    · rw [(hthrough c (List.mem_of_getElem? hc)).1] at hf
      cases hf
    · exact absurd ht ((hthrough c (List.mem_of_getElem? hc)).2 t)

/-- Where the file system has no `flock` every call is let in. -/
theorem unsupported_two_writers :
    (Runs.final step { flocks := fun _ => false } ([.start 0 7 .purge, .start 1 7 .purge] ++
      [.op 0 (.descriptor 3), .op 1 (.descriptor 3), .op 0 (.flock .unsupported), .op 1 (.flock .unsupported),
        .op 0 .ok, .op 1 .ok])).calls.map
        Call.pc = [.body 1 .openEngine, .body 1 .openEngine] := by
  decide +kernel

end World

end BackupDirs
end RocksdbJs
