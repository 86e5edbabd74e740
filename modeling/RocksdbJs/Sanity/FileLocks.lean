import Mathlib.Tactic
import RocksdbJs.Spec.BackupDirs

/-! What the lock files, the descriptors and the token tables of the processes have to do with each
other and with the calls in flight. A call takes part by the token or the descriptor that it has in
hand, so a step is judged by what it does to these. -/

namespace RocksdbJs
namespace BackupDirs

/-- The token that a call has and will give back, or never will. -/
def Pc.token? : Pc → Option ℕ
  | .body t _ | .release t _ | .abandoned t => some t
  | _ => none

/-- The descriptor that a call has in hand, in no table. -/
def Pc.fd? : Pc → Option ℕ
  | .flock fd | .refuse fd | .register fd | .close fd _ => some fd
  | _ => none

/-- The descriptor that a call has opened in its own directory. -/
def Pc.opened? : Pc → Option ℕ
  | .flock fd | .register fd => some fd
  | _ => none

def Pc.acquired? : Pc → Option ℕ
  | .register fd => some fd
  | _ => none

theorem Pc.fd?_of_opened {pc : Pc} {fd : ℕ} (h : pc.opened? = some fd) : pc.fd? = some fd := by
  cases pc <;> simp_all [Pc.opened?, Pc.fd?]

theorem Pc.fd?_of_acquired {pc : Pc} {fd : ℕ} (h : pc.acquired? = some fd) : pc.fd? = some fd := by
  cases pc <;> simp_all [Pc.acquired?, Pc.fd?]

/-- A call that has nothing in hand. -/
structure Pc.Bare (pc : Pc) : Prop where
  fd : pc.fd? = none
  token : pc.token? = none
  opened : pc.opened? = none
  acquired : pc.acquired? = none

namespace World

variable {w w' : World} {n m : ℕ} {c c' : Call} {fd t : ℕ} {pc : Pc}

theorem lt_of_call (hc : w.calls[n]? = some c) : n < w.calls.length := (List.getElem?_eq_some_iff.mp hc).1

theorem set_self (hc : w.calls[n]? = some c) : w.calls.set n c = w.calls := by
  obtain ⟨hlt, rfl⟩ := List.getElem?_eq_some_iff.mp hc
  exact List.set_getElem_self hlt

theorem getElem?_set_call (hc : w.calls[n]? = some c) (m : ℕ) :
    (w.calls.set n c')[m]? = if m = n then some c' else w.calls[m]? := by
  rw [List.getElem?_set]
  by_cases h : n = m
  · subst h
    simp [lt_of_call hc]
  · simp [h, Ne.symm h]

theorem call_of_set (hc : w.calls[n]? = some c) {new : Call} (hm : (w.calls.set n new)[m]? = some c') :
    (m = n ∧ c' = new) ∨ (m ≠ n ∧ w.calls[m]? = some c') := by
  rw [getElem?_set_call hc] at hm
  by_cases hmn : m = n
  · rw [if_pos hmn] at hm
    exact .inl ⟨hmn, (Option.some.inj hm).symm⟩
  · rw [if_neg hmn] at hm
    exact .inr ⟨hmn, hm⟩

/-- What the kernel has locked is open, and what a process has in its table is open, locked where
that is possible, and there once. -/
structure Tables (w : World) : Prop where
  held : ∀ dir h, w.holder dir = some h → w.fds h = some dir
  registered : ∀ p t fd, w.locks (p, t) = some fd →
    ∃ dir, w.fds (p, fd) = some dir ∧ (w.flocks dir = true → w.holder dir = some (p, fd))
  once : ∀ p t t' fd, w.locks (p, t) = some fd → w.locks (p, t') = some fd → t = t'

/-- What a call has in hand is what the tables say. -/
structure Fits (w : World) (c : Call) : Prop where
  inHand : ∀ fd, c.pc.fd? = some fd → (w.fds (c.process, fd)).isSome ∧ ∀ t, w.locks (c.process, t) ≠ some fd
  opened : ∀ fd, c.pc.opened? = some fd → w.fds (c.process, fd) = some c.dir
  acquired : ∀ fd, c.pc.acquired? = some fd → w.flocks c.dir = true → w.holder c.dir = some (c.process, fd)
  working : ∀ t, c.pc.token? = some t → ∃ fd, w.locks (c.process, t) = some fd ∧ w.fds (c.process, fd) = some c.dir

end World

/-- Two calls of a process have nothing in hand together. -/
structure Call.Apart (c c' : Call) : Prop where
  fd : ∀ fd, c.pc.fd? = some fd → c'.pc.fd? ≠ some fd
  token : ∀ t, c.pc.token? = some t → c'.pc.token? ≠ some t

namespace Call

variable {c c' : Call}

theorem Apart.symm (h : c.Apart c') : c'.Apart c := ⟨fun fd hf hf' => h.fd fd hf' hf, fun t ht ht' => h.token t ht' ht⟩

theorem Apart.of_bare (h : c.pc.Bare) : c.Apart c' := by
  constructor
  · intro fd hfd
    rw [h.fd] at hfd
    cases hfd
  · intro t ht
    rw [h.token] at ht
    cases ht

end Call

namespace World

variable {w w' : World} {n m : ℕ} {c c' : Call} {fd t : ℕ} {pc : Pc}

structure Locked (w : World) : Prop where
  tables : w.Tables
  fits : ∀ (n : ℕ) (c : Call), w.calls[n]? = some c → w.Fits c
  apart : ∀ (n m : ℕ) (c c' : Call), n ≠ m → w.calls[n]? = some c → w.calls[m]? = some c' →
    c.process = c'.process → c.Apart c'

theorem Fits.of_bare (h : c.pc.Bare) : w.Fits c where
  inHand fd hfd := by rw [h.fd] at hfd; cases hfd
  opened fd hfd := by rw [h.opened] at hfd; cases hfd
  acquired fd hfd := by rw [h.acquired] at hfd; cases hfd
  working t ht := by rw [h.token] at ht; cases ht

theorem Tables.congr (h : w.Tables) (hflocks : w'.flocks = w.flocks) (hfds : w'.fds = w.fds)
    (hholder : w'.holder = w.holder) (hlocks : w'.locks = w.locks) : w'.Tables := by
  constructor
  · rw [hholder, hfds]; exact h.held
  · rw [hlocks, hfds, hflocks, hholder]; exact h.registered
  · rw [hlocks]; exact h.once

theorem Fits.congr (h : w.Fits c) (hflocks : w'.flocks = w.flocks) (hfds : w'.fds = w.fds)
    (hholder : w'.holder = w.holder) (hlocks : w'.locks = w.locks) : w'.Fits c := by
  constructor
  · rw [hlocks, hfds]; exact h.inHand
  · rw [hfds]; exact h.opened
  · rw [hflocks, hholder]; exact h.acquired
  · rw [hlocks, hfds]; exact h.working

/-- A step of one call: what it owes is its own part and what the others rely on. -/
theorem Locked.call (h : w.Locked) (hc : w.calls[n]? = some c)
    (hcalls : w'.calls = w.calls.set n { c with pc := pc }) (htables : w'.Tables)
    (hnew : w'.Fits { c with pc := pc })
    (hothers : ∀ (m : ℕ) (c' : Call), m ≠ n → w.calls[m]? = some c' → w'.Fits c')
    (hapart : ∀ (m : ℕ) (c' : Call), m ≠ n → w.calls[m]? = some c' → c'.process = c.process →
      Call.Apart { c with pc := pc } c') :
    w'.Locked := by
  refine ⟨htables, ?_, ?_⟩
  · intro m c' hm
    rw [hcalls] at hm
    obtain ⟨-, rfl⟩ | ⟨hmn, hm⟩ := call_of_set hc hm
    · exact hnew
    · exact hothers m c' hmn hm
  · intro m k a b hmk hm hk hp
    rw [hcalls] at hm hk
    obtain ⟨hmn, rfl⟩ | ⟨hmn, hm⟩ := call_of_set hc hm <;> obtain ⟨hkn, rfl⟩ | ⟨hkn, hk⟩ := call_of_set hc hk
    · exact absurd (hmn.trans hkn.symm) hmk
    · exact hapart k b hkn hk hp.symm
    · exact (hapart m a hmn hm hp).symm
    · exact h.apart m k a b hmk hm hk hp

/-- A step that leaves the tables: the call has in hand what it had, or nothing. -/
theorem Locked.move (h : w.Locked) (hc : w.calls[n]? = some c)
    (hcalls : w'.calls = w.calls.set n { c with pc := pc }) (hflocks : w'.flocks = w.flocks)
    (hfds : w'.fds = w.fds) (hholder : w'.holder = w.holder) (hlocks : w'.locks = w.locks)
    (hfd : ∀ fd, pc.fd? = some fd → c.pc.fd? = some fd)
    (hopened : ∀ fd, pc.opened? = some fd → c.pc.opened? = some fd)
    (hacquired : ∀ fd, pc.acquired? = some fd → w.flocks c.dir = true → c.pc.acquired? = some fd)
    (htoken : ∀ t, pc.token? = some t → c.pc.token? = some t) : w'.Locked := by
  refine h.call hc hcalls (h.tables.congr hflocks hfds hholder hlocks) (Fits.congr ?_ hflocks hfds hholder hlocks)
    (fun m c' _ hm => (h.fits m c' hm).congr hflocks hfds hholder hlocks) ?_
  · have hown := h.fits n c hc
    exact {
      inHand := fun fd hf => hown.inHand fd (hfd fd hf)
      opened := fun fd hf => hown.opened fd (hopened fd hf)
      acquired := fun fd hf hl => hown.acquired fd (hacquired fd hf hl) hl
      working := fun t ht => hown.working t (htoken t ht) }
  · intro m c' hmn hm hp
    have hap := h.apart n m c c' (Ne.symm hmn) hc hm hp.symm
    exact ⟨fun fd hf => hap.fd fd (hfd fd hf), fun t ht => hap.token t (htoken t ht)⟩

theorem Locked.bare (h : w.Locked) (hc : w.calls[n]? = some c)
    (hcalls : w'.calls = w.calls.set n { c with pc := pc }) (hflocks : w'.flocks = w.flocks)
    (hfds : w'.fds = w.fds) (hholder : w'.holder = w.holder) (hlocks : w'.locks = w.locks) (hpc : pc.Bare) :
    w'.Locked :=
  h.call hc hcalls (h.tables.congr hflocks hfds hholder hlocks) (Fits.of_bare hpc)
    (fun m c' _ hm => (h.fits m c' hm).congr hflocks hfds hholder hlocks) fun _ _ _ _ _ => Call.Apart.of_bare hpc

theorem Locked.start (h : w.Locked) (p : ℕ) (dir : Dir) (op : Op) :
    Locked { w with calls := w.calls ++ [⟨p, dir, op, firstPc op⟩] } := by
  have hbare : (firstPc op).Bare := by cases op <;> exact ⟨rfl, rfl, rfl, rfl⟩
  have hold : ∀ (m : ℕ) (c : Call), (w.calls ++ [⟨p, dir, op, firstPc op⟩])[m]? = some c →
      w.calls[m]? = some c ∨ (m = w.calls.length ∧ c.pc = firstPc op) := by
    intro m c hm
    rcases Nat.lt_or_ge m w.calls.length with hlt | hge
    · rw [List.getElem?_append_left hlt] at hm
      exact .inl hm
    · rw [List.getElem?_append_right hge, List.getElem?_singleton] at hm
      by_cases h0 : m - w.calls.length = 0
      · rw [if_pos h0] at hm
        exact .inr ⟨by omega, by rw [← Option.some.inj hm]⟩
      · rw [if_neg h0] at hm
        cases hm
  refine ⟨h.tables.congr rfl rfl rfl rfl, ?_, ?_⟩
  · intro m c hm
    obtain hm | ⟨-, hpc⟩ := hold m c hm
    · exact (h.fits m c hm).congr rfl rfl rfl rfl
    · exact Fits.of_bare (hpc ▸ hbare)
  · intro m k a b hmk hm hk hp
    obtain hm | ⟨hml, hpc⟩ := hold m a hm
    · obtain hk | ⟨-, hpc⟩ := hold k b hk
      · exact h.apart m k a b hmk hm hk hp
      · exact (Call.Apart.of_bare (hpc ▸ hbare)).symm
    · exact Call.Apart.of_bare (hpc ▸ hbare)

/-- A new descriptor: its number is in no table and no hand, as all those are open. -/
theorem Locked.openFile (h : w.Locked) (hc : w.calls[n]? = some c) (hfree : w.fds (c.process, fd) = none) :
    Locked ({ w with fds := Function.update w.fds (c.process, fd) (some c.dir) }.goto n c (.flock fd)) := by
  have hne : ∀ k dir, w.fds k = some dir → k ≠ (c.process, fd) := by
    rintro k dir hk rfl
    rw [hfree] at hk
    cases hk
  have hkept : ∀ k dir, w.fds k = some dir → Function.update w.fds (c.process, fd) (some c.dir) k = some dir :=
    fun k dir hk => (Function.update_of_ne (hne k dir hk) _ _).trans hk
  have hself : Function.update w.fds (c.process, fd) (some c.dir) (c.process, fd) = some c.dir :=
    Function.update_self ..
  refine h.call hc rfl ?_ ?_ ?_ ?_
  · refine ⟨fun dir k hk => hkept k dir (h.tables.held dir k hk), ?_, h.tables.once⟩
    intro p t f hl
    obtain ⟨dir, hf, hlock⟩ := h.tables.registered p t f hl
    exact ⟨dir, hkept _ dir hf, hlock⟩
  · refine ⟨?_, ?_, fun _ hf => (by cases hf), fun _ ht => (by cases ht)⟩
    · rintro f hf
      obtain rfl : fd = f := Option.some.inj hf
      refine ⟨Option.isSome_iff_exists.mpr ⟨_, hself⟩, fun t ht => ?_⟩
      obtain ⟨dir, hdir, -⟩ := h.tables.registered _ t _ ht
      exact hne _ dir hdir rfl
    · rintro f hf
      obtain rfl : fd = f := Option.some.inj hf
      exact hself
  · intro m c' _ hm
    have hfits := h.fits m c' hm
    refine ⟨?_, fun f hf => hkept _ _ (hfits.opened f hf), hfits.acquired, ?_⟩
    · intro f hf
      obtain ⟨hopen, hlist⟩ := hfits.inHand f hf
      obtain ⟨dir, hdir⟩ := Option.isSome_iff_exists.mp hopen
      exact ⟨Option.isSome_iff_exists.mpr ⟨dir, hkept _ dir hdir⟩, hlist⟩
    · intro t ht
      obtain ⟨f, hl, hf⟩ := hfits.working t ht
      exact ⟨f, hl, hkept _ _ hf⟩
  · intro m c' _ hm hp
    refine ⟨?_, fun t ht => (by cases ht)⟩
    rintro f hf hf'
    obtain rfl : fd = f := Option.some.inj hf
    have hopen := ((h.fits m c' hm).inHand fd hf').1
    rw [hp, hfree] at hopen
    cases hopen

/-- `flock` gives the lock of a directory that nobody has. -/
theorem Locked.acquire (h : w.Locked) (hc : w.calls[n]? = some c) (hpc : c.pc = .flock fd)
    (hfree : w.holder c.dir = none) :
    Locked ({ w with holder := Function.update w.holder c.dir (some (c.process, fd)) }.goto n c (.register fd)) := by
  have hown := h.fits n c hc
  have hopen := hown.opened fd (by rw [hpc]; rfl)
  have hkept : ∀ dir k, w.holder dir = some k → Function.update w.holder c.dir (some (c.process, fd)) dir = some k := by
    intro dir k hk
    have hne : dir ≠ c.dir := by
      rintro rfl
      rw [hfree] at hk
      cases hk
    exact (Function.update_of_ne hne _ _).trans hk
  refine h.call hc rfl ?_ ?_ ?_ ?_
  · refine ⟨?_, ?_, h.tables.once⟩
    · intro dir k hk
      by_cases hdir : dir = c.dir
      · subst hdir
        obtain rfl : (c.process, fd) = k := by simpa [goto] using hk
        exact hopen
      · exact h.tables.held dir k (by simpa [goto, Function.update_of_ne hdir] using hk)
    · intro p t f hl
      obtain ⟨dir, hf, hlock⟩ := h.tables.registered p t f hl
      exact ⟨dir, hf, fun hd => hkept dir _ (hlock hd)⟩
  · refine ⟨?_, ?_, ?_, fun _ ht => (by cases ht)⟩
    · rintro f hf
      obtain rfl : fd = f := Option.some.inj hf
      exact hown.inHand fd (by rw [hpc]; rfl)
    · rintro f hf
      obtain rfl : fd = f := Option.some.inj hf
      exact hopen
    · rintro f hf -
      obtain rfl : fd = f := Option.some.inj hf
      exact Function.update_self ..
  · intro m c' _ hm
    have hfits := h.fits m c' hm
    exact ⟨hfits.inHand, hfits.opened, fun f hf hd => hkept _ _ (hfits.acquired f hf hd), hfits.working⟩
  · intro m c' hmn hm hp
    have hap := h.apart n m c c' (Ne.symm hmn) hc hm hp.symm
    refine ⟨?_, fun t ht => (by cases ht)⟩
    rintro f hf
    obtain rfl : fd = f := Option.some.inj hf
    exact hap.fd fd (by rw [hpc]; rfl)

/-- A descriptor that a call has in hand is closed: no table and no other call has it. -/
theorem Locked.closeFd (h : w.Locked) (hc : w.calls[n]? = some c) (hfd : c.pc.fd? = some fd) (hpc : pc.Bare) :
    Locked ((w.closeFd (c.process, fd)).goto n c pc) := by
  obtain ⟨-, hlist⟩ := (h.fits n c hc).inHand fd hfd
  have hkept : ∀ k, k ≠ (c.process, fd) → (w.closeFd (c.process, fd)).fds k = w.fds k :=
    fun k hk => Function.update_of_ne hk _ _
  have hlocked : ∀ dir k, k ≠ (c.process, fd) → w.holder dir = some k →
      (w.closeFd (c.process, fd)).holder dir = some k := by
    intro dir k hk hh
    have hne : w.holder dir ≠ some (c.process, fd) := by
      rw [hh]
      exact fun he => hk (Option.some.inj he)
    exact (if_neg hne).trans hh
  have hlisted : ∀ p t f, w.locks (p, t) = some f → (p, f) ≠ (c.process, fd) := by
    rintro p t f hl ⟨rfl, rfl⟩
    exact hlist t hl
  refine h.call hc rfl ?_ (Fits.of_bare hpc) ?_ fun _ _ _ _ _ => Call.Apart.of_bare hpc
  · refine ⟨?_, ?_, h.tables.once⟩
    · intro dir k hk
      by_cases hsame : w.holder dir = some (c.process, fd)
      · simp [goto, World.closeFd, hsame] at hk
      · have hold : w.holder dir = some k := by simpa [goto, World.closeFd, hsame] using hk
        have hne : k ≠ (c.process, fd) := fun he => hsame (he ▸ hold)
        exact (hkept k hne).trans (h.tables.held dir k hold)
    · intro p t f hl
      obtain ⟨dir, hf, hlock⟩ := h.tables.registered p t f hl
      have hne := hlisted p t f hl
      exact ⟨dir, (hkept _ hne).trans hf, fun hd => hlocked dir _ hne (hlock hd)⟩
  · intro m c' hmn hm
    have hfits := h.fits m c' hm
    have hne : ∀ f, c'.pc.fd? = some f → (c'.process, f) ≠ (c.process, fd) := by
      intro f hf he
      obtain ⟨hp, rfl⟩ := Prod.mk.inj he
      exact (h.apart n m c c' (Ne.symm hmn) hc hm hp.symm).fd f hfd hf
    refine ⟨?_, ?_, ?_, ?_⟩
    · intro f hf
      have hin := hfits.inHand f hf
      exact ⟨(hkept _ (hne f hf)).symm ▸ hin.1, hin.2⟩
    · intro f hf
      exact (hkept _ (hne f (Pc.fd?_of_opened hf))).trans (hfits.opened f hf)
    · intro f hf hd
      exact hlocked _ _ (hne f (Pc.fd?_of_acquired hf)) (hfits.acquired f hf hd)
    · intro t ht
      obtain ⟨f, hl, hf⟩ := hfits.working t ht
      exact ⟨f, hl, (hkept _ (hlisted _ t f hl)).trans hf⟩

/-- `registerHandle` with a token that is not in the table. -/
theorem Locked.register (h : w.Locked) (hc : w.calls[n]? = some c) (hpc : c.pc = .register fd)
    (hfresh : w.locks (c.process, w.nextToken c.process) = none) (hbare : pc.fd? = none)
    (htoken : ∀ t, pc.token? = some t → t = w.nextToken c.process) (hopened : pc.opened? = none)
    (hacquired : pc.acquired? = none) :
    Locked ((w.registerHandle (c.process, fd)).goto n c pc) := by
  have hown := h.fits n c hc
  have hfd : c.pc.fd? = some fd := by rw [hpc]; rfl
  have hopen := hown.opened fd (by rw [hpc]; rfl)
  have hne : ∀ p t f, w.locks (p, t) = some f → (p, t) ≠ (c.process, w.nextToken c.process) := by
    intro p t f hl he
    rw [he, hfresh] at hl
    cases hl
  have hnew : (w.registerHandle (c.process, fd)).locks (c.process, w.nextToken c.process) = some fd :=
    Function.update_self ..
  have hkept : ∀ p t f, w.locks (p, t) = some f → (w.registerHandle (c.process, fd)).locks (p, t) = some f :=
    fun p t f hl => (Function.update_of_ne (hne p t f hl) _ _).trans hl
  have hsplit : ∀ p t f, (w.registerHandle (c.process, fd)).locks (p, t) = some f →
      (p = c.process ∧ t = w.nextToken c.process ∧ f = fd) ∨ w.locks (p, t) = some f := by
    intro p t f hl
    by_cases he : (p, t) = (c.process, w.nextToken c.process)
    · obtain ⟨rfl, rfl⟩ := Prod.mk.inj he
      exact .inl ⟨rfl, rfl, (Option.some.inj (hnew.symm.trans hl)).symm⟩
    · exact .inr ((Function.update_of_ne he _ _).symm.trans hl)
  refine h.call hc rfl ?_ ?_ ?_ ?_
  · refine ⟨h.tables.held, ?_, ?_⟩
    · intro p t f hl
      obtain ⟨rfl, rfl, rfl⟩ | hl := hsplit p t f hl
      · exact ⟨c.dir, hopen, hown.acquired f (by rw [hpc]; rfl)⟩
      · exact h.tables.registered p t f hl
    · intro p t t' f hl hl'
      obtain ⟨hp, ht, hf⟩ | hold := hsplit p t f hl <;> obtain ⟨hp', ht', hf'⟩ | hold' := hsplit p t' f hl'
      · exact ht.trans ht'.symm
      · exact absurd (hp ▸ hf ▸ hold') ((hown.inHand fd hfd).2 t')
      · exact absurd (hp' ▸ hf' ▸ hold) ((hown.inHand fd hfd).2 t)
      · exact h.tables.once p t t' f hold hold'
  · refine ⟨fun f hf => ?_, fun f hf => ?_, fun f hf => ?_, fun t ht => ?_⟩
    · rw [hbare] at hf; cases hf
    · rw [hopened] at hf; cases hf
    · rw [hacquired] at hf; cases hf
    · obtain rfl := htoken t ht
      exact ⟨fd, hnew, hopen⟩
  · intro m c' hmn hm
    have hfits := h.fits m c' hm
    refine ⟨fun f hf => ⟨(hfits.inHand f hf).1, fun t hl => ?_⟩, hfits.opened, hfits.acquired, fun t ht => ?_⟩
    · obtain ⟨hp, -, rfl⟩ | hl := hsplit _ t f hl
      · exact (h.apart n m c c' (Ne.symm hmn) hc hm hp.symm).fd f hfd hf
      · exact (hfits.inHand f hf).2 t hl
    · obtain ⟨f, hl, hf⟩ := hfits.working t ht
      exact ⟨f, hkept _ t f hl, hf⟩
  · intro m c' _ hm hp
    refine ⟨fun f hf => ?_, fun t ht ht' => ?_⟩
    · rw [hbare] at hf; cases hf
    · obtain rfl := htoken t ht
      obtain ⟨f, hl, -⟩ := (h.fits m c' hm).working _ ht'
      rw [hp, hfresh] at hl
      cases hl

/-- The first section of `releaseFileLock`, where no other call of the process works with the token. -/
theorem Locked.erase (h : w.Locked) (hc : w.calls[n]? = some c) (hl : w.locks (c.process, t) = some fd) (ok : Bool)
    (hothers : ∀ (m : ℕ) (c' : Call), m ≠ n → w.calls[m]? = some c' → c'.process = c.process → c'.pc.token? ≠ some t) :
    Locked ({ w with locks := Function.update w.locks (c.process, t) none }.goto n c (.close fd ok)) := by
  have hsub : ∀ p t' f, Function.update w.locks (c.process, t) none (p, t') = some f → w.locks (p, t') = some f ∧
      (p, t') ≠ (c.process, t) := by
    intro p t' f hl'
    by_cases he : (p, t') = (c.process, t)
    · rw [he, Function.update_self] at hl'; cases hl'
    · exact ⟨(Function.update_of_ne he _ _).symm.trans hl', he⟩
  obtain ⟨dir, hopen, -⟩ := h.tables.registered _ t fd hl
  refine h.call hc rfl ?_ ?_ ?_ ?_
  · exact ⟨h.tables.held, fun p t' f hl' => h.tables.registered p t' f (hsub p t' f hl').1,
      fun p a b f ha hb => h.tables.once p a b f (hsub p a f ha).1 (hsub p b f hb).1⟩
  · refine ⟨?_, fun _ hf => (by cases hf), fun _ hf => (by cases hf), fun _ ht => (by cases ht)⟩
    rintro f hf
    obtain rfl : fd = f := Option.some.inj hf
    refine ⟨Option.isSome_iff_exists.mpr ⟨dir, hopen⟩, fun t' hl' => ?_⟩
    obtain ⟨hl', hne⟩ := hsub _ t' fd hl'
    exact hne (by rw [h.tables.once _ t' t fd hl' hl])
  · intro m c' hmn hm
    have hfits := h.fits m c' hm
    refine ⟨fun f hf => ⟨(hfits.inHand f hf).1, fun t' hl' => (hfits.inHand f hf).2 t' (hsub _ t' f hl').1⟩,
      hfits.opened, hfits.acquired, fun t' ht => ?_⟩
    obtain ⟨f, hf, hdir⟩ := hfits.working t' ht
    refine ⟨f, (Function.update_of_ne ?_ _ _).trans hf, hdir⟩
    intro he
    obtain ⟨hp, rfl⟩ := Prod.mk.inj he
    exact hothers m c' hmn hm hp ht
  · intro m c' _ hm hp
    refine ⟨fun f hf hf' => ?_, fun _ ht => (by cases ht)⟩
    obtain rfl : fd = f := Option.some.inj hf
    exact ((h.fits m c' hm).inHand fd hf').2 t (by rw [hp]; exact hl)

end World

end BackupDirs
end RocksdbJs
