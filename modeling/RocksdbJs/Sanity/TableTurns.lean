import RocksdbJs.Lib.ListUpdates
import RocksdbJs.Sanity.TableMoves

/-! The settled-empty markers do not come back: while fewer than `2 ^ 62` generations are taken, a
slot that holds the marker a read has observed has been neither locked nor settled since the
read loaded it. A sweep takes its generation before it reaches a slot, so a marker is spent at a
slot only once the sweep that carries its generation has passed it. -/

namespace RocksdbJs

open VerificationTable (SlotStep)

section Turns
variable {cfg : TableConfig} {w w' : Shared} {s : ℕ}

/-- The marker `v` cannot be put into the slot again. -/
def Spent (w : Shared) (s v : ℕ) : Prop :=
  ∃ gen < w.settleGen, v = vtEncodeSettled gen ∧ ∀ c ∈ w.clears, ∀ next, c.pc = .sweeping gen next → s < next

structure Marked (w : Shared) : Prop where
  slots : ∀ s v, w.vt.slots s = .word v → vtIsVersion v = false → (v = 0 ∧ w.vt.turns s = 0) ∨ Spent w s v
  gens : ∀ c ∈ w.clears, ∀ gen next, c.pc = .sweeping gen next → gen < w.settleGen
  distinct : ∀ (i j gen n n' : ℕ) (c c' : ClearCall), w.clears[i]? = some c → w.clears[j]? = some c' →
    c.pc = .sweeping gen n → c'.pc = .sweeping gen n' → i = j

/-- What a read has observed, as the slot stands now. -/
structure Watched (w : Shared) (s : ℕ) (seen : Seen) : Prop where
  le : seen.turn ≤ w.vt.turns s
  lock : w.vt.turns s = seen.turn → (w.vt.slots s).isLock = seen.observed.isLock
  spent : ∀ v, seen.observed = .word v → vtIsVersion v = false → (v = 0 ∧ seen.turn = 0) ∨ Spent w s v
  back : ∀ v, seen.observed = .word v → vtIsVersion v = false → w.vt.slots s = .word v → w.vt.turns s = seen.turn

/-- A marker that a step puts into a slot: its generation is new or that of a sweep on its way to the slot. -/
def Mints (w w' : Shared) (s gen : ℕ) : Prop :=
  gen < w'.settleGen ∧ (w.settleGen ≤ gen ∨ ∃ c ∈ w.clears, ∃ next ≤ s, c.pc = .sweeping gen next) ∧
    ∀ c ∈ w'.clears, ∀ next, c.pc = .sweeping gen next → s < next

/-- What every step does to the table, its generations and its sweeps. -/
structure Turn (w w' : Shared) : Prop where
  gens : w.settleGen ≤ w'.settleGen
  gens' : w'.settleGen ≤ w.settleGen + 1
  slots : ∀ s, SlotStep (Mints w w' s) w.vt w'.vt s
  sweeps : ∀ c' ∈ w'.clears, ∀ gen next', c'.pc = .sweeping gen next' →
    (w.settleGen ≤ gen ∧ gen < w'.settleGen) ∨ ∃ c ∈ w.clears, ∃ next ≤ next', c.pc = .sweeping gen next
  materialized : w.materialized = true → w'.materialized = true

theorem Spent.turn (h : Turn w w') {v : ℕ} (hv : Spent w s v) : Spent w' s v := by
  obtain ⟨gen, hgen, rfl, hpassed⟩ := hv
  refine ⟨gen, hgen.trans_le h.gens, rfl, fun c' hc' next' hpc => ?_⟩
  rcases h.sweeps c' hc' gen next' hpc with ⟨hnew, -⟩ | ⟨c, hc, next, hle, hpc⟩
  · omega
  · exact (hpassed c hc next hpc).trans_le hle

theorem Marked.slots_turn (hm : Marked w) (h : Turn w w') (s v : ℕ) (hs : w'.vt.slots s = .word v)
    (hv : vtIsVersion v = false) :
    (v = 0 ∧ w'.vt.turns s = 0) ∨ Spent w' s v := by
  cases h.slots s with
  | same hsame ht hp =>
    rw [hsame] at hs
    rcases hm.slots s v hs hv with ⟨h0, hturn⟩ | hspent
    · exact Or.inl ⟨h0, ht.trans hturn⟩
    · exact Or.inr (hspent.turn h)
  | locked t hw hlock ht =>
    rw [hlock] at hs
    cases hs
  | settled gen hmint hset ht =>
    rw [hset] at hs
    obtain rfl := SlotValue.word.inj hs
    exact Or.inr ⟨gen, hmint.1, rfl, hmint.2.2⟩
  | published loc o v' hw hv' hpub ht hp =>
    rw [hpub] at hs
    obtain rfl := SlotValue.word.inj hs
    exact absurd (hv.symm.trans hv') Bool.false_ne_true

theorem Watched.turn {seen : Seen} (hbound : w.settleGen < VT_SETTLED_BIT) (hw : Watched w s seen) (h : Turn w w') :
    Watched w' s seen := by
  have hle := (h.slots s).turns_le
  refine ⟨hw.le.trans hle, fun ht => ?_, fun v ho hv => ?_, fun v ho hv hs => ?_⟩
  · have hsame : w'.vt.turns s = w.vt.turns s := by
      have := hw.le
      omega
    rw [(h.slots s).isLock_eq hsame]
    exact hw.lock (hsame.symm.trans ht)
  · exact (hw.spent v ho hv).imp_right (Spent.turn h)
  · cases h.slots s with
    | same hsame ht hp => exact ht.trans (hw.back v ho hv (hsame.symm.trans hs))
    | locked t hword hlock ht =>
      rw [hlock] at hs
      cases hs
    | settled gen hmint hset ht =>
      -- the marker is minted now, and the observed one was spent before
      rw [hset] at hs
      obtain rfl := SlotValue.word.inj hs
      obtain ⟨hlt, hfrom, -⟩ := hmint
      rcases hw.spent _ ho hv with ⟨h0, -⟩ | ⟨gen', hgen', heq, hpassed⟩
      · exact absurd h0 (vtEncodeSettled_ne_zero gen)
      have hgens := h.gens'
      obtain rfl := vtEncodeSettled_inj (by omega) (by omega) heq
      rcases hfrom with hnew | ⟨c, hc, next, hnext, hpc⟩
      · omega
      · have := hpassed c hc next hpc
        omega
    | published loc o v' hword hv' hpub ht hp =>
      rw [hpub] at hs
      obtain rfl := SlotValue.word.inj hs
      exact absurd (hv.symm.trans hv') Bool.false_ne_true

/-- A read that loads its slot now. -/
theorem Marked.watched (hm : Marked w) (s : ℕ) : Watched w s ⟨w.vt.slots s, w.vt.turns s⟩ :=
  ⟨le_rfl, fun _ => rfl, fun v ho hv => hm.slots s v ho hv, fun _ _ _ _ => rfl⟩

/-- A step that leaves the sweeps alone. -/
structure Unswept (w w' : Shared) : Prop where
  clears : w'.clears = w.clears
  gens : w.settleGen ≤ w'.settleGen
  gens' : w'.settleGen ≤ w.settleGen + 1
  slots : ∀ s, SlotStep (fun gen => w.settleGen ≤ gen ∧ gen < w'.settleGen) w.vt w'.vt s
  materialized : w.materialized = true → w'.materialized = true

theorem SlotStep_mono {P Q : ℕ → Prop} {vt vt' : VerificationTable} (hPQ : ∀ gen, P gen → Q gen)
    (h : SlotStep P vt vt' s) :
    SlotStep Q vt vt' s := by
  cases h with
  | same hs ht hp => exact .same hs ht hp
  | locked t hw hs ht => exact .locked t hw hs ht
  | settled gen hm hs ht => exact .settled gen (hPQ gen hm) hs ht
  | published loc o v hw hv hs ht hp => exact .published loc o v hw hv hs ht hp

theorem Unswept.turn (hm : Marked w) (h : Unswept w w') : Turn w w' := by
  refine ⟨h.gens, h.gens', fun s => SlotStep_mono (fun gen hgen => ⟨hgen.2, Or.inl hgen.1, fun c hc next hpc => ?_⟩)
    (h.slots s),
    fun c hc gen next hpc => ?_, h.materialized⟩
  · rw [h.clears] at hc
    have := hm.gens c hc gen next hpc
    omega
  · rw [h.clears] at hc
    exact Or.inr ⟨c, hc, next, le_rfl, hpc⟩

theorem Unswept.marked (hm : Marked w) (h : Unswept w w') : Marked w' := by
  refine ⟨hm.slots_turn (h.turn hm), fun c hc gen next hpc => ?_, ?_⟩
  · rw [h.clears] at hc
    exact (hm.gens c hc gen next hpc).trans_le h.gens
  · rw [h.clears]
    exact hm.distinct

theorem Unswept.of_vt (hc : w'.clears = w.clears) (hg : w'.settleGen = w.settleGen)
    (hm : w'.materialized = w.materialized)
    (hvt : ∀ s, SlotStep (fun gen => w.settleGen ≤ gen ∧ gen < w'.settleGen) w.vt w'.vt s) : Unswept w w' :=
  ⟨hc, hg.ge, by omega, hvt, fun h => hm.trans h⟩

theorem UnitMove.unswept {u u' : WriteUnit} {a : UnitAction} (h : UnitMove cfg w u a w' u') : Unswept w w' := by
  cases h with
  | stay _ hdb hint hsnap hphase => exact .of_vt rfl rfl rfl fun s => .refl _ _ s
  | lock _ slot hfree hdb hint hsnap hphase =>
    exact .of_vt rfl rfl rfl fun s => VerificationTable.lockSlotForWrite_step _ w.vt slot u.db s
  | commit ha hphase => exact .of_vt rfl rfl rfl fun s => .refl _ _ s
  | release slot t rest hint hfree =>
    have hgen : w.settleGen ≤ (if w.vt.lastHolder t then w.settleGen + 1 else w.settleGen) ∧
        (if w.vt.lastHolder t then w.settleGen + 1 else w.settleGen) ≤ w.settleGen + 1 := by
      split_ifs <;> omega
    refine ⟨rfl, hgen.1, hgen.2, fun s => VerificationTable.releaseWriteIntent_step w.vt slot t s
      fun hlast => ⟨le_rfl, ?_⟩, id⟩
    change w.settleGen < if w.vt.lastHolder t then w.settleGen + 1 else w.settleGen
    rw [if_pos hlast]
    exact Nat.lt_succ_self _

theorem load_shared (cfg : TableConfig) (w : Shared) (r : Reader) :
    (r.load cfg w).1 = w ∨ (r.load cfg w).1 = { w with materialized := true } := by
  rw [Reader.load]
  split_ifs with huse hpath
  · exact Or.inr rfl
  · left
    dsimp only
    split_ifs <;> rfl
  · exact Or.inl rfl

theorem populate_unswept (cfg : TableConfig) (w : Shared) (r : Reader) (v : ℕ) : Unswept w (r.populate cfg w v) := by
  rw [Reader.populate]
  split
  · exact .of_vt rfl rfl rfl fun s => .refl _ _ s
  next _ seen _ =>
    exact .of_vt rfl rfl rfl fun s => VerificationTable.populateVersionIfUnchanged_step _ w.vt r.loc _ _ v s

theorem load_unswept (cfg : TableConfig) (w : Shared) (r : Reader) : Unswept w (r.load cfg w).1 := by
  rcases load_shared cfg w r with h | h
  · rw [h]
    exact .of_vt rfl rfl rfl fun s => .refl _ _ s
  · rw [h]
    exact ⟨rfl, le_rfl, Nat.le_succ _, fun s => .same rfl rfl rfl, fun _ => rfl⟩

theorem ReaderMove.unswept {us us' : List WriteUnit} {r r' : Reader} {a : ReaderAction}
    (h : ReaderMove cfg w us r a w' us' r') : Unswept w w' := by
  have hrefl : Unswept w w := .of_vt rfl rfl rfl fun s => .refl _ _ s
  cases h with
  | load hpc => exact load_unswept cfg w r
  | hit hsync hpc hhits => exact load_unswept cfg w r
  | publish v ha hpc => exact populate_unswept cfg w r v
  | resolve v ha hpc hseen => exact populate_unswept cfg w r v
  | _ => exact hrefl

/-- The steps of a sweep. -/
theorem sweep_cases {call : ClearCall} {p : Shared × ClearCall} (h : w.sweep cfg call = some p) :
    (call.pc = .deleted ∧ call.enabled = true ∧ p = ({ w with settleGen := w.settleGen + 1 },
      { call with pc := .sweeping w.settleGen 0 })) ∨
      (call.pc = .deleted ∧ (call.enabled && w.materialized) = false ∧ p = (w, { call with pc := .swept })) ∨
      ∃ gen next, call.pc = .sweeping gen next ∧
        (p = ({ w with vt := w.vt.settleSlot next gen }, { call with pc := .sweeping gen (next + 1) }) ∨
          cfg.entries ≤ next ∧ p = (w, { call with pc := .swept })) := by
  rw [Shared.sweep] at h
  split at h
  next _ hpc =>
    split_ifs at h with hen
    · exact Or.inl ⟨hpc, (Bool.and_eq_true_iff.mp hen).1, (Option.some.inj h).symm⟩
    · exact Or.inr (Or.inl ⟨hpc, by simpa using hen, (Option.some.inj h).symm⟩)
  next _ gen next hpc =>
    split_ifs at h with hlt
    · exact Or.inr (Or.inr ⟨gen, next, hpc, Or.inl (Option.some.inj h).symm⟩)
    · exact Or.inr (Or.inr ⟨gen, next, hpc, Or.inr ⟨not_lt.mp hlt, (Option.some.inj h).symm⟩⟩)
  · cases h

/-- A sweep takes its generation. -/
theorem Marked.sweep_begins (hm : Marked w) (i : ℕ) (call : ClearCall) :
    Turn w { w with settleGen := w.settleGen + 1,
                    clears := w.clears.set i { call with pc := .sweeping w.settleGen 0 } } ∧
      Marked { w with settleGen := w.settleGen + 1,
                      clears := w.clears.set i { call with pc := .sweeping w.settleGen 0 } } := by
  have hturn : Turn w { w with settleGen := w.settleGen + 1,
                               clears := w.clears.set i { call with pc := .sweeping w.settleGen 0 } } := by
    refine ⟨Nat.le_succ _, le_rfl, fun s => .same rfl rfl rfl, fun c hc g n hg => ?_, id⟩
    rcases List.mem_or_eq_of_mem_set hc with hold | rfl
    · exact Or.inr ⟨c, hold, n, le_rfl, hg⟩
    · obtain ⟨rfl, -⟩ := ClearPc.sweeping.inj hg
      exact Or.inl ⟨le_rfl, Nat.lt_succ_self _⟩
  refine ⟨hturn, hm.slots_turn hturn, fun c hc g n hg => ?_, fun j k g n n' c c' hc hc' hg hg' => ?_⟩
  · rcases List.mem_or_eq_of_mem_set hc with hold | rfl
    · exact (hm.gens c hold g n hg).trans (Nat.lt_succ_self _)
    · obtain ⟨rfl, -⟩ := ClearPc.sweeping.inj hg
      exact Nat.lt_succ_self _
  · rcases List.getElem?_set_cases hc with ⟨rfl, rfl⟩ | hj <;> rcases List.getElem?_set_cases hc' with ⟨rfl, rfl⟩ | hk
    · rfl
    · obtain ⟨rfl, -⟩ := ClearPc.sweeping.inj hg
      exact absurd (hm.gens c' (List.mem_of_getElem? hk) _ n' hg') (lt_irrefl _)
    · obtain ⟨rfl, -⟩ := ClearPc.sweeping.inj hg'
      exact absurd (hm.gens c (List.mem_of_getElem? hj) _ n hg) (lt_irrefl _)
    · exact hm.distinct j k g n n' c c' hj hk hg hg'

/-- A sweep goes over the slot `next`. -/
theorem Marked.sweep_goes (hm : Marked w) {i gen next : ℕ} {call : ClearCall} (hcall : w.clears[i]? = some call)
    (hpc : call.pc = .sweeping gen next) :
    Turn w { w with vt := w.vt.settleSlot next gen,
                    clears := w.clears.set i { call with pc := .sweeping gen (next + 1) } } ∧
      Marked { w with vt := w.vt.settleSlot next gen,
                      clears := w.clears.set i { call with pc := .sweeping gen (next + 1) } } := by
  have hmem := List.mem_of_getElem? hcall
  have hback : ∀ (k g n : ℕ) (c : ClearCall),
      (w.clears.set i { call with pc := .sweeping gen (next + 1) })[k]? = some c →
      c.pc = .sweeping g n → ∃ c₀, w.clears[k]? = some c₀ ∧ ∃ n₀ ≤ n, c₀.pc = .sweeping g n₀ := by
    intro k g n c hk hg
    rcases List.getElem?_set_cases hk with ⟨rfl, rfl⟩ | hold
    · obtain ⟨rfl, rfl⟩ := ClearPc.sweeping.inj hg
      exact ⟨call, hcall, next, Nat.le_succ _, hpc⟩
    · exact ⟨c, hold, n, le_rfl, hg⟩
  have hpassed : ∀ c ∈ w.clears.set i { call with pc := .sweeping gen (next + 1) }, ∀ n, c.pc = .sweeping gen n →
      next < n := by
    intro c hc n hg
    obtain ⟨k, hk⟩ := List.mem_iff_getElem?.mp hc
    by_cases hik : i = k
    · subst hik
      rw [List.getElem?_set_self (List.getElem?_eq_some_iff.mp hcall).1] at hk
      obtain rfl := Option.some.inj hk
      obtain ⟨-, rfl⟩ := ClearPc.sweeping.inj hg
      exact Nat.lt_succ_self _
    · -- no other sweep carries the generation
      rw [List.getElem?_set_ne hik] at hk
      exact absurd (hm.distinct i k gen next n call c hcall hk hpc hg) hik
  have hturn : Turn w { w with vt := w.vt.settleSlot next gen,
                               clears := w.clears.set i { call with pc := .sweeping gen (next + 1) } } := by
    refine ⟨le_rfl, Nat.le_succ _, fun s => VerificationTable.settleSlot_step w.vt next s fun hs => ?_,
      fun c hc g n hg => ?_, id⟩
    · subst hs
      exact ⟨hm.gens call hmem gen s hpc, Or.inr ⟨call, hmem, s, le_rfl, hpc⟩, hpassed⟩
    · obtain ⟨k, hk⟩ := List.mem_iff_getElem?.mp hc
      obtain ⟨c₀, hc₀, n₀, hle, hg₀⟩ := hback k g n c hk hg
      exact Or.inr ⟨c₀, List.mem_of_getElem? hc₀, n₀, hle, hg₀⟩
  refine ⟨hturn, hm.slots_turn hturn, fun c hc g n hg => ?_, fun j k g n n' c c' hc hc' hg hg' => ?_⟩
  · obtain ⟨k, hk⟩ := List.mem_iff_getElem?.mp hc
    obtain ⟨c₀, hc₀, n₀, -, hg₀⟩ := hback k g n c hk hg
    exact hm.gens c₀ (List.mem_of_getElem? hc₀) g n₀ hg₀
  · obtain ⟨c₀, hj, n₀, -, hj'⟩ := hback j g n c hc hg
    obtain ⟨c₁, hk, n₁, -, hk'⟩ := hback k g n' c' hc' hg'
    exact hm.distinct j k g n₀ n₁ c₀ c₁ hj hk hj' hk'

/-- A call of `clear` that has no more to sweep. -/
theorem Marked.sweep_ends (hm : Marked w) (i : ℕ) (call : ClearCall) :
    Turn w { w with clears := w.clears.set i { call with pc := .swept } } ∧
      Marked { w with clears := w.clears.set i { call with pc := .swept } } := by
  have hold : ∀ c ∈ w.clears.set i { call with pc := .swept }, ∀ g n, c.pc = .sweeping g n → c ∈ w.clears := by
    intro c hc g n hg
    rcases List.mem_or_eq_of_mem_set hc with hold | rfl
    · exact hold
    · cases hg
  have hturn : Turn w { w with clears := w.clears.set i { call with pc := .swept } } :=
    ⟨le_rfl, Nat.le_succ _, fun s => .same rfl rfl rfl, fun c hc g n hg =>
      Or.inr ⟨c, hold c hc g n hg, n, le_rfl, hg⟩, id⟩
  refine ⟨hturn, hm.slots_turn hturn, fun c hc g n hg => hm.gens c (hold c hc g n hg) g n hg,
    fun j k g n n' c c' hc hc' hg hg' => ?_⟩
  rcases List.getElem?_set_cases hc with ⟨-, rfl⟩ | hj
  · cases hg
  rcases List.getElem?_set_cases hc' with ⟨-, rfl⟩ | hk
  · cases hg'
  exact hm.distinct j k g n n' c c' hj hk hg hg'

theorem Marked.sweep (hm : Marked w) {i : ℕ} {call : ClearCall} (hcall : w.clears[i]? = some call)
    {p : Shared × ClearCall} (h : w.sweep cfg call = some p) :
    Turn w { p.1 with clears := p.1.clears.set i p.2 } ∧ Marked { p.1 with clears := p.1.clears.set i p.2 } := by
  rcases sweep_cases h with ⟨-, -, rfl⟩ | ⟨-, -, rfl⟩ | ⟨gen, next, hpc, rfl | ⟨-, rfl⟩⟩
  · exact hm.sweep_begins i call
  · exact hm.sweep_ends i call
  · exact hm.sweep_goes hcall hpc
  · exact hm.sweep_ends i call

/-- A new call of `clear`. -/
theorem Marked.clear (hm : Marked w) (db cf : ℕ) (enabled : Bool) (data : Location → Option Bytes) :
    Turn w { w with committed := data, clears := w.clears ++ [⟨db, cf, enabled, .deleted⟩] } ∧
      Marked { w with committed := data, clears := w.clears ++ [⟨db, cf, enabled, .deleted⟩] } := by
  have hold : ∀ c ∈ w.clears ++ [⟨db, cf, enabled, .deleted⟩], ∀ g n, c.pc = .sweeping g n → c ∈ w.clears := by
    intro c hc g n hg
    rcases List.mem_append.mp hc with hold | hnew
    · exact hold
    · obtain rfl := List.mem_singleton.mp hnew
      cases hg
  have hturn : Turn w { w with committed := data, clears := w.clears ++ [⟨db, cf, enabled, .deleted⟩] } :=
    ⟨le_rfl, Nat.le_succ _, fun s => .same rfl rfl rfl, fun c hc g n hg =>
      Or.inr ⟨c, hold c hc g n hg, n, le_rfl, hg⟩, id⟩
  have hindex : ∀ (k g n : ℕ) (c : ClearCall), (w.clears ++ [⟨db, cf, enabled, .deleted⟩])[k]? = some c →
    c.pc = .sweeping g n →
      w.clears[k]? = some c := by
    intro k g n c hk hg
    rcases lt_or_ge k w.clears.length with hlt | hge
    · rwa [List.getElem?_append_left hlt] at hk
    · rw [List.getElem?_append_right hge] at hk
      obtain rfl := List.mem_singleton.mp (List.mem_of_getElem? hk)
      cases hg
  refine ⟨hturn, hm.slots_turn hturn, fun c hc g n hg => hm.gens c (hold c hc g n hg) g n hg,
    fun j k g n n' c c' hc hc' hg hg' => ?_⟩
  exact hm.distinct j k g n n' c c' (hindex j g n c hc hg) (hindex k g n' c' hc' hg') hg hg'

theorem cancelSlot_unswept (h : w.cancelSlot cfg = some w') : Unswept w w' := by
  rw [Shared.cancelSlot] at h
  split at h
  · cases h
  next _ db next hc =>
    split_ifs at h with hlt
    · split at h
      · obtain rfl := Option.some.inj h
        exact .of_vt rfl rfl rfl fun s => .same rfl rfl rfl
      next _ t _ =>
        obtain rfl := Option.some.inj h
        exact ⟨rfl, Nat.le_succ _, le_rfl,
          fun s => VerificationTable.settle_step w.vt next s fun _ => ⟨le_rfl, Nat.lt_succ_self _⟩, id⟩
    · obtain rfl := Option.some.inj h
      exact .of_vt rfl rfl rfl fun s => .same rfl rfl rfl

/-- What a read's load observes. -/
theorem load_seen (cfg : TableConfig) (w : Shared) (r : Reader) :
    (r.load cfg w).2 = { r with pc := .loaded } ∨
      (r.load cfg w).1.materialized = true ∧
        (r.load cfg w).2 = { r with seen := some ⟨w.vt.slots (cfg.slotFor r.loc), w.vt.turns (cfg.slotFor r.loc)⟩,
                                    pc := .loaded } := by
  rw [Reader.load]
  split_ifs with huse hpath
  · exact Or.inr ⟨rfl, rfl⟩
  · dsimp only
    split_ifs with hmat
    · exact Or.inr ⟨hmat, rfl⟩
    · exact Or.inl rfl
  · exact Or.inl rfl

theorem load_vt (cfg : TableConfig) (w : Shared) (r : Reader) : (r.load cfg w).1.vt = w.vt := by
  rcases load_shared cfg w r with h | h
  all_goals rw [h]

theorem load_frame (cfg : TableConfig) (w : Shared) (r : Reader) :
    (r.load cfg w).2.loc = r.loc ∧ (r.load cfg w).2.txn = r.txn ∧ (r.load cfg w).2.snapshot = r.snapshot ∧
      (r.load cfg w).2.expected = r.expected ∧ (r.load cfg w).2.pc = .loaded := by
  rcases load_seen cfg w r with h | ⟨-, h⟩
  all_goals rw [h]
  all_goals exact ⟨rfl, rfl, rfl, rfl, rfl⟩

/-- A read loads its slot at most once, and keeps its key and its transaction. -/
theorem ReaderMove.seen {us us' : List WriteUnit} {r r' : Reader} {a : ReaderAction}
    (h : ReaderMove cfg w us r a w' us' r') :
    r'.loc = r.loc ∧ r'.txn = r.txn ∧ (r'.seen = r.seen ∨ w'.materialized = true ∧
      r'.seen = some ⟨w'.vt.slots (cfg.slotFor r.loc), w'.vt.turns (cfg.slotFor r.loc)⟩) := by
  cases h with
  | load hpc =>
    rw [load_vt]
    rcases load_seen cfg w r with h | ⟨hmat, h⟩
    · rw [h]
      exact ⟨rfl, rfl, Or.inl rfl⟩
    · rw [h]
      exact ⟨rfl, rfl, Or.inr ⟨hmat, rfl⟩⟩
  | hit hsync hpc hhits =>
    rw [load_vt]
    rcases load_seen cfg w r with h | ⟨hmat, h⟩
    · rw [h]
      exact ⟨rfl, rfl, Or.inl rfl⟩
    · rw [h]
      exact ⟨rfl, rfl, Or.inr ⟨hmat, rfl⟩⟩
  | read now value ha hunread haccepts hvalue =>
    rw [Reader.found]
    split_ifs
    all_goals exact ⟨rfl, rfl, Or.inl rfl⟩
  | choose v hpc =>
    rw [Reader.choose]
    split_ifs
    · exact ⟨rfl, rfl, Or.inl rfl⟩
    · split
      · exact ⟨rfl, rfl, Or.inl rfl⟩
      · split_ifs
        all_goals exact ⟨rfl, rfl, Or.inl rfl⟩
  | _ => exact ⟨rfl, rfl, Or.inl rfl⟩

end Turns

namespace Access
variable {cfg : TableConfig} {y y' : Access} {a : AccessAction}

/-- The reads and the markers of a run. -/
structure Turned (cfg : TableConfig) (y : Access) : Prop where
  marked : Marked y.shared
  watched : ∀ r ∈ y.readers, ∀ seen, r.seen = some seen → Watched y.shared (cfg.slotFor r.loc) seen
  materialized : ∀ r ∈ y.readers, r.seen.isSome = true → y.shared.materialized = true

theorem Turned.of_readers (hbound : y.shared.settleGen < VT_SETTLED_BIT) (h : Turned cfg y)
    (hturn : Turn y.shared y'.shared) (hm : Marked y'.shared)
    (hr : ∀ r' ∈ y'.readers, r'.seen = none ∨ (∃ r ∈ y.readers, r'.loc = r.loc ∧ r'.seen = r.seen) ∨
      y'.shared.materialized = true ∧ r'.seen = some ⟨y'.shared.vt.slots (cfg.slotFor r'.loc),
        y'.shared.vt.turns (cfg.slotFor r'.loc)⟩) :
    Turned cfg y' := by
  refine ⟨hm, fun r' hr' seen hseen => ?_, fun r' hr' hsome => ?_⟩
  · rcases hr r' hr' with hnone | ⟨r, hmem, hloc, hsame⟩ | ⟨-, hnow⟩
    · rw [hnone] at hseen
      cases hseen
    · rw [hloc]
      exact (h.watched r hmem seen (hsame.symm.trans hseen)).turn hbound hturn
    · obtain rfl := Option.some.inj (hnow.symm.trans hseen)
      exact hm.watched _
  · rcases hr r' hr' with hnone | ⟨r, hmem, hloc, hsame⟩ | ⟨hmat, -⟩
    · rw [hnone] at hsome
      cases hsome
    · exact hturn.materialized (h.materialized r hmem (hsame ▸ hsome))
    · exact hmat

theorem Turned.step (hbound : y.shared.settleGen < VT_SETTLED_BIT) (h : Turned cfg y) (hs : y.step cfg a = some y') :
    Turn y.shared y'.shared ∧ Turned cfg y' := by
  have hkeep : ∀ {z : Access}, z.readers = y.readers → Turn y.shared z.shared → Marked z.shared →
      Turn y.shared z.shared ∧ Turned cfg z := by
    intro z hz hturn hm
    refine ⟨hturn, h.of_readers hbound hturn hm fun r hr => Or.inr (Or.inl ⟨r, hz ▸ hr, rfl, rfl⟩)⟩
  have hrefl : Unswept y.shared y.shared := .of_vt rfl rfl rfl fun s => .refl _ _ s
  cases a with
  | transaction db cf disableSnapshot pessimistic =>
    obtain rfl := Option.some.inj hs
    exact hkeep rfl (hrefl.turn h.marked) h.marked
  | direct db enabled =>
    obtain rfl := Option.some.inj hs
    exact hkeep rfl (hrefl.turn h.marked) h.marked
  | unit i action =>
    obtain ⟨u, hu, hs⟩ := Option.bind_eq_some_iff.mp hs
    split_ifs at hs
    obtain ⟨⟨w', u'⟩, hstep, rfl⟩ := Option.map_eq_some_iff.mp hs
    have hq := (stepUnit_move hstep).unswept
    exact hkeep rfl (hq.turn h.marked) (hq.marked h.marked)
  | call loc path txn expected wantsPopulate =>
    rw [Access.step] at hs
    split_ifs at hs
    obtain rfl := Option.some.inj hs
    have hturn := hrefl.turn h.marked
    refine ⟨hturn, h.of_readers hbound hturn h.marked fun r hr => ?_⟩
    rcases List.mem_append.mp hr with hold | hnew
    · exact Or.inr (Or.inl ⟨r, hold, rfl, rfl⟩)
    · obtain rfl := List.mem_singleton.mp hnew
      exact Or.inl rfl
  | reader j action =>
    obtain ⟨r, hr, hs⟩ := Option.bind_eq_some_iff.mp hs
    obtain ⟨⟨w', us', r'⟩, hstep, rfl⟩ := Option.map_eq_some_iff.mp hs
    have hmove := stepReader_move hstep
    have hq := hmove.unswept
    refine ⟨hq.turn h.marked, h.of_readers hbound (hq.turn h.marked) (hq.marked h.marked) fun r₁ hr₁ => ?_⟩
    rcases List.mem_or_eq_of_mem_set hr₁ with hold | rfl
    · exact Or.inr (Or.inl ⟨r₁, hold, rfl, rfl⟩)
    · obtain ⟨hloc, -, hsame | ⟨hmat, hnow⟩⟩ := hmove.seen
      · exact Or.inr (Or.inl ⟨r, List.mem_of_getElem? hr, hloc, hsame⟩)
      · exact Or.inr (Or.inr ⟨hmat, by rw [hloc]; exact hnow⟩)
  | materialize =>
    obtain rfl := Option.some.inj hs
    have hq : Unswept y.shared { y.shared with materialized := true } :=
      ⟨rfl, le_rfl, Nat.le_succ _, fun s => .same rfl rfl rfl, fun _ => rfl⟩
    exact hkeep rfl (hq.turn h.marked) (hq.marked h.marked)
  | clear db cf enabled =>
    obtain rfl := Option.some.inj hs
    obtain ⟨hturn, hm⟩ := h.marked.clear db cf enabled (clearData db cf y.shared.committed)
    refine ⟨hturn, h.of_readers hbound hturn hm fun r hr => ?_⟩
    obtain ⟨r₀, hr₀, rfl⟩ := List.mem_map.mp hr
    exact Or.inr (Or.inl ⟨r₀, hr₀, rfl, rfl⟩)
  | sweep c =>
    obtain ⟨call, hcall, hs⟩ := Option.bind_eq_some_iff.mp hs
    obtain ⟨p, hp, rfl⟩ := Option.map_eq_some_iff.mp hs
    obtain ⟨hturn, hm⟩ := h.marked.sweep hcall hp
    exact hkeep rfl hturn hm
  | cancelForDB db =>
    rw [Access.step] at hs
    split_ifs at hs
    obtain rfl := Option.some.inj hs
    have hq : Unswept y.shared { y.shared with cancelling := some (db, 0) } :=
      .of_vt rfl rfl rfl fun s => .same rfl rfl rfl
    exact hkeep rfl (hq.turn h.marked) (hq.marked h.marked)
  | cancelSlot =>
    obtain ⟨w', hw, rfl⟩ := Option.map_eq_some_iff.mp hs
    have hq := cancelSlot_unswept hw
    exact hkeep rfl (hq.turn h.marked) (hq.marked h.marked)

end Access

end RocksdbJs
