import RocksdbJs.Spec.PutMany

/-! What the native decoders make of two buffers: the loop never reads outside them, goes through the entries
that stand there, and stops at the first that does not fit. -/

namespace RocksdbJs
namespace PutMany

open Reads LengthPrefixed

/-- As many keys and values stand in the buffers. -/
def EntriesFit (keys values : Slice) (ko vo n : ℕ) : Prop :=
  (∃ ks : List Slice, ks.length = n ∧ StandAt keys ko ks) ∧ ∃ vs : List Slice, vs.length = n ∧ StandAt values vo vs

theorem readEntry_cases (b : Slice) (truncated overruns : DecodeError) (o : ℕ) :
    (∃ x, readEntry b truncated overruns o = some (.ok (x, o + 4 + x.length)) ∧
      x.length < 2 ^ 32 ∧ readLE32 b o = some x.length ∧ bytesAt b (o + 4) x.length = some x) ∨
    (∃ e, readEntry b truncated overruns o = some (.error e) ∧ ∀ x : Slice, readLE32 b o = some x.length →
      bytesAt b (o + 4) x.length ≠ some x) := by
  unfold readEntry
  by_cases h4 : b.length < o + 4
  · refine Or.inr ⟨truncated, if_pos h4, fun x _ hx => ?_⟩
    have := (bytesAt_eq_some.mp hx).2.1
    omega
  rw [if_neg h4]
  obtain ⟨len, hlen⟩ := Option.isSome_iff_exists.mp (readLE32_isSome (b := b) (o := o) (by omega))
  rw [hlen, Option.bind_some]
  by_cases hover : b.length < o + 4 + len
  · refine Or.inr ⟨overruns, if_pos hover, fun x hx hb => ?_⟩
    rw [Option.some.injEq] at hx
    have := (bytesAt_eq_some.mp hb).2.1
    omega
  · left
    rw [if_neg hover]
    have hb : (bytesAt b (o + 4) len).isSome := by
      rw [bytesAt, if_pos (by omega)]
      rfl
    obtain ⟨x, hx⟩ := Option.isSome_iff_exists.mp hb
    have hxlen := (bytesAt_eq_some.mp hx).1
    subst hxlen
    exact ⟨x, by rw [hx]; rfl, readLE32_lt hlen, rfl, hx⟩

/-- What the loop does with a list of entries. -/
def runEntries {σ : Type} (body : ℕ → Slice → Slice → σ → Option PutError × σ) :
    ℕ → List (Slice × Slice) → σ → Option PutError × σ
  | _, [], s => (none, s)
  | i, (key, value) :: es, s =>
    match body i key value s with
    | (some e, s') => (some e, s')
    | (none, s') => runEntries body (i + 1) es s'

section
variable {σ : Type} {keys values : Slice} {body : ℕ → Slice → Slice → σ → Option PutError × σ}

theorem forEntries_eq_runEntries {es : List (Slice × Slice)} {i ko vo : ℕ} {s : σ}
    (hk : StandAt keys ko (es.map Prod.fst)) (hv : StandAt values vo (es.map Prod.snd)) :
    forEntries keys values body es.length i ko vo s = some (runEntries body i es s) := by
  induction es generalizing i ko vo s with
  | nil => rfl
  | cons e es ih =>
    obtain ⟨key, value⟩ := e
    rw [List.map_cons] at hk hv
    obtain ⟨-, hkl, hkb, hkrest⟩ := standAt_cons.mp hk
    obtain ⟨-, hvl, hvb, hvrest⟩ := standAt_cons.mp hv
    have hkey : ∀ t o, readEntry keys t o ko = some (.ok (key, ko + 4 + key.length)) := by
      intro t o
      rcases readEntry_cases keys t o ko with ⟨x, hx, -, hxl, hxb⟩ | ⟨e, -, hno⟩
      · rw [Option.some.inj (hkl.symm.trans hxl)] at hkb
        rw [hx, Option.some.inj (hxb.symm.trans hkb)]
      · exact absurd hkb (hno key hkl)
    have hvalue : ∀ t o, readEntry values t o vo = some (.ok (value, vo + 4 + value.length)) := by
      intro t o
      rcases readEntry_cases values t o vo with ⟨x, hx, -, hxl, hxb⟩ | ⟨e, -, hno⟩
      · rw [Option.some.inj (hvl.symm.trans hxl)] at hvb
        rw [hx, Option.some.inj (hxb.symm.trans hvb)]
      · exact absurd hvb (hno value hvl)
    rw [List.length_cons, forEntries, hkey, Option.bind_some]
    simp only
    rw [hvalue, Option.bind_some]
    simp only [runEntries]
    cases body i key value s with
    | mk r s' =>
      cases r with
      | some e => rfl
      | none => exact ih hkrest hvrest

/-- The loop ends; where no turn fails it fails exactly on entries that do not fit. -/
theorem forEntries_ends (keys values : Slice) (body : ℕ → Slice → Slice → σ → Option PutError × σ)
    (n i ko vo : ℕ) (s : σ) :
    ∃ r, forEntries keys values body n i ko vo s = some r ∧
      ((∀ i key value s, (body i key value s).1 = none) →
        (r.1 = none ↔ EntriesFit keys values ko vo n) ∧ (r.1 ≠ none → ∃ e, r.1 = some (.decode e))) := by
  induction n generalizing i ko vo s with
  | zero =>
    refine ⟨(none, s), rfl, fun _ => ⟨⟨fun _ => ⟨⟨[], rfl, standAt_nil keys ko⟩, [], rfl, standAt_nil values vo⟩,
      fun _ => rfl⟩, by simp⟩⟩
  | succ n ih =>
    rw [forEntries]
    rcases readEntry_cases keys .keysTruncated .keyOverruns ko with ⟨key, hkey, hk⟩ | ⟨e, he, hno⟩
    · rw [hkey, Option.bind_some]
      simp only
      rcases readEntry_cases values .valuesTruncated .valueOverruns vo with ⟨value, hvalue, hv⟩ | ⟨e, he, hno⟩
      · rw [hvalue, Option.bind_some]
        simp only
        cases hb : body i key value s with
        | mk r s' =>
          cases r with
          | some e =>
            refine ⟨_, rfl, fun hok => ?_⟩
            have := hok i key value s
            rw [hb] at this
            cases this
          | none =>
            obtain ⟨r, hr, hspec⟩ := ih (i + 1) (ko + 4 + key.length) (vo + 4 + value.length) s'
            refine ⟨r, hr, fun hok => ⟨?_, (hspec hok).2⟩⟩
            rw [(hspec hok).1]
            exact and_congr (exists_standAt_succ hk.1 hk.2.1 hk.2.2) (exists_standAt_succ hv.1 hv.2.1 hv.2.2)
      · rw [he]
        refine ⟨_, rfl, fun _ => ⟨⟨by simp, ?_⟩, fun _ => ⟨e, rfl⟩⟩⟩
        rintro ⟨-, vs, hlen, hstand⟩
        cases vs with
        | nil => simp at hlen
        | cons v vs => exact absurd (standAt_cons.mp hstand).2.2.1 (hno v (standAt_cons.mp hstand).2.1)
    · rw [he]
      refine ⟨_, rfl, fun _ => ⟨⟨by simp, ?_⟩, fun _ => ⟨e, rfl⟩⟩⟩
      rintro ⟨⟨ks, hlen, hstand⟩, -⟩
      cases ks with
      | nil => simp at hlen
      | cons k ks => exact absurd (standAt_cons.mp hstand).2.2.1 (hno k (standAt_cons.mp hstand).2.1)

/-- Entries that do not fit are found by the decoder. -/
theorem forEntries_unfit (body : ℕ → Slice → Slice → σ → Option PutError × σ)
    (hbody : ∀ i key value s, (body i key value s).1 = none) {n : ℕ} (h : ¬ EntriesFit keys values 0 0 n)
    (s : σ) :
    ∃ e s', forEntries keys values body n 0 0 0 s = some (some (.decode e), s') := by
  obtain ⟨r, hr, hspec⟩ := forEntries_ends keys values body n 0 0 0 s
  obtain ⟨hnone, hdecode⟩ := hspec hbody
  obtain ⟨e, he⟩ := hdecode fun hn => h (hnone.mp hn)
  exact ⟨e, r.2, by rw [hr, ← he]⟩

end

end PutMany
end RocksdbJs
