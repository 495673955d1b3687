import Lethe.Lib.Ring
import Mathlib.Data.Finset.Card
import Mathlib.Data.Finset.Range
import Mathlib.Data.Nat.Find

/-!
# Open addressing with linear probing

A table of `cap` slots is a function from slot numbers to optional key-value pairs; `home k` is
the slot at which the search for `k` starts. `probe` walks cyclically from the home slot to the
first slot that is free or holds the key. `Table.Inv` is the invariant that makes this search
complete: keys are distinct, and no slot between the home slot of a stored key and its own slot
is free. A table with a free slot that satisfies it represents the finite map `Table.Maps`, and
`Table.Inv.set` says that writing at the slot found by `probe` updates that map.
-/

namespace Lethe.Probing

variable {K V : Type}

/-- The slots of a table. -/
abbrev Table (K V : Type) := Nat → Option (K × V)

/-- The first slot from `i` on that is free or holds `key`, if it is met in `fuel` probes. -/
def probe [DecidableEq K] (t : Table K V) (cap : Nat) (key : K) : Nat → Nat → Option Nat
  | 0, _ => none
  | fuel + 1, i =>
    match t i with
    | none => some i
    | some (k, _) => if k = key then some i else probe t cap key fuel ((i + 1) % cap)

namespace Table

/-- The number of occupied slots. -/
def occupied (t : Table K V) (cap : Nat) : Nat :=
  ((Finset.range cap).filter fun i => (t i).isSome).card

/-- The finite map that a table represents. -/
def Maps (t : Table K V) (cap : Nat) (m : K → Option V) : Prop :=
  ∀ k v, m k = some v ↔ ∃ i < cap, t i = some (k, v)

/-- Keys are distinct, and the way from the home slot of a key to its slot is occupied. -/
structure Inv (t : Table K V) (cap : Nat) (home : K → Nat) : Prop where
  home_lt : ∀ k, home k < cap
  distinct : ∀ {i j k v w}, i < cap → j < cap → t i = some (k, v) → t j = some (k, w) → i = j
  path : ∀ {n k v}, n < cap → t ((home k + n) % cap) = some (k, v) →
    ∀ m < n, (t ((home k + m) % cap)).isSome

/-- What is known of the slot `i` at which the search for `key` stops after `n` steps. -/
structure Stop (t : Table K V) (cap : Nat) (key : K) (start n i : Nat) : Prop where
  lt : n < cap
  slot : i = (start + n) % cap
  here : ∀ k v, t i = some (k, v) → k = key
  before : ∀ m < n, ∃ k v, t ((start + m) % cap) = some (k, v) ∧ k ≠ key

variable {t : Table K V} {cap : Nat} {home : K → Nat} {m : K → Option V}

theorem exists_free (h : t.occupied cap < cap) : ∃ i < cap, t i = none := by
  by_contra hall
  have : (Finset.range cap).filter (fun i => (t i).isSome) = Finset.range cap := by
    refine Finset.filter_true_of_mem fun i hi => ?_
    rw [Option.isSome_iff_ne_none]
    exact fun hn => hall ⟨i, Finset.mem_range.mp hi, hn⟩
  rw [occupied, this, Finset.card_range] at h
  omega

/-- A search that stops after `n` steps is answered by every larger number of probes. -/
theorem Stop.probe [DecidableEq K] (h : Stop t cap key start n i) (hh : start < cap) (hf : n < fuel) :
    probe t cap key fuel start = some i := by
  induction n generalizing start fuel with
  | zero =>
    obtain ⟨fuel, rfl⟩ := Nat.exists_eq_succ_of_ne_zero (by omega : fuel ≠ 0)
    obtain rfl : i = start := h.slot.trans (Nat.mod_eq_of_lt hh)
    rw [Probing.probe]
    split
    · rfl
    · rename_i k v hk
      rw [if_pos (h.here k v hk)]
  | succ n ih =>
    obtain ⟨fuel, rfl⟩ := Nat.exists_eq_succ_of_ne_zero (by omega : fuel ≠ 0)
    obtain ⟨k, v, hk, hne⟩ := h.before 0 (by omega)
    rw [Nat.add_zero, Nat.mod_eq_of_lt hh] at hk
    have hshift (j : Nat) : ((start + 1) % cap + j) % cap = (start + (j + 1)) % cap := by
      rw [Nat.mod_add_mod, Nat.add_assoc, Nat.add_comm 1]
    have hlt := h.lt
    simp only [Probing.probe, hk, if_neg hne]
    exact ih ⟨by omega, h.slot.trans (hshift n).symm, h.here,
      fun m hm => hshift m ▸ h.before (m + 1) (by omega)⟩ (Ring.next_lt hh) (by omega)

namespace Inv

/-- With a free slot every search stops. -/
theorem exists_stop (h : t.Inv cap home) (hfree : t.occupied cap < cap) (key : K) :
    ∃ n i, Stop t cap key (home key) n i := by
  classical
  let P (n : Nat) := ∀ k v, t ((home key + n) % cap) = some (k, v) → k = key
  obtain ⟨i, hi, hnone⟩ := exists_free hfree
  have hd : Ring.dist cap (home key) i < cap := Ring.dist_lt (h.home_lt key)
  have hPd : P (Ring.dist cap (home key) i) := by
    simp only [P, Ring.head_add_dist (h.home_lt key) hi, hnone]
    exact nofun
  have hex : ∃ n, P n := ⟨_, hPd⟩
  refine ⟨Nat.find hex, _, Nat.lt_of_le_of_lt (Nat.find_min' hex hPd) hd, rfl,
    Nat.find_spec hex, fun m hm => ?_⟩
  have hm := Nat.find_min hex hm
  simp only [P, not_forall] at hm
  obtain ⟨k, v, hk, hne⟩ := hm
  exact ⟨k, v, hk, hne⟩

/-- A search that stops at a free slot was for a key that is not stored. -/
theorem absent (h : t.Inv cap home) (hs : Stop t cap key (home key) n i) (hi : t i = none)
    (hj : j < cap) : t j ≠ some (key, v) := by
  intro hk
  have hd := Ring.head_add_dist (h.home_lt key) hj
  have hlt : Ring.dist cap (home key) j < cap := Ring.dist_lt (h.home_lt key)
  rw [← hd] at hk
  rcases Nat.lt_trichotomy n (Ring.dist cap (home key) j) with hn | hn | hn
  · have := h.path hlt hk n hn
    rw [← hs.slot, hi] at this
    cases this
  · rw [← hn, ← hs.slot, hi] at hk
    cases hk
  · obtain ⟨k, w, hk', hne⟩ := hs.before _ hn
    rw [hk] at hk'
    cases hk'
    exact hne rfl

/-- The slot at which the search stops holds the value of the key, if it has one. -/
theorem stop_value (h : t.Inv cap home) (hm : t.Maps cap m)
    (hs : Stop t cap key (home key) n i) : (t i).map Prod.snd = m key := by
  have hi : i < cap := hs.slot ▸ Nat.mod_lt _ (Nat.zero_lt_of_lt hs.lt)
  cases ht : t i with
  | none =>
    cases hk : m key with
    | none => rfl
    | some v =>
      obtain ⟨j, hj, htj⟩ := (hm key v).mp hk
      exact absurd htj (h.absent hs ht hj)
  | some e =>
    obtain ⟨k, v⟩ := e
    obtain rfl := hs.here k v ht
    exact ((hm k v).mpr ⟨i, hi, ht⟩).symm

/-- Writing `key` at the slot where the search for it stops updates the map. -/
theorem set [DecidableEq K] (h : t.Inv cap home) (hm : t.Maps cap m) (hs : Stop t cap key (home key) n i)
    (v : V) : Inv (Function.update t i (some (key, v))) cap home ∧
      Maps (Function.update t i (some (key, v))) cap (Function.update m key (some v)) := by
  have hi : i < cap := hs.slot ▸ Nat.mod_lt _ (Nat.zero_lt_of_lt hs.lt)
  -- the key is stored at slot `i` or nowhere
  have honly : ∀ {j w}, j < cap → t j = some (key, w) → j = i := by
    intro j w hj hk
    cases ht : t i with
    | none => exact absurd hk (h.absent hs ht hj)
    | some e =>
      obtain ⟨k, x⟩ := e
      obtain rfl := hs.here k x ht
      exact h.distinct hj hi hk ht
  have hkeep : ∀ j, (t j).isSome → (Function.update t i (some (key, v)) j).isSome := by
    intro j hj
    by_cases hji : j = i
    · simp [hji]
    · simpa [hji] using hj
  refine ⟨⟨h.home_lt, fun {a b k w x} ha hb hka hkb => ?_, fun {d k w} hd hk e he => ?_⟩,
    fun k w => ⟨fun hk => ?_, ?_⟩⟩
  · by_cases ha' : a = i <;> by_cases hb' : b = i
    · exact ha'.trans hb'.symm
    · rw [ha', Function.update_self, Option.some.injEq, Prod.mk.injEq] at hka
      rw [Function.update_of_ne hb', ← hka.1] at hkb
      exact absurd (honly hb hkb) hb'
    · rw [hb', Function.update_self, Option.some.injEq, Prod.mk.injEq] at hkb
      rw [Function.update_of_ne ha', ← hkb.1] at hka
      exact absurd (honly ha hka) ha'
    · rw [Function.update_of_ne ha'] at hka
      rw [Function.update_of_ne hb'] at hkb
      exact h.distinct ha hb hka hkb
  · by_cases hdi : (home k + d) % cap = i
    · rw [hdi, Function.update_self, Option.some.injEq, Prod.mk.injEq] at hk
      obtain ⟨rfl, -⟩ := hk
      -- the slots before `i` were passed by the search
      have hdn : d = n := Ring.add_mod_inj (h.home_lt key) hd hs.lt (hdi.trans hs.slot)
      obtain ⟨k', w', hk', -⟩ := hs.before e (hdn ▸ he)
      exact hkeep _ (by rw [hk']; rfl)
    · rw [Function.update_of_ne hdi] at hk
      exact hkeep _ (h.path hd hk e he)
  · by_cases hkk : k = key
    · subst hkk
      rw [Function.update_self] at hk
      exact ⟨i, hi, by rw [Function.update_self, Option.some.inj hk]⟩
    · rw [Function.update_of_ne hkk] at hk
      obtain ⟨j, hj, htj⟩ := (hm k w).mp hk
      refine ⟨j, hj, ?_⟩
      rw [Function.update_of_ne, htj]
      rintro rfl
      exact hkk (hs.here _ _ htj)
  · rintro ⟨j, hj, htj⟩
    by_cases hji : j = i
    · rw [hji, Function.update_self, Option.some.injEq, Prod.mk.injEq] at htj
      rw [← htj.1, ← htj.2, Function.update_self]
    · rw [Function.update_of_ne hji] at htj
      by_cases hkk : k = key
      · exact absurd (honly hj (hkk ▸ htj)) hji
      · rw [Function.update_of_ne hkk]
        exact (hm k w).mpr ⟨j, hj, htj⟩

end Inv

/-! ## The pairs in the order of the slots -/

/-- The pairs in the slots from `i` on. -/
def pairsFrom (t : Table K V) (cap i : Nat) : List (K × V) := (List.range' i (cap - i)).filterMap t

theorem pairsFrom_of_le (h : cap ≤ i) : t.pairsFrom cap i = [] := by
  rw [pairsFrom, Nat.sub_eq_zero_of_le h]
  rfl

/-- The pair of the first slot comes first. -/
theorem pairsFrom_of_lt (h : i < cap) :
    t.pairsFrom cap i = (t i).toList ++ t.pairsFrom cap (i + 1) := by
  have hlen : cap - i = cap - (i + 1) + 1 := by omega
  rw [pairsFrom, hlen, List.range'_succ, List.filterMap_cons, pairsFrom]
  cases t i with
  | none => rfl
  | some e => rfl

/-- The pairs are those of the map. -/
theorem Maps.mem_pairsFrom (hm : t.Maps cap m) (k : K) (v : V) :
    (k, v) ∈ t.pairsFrom cap 0 ↔ m k = some v := by
  rw [hm k v, pairsFrom, List.mem_filterMap]
  simp only [Nat.sub_zero, ← List.range_eq_range', List.mem_range]

/-- No key comes twice. -/
theorem Inv.nodup_keys (h : t.Inv cap home) : ((t.pairsFrom cap 0).map Prod.fst).Nodup := by
  rw [pairsFrom, Nat.sub_zero, ← List.range_eq_range', List.Nodup, List.pairwise_map,
    List.pairwise_filterMap]
  apply List.nodup_range.imp_of_mem
  intro i j hi hj hne e he e' he' hkey
  apply hne
  apply h.distinct (List.mem_range.mp hi) (List.mem_range.mp hj) he (w := e'.2)
  rw [he', hkey]

/-- Overwriting an occupied slot keeps the number of occupied slots. -/
theorem occupied_update_some (hi : t i = some e) (e' : K × V) :
    occupied (Function.update t i (some e')) cap = t.occupied cap := by
  unfold occupied
  congr 1
  refine Finset.filter_congr fun j _ => ?_
  by_cases hji : j = i
  · simp [hji, hi]
  · simp [hji]

/-- Writing a free slot adds one to the number of occupied slots. -/
theorem occupied_update_none (hlt : i < cap) (hi : t i = none) (e : K × V) :
    occupied (Function.update t i (some e)) cap = t.occupied cap + 1 := by
  unfold occupied
  rw [← Finset.card_insert_of_notMem (a := i) (by simp [hi])]
  congr 1
  ext j
  by_cases hji : j = i
  · simp [hji, hlt]
  · simp [hji]

theorem occupied_eq_countP (t : Table K V) (cap : Nat) :
    t.occupied cap = (List.range cap).countP fun i => (t i).isSome := by
  induction cap with
  | zero => rfl
  | succ cap ih =>
    rw [occupied] at ih ⊢
    rw [Finset.range_add_one, Finset.filter_insert, List.range_succ, List.countP_append, ← ih]
    split
    · rename_i h
      rw [Finset.card_insert_of_notMem (by simp)]
      simp [h]
    · rename_i h
      simp [h]

theorem length_pairsFrom (t : Table K V) (cap : Nat) :
    (t.pairsFrom cap 0).length = t.occupied cap := by
  rw [pairsFrom, Nat.sub_zero, ← List.range_eq_range', List.length_filterMap_eq_countP,
    occupied_eq_countP]

theorem inv_empty (hhome : ∀ k, home k < cap) : Inv (fun _ => none : Table K V) cap home :=
  ⟨hhome, nofun, nofun⟩

theorem maps_empty : Maps (fun _ => none : Table K V) cap fun _ => none := by
  simp [Maps]

theorem occupied_empty : occupied (fun _ => none : Table K V) cap = 0 := by
  simp [occupied]

end Table

end Lethe.Probing
