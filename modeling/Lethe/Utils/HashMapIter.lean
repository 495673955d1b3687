import Lethe.Utils.HashMap

/-!
# Iteration over the hash map of `lethe-utils/hashmap.c`

`hm_next` looks for the next occupied slot. `fuel` bounds the slots that a call looks at, as it
bounds the probes of a search; a call that needs more is `none`.

The calls of `hm_next` on a fresh iterator yield the pairs of the table in the order of the slots,
and the invariant of the map says which these are.
-/

namespace Lethe

open Probing (Table)

/-- `hmi`. `hm_iter` leaves `key` and `value` unwritten. -/
structure Hmi (V : Type) where
  key : Option HashKey
  value : Option V
  map : Hm V
  index : Nat

/-- `hm_iter`. -/
def hmIter (map : Hm V) : Hmi V where
  key := none
  value := none
  map := map
  index := 0

/-- `hm_next`: what it returns, and the iterator behind the pointer. -/
def hmNext : Nat → Hmi V → Option (Bool × Hmi V)
  | 0, _ => none
  | fuel + 1, it =>
    if it.index < it.map.capacity then
      let i := it.index
      let it := { it with index := i + 1 }
      match it.map.entries i with
      | some (key, value) => some (true, { it with key := some key, value := some value })
      | none => hmNext fuel it
    else some (false, it)

/-- The next `n` calls of `hm_next`: for a call that returns `true`, the fields `key` and `value`
after it. -/
def hmNexts (fuel : Nat) : Nat → Hmi V → Option (List (Option (Option HashKey × Option V)))
  | 0, _ => some []
  | n + 1, it => do
    let (more, it) ← hmNext fuel it
    let rest ← hmNexts fuel n it
    pure ((if more then some (it.key, it.value) else none) :: rest)

/-- `hm_foreach`: the arguments of the calls of `ptr`. -/
def hmForeach (fuel : Nat) : Nat → Hmi V → Option (List (Option HashKey × Option V))
  | 0, _ => none
  | rounds + 1, it => do
    let (more, it) ← hmNext fuel it
    if more then
      let rest ← hmForeach fuel rounds it
      pure ((it.key, it.value) :: rest)
    else pure []

/-- The pairs that are still to come. -/
def Hmi.pending (it : Hmi V) : List (HashKey × V) :=
  Table.pairsFrom it.map.entries it.map.capacity it.index

/-- A call of `hm_next` yields the first of the pairs that are still to come. -/
theorem hmNext_spec {it : Hmi V} (hfuel : it.map.capacity - it.index < fuel) :
    ∃ index, it.index ≤ index ∧
      (it.pending = [] ∧ hmNext fuel it = some (false, { it with index }) ∧
          { it with index }.pending = [] ∨
        ∃ p rest, it.pending = p :: rest ∧
          hmNext fuel it = some (true, ⟨some p.1, some p.2, it.map, index⟩) ∧
          Hmi.pending ⟨some p.1, some p.2, it.map, index⟩ = rest) := by
  induction fuel generalizing it with
  | zero => exact absurd hfuel (Nat.not_lt_zero _)
  | succ fuel ih =>
    by_cases hlt : it.index < it.map.capacity
    · have hpending : it.pending = _ := Table.pairsFrom_of_lt hlt
      cases hentry : it.map.entries it.index with
      | some e =>
        rw [hentry] at hpending
        refine ⟨it.index + 1, Nat.le_succ _, .inr ⟨e, _, hpending, ?_, rfl⟩⟩
        simp only [hmNext, if_pos hlt, hentry]
      | none =>
        -- the slot is passed over
        rw [hentry] at hpending
        have hskip : hmNext (fuel + 1) it = hmNext fuel { it with index := it.index + 1 } := by
          simp only [hmNext, if_pos hlt, hentry]
        obtain ⟨index, hle, hnext⟩ := @ih { it with index := it.index + 1 }
          (by simp only; omega)
        refine ⟨index, Nat.le_of_succ_le hle, ?_⟩
        rw [hpending, hskip]
        exact hnext
    · have hnil : it.pending = [] := Table.pairsFrom_of_le (Nat.le_of_not_lt hlt)
      exact ⟨it.index, Nat.le_refl _, .inl ⟨hnil, if_neg hlt, hnil⟩⟩

/-- The calls yield the pairs that are still to come, and `false` for ever after them. -/
theorem hmNexts_eq (n : Nat) {it : Hmi V} (hfuel : it.map.capacity - it.index < fuel) :
    hmNexts fuel n it = some ((it.pending.take n).map (fun p => some (some p.1, some p.2)) ++
      List.replicate (n - it.pending.length) none) := by
  induction n generalizing it with
  | zero =>
    rw [hmNexts, List.take_zero, Nat.zero_sub]
    rfl
  | succ n ih =>
    obtain ⟨index, hle, ⟨hpending, hnext, hrest⟩ | ⟨p, pairs, hpending, hnext, hrest⟩⟩ :=
      hmNext_spec hfuel
    · have hcalls := @ih { it with index } (by simp only; omega)
      rw [hrest] at hcalls
      simp only [hmNexts, hnext, Option.bind_eq_bind, Option.bind_some, hcalls, hpending]
      rw [List.take_nil, List.take_nil, List.length_nil, Nat.sub_zero, Nat.sub_zero,
        List.replicate_succ]
      rfl
    · have hcalls := @ih ⟨some p.1, some p.2, it.map, index⟩ (by simp only; omega)
      rw [hrest] at hcalls
      simp only [hmNexts, hnext, Option.bind_eq_bind, Option.bind_some, hcalls, hpending]
      rw [List.length_cons, Nat.add_sub_add_right]
      rfl

/-- `hm_foreach` calls `ptr` with each of the pairs that are still to come. -/
theorem hmForeach_eq {it : Hmi V} (hfuel : it.map.capacity - it.index < fuel)
    (hrounds : it.pending.length < rounds) :
    hmForeach fuel rounds it = some (it.pending.map fun p => (some p.1, some p.2)) := by
  induction rounds generalizing it with
  | zero => exact absurd hrounds (Nat.not_lt_zero _)
  | succ rounds ih =>
    obtain ⟨index, hle, ⟨hpending, hnext, hrest⟩ | ⟨p, pairs, hpending, hnext, hrest⟩⟩ :=
      hmNext_spec hfuel
    · simp only [hmForeach, hnext, Option.bind_eq_bind, Option.bind_some, hpending]
      rfl
    · rw [hpending, List.length_cons] at hrounds
      have hcalls := @ih ⟨some p.1, some p.2, it.map, index⟩ (by simp only; omega)
        (by rw [hrest]; omega)
      rw [hrest] at hcalls
      simp only [hmForeach, hnext, Option.bind_eq_bind, Option.bind_some, hcalls, hpending]
      rfl

/-! ## Fresh iterators -/

/-- The pairs of a map, in the order of its slots. -/
def Hm.pairs (map : Hm V) : List (HashKey × V) := Table.pairsFrom map.entries map.capacity 0

/-- The key was set by a call that did not return `NULL`. -/
def WasSet (history : List (HmSetCall V × Option HashKey)) (key : HashKey) : Prop :=
  ∃ e ∈ history, e.2.isSome ∧ e.1.key = key

/-- The keys with a value are those that were set. -/
theorem isSome_lastSet_iff (history : List (HmSetCall V × Option HashKey)) (key : HashKey) :
    (lastSet history key).isSome ↔ WasSet history key := by
  rw [lastSet, Option.isSome_map, List.find?_isSome]
  simp only [List.mem_reverse, Bool.and_eq_true, beq_iff_eq, WasSet]

/-- The calls of `hm_next` on a fresh iterator of a map that a run of `hm_set` has made yield one
pair for each key that was set, with the value that `hm_get` returns, and `false` for ever after
`count` of them. -/
theorem hmNexts_complete (calls : List (HmSetCall V)) : ∃ bound, ∀ fuel ≥ bound,
    ∃ results map, hmSets fuel hmCreate calls = some (results, map) ∧
      ∃ pairs : List (HashKey × V), pairs.length = map.count ∧ (pairs.map Prod.fst).Nodup ∧
        (∀ key, key ∈ pairs.map Prod.fst ↔ WasSet (calls.zip results) key) ∧
        (∀ p ∈ pairs, hmGet fuel map p.1 = some (some p.2)) ∧
        ∀ n, hmNexts fuel n (hmIter map) =
          some ((pairs.take n).map (fun p => some (some p.1, some p.2)) ++
            List.replicate (n - map.count) none) := by
  refine ⟨2 ^ 65, fun fuel hfuel => ?_⟩
  obtain ⟨results, map, hsets, -, h⟩ := hmSets_spec hfuel calls hmCreate_inv
  have hle : 2 * map.capacity ≤ fuel := h.fuel_le hfuel
  have hfour := h.four_le
  have hlen : map.pairs.length = map.count := (Table.length_pairsFrom _ _).trans h.occupied_eq
  refine ⟨results, map, hsets, map.pairs, hlen, h.table.nodup_keys, fun key => ?_,
    fun p hp => ?_, fun n => ?_⟩
  · rw [← isSome_lastSet_iff, Option.isSome_iff_exists, List.mem_map]
    have hvalue (v : V) : (key, v) ∈ map.pairs ↔ lastSet (calls.zip results) key = some v := by
      rw [Hm.pairs, h.maps.mem_pairsFrom, applySets_eq, Option.or_none]
    constructor
    · rintro ⟨⟨k, v⟩, hmem, rfl⟩
      exact ⟨v, (hvalue v).mp hmem⟩
    · rintro ⟨v, hv⟩
      exact ⟨(key, v), (hvalue v).mpr hv, rfl⟩
  · rw [hmGet_spec h (by omega), (h.maps.mem_pairsFrom p.1 p.2).mp hp]
  · rw [← hlen]
    have hslots : (hmIter map).map.capacity - (hmIter map).index < fuel := by
      change map.capacity - 0 < fuel
      omega
    exact hmNexts_eq n hslots

end Lethe
