import Lethe.Lib.LinearProbing

/-!
# The hash map of `lethe-utils/hashmap.c`

Keys are the four bytes of a `hash_key`, values the non-`NULL` pointers of an arbitrary type, and
an entry with key `NULL` is `none`. `fuel` bounds the probes of a search; a search that needs
more is `none` (`hmGet`, `hmSet`). Every call carries the outcome of the two `calloc`s it may make.
The load test `count >= capacity * 0.75F` is read over the integers.

The main result is the refinement of finite maps: for enough fuel every run of `hm_set` on a fresh map
returns, and `hm_get` answers with the value last set successfully, whatever allocations failed.
-/

namespace Lethe

/-- `hash_key`. -/
structure HashKey where
  c0 : UInt8
  c1 : UInt8
  c2 : UInt8
  c3 : UInt8
  deriving DecidableEq, Repr

def HashKey.bytes (key : HashKey) : List UInt8 := [key.c0, key.c1, key.c2, key.c3]

/-- `memcmp` on two buffers of the same size. -/
def memcmp : List UInt8 → List UInt8 → Int
  | a :: as, b :: bs => if a < b then -1 else if b < a then 1 else memcmp as bs
  | _, _ => 0

theorem memcmp_eq_zero : ∀ {as bs : List UInt8}, as.length = bs.length →
    (memcmp as bs = 0 ↔ as = bs)
  | [], [], _ => by simp [memcmp]
  | a :: as, b :: bs, h => by
    simp only [memcmp]
    split
    · rename_i hlt
      simp only [List.cons.injEq]
      exact ⟨nofun, fun ⟨hab, _⟩ => absurd (hab ▸ hlt) (UInt8.lt_irrefl _)⟩
    split
    · rename_i hlt
      simp only [List.cons.injEq]
      exact ⟨nofun, fun ⟨hab, _⟩ => absurd (hab ▸ hlt) (UInt8.lt_irrefl _)⟩
    · rename_i hle hge
      obtain rfl : a = b := UInt8.le_antisymm (UInt8.not_lt.mp hge) (UInt8.not_lt.mp hle)
      simpa using memcmp_eq_zero (Nat.succ.inj h)

/-- `fnv_64a_buf`. -/
def fnv64aBuf (buf : List UInt8) : BitVec 64 :=
  buf.foldl (fun hval octet => (hval ^^^ BitVec.ofNat 64 octet.toNat) * 0x100000001B3)
    0xCBF29CE484222325

def hashValue (key : HashKey) : BitVec 64 := fnv64aBuf key.bytes

/-- The array behind `entries`. -/
abbrev HmEntries (V : Type) := Nat → Option (HashKey × V)

/-- `struct hm`. -/
structure Hm (V : Type) where
  entries : HmEntries V
  capacity : Nat
  count : Nat

/-- `INITIAL_CAPACITY`. -/
def initialCapacity : Nat := 4

/-- `RESIZE_VAL` of `hashmap.c`. -/
def hmResizeVal : Nat := 2

/-- The search loop of `set_entry` and `hm_get`. -/
def searchLoop (entries : HmEntries V) (capacity : Nat) (key : HashKey) : Nat → Nat → Option Nat
  | 0, _ => none
  | fuel + 1, index =>
    match entries index with
    | none => some index
    | some (k, _) =>
      if memcmp k.bytes key.bytes = 0 then some index
      else searchLoop entries capacity key fuel ((index + 1) % capacity)

/-- `set_entry`. `plength` is `none` for `NULL`, and otherwise the count and whether the `calloc`
of `hm_strdup` succeeds. The result is the returned key, the entries and the count. -/
def setEntry (fuel : Nat) (entries : HmEntries V) (capacity : Nat) (key : HashKey) (value : V)
    (plength : Option (Nat × Bool)) : Option (Option HashKey × HmEntries V × Option Nat) := do
  let index ← searchLoop entries capacity key fuel ((hashValue key).toNat % capacity)
  match entries index with
  | some (k, _) =>
    pure (some k, Function.update entries index (some (k, value)), plength.map Prod.fst)
  | none =>
    match plength with
    | none => pure (some key, Function.update entries index (some (key, value)), none)
    | some (count, false) => pure (none, entries, some count)
    | some (count, true) =>
      pure (some key, Function.update entries index (some (key, value)), some (count + 1))

/-- The loop of `hm_expand` over the slots of the old table that are left. -/
def rehashLoop (fuel : Nat) (old : HmEntries V) (capacity : Nat) :
    HmEntries V → List Nat → Option (HmEntries V)
  | entries, [] => some entries
  | entries, i :: slots =>
    match old i with
    | none => rehashLoop fuel old capacity entries slots
    | some (key, value) => do
      let (_, entries, _) ← setEntry fuel entries capacity key value none
      rehashLoop fuel old capacity entries slots

/-- `hm_expand`; `entriesOk` says whether its `calloc` succeeds. -/
def hmExpand (fuel : Nat) (map : Hm V) (entriesOk : Bool) : Option (Bool × Hm V) :=
  let capacity := map.capacity * hmResizeVal % 2 ^ 64
  if capacity < map.capacity then some (false, map)
  else if !entriesOk then some (false, map)
  else do
    let entries ← rehashLoop fuel map.entries capacity (fun _ => none) (List.range map.capacity)
    pure (true, { map with capacity, entries })

/-- `hm_create`. -/
def hmCreate : Hm V where
  entries _ := none
  capacity := initialCapacity
  count := 0

/-- `hm_get`. -/
def hmGet (fuel : Nat) (map : Hm V) (key : HashKey) : Option (Option V) := do
  let index ← searchLoop map.entries map.capacity key fuel ((hashValue key).toNat % map.capacity)
  pure ((map.entries index).map Prod.snd)

/-- A call of `hm_set` and the outcome of the two `calloc`s it may make. -/
structure HmSetCall (V : Type) where
  key : HashKey
  value : V
  entriesOk : Bool
  keyOk : Bool

/-- `hm_set`. -/
def hmSet (fuel : Nat) (map : Hm V) (call : HmSetCall V) : Option (Option HashKey × Hm V) := do
  let (ok, map) ←
    if 4 * map.count ≥ 3 * map.capacity then hmExpand fuel map call.entriesOk
    else some (true, map)
  if !ok then pure (none, map)
  else
    let (key, entries, count) ← setEntry fuel map.entries map.capacity call.key call.value
      (some (map.count, call.keyOk))
    pure (key, { map with entries, count := count.getD map.count })

/-- A run of `hm_set` calls, with their results. -/
def hmSets (fuel : Nat) (map : Hm V) : List (HmSetCall V) → Option (List (Option HashKey) × Hm V)
  | [] => some ([], map)
  | call :: calls => do
    let (result, map) ← hmSet fuel map call
    let (results, map) ← hmSets fuel map calls
    pure (result :: results, map)

/-- The value of the last call on `key` that did not return `NULL`. -/
def lastSet (history : List (HmSetCall V × Option HashKey)) (key : HashKey) : Option V :=
  (history.reverse.find? fun e => e.2.isSome && e.1.key == key).map (·.1.value)

/-! ## The search loop -/

theorem HashKey.bytes_inj {k k' : HashKey} : k.bytes = k'.bytes ↔ k = k' := by
  cases k; cases k'; simp [HashKey.bytes]

theorem searchLoop_eq_probe (entries : HmEntries V) :
    searchLoop entries capacity key fuel index = Probing.probe entries capacity key fuel index := by
  induction fuel generalizing index with
  | zero => rfl
  | succ fuel ih =>
    have hcmp (k : HashKey) : memcmp k.bytes key.bytes = 0 ↔ k = key :=
      (memcmp_eq_zero (show k.bytes.length = key.bytes.length from rfl)).trans HashKey.bytes_inj
    simp only [searchLoop, Probing.probe, hcmp, ih]
    cases entries index with
    | none => rfl
    | some e => rfl

/-- The slot at which the search for a key starts. -/
def homeSlot (capacity : Nat) (key : HashKey) : Nat := (hashValue key).toNat % capacity

/-! ## The invariant -/

/-- The table of a map represents `m`, has one occupied slot for each counted key, and is not
full. -/
structure Hm.Inv (map : Hm V) (m : HashKey → Option V) : Prop where
  table : Probing.Table.Inv map.entries map.capacity (homeSlot map.capacity)
  maps : Probing.Table.Maps map.entries map.capacity m
  occupied_eq : Probing.Table.occupied map.entries map.capacity = map.count
  count_lt : map.count < map.capacity
  four_le : 4 ≤ map.capacity
  lt_size : map.capacity < 2 ^ 64

open Probing (Table)

variable {map : Hm V} {m : HashKey → Option V}

theorem hmCreate_inv : (hmCreate : Hm V).Inv fun _ => none where
  table := Table.inv_empty fun _ => Nat.mod_lt _ (Nat.zero_lt_succ 3)
  maps := Table.maps_empty
  occupied_eq := Table.occupied_empty
  count_lt := Nat.zero_lt_succ 3
  four_le := Nat.le_refl 4
  lt_size := show 4 < 2 ^ 64 by decide

/-- `set_entry` on a table that is not full: the key is found, or its copy fails, or it is
added. -/
theorem setEntry_spec {entries : HmEntries V} (h : Table.Inv entries cap (homeSlot cap))
    (hm : Table.Maps entries cap m) (hfree : Table.occupied entries cap < cap)
    (hfuel : cap ≤ fuel) (key : HashKey) (value : V) (plength : Option (Nat × Bool)) :
    ∃ res entries' count', setEntry fuel entries cap key value plength =
        some (res, entries', count') ∧ Table.Inv entries' cap (homeSlot cap) ∧
      ((res = some key ∧ (m key).isSome ∧ Table.Maps entries' cap (Function.update m key (some value)) ∧
          Table.occupied entries' cap = Table.occupied entries cap ∧ count' = plength.map Prod.fst) ∨
        (res = some key ∧ m key = none ∧ Table.Maps entries' cap (Function.update m key (some value)) ∧
          Table.occupied entries' cap = Table.occupied entries cap + 1 ∧
          count' = plength.map (Prod.fst · + 1)) ∨
        (res = none ∧ entries' = entries ∧ count' = plength.map Prod.fst ∧
          plength.map Prod.snd = some false)) := by
  obtain ⟨n, i, hs⟩ := h.exists_stop hfree key
  have hi : i < cap := hs.slot ▸ Nat.mod_lt _ (Nat.zero_lt_of_lt hs.lt)
  have hsearch : searchLoop entries cap key fuel ((hashValue key).toNat % cap) = some i := by
    rw [searchLoop_eq_probe]
    exact hs.probe (h.home_lt key) (Nat.lt_of_lt_of_le hs.lt hfuel)
  have hval := h.stop_value hm hs
  obtain ⟨hinv, hmaps⟩ := h.set hm hs value
  cases he : entries i with
  | some e =>
    obtain ⟨k, v⟩ := e
    obtain rfl := hs.here k v he
    refine ⟨some k, _, _, by simp [setEntry, hsearch, he], hinv, .inl ⟨rfl, ?_, hmaps,
      Table.occupied_update_some he _, rfl⟩⟩
    rw [← hval, he]
    rfl
  | none =>
    have hnone : m key = none := by rw [← hval, he]; rfl
    have hocc := Table.occupied_update_none hi he (key, value)
    match plength with
    | none =>
      exact ⟨some key, _, none, by simp [setEntry, hsearch, he], hinv,
        .inr (.inl ⟨rfl, hnone, hmaps, hocc, rfl⟩)⟩
    | some (count, true) =>
      exact ⟨some key, _, some (count + 1), by simp [setEntry, hsearch, he], hinv,
        .inr (.inl ⟨rfl, hnone, hmaps, hocc, rfl⟩)⟩
    | some (count, false) =>
      exact ⟨none, entries, some count, by simp [setEntry, hsearch, he], h,
        .inr (.inr ⟨rfl, rfl, rfl, rfl⟩)⟩

/-! ## Expansion -/

/-- The entries of the slots of a list, as a map. -/
def SlotsMap (old : HmEntries V) (slots : List Nat) (m : HashKey → Option V) : Prop :=
  ∀ k v, m k = some v ↔ ∃ i ∈ slots, old i = some (k, v)

/-- A slot with a key of its own is added to the list. -/
theorem SlotsMap.concat {old : HmEntries V} (h : SlotsMap old done m) (he : old i = some (k, v))
    (hkey : ∀ j ∈ done, ∀ w, old j ≠ some (k, w)) :
    SlotsMap old (done ++ [i]) (Function.update m k (some v)) := by
  intro k' w
  by_cases hk : k' = k
  · subst hk
    rw [Function.update_self]
    constructor
    · rintro ⟨⟩
      exact ⟨i, by simp, he⟩
    · rintro ⟨j, hj, hkj⟩
      rcases List.mem_append.mp hj with hj | hj
      · exact absurd hkj (hkey j hj w)
      · rw [List.mem_singleton.mp hj, he] at hkj
        cases hkj
        rfl
  · rw [Function.update_of_ne hk, h k' w]
    constructor
    · rintro ⟨j, hj, hkj⟩
      exact ⟨j, List.mem_append_left _ hj, hkj⟩
    · rintro ⟨j, hj, hkj⟩
      rcases List.mem_append.mp hj with hj | hj
      · exact ⟨j, hj, hkj⟩
      · rw [List.mem_singleton.mp hj, he] at hkj
        cases hkj
        exact absurd rfl hk

/-- Rehashing adds the entries of the remaining slots to the new table. -/
theorem rehashLoop_spec {old : HmEntries V} (hold : Table.Inv old oldCap home)
    (hfuel : cap ≤ fuel) : ∀ (todo done) {entries : HmEntries V} {m : HashKey → Option V},
    (done ++ todo).Nodup → (∀ i ∈ done ++ todo, i < oldCap) → (done ++ todo).length < cap →
    Table.Inv entries cap (homeSlot cap) → Table.Maps entries cap m → SlotsMap old done m →
    Table.occupied entries cap = done.countP (fun i => (old i).isSome) →
    ∃ entries' m', rehashLoop fuel old cap entries todo = some entries' ∧
      Table.Inv entries' cap (homeSlot cap) ∧ Table.Maps entries' cap m' ∧
      SlotsMap old (done ++ todo) m' ∧
      Table.occupied entries' cap = (done ++ todo).countP (fun i => (old i).isSome)
  | [], done, entries, m, _, _, _, hinv, hmaps, hslots, hocc =>
    ⟨entries, m, rfl, hinv, hmaps, by simpa using hslots, by simpa using hocc⟩
  | i :: todo, done, entries, m, hnd, hlt, hlen, hinv, hmaps, hslots, hocc => by
    have happ : done ++ i :: todo = (done ++ [i]) ++ todo := by simp
    rw [happ] at hnd hlt hlen ⊢
    cases he : old i with
    | none =>
      have hslots' : SlotsMap old (done ++ [i]) m := by
        simpa [SlotsMap, or_and_right, exists_or, he] using hslots
      simpa [rehashLoop, he] using rehashLoop_spec hold hfuel _ _ hnd hlt hlen hinv hmaps hslots'
        (by simp [hocc, List.countP_append, he])
    | some e =>
      obtain ⟨k, v⟩ := e
      have hle : done.countP (fun i => (old i).isSome) ≤ done.length := List.countP_le_length
      have hfree : Table.occupied entries cap < cap := by
        simp only [List.length_append] at hlen
        omega
      have hi : i < oldCap := hlt i (by simp)
      -- the keys of the old table are distinct, so this one is not in the new table yet
      have hkey : ∀ j ∈ done, ∀ w, old j ≠ some (k, w) := by
        intro j hj w hkj
        have hij : i = j := hold.distinct hi (hlt j (by simp [hj])) he hkj
        exact (List.nodup_append.mp (List.nodup_append.mp hnd).1).2.2 j hj i (by simp) hij.symm
      have habs : m k = none := by
        rw [Option.eq_none_iff_forall_ne_some]
        intro w hw
        obtain ⟨j, hj, hkj⟩ := (hslots k w).mp hw
        exact hkey j hj w hkj
      obtain ⟨res, entries', count', hset, hinv', hcase⟩ :=
        setEntry_spec hinv hmaps hfree hfuel k v none
      rcases hcase with ⟨-, hk, -⟩ | ⟨-, -, hmaps', hocc', -⟩ | ⟨-, -, -, hk⟩
      · rw [habs] at hk
        cases hk
      · have hslots' := hslots.concat he hkey
        have := rehashLoop_spec hold hfuel _ _ hnd hlt hlen hinv' hmaps' hslots'
          (by simp [hocc, hocc', List.countP_append, he])
        simpa [rehashLoop, he, hset] using this
      · cases hk

/-- `hm_expand` leaves the map as it is, or doubles its capacity. -/
theorem hmExpand_spec (h : map.Inv m) (hfuel : 2 * map.capacity ≤ fuel) (entriesOk : Bool) :
    (hmExpand fuel map entriesOk = some (false, map) ∧
        (entriesOk = true → 2 ^ 63 ≤ map.capacity)) ∨
      ∃ map', hmExpand fuel map entriesOk = some (true, map') ∧ map'.Inv m ∧
        map'.count = map.count ∧ map'.capacity = 2 * map.capacity := by
  unfold hmExpand
  have hsize := h.lt_size
  have hfour := h.four_le
  by_cases hcap : map.capacity * hmResizeVal % 2 ^ 64 < map.capacity
  · refine .inl ⟨if_pos hcap, fun _ => ?_⟩
    rw [hmResizeVal] at hcap
    omega
  cases entriesOk with
  | false => exact .inl ⟨by simp, nofun⟩
  | true =>
    have heq : map.capacity * hmResizeVal % 2 ^ 64 = 2 * map.capacity := by
      simp only [hmResizeVal] at hcap ⊢
      omega
    have hlt : 2 * map.capacity < 2 ^ 64 := heq ▸ Nat.mod_lt _ (by decide)
    obtain ⟨entries, m', hre, hinv, hmaps, hslots, hocc⟩ :=
      rehashLoop_spec h.table hfuel (List.range map.capacity) [] (m := fun _ => none)
        (by simpa using List.nodup_range) (by simp) (by simp; omega)
        (Table.inv_empty fun _ => Nat.mod_lt _ (by omega)) Table.maps_empty (by simp [SlotsMap])
        Table.occupied_empty
    have hm : m' = m := by
      funext k
      ext v
      rw [hslots k v, h.maps k v]
      simp
    right
    refine ⟨{ map with capacity := 2 * map.capacity, entries }, ?_, ?_, rfl, rfl⟩
    · simp only [heq] at hcap ⊢
      simp [hcap, hre]
    · exact {
        table := hinv
        maps := hm ▸ hmaps
        occupied_eq := by
          rw [hocc, List.nil_append, ← Table.occupied_eq_countP]
          exact h.occupied_eq
        count_lt := by
          have := h.count_lt
          show map.count < 2 * map.capacity
          omega
        four_le := by
          show 4 ≤ 2 * map.capacity
          omega
        lt_size := hlt }

/-! ## Calls -/

/-- `hm_get` returns the value of the key. -/
theorem hmGet_spec (h : map.Inv m) (hfuel : map.capacity ≤ fuel) (key : HashKey) :
    hmGet fuel map key = some (m key) := by
  obtain ⟨n, i, hs⟩ := h.table.exists_stop (h.occupied_eq ▸ h.count_lt) key
  have hsearch : searchLoop map.entries map.capacity key fuel (homeSlot map.capacity key) =
      some i := by
    rw [searchLoop_eq_probe]
    exact hs.probe (h.table.home_lt key) (Nat.lt_of_lt_of_le hs.lt hfuel)
  rw [homeSlot] at hsearch
  simp [hmGet, hsearch, h.table.stop_value h.maps hs]

/-- The part of `hm_set` after the load test, on a map with two free slots. -/
theorem setEntry_hm (h : map.Inv m) (hcount : map.count + 1 < map.capacity)
    (hfuel : map.capacity ≤ fuel) (call : HmSetCall V) :
    ∃ res entries' count', setEntry fuel map.entries map.capacity call.key call.value
        (some (map.count, call.keyOk)) = some (res, entries', some count') ∧
      Hm.Inv { map with entries := entries', count := count' }
        (if res.isSome then Function.update m call.key (some call.value) else m) ∧
      (map.count ≤ count' ∧ count' ≤ map.count + 1) ∧
      (call.keyOk = true → res = some call.key) := by
  obtain ⟨res, entries', count', hset, hinv, hcase⟩ := setEntry_spec h.table h.maps
    (h.occupied_eq ▸ h.count_lt) hfuel call.key call.value (some (map.count, call.keyOk))
  have hocc := h.occupied_eq
  rcases hcase with ⟨rfl, -, hm, hocc', rfl⟩ | ⟨rfl, -, hm, hocc', rfl⟩ | ⟨rfl, rfl, rfl, hkey⟩
  · exact ⟨_, _, _, hset, ⟨hinv, hm, hocc'.trans hocc, h.count_lt, h.four_le, h.lt_size⟩,
      ⟨Nat.le_refl _, Nat.le_succ _⟩, fun _ => rfl⟩
  · exact ⟨_, _, _, hset, ⟨hinv, hm, by simp only [hocc', hocc], hcount, h.four_le, h.lt_size⟩,
      ⟨Nat.le_succ _, Nat.le_refl _⟩, fun _ => rfl⟩
  · refine ⟨_, _, _, hset, ⟨hinv, h.maps, hocc, h.count_lt, h.four_le, h.lt_size⟩,
      ⟨Nat.le_refl _, Nat.le_succ _⟩, fun hok => ?_⟩
    rw [hok] at hkey
    cases hkey

/-- The capacity is that of a fresh map, or has been doubled because the entries needed it. -/
def Hm.Tight (map : Hm V) : Prop := map.capacity = initialCapacity ∨ 3 * map.capacity ≤ 8 * map.count

/-- `hm_set` returns, and sets the key unless it returns `NULL`, which it does only if an allocation
fails or the capacity cannot be doubled. -/
theorem hmSet_spec (h : map.Inv m) (hfuel : 2 * map.capacity ≤ fuel) (call : HmSetCall V) :
    ∃ res map', hmSet fuel map call = some (res, map') ∧
      map'.Inv (if res.isSome then Function.update m call.key (some call.value) else m) ∧
      (call.entriesOk = true → call.keyOk = true → map.capacity < 2 ^ 63 → res = some call.key) ∧
      (map.Tight → map'.Tight ∧ map'.count ≤ map.count + 1) := by
  have hfour := h.four_le
  have hlt := h.count_lt
  unfold hmSet Hm.Tight
  by_cases hload : 4 * map.count ≥ 3 * map.capacity
  · rcases hmExpand_spec h hfuel call.entriesOk with ⟨hexp, hfull⟩ | ⟨map₁, hexp, h₁, hcount, hcap⟩
    · refine ⟨none, map, by simp [hload, hexp], h, fun hok _ hsize => ?_, fun ht => ⟨ht, Nat.le_succ _⟩⟩
      exact absurd (hfull hok) (Nat.not_le.mpr hsize)
    · obtain ⟨res, entries', count', hset, hinv, hle, hkey⟩ :=
        setEntry_hm h₁ (by omega) (hcap ▸ hfuel) call
      refine ⟨res, _, by simp [hload, hexp, hset], hinv, fun _ hok _ => hkey hok, fun _ => ?_⟩
      dsimp only
      omega
  · obtain ⟨res, entries', count', hset, hinv, hle, hkey⟩ :=
      setEntry_hm h (by omega) (Nat.le_trans (by omega) hfuel) call
    refine ⟨res, _, by simp [hload, hset], hinv, fun _ hok _ => hkey hok, fun _ => ?_⟩
    dsimp only
    omega

/-- A number of probes that no search exceeds. -/
theorem Hm.Inv.fuel_le (h : map.Inv m) (hfuel : 2 ^ 65 ≤ fuel) : 2 * map.capacity ≤ fuel := by
  have := h.lt_size
  omega

/-- The map after a history of calls that starts at `m`. -/
def applySets (m : HashKey → Option V) :
    List (HmSetCall V × Option HashKey) → HashKey → Option V
  | [] => m
  | e :: history =>
    applySets (if e.2.isSome then Function.update m e.1.key (some e.1.value) else m) history

theorem applySets_eq (m : HashKey → Option V) (history : List (HmSetCall V × Option HashKey))
    (key : HashKey) : applySets m history key = (lastSet history key).or (m key) := by
  induction history generalizing m with
  | nil => simp [applySets, lastSet]
  | cons e history ih =>
    rw [applySets, ih]
    simp only [lastSet, List.reverse_cons, List.find?_append, Option.map_or, Option.or_assoc]
    congr 1
    by_cases hres : e.2.isSome <;> by_cases hkey : e.1.key = key
    · simp [hres, hkey]
    · simp [hres, hkey, Function.update_of_ne (Ne.symm hkey)]
    · simp [hres]
    · simp [hres]

theorem hmSets_spec (hfuel : 2 ^ 65 ≤ fuel) : ∀ (calls) {map : Hm V} {m}, map.Inv m →
    ∃ results map', hmSets fuel map calls = some (results, map') ∧
      results.length = calls.length ∧ map'.Inv (applySets m (calls.zip results))
  | [], map, m, h => ⟨[], map, rfl, rfl, h⟩
  | call :: calls, map, m, h => by
    obtain ⟨res, map₁, hset, h₁, -⟩ := hmSet_spec h (h.fuel_le hfuel) call
    obtain ⟨results, map', hsets, hlen, h'⟩ := hmSets_spec hfuel calls h₁
    exact ⟨res :: results, map', by simp [hmSets, hset, hsets], by simp [hlen], h'⟩

/-- Every run of `hm_set` on a fresh map returns, whatever allocations fail. After it `hm_get`
answers with the value last set, and a further `hm_set` that returns `NULL` changes no answer. -/
theorem hmSets_refines_map (calls : List (HmSetCall V)) : ∃ bound, ∀ fuel ≥ bound,
    ∃ results map, hmSets fuel hmCreate calls = some (results, map) ∧
      results.length = calls.length ∧
      (∀ key, hmGet fuel map key = some (lastSet (calls.zip results) key)) ∧
      ∀ call, ∃ res map', hmSet fuel map call = some (res, map') ∧
        (res = none → ∀ key, hmGet fuel map' key = hmGet fuel map key) := by
  refine ⟨2 ^ 65, fun fuel hfuel => ?_⟩
  obtain ⟨results, map, hsets, hlen, h⟩ := hmSets_spec hfuel calls hmCreate_inv
  have hget {map : Hm V} {m} (h : map.Inv m) (key) : hmGet fuel map key = some (m key) :=
    hmGet_spec h (Nat.le_trans (by omega) (h.fuel_le hfuel)) key
  refine ⟨results, map, hsets, hlen, fun key => ?_, fun call => ?_⟩
  · rw [hget h, applySets_eq, Option.or_none]
  · obtain ⟨res, map', hset, h', -⟩ := hmSet_spec h (h.fuel_le hfuel) call
    refine ⟨res, map', hset, ?_⟩
    rintro rfl key
    rw [hget h, hget h']
    rfl

theorem hmSets_keys_from (hfuel : 2 ^ 65 ≤ fuel) : ∀ (calls) {map : Hm V} {m}, map.Inv m →
    map.Tight → map.count + calls.length < 2 ^ 60 →
    (∀ call ∈ calls, call.entriesOk = true ∧ call.keyOk = true) →
    ∃ map', hmSets fuel map calls = some (calls.map (some ·.key), map')
  | [], map, _, _, _, _, _ => ⟨map, rfl⟩
  | call :: calls, map, m, h, ht, hlen, hok => by
    have hcapacity : map.capacity < 2 ^ 63 := by
      have hfresh : initialCapacity = 4 := rfl
      unfold Hm.Tight at ht
      omega
    obtain ⟨hcall, hcalls⟩ := List.forall_mem_cons.mp hok
    rw [List.length_cons] at hlen
    obtain ⟨res, map₁, hset, h₁, hkey, htight⟩ := hmSet_spec h (h.fuel_le hfuel) call
    obtain ⟨ht₁, hcount⟩ := htight ht
    obtain rfl := hkey hcall.1 hcall.2 hcapacity
    obtain ⟨map', hsets⟩ := hmSets_keys_from hfuel calls h₁ ht₁ (by omega) hcalls
    exact ⟨map', by simp [hmSets, hset, hsets]⟩

/-- In a run of fewer than `2 ^ 60` calls on a fresh map whose allocations succeed, no call returns
`NULL`. -/
theorem hmSets_keys (calls : List (HmSetCall V)) (hlen : calls.length < 2 ^ 60)
    (hok : ∀ call ∈ calls, call.entriesOk = true ∧ call.keyOk = true) : ∃ bound, ∀ fuel ≥ bound,
    ∃ map, hmSets fuel hmCreate calls = some (calls.map (some ·.key), map) :=
  ⟨2 ^ 65, fun _ hfuel => hmSets_keys_from hfuel calls hmCreate_inv (.inl rfl)
    ((Nat.zero_add _).trans_lt hlen) hok⟩

end Lethe
