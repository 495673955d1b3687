import Lethe.Aml.Resolution

/-!
# Absolute names

`resolve_name` fills the result from its end: the key, then the names of the namespaces upwards, and
`\` in front of them. `locate_object` on the result follows the same names downwards, so that it
finds what the key leads to in the namespace.
-/

namespace Lethe

namespace Tree

/-- The parents of the namespace lead to `root()`, and each namespace is registered with its parent
under its own name. The names are those from the one below `root()` on. -/
inductive AbsolutePath (t : Tree) : Nat → List NameSeg → Prop
  | base : (t.nodes root).parent = none → t.AbsolutePath root []
  | child {seg : NameSeg} : t.AbsolutePath p names → (t.nodes n).parent = some p →
      (t.nodes n).name = seg.key → (t.nodes p).namespaces seg.key = some n →
      t.AbsolutePath n (names ++ [seg])

variable {t : Tree}

/-- The names lead from `root()` to the namespace. -/
theorem AbsolutePath.descend (h : t.AbsolutePath n names) :
    t.descend root (names.map NameSeg.key) = some n := by
  induction h with
  | base _ => rfl
  | child _ _ _ hregistered ih =>
    rw [List.map_append, List.map_singleton, Tree.descend, Radix.follow_concat]
    rw [Tree.descend] at ih
    rw [ih]
    exact hregistered

theorem AbsolutePath.descend_append (h : t.AbsolutePath n names) (segs : List NameSeg) :
    t.descend root ((names ++ segs).map NameSeg.key) = t.descend n (segs.map NameSeg.key) := by
  have hdescend := h.descend
  rw [Tree.descend] at hdescend ⊢
  rw [List.map_append, Radix.follow_append, hdescend]
  rfl

/-- The first loop of `resolve_name` counts the names. -/
theorem AbsolutePath.levelsLoop_eq (ht : t.Nested) (h : t.AbsolutePath n names) (hn : n < fuel)
    (levels : Nat) :
    levelsLoop t fuel n levels = some (levels + names.length, root) := by
  induction h generalizing fuel levels with
  | base hparent =>
    cases fuel with
    | zero => exact absurd hn (Nat.not_lt_zero _)
    | succ fuel =>
      rw [levelsLoop, hparent]
      rfl
  | @child p names n seg _ hparent _ _ ih =>
    cases fuel with
    | zero => exact absurd hn (Nat.not_lt_zero _)
    | succ fuel =>
      have hlt := ht.parent_lt hparent
      rw [levelsLoop, hparent]
      refine (ih (by omega) (levels + 1)).trans ?_
      rw [List.length_append, List.length_singleton, Nat.add_right_comm, Nat.add_assoc]

/-- A round of the second loop puts the name of the namespace into the gap behind the front. -/
theorem prependLoop_child {seg : NameSeg} (hparent : (t.nodes n).parent = some p)
    (hname : (t.nodes n).name = seg.key) {front gap : List UInt8} (hgap : gap.length = keyLen)
    (rest : List UInt8) :
    prependLoop t (fuel + 1) n (front ++ (gap ++ rest)) (front.length : Int) =
      prependLoop t fuel p (front ++ (seg.key.bytes ++ rest)) ((front.length : Int) - keyLen) := by
  have hdrop : (front ++ (gap ++ rest)).drop (front.length + seg.key.bytes.length) = rest := by
    have hlen : front.length + seg.key.bytes.length = (front ++ gap).length := by
      rw [List.length_append, hgap]
      rfl
    rw [hlen, ← List.append_assoc, List.drop_left]
  rw [prependLoop, hparent]
  simp only [hname, Int.toNat_natCast, memcpyTo, List.take_left, hdrop, List.append_assoc]

/-- The second loop fills the buffer up to its first byte with the names. -/
theorem AbsolutePath.prependLoop_eq (ht : t.Nested) (h : t.AbsolutePath n names) (hn : n < fuel)
    {front : List UInt8} (hlen : front.length = 1 + names.length * keyLen) (rest : List UInt8) :
    prependLoop t fuel n (front ++ rest) ((front.length : Int) - keyLen) =
      some (front.take 1 ++ (segBytes names ++ rest)) := by
  induction h generalizing fuel front rest with
  | base hparent =>
    cases fuel with
    | zero => exact absurd hn (Nat.not_lt_zero _)
    | succ fuel =>
      have htake : front.take 1 = front := List.take_of_length_le (Nat.le_of_eq hlen)
      rw [prependLoop, hparent, htake]
      rfl
  | @child p names n seg _ hparent hname _ ih =>
    cases fuel with
    | zero => exact absurd hn (Nat.not_lt_zero _)
    | succ fuel =>
      have hlt := ht.parent_lt hparent
      rw [List.length_append, List.length_singleton, Nat.succ_mul] at hlen
      obtain ⟨front, gap, rfl, hgap⟩ :
          ∃ front' gap, front = front' ++ gap ∧ gap.length = keyLen := by
        refine ⟨_, _, (List.take_append_drop (front.length - keyLen) front).symm, ?_⟩
        rw [List.length_drop]
        omega
      rw [List.length_append, hgap] at hlen ⊢
      have hoffset : ((front.length + keyLen : Nat) : Int) - keyLen = front.length := by omega
      have htake : (front ++ gap).take 1 = front.take 1 :=
        List.take_append_of_le_length (by omega)
      rw [hoffset, List.append_assoc, prependLoop_child hparent hname hgap,
        ih (by omega) (by omega) (seg.key.bytes ++ rest), htake, segBytes_append, List.append_assoc]
      rfl

end Tree

variable {t : Tree}

/-- A key without a prefix does not begin with the character of one. -/
theorem head?_segBytes (scope : List NameSeg) (last : NameSeg) :
    (segBytes (scope ++ [last])).head? ≠ some rootChar ∧
      (segBytes (scope ++ [last])).head? ≠ some parentChar := by
  obtain ⟨seg, segs, hsegs⟩ : ∃ seg segs, scope ++ [last] = seg :: segs :=
    List.exists_cons_of_ne_nil (by simp)
  obtain ⟨hroot, hparent, -⟩ := validChar_not_lead seg.validChar_c0
  have hhead : (segBytes (seg :: segs)).head? = some seg.key.c0 := rfl
  rw [hsegs, hhead]
  exact ⟨fun h => hroot (Option.some.inj h), fun h => hparent (Option.some.inj h)⟩

/-- The buffer of `resolve_name` with the key at its end. -/
theorem memcpyTo_block (block : Nat → UInt8) (offset : Nat) (key : List UInt8) :
    ∃ front, front.length = offset ∧
      memcpyTo ((List.range (offset + key.length)).map block) offset key = front ++ key := by
  refine ⟨((List.range (offset + key.length)).map block).take offset, ?_, ?_⟩
  · rw [List.length_take, List.length_map, List.length_range]
    omega
  · have hdrop : ((List.range (offset + key.length)).map block).drop (offset + key.length) = [] :=
      List.drop_eq_nil_of_le (by rw [List.length_map, List.length_range])
    rw [memcpyTo, hdrop, List.append_nil]

/-- Below `root()`, `resolve_name` gives the names from `root()` to the namespace and the key behind
them. -/
theorem resolveName_eq (ht : t.Nested) (hns : ns < t.next) (hne : ns ≠ root)
    (habsolute : t.AbsolutePath ns names) (block : Nat → UInt8) (scope : List NameSeg)
    (last : NameSeg) (behind : HashKey) :
    resolveName t block ns ⟨segBytes (scope ++ [last]), behind⟩ =
      .ok ⟨rootChar :: (segBytes names ++ segBytes (scope ++ [last])), ⟨0, 0, 0, 0⟩⟩ := by
  obtain ⟨hroot, hparent⟩ := head?_segBytes scope last
  have hpos : names.length ≠ 0 := by
    intro hzero
    obtain rfl := List.eq_nil_of_length_eq_zero hzero
    exact hne (Option.some.inj habsolute.descend).symm
  rw [resolveName, if_neg hparent, if_neg (not_or.mpr ⟨hne, hroot⟩),
    habsolute.levelsLoop_eq ht hns 0, Nat.zero_add]
  generalize segBytes (scope ++ [last]) = key
  have hsize :
    names.length * keyLen + (key.length + 1) = 1 + names.length * keyLen + key.length := by
    omega
  simp only [ne_eq, not_true_eq_false, if_false, hpos, AmlName.count, hsize, Nat.add_sub_cancel]
  obtain ⟨front, hlen, hblock⟩ := memcpyTo_block block (1 + names.length * keyLen) key
  have hprepend := habsolute.prependLoop_eq ht hns hlen key
  obtain ⟨b, hfirst⟩ : ∃ b, front.take 1 = [b] := by
    apply List.length_eq_one_iff.mp
    rw [List.length_take_of_le]
    omega
  rw [hlen, hfirst] at hprepend
  rw [hblock, hprepend]
  rfl

/-- `resolve_name` gives the absolute name of what the key denotes in the namespace: it is `\` and
the names, and finds the same object from everywhere. -/
theorem resolveName_denotes (t : Tree) (ht : t.Nested) (ns : Nat) (hns : ns < t.next)
    (hne : ns ≠ root) (names : List NameSeg) (habsolute : t.AbsolutePath ns names)
    (scope : List NameSeg) (last : NameSeg) (block : Nat → UInt8) (behind : HashKey) :
    ∃ name, resolveName t block ns ⟨segBytes (scope ++ [last]), behind⟩ = .ok name ∧
      name.inner = rootChar :: (segBytes names ++ segBytes (scope ++ [last])) ∧
      name.count = 1 + keyLen * (names.length + (scope.length + 1)) ∧
      ∀ (β : Type) (look : Lookup β) (ns' : Nat), ns' < t.next →
        ∃ name', locateObject look t ns' name =
          .ok ((t.descend ns (scope.map NameSeg.key)).bind fun m => look.get (t.nodes m) last.key,
            name') := by
  refine ⟨_, resolveName_eq ht hns hne habsolute block scope last behind, rfl, ?_, ?_⟩
  · simp only [AmlName.count, List.length_cons, List.length_append, segBytes_length,
      List.length_nil]
    rw [← Nat.add_mul, Nat.mul_comm, Nat.add_comm]
  · intro β look ns' hns'
    let path : Path := ⟨.root, names ++ scope, last⟩
    have hinner : path.inner = rootChar :: (segBytes names ++ segBytes (scope ++ [last])) := by
      rw [← segBytes_append, ← List.append_assoc]
      rfl
    have hresolve : path.resolve look t ns' =
        (t.descend ns (scope.map NameSeg.key)).bind fun m => look.get (t.nodes m) last.key := by
      rw [← habsolute.descend_append]
      rfl
    have hlocate := path.locateObject_eq look ⟨0, 0, 0, 0⟩ ht hns'
    rw [hinner, hresolve] at hlocate
    exact ⟨_, hlocate⟩

/-- `_PR_` in `_SB_`. -/
theorem resolveName_denotes_predefined :
    ∃ name, resolveName initAmlNamespaces (fun _ => 0xAA) 3
        ⟨[0x5F, 0x50, 0x52, 0x5F], ⟨0, 0, 0, 0⟩⟩ = .ok name ∧
      name.inner = [0x5C, 0x5F, 0x53, 0x42, 0x5F, 0x5F, 0x50, 0x52, 0x5F] := by
  let sb : NameSeg := ⟨keyOfChars '_' 'S' 'B' '_', by decide⟩
  have habsolute : initAmlNamespaces.AbsolutePath 3 [sb] := .child (.base rfl) rfl rfl rfl
  obtain ⟨name, hname, hinner, -⟩ :=
    resolveName_denotes initAmlNamespaces initAmlNamespaces_nested 3
    (by decide) (by decide) [sb] habsolute [] ⟨keyOfChars '_' 'P' 'R' '_', by decide⟩
      (fun _ => 0xAA)
    ⟨0, 0, 0, 0⟩
  exact ⟨name, hname, hinner⟩

end Lethe
