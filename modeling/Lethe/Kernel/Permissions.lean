import Lethe.Kernel.HardwareWalk
import Lethe.Kernel.PresentTree

/-!
# The rights of mapped pages

A page is writable, or accessible to the user, if the entries of all levels say so. `map_page`
gives a table that it makes the flags of the page for which it makes it, and later pages of the
same table do not change them. So a page has the rights of its own call exactly if the first page
of each of its tables asked for these rights as well.
-/

namespace Lethe

/-- Whether writes and accesses of the user are allowed. -/
structure Rights where
  writable : Bool
  user : Bool
  deriving DecidableEq, Repr

namespace Rights

/-- `PAGE_WRITABLE` and `PAGE_USER` in the flags of a call. -/
def requested (flags : BitVec 16) : Rights := ⟨flags.getLsbD 1, flags.getLsbD 2⟩

/-- The rights that all entries of a walk grant. -/
def granted (entries : List PageEntry) : Rights :=
  ⟨entries.all (·.writable = 1), entries.all (·.userAccessable = 1)⟩

/-- The right of `r` is one of `s` as well. -/
def Within (r s : Rights) : Prop := (r.writable → s.writable) ∧ (r.user → s.user)

instance : Decidable (Within r s) := inferInstanceAs (Decidable (_ ∧ _))

end Rights

/-- A call of `map_page`. -/
structure MapCall where
  page : BitVec 64
  frame : BitVec 64
  flags : BitVec 16
  deriving DecidableEq, Repr

/-- The first call for a page below the table entry at the path. -/
def firstCall (calls : List MapCall) (q : List (Fin 512)) : Option MapCall :=
  calls.find? fun c => q.isPrefixOf (Machine.digits c.page)

/-- The first call for each of the tables of a page asks for the rights of the page. -/
def FirstGrants (calls : List MapCall) : Prop :=
  ∀ c ∈ calls, ∀ k, 1 ≤ k → k ≤ 3 → ∀ first ∈ firstCall calls ((Machine.digits c.page).take k),
    (Rights.requested c.flags).Within (.requested first.flags)

namespace Machine

/-- A run of `map_page` calls. -/
def mapPages (m : Machine) (calls : List MapCall) : Except Panic Machine :=
  calls.foldlM (fun m c => m.mapPage c.page c.frame c.flags) m

/-- The rights with which the processor maps an address. -/
def hardwareRights (m : Machine) (root : BitVec 40) (v : BitVec 64) : Option Rights :=
  let p := m.path root v
  match m.hardwareWalk root v with
  | .missing => none
  | .page _ => some (.granted [p.p4, p.p3, p.p2, p.p1])
  | .large _ => some (.granted (if p.p3.pageSize = 1 then [p.p4, p.p3] else [p.p4, p.p3, p.p2]))

/-- The top-level table is empty, and the frame allocator will not return it. -/
structure EmptyRoot (m : Machine) (root : BitVec 40) : Prop where
  pageTable_eq : m.pageTable = frameAddr root + m.hhdmMapping
  empty : ∀ i, (m.entry root i).present = 0
  fresh : frameAddr root ∉ m.allocator.pending
  allocator : m.allocator.Inv
  pending_nodup : m.allocator.pending.Nodup
  pending_lt : ∀ f ∈ m.allocator.pending, f.toNat < 2 ^ 52

variable {m m' : Machine} {root : BitVec 40}

/-! ## The entries of a walk -/

/-- The walk of the processor over four present entries of which none is that of a large page. -/
theorem hardwareRights_of_entryOn {v : BitVec 64}
    (h4 : m.entryOn root ((digits v).take 1) = some e4)
    (h3 : m.entryOn root ((digits v).take 2) = some e3)
    (h2 : m.entryOn root ((digits v).take 3) = some e2)
    (h1 : m.entryOn root (digits v) = some e1)
    (hp4 : e4.pageSize = 0) (hp3 : e3.pageSize = 0) (hp2 : e2.pageSize = 0) :
    m.hardwareRights root v = some (.granted [e4, e3, e2, e1]) := by
  obtain ⟨he4, hpres4⟩ : m.entry root (p4Index v) = e4 ∧ e4.present ≠ 0 := by
    rw [show (digits v).take 1 = [] ++ [p4Index v] from rfl, entryOn_concat] at h4
    exact presentEntry_some h4
  obtain ⟨he3, hpres3⟩ := entry_of_entryOn (p := []) (j := p4Index v) (i := p3Index v) h4 h3
  obtain ⟨he2, hpres2⟩ :=
    entry_of_entryOn (p := [p4Index v]) (j := p3Index v) (i := p2Index v) h3 h2
  obtain ⟨he1, hpres1⟩ :=
    entry_of_entryOn (p := [p4Index v, p3Index v]) (j := p2Index v) (i := p1Index v) h2 h1
  have hpath : m.path root v = ⟨e4, e3, e2, e1⟩ := by
    simp only [path, he4, he3, he2, he1]
  have hwalk : m.hardwareWalk root v = .page e1.address := by
    have hsmall {e : PageEntry} (h : e.pageSize = 0) : e.pageSize ≠ 1 := by
      rw [h]
      decide
    simp only [hardwareWalk, he4, he3, he2, he1]
    rw [if_neg (not_or.mpr ⟨hpres4, hsmall hp4⟩), if_neg hpres3, if_neg (hsmall hp3), if_neg hpres2,
      if_neg (hsmall hp2), if_neg hpres1]
  simp only [hardwareRights, hwalk, hpath]

/-! ## Runs -/

theorem setEntry_writable (f : BitVec 64) (flags : BitVec 16) :
    (PageEntry.setEntry f flags).writable = BitVec.ofBool (flags.getLsbD 1) := by
  ext i hi
  obtain rfl : i = 0 := by omega
  simp [PageEntry.setEntry]

theorem setEntry_userAccessable (f : BitVec 64) (flags : BitVec 16) :
    (PageEntry.setEntry f flags).userAccessable = BitVec.ofBool (flags.getLsbD 2) := by
  ext i hi
  obtain rfl : i = 0 := by omega
  simp [PageEntry.setEntry]

/-- The rights of four entries that have been set with the given flags. -/
theorem granted_setEntry (f4 f3 f2 f1 : BitVec 64) (l4 l3 l2 l1 : BitVec 16) :
    Rights.granted [.setEntry f4 l4, .setEntry f3 l3, .setEntry f2 l2, .setEntry f1 l1] =
        .requested l1 ↔
      (Rights.requested l1).Within (.requested l4) ∧
        (Rights.requested l1).Within (.requested l3) ∧
        (Rights.requested l1).Within (.requested l2) := by
  have hbit (b : Bool) : BitVec.ofBool b = 1 ↔ b = true := by
    cases b <;> decide
  simp only [Rights.granted, Rights.requested, Rights.Within, List.all_cons, List.all_nil,
    setEntry_writable, setEntry_userAccessable, hbit, Rights.mk.injEq]
  cases l4.getLsbD 1 <;> cases l3.getLsbD 1 <;> cases l2.getLsbD 1 <;> cases l1.getLsbD 1 <;>
    cases l4.getLsbD 2 <;> cases l3.getLsbD 2 <;> cases l2.getLsbD 2 <;> cases l1.getLsbD 2 <;>
    decide

theorem EmptyRoot.entryOn (h : m.EmptyRoot root) (q : List (Fin 512)) : m.entryOn root q = none := by
  have hnone (i) : m.presentEntry root i = none := presentEntry_eq_none.mpr (h.empty i)
  have htable (p : List (Fin 512)) (hp : p ≠ []) : m.tableOn root p = none := by
    cases p with
    | nil => exact absurd rfl hp
    | cons i p =>
      simp only [tableOn, Radix.follow, Radix.child, hnone]
      rfl
  induction q using List.reverseRecOn with
  | nil => rfl
  | append_singleton q i _ =>
    rw [entryOn_concat]
    by_cases hq : q = []
    · subst hq
      exact hnone i
    · rw [htable q hq]
      rfl

theorem EmptyRoot.tableInv (h : m.EmptyRoot root) : m.TableInv root := by
  have hroot {p n} (hto : m.tableOn root p = some n) : p = [] ∧ n = root := by
    induction p using List.reverseRecOn with
    | nil => exact ⟨rfl, (Option.some.inj hto).symm⟩
    | append_singleton p i _ =>
      rw [tableOn_concat, h.entryOn] at hto
      cases hto
  refine ⟨h.pageTable_eq, fun _ _ hp hq => (hroot hp).1.trans (hroot hq).1.symm, fun _ hto => ?_,
    h.allocator, h.pending_nodup, h.pending_lt⟩
  rw [(hroot hto).2]
  exact h.fresh

/-- The entries after a run: those of the pages are as their calls say, and every entry on the way
to a page has the flags of the first call for a page below it. -/
structure Mapped (m : Machine) (root : BitVec 40) (calls : List MapCall) : Prop where
  inv : m.TableInv root
  pages : ∀ c ∈ calls, m.entryOn root (digits c.page) = some (.setEntry c.frame c.flags)
  first : ∀ q, q ≠ [] → q.length ≤ 4 → ∀ c, firstCall calls q = some c →
    ∃ f, m.entryOn root q = some (.setEntry f c.flags)
  absent : ∀ q, q.length ≤ 4 → firstCall calls q = none → m.entryOn root q = none

/-- One more call. -/
theorem Mapped.step (h : m.Mapped root calls) (hflags : FlagsOk c.flags)
    (hok : m.mapPage c.page c.frame c.flags = .ok m') : m'.Mapped root (calls ++ [c]) := by
  rcases h.inv.mapPage c.page c.frame hflags with
    ⟨herr, -⟩ | ⟨herr, -⟩ | ⟨m₁, hok₁, hinv, hnone, hpage, hadds, -, -⟩
  · cases herr.symm.trans hok
  · cases herr.symm.trans hok
  cases hok₁.symm.trans hok
  have hkeep {q e} (hq : q.length ≤ 4) (he : m.entryOn root q = some e) :
      m'.entryOn root q = some e := by
    rcases hadds q hq with hsame | ⟨-, hnone, -⟩
    · exact hsame.trans he
    · cases hnone.symm.trans he
  have hfirst (q : List (Fin 512)) : firstCall (calls ++ [c]) q =
      (firstCall calls q).or (if q <+: digits c.page then some c else none) := by
    rw [firstCall, List.find?_append, ← firstCall]
    congr 1
    by_cases hpre : q <+: digits c.page
    · rw [if_pos hpre, List.find?_singleton, if_pos (List.isPrefixOf_iff_prefix.mpr hpre)]
    · rw [if_neg hpre, List.find?_singleton, if_neg (mt List.isPrefixOf_iff_prefix.mp hpre)]
  refine ⟨hinv, fun c' hc' => ?_, fun q hne hq c' hc' => ?_, fun q hq hnone' => ?_⟩
  · rcases List.mem_append.mp hc' with hc' | hc'
    · exact hkeep (Nat.le_refl 4) (h.pages c' hc')
    · obtain rfl := List.mem_singleton.mp hc'
      exact hpage
  · rw [hfirst] at hc'
    cases hold : firstCall calls q with
    | some c₀ =>
      rw [hold, Option.some_or] at hc'
      obtain rfl := Option.some.inj hc'
      obtain ⟨f, hf⟩ := h.first q hne hq c₀ hold
      exact ⟨f, hkeep hq hf⟩
    | none =>
      rw [hold, Option.none_or] at hc'
      by_cases hpre : q <+: digits c.page
      · rw [if_pos hpre] at hc'
        obtain rfl := Option.some.inj hc'
        have hthere := entryOn_prefix (by rw [hpage]; exact Option.some_ne_none _) hne hpre
        rcases hadds q hq with hsame | ⟨-, -, hnew⟩
        · exact absurd (hsame.trans (h.absent q hq hold)) hthere
        · exact hnew
      · rw [if_neg hpre] at hc'
        cases hc'
  · rw [hfirst, Option.or_eq_none_iff] at hnone'
    rcases hadds q hq with hsame | ⟨hpre, -, -⟩
    · exact hsame.trans (h.absent q hq hnone'.1)
    · have := hnone'.2
      rw [if_pos hpre] at this
      cases this

theorem EmptyRoot.mapped (h : m.EmptyRoot root) (hflags : ∀ c ∈ calls, FlagsOk c.flags)
    (hrun : m.mapPages calls = .ok m') : m'.Mapped root calls := by
  induction calls using List.reverseRecOn generalizing m' with
  | nil =>
    cases hrun
    exact ⟨h.tableInv, by simp, by simp [firstCall], fun q _ _ => h.entryOn q⟩
  | append_singleton calls c ih =>
    rw [mapPages, List.foldlM_append] at hrun
    cases hfirst : m.mapPages calls with
    | error e =>
      rw [mapPages] at hfirst
      rw [hfirst] at hrun
      cases hrun
    | ok m₁ =>
      have h₁ := ih (fun c' hc' => hflags c' (List.mem_append_left _ hc')) hfirst
      refine h₁.step (hflags c (by simp)) ?_
      rw [mapPages] at hfirst
      rw [hfirst] at hrun
      replace hrun : [c].foldlM (fun m c => m.mapPage c.page c.frame c.flags) m₁ = .ok m' := hrun
      simpa using hrun

theorem firstCall_of_mem (hc : c ∈ calls) (hpre : q <+: digits c.page) :
    ∃ first, firstCall calls q = some first := by
  refine Option.isSome_iff_exists.mp (List.find?_isSome.mpr ⟨c, hc, ?_⟩)
  exact List.isPrefixOf_iff_prefix.mpr hpre

theorem Mapped.rights (h : m.Mapped root calls) (hflags : ∀ c ∈ calls, FlagsOk c.flags)
    (hc : c ∈ calls) : m.hardwareRights root c.page = some (.requested c.flags) ↔
      ∀ k, 1 ≤ k → k ≤ 3 → ∀ first ∈ firstCall calls ((digits c.page).take k),
        (Rights.requested c.flags).Within (.requested first.flags) := by
  have hlevel (k : Nat) (hk : 1 ≤ k) (hk' : k ≤ 3) : ∃ first f,
      firstCall calls ((digits c.page).take k) = some first ∧ FlagsOk first.flags ∧
        m.entryOn root ((digits c.page).take k) = some (.setEntry f first.flags) := by
    obtain ⟨first, hfirst⟩ := firstCall_of_mem hc (List.take_prefix k (digits c.page))
    have hlen : ((digits c.page).take k).length = k := by
      rw [List.length_take]
      exact Nat.min_eq_left (Nat.le_succ_of_le hk')
    obtain ⟨f, hf⟩ := h.first _ (List.ne_nil_of_length_pos (by omega)) (by omega) first hfirst
    exact ⟨first, f, hfirst, hflags first (List.mem_of_find?_eq_some hfirst), hf⟩
  obtain ⟨c4, f4, hfirst4, hflags4, h4⟩ := hlevel 1 (by decide) (by decide)
  obtain ⟨c3, f3, hfirst3, hflags3, h3⟩ := hlevel 2 (by decide) (by decide)
  obtain ⟨c2, f2, hfirst2, hflags2, h2⟩ := hlevel 3 (by decide) (by decide)
  rw [hardwareRights_of_entryOn h4 h3 h2 (h.pages c hc) (setEntry_pageSize hflags4 f4)
    (setEntry_pageSize hflags3 f3) (setEntry_pageSize hflags2 f2), Option.some.injEq,
    granted_setEntry]
  constructor
  · rintro ⟨hw4, hw3, hw2⟩ k hk hk' first hfirst
    obtain rfl | rfl | rfl : k = 1 ∨ k = 2 ∨ k = 3 := by omega
    · obtain rfl := Option.some.inj (hfirst4.symm.trans hfirst)
      exact hw4
    · obtain rfl := Option.some.inj (hfirst3.symm.trans hfirst)
      exact hw3
    · obtain rfl := Option.some.inj (hfirst2.symm.trans hfirst)
      exact hw2
  · intro hwithin
    exact ⟨hwithin 1 (by decide) (by decide) c4 hfirst4, hwithin 2 (by decide) (by decide) c3 hfirst3,
      hwithin 3 (by decide) (by decide) c2 hfirst2⟩

/-- After a run of `map_page` from an empty top-level table every page has the rights of its own
call exactly if the first page of each table asked for the rights of all pages below the table. -/
theorem mapPages_rights_iff (m m' : Machine) (root : BitVec 40) (h : m.EmptyRoot root)
    (calls : List MapCall) (hflags : ∀ c ∈ calls, FlagsOk c.flags)
    (hrun : m.mapPages calls = .ok m') :
    (∀ c ∈ calls, m'.hardwareRights root c.page = some (.requested c.flags)) ↔
      FirstGrants calls := by
  have hmapped := h.mapped hflags hrun
  constructor
  · intro hrights c hc
    exact (hmapped.rights hflags hc).mp (hrights c hc)
  · intro hfirst c hc
    exact (hmapped.rights hflags hc).mpr (hfirst c hc)

theorem emptyRoot_emptyTables : emptyTables.EmptyRoot 1 := by
  have hpend : emptyTables.allocator.pending = [0x10000, 0x11000, 0x12000, 0x13000] := by decide
  refine ⟨by decide, fun _ => rfl, ?_, ⟨rfl, by decide, by decide, nofun⟩, ?_, ?_⟩
  · rw [hpend]
    decide
  · rw [hpend]
    decide
  · rw [hpend]
    simp

/-- A page that is writable first, and then one that is not, in the same table. -/
theorem mapPages_rights_writableFirst :
    ∃ m', emptyTables.mapPages [⟨0x400000, 0x5000, 3⟩, ⟨0x401000, 0x6000, 1⟩] = .ok m' ∧
      ∀ c ∈ [MapCall.mk 0x400000 0x5000 3, ⟨0x401000, 0x6000, 1⟩],
        m'.hardwareRights 1 c.page = some (.requested c.flags) := by
  have hflags : ∀ c ∈ [MapCall.mk 0x400000 0x5000 3, ⟨0x401000, 0x6000, 1⟩], FlagsOk c.flags := by
    intro c hc
    simp only [List.mem_cons, List.not_mem_nil, or_false] at hc
    obtain rfl | rfl := hc <;> exact ⟨by decide, by decide⟩
  have hfirst : FirstGrants [⟨0x400000, 0x5000, 3⟩, ⟨0x401000, 0x6000, 1⟩] := by
    intro c hc k hk hk' first hfirst
    simp only [List.mem_cons, List.not_mem_nil, or_false] at hc
    obtain rfl | rfl | rfl : k = 1 ∨ k = 2 ∨ k = 3 := by omega
    all_goals
      obtain rfl | rfl := hc <;> obtain rfl := Option.some.inj hfirst <;> decide
  have hok : (emptyTables.mapPages
      [⟨0x400000, 0x5000, 3⟩, ⟨0x401000, 0x6000, 1⟩]).toOption.isSome := by decide +kernel
  cases hrun : emptyTables.mapPages [⟨0x400000, 0x5000, 3⟩, ⟨0x401000, 0x6000, 1⟩] with
  | error e =>
    rw [hrun] at hok
    cases hok
  | ok m' =>
    exact ⟨m', rfl,
      (mapPages_rights_iff emptyTables m' 1 emptyRoot_emptyTables _ hflags hrun).mpr hfirst⟩

/-- A page that is not writable first, and then one that asks for it: it is not writable either. -/
theorem mapPages_rights_readOnlyFirst :
    ∃ m', emptyTables.mapPages [⟨0x400000, 0x5000, 1⟩, ⟨0x401000, 0x6000, 3⟩] = .ok m' ∧
      m'.hardwareRights 1 0x401000 = some ⟨false, false⟩ ∧
      Rights.requested 3 = ⟨true, false⟩ := by
  have hrights : (emptyTables.mapPages [⟨0x400000, 0x5000, 1⟩, ⟨0x401000, 0x6000, 3⟩]).toOption.map
      (·.hardwareRights 1 0x401000) = some (some ⟨false, false⟩) := by decide +kernel
  cases hrun : emptyTables.mapPages [⟨0x400000, 0x5000, 1⟩, ⟨0x401000, 0x6000, 3⟩] with
  | error e =>
    rw [hrun] at hrights
    cases hrights
  | ok m' =>
    rw [hrun] at hrights
    exact ⟨m', rfl, Option.some.inj hrights, rfl⟩

end Machine

end Lethe
