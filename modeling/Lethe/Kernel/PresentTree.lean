import Lethe.Kernel.Paging

/-!
# The tree of present entries

`map_page` looks at the present bit only, so the entries that it finds and makes form a tree
whatever the frames are that pages have been mapped to. `Machine.TableInv.mapPage` says which
entries a call adds: those on the way to the page that were not present, all with the flags of
the call.
-/

namespace Lethe

namespace Machine

variable {m m' : Machine} {root n : BitVec 40} {p q path : List (Fin 512)} {i : Fin 512}

/-- An entry, if it is present. -/
def presentEntry (m : Machine) (n : BitVec 40) (i : Fin 512) : Option PageEntry :=
  if (m.entry n i).present = 0 then none else some (m.entry n i)

/-- The entry at the end of a path of present entries. -/
def entryOn (m : Machine) (root : BitVec 40) (q : List (Fin 512)) : Option PageEntry :=
  Radix.edgeAt m.presentEntry PageEntry.address root q

/-- The table at the end of a path of present entries. -/
def tableOn (m : Machine) (root : BitVec 40) (p : List (Fin 512)) : Option (BitVec 40) :=
  Radix.follow (Radix.child m.presentEntry PageEntry.address) root p

theorem entryOn_concat : m.entryOn root (p ++ [i]) = (m.tableOn root p).bind (m.presentEntry · i) :=
  Radix.edgeAt_concat

theorem tableOn_concat : m.tableOn root (p ++ [i]) = (m.entryOn root (p ++ [i])).map PageEntry.address :=
  Radix.follow_eq_edgeAt

theorem presentEntry_eq_none : m.presentEntry n i = none ↔ (m.entry n i).present = 0 := by
  simp [presentEntry]

theorem presentEntry_eq_some (h : (m.entry n i).present ≠ 0) :
    m.presentEntry n i = some (m.entry n i) := if_neg h

theorem entryOn_prefix (h : m.entryOn root q ≠ none) (hp : p ≠ []) (hpre : p <+: q) :
    m.entryOn root p ≠ none := by
  intro hnone
  have htable : m.tableOn root p = none := by
    rw [← List.dropLast_concat_getLast hp, tableOn_concat, List.dropLast_concat_getLast hp, hnone]
    rfl
  obtain ⟨r, rfl⟩ := hpre
  induction r using List.reverseRecOn with
  | nil => exact h (by rw [List.append_nil, hnone])
  | append_singleton r j _ =>
    refine h ?_
    rw [← List.append_assoc, entryOn_concat, tableOn,
      Radix.follow_of_prefix_none htable (List.prefix_append p r)]
    rfl

theorem presentEntry_some (h : m.presentEntry n i = some e) : m.entry n i = e ∧ e.present ≠ 0 := by
  by_cases hp : (m.entry n i).present = 0
  · rw [presentEntry_eq_none.mpr hp] at h
    cases h
  · rw [presentEntry_eq_some hp] at h
    obtain rfl := Option.some.inj h
    exact ⟨rfl, hp⟩

/-- An entry behind an entry. -/
theorem entry_of_entryOn (hp : m.entryOn root (p ++ [j]) = some e)
    (h : m.entryOn root (p ++ [j] ++ [i]) = some e') : m.entry e.address i = e' ∧ e'.present ≠ 0 := by
  rw [entryOn_concat, tableOn_concat, hp] at h
  exact presentEntry_some h

/-! ## Writes to slots -/

/-- The links of present entries. -/
abbrev presentLink (m : Machine) : BitVec 40 → Fin 512 → Option (BitVec 40) :=
  Radix.child m.presentEntry PageEntry.address

variable {e : PageEntry}

/-- An entry for a fresh table is added to the tree, in a slot that was empty. -/
theorem Grafts.entryOn (h : m.Grafts m' n i e) (he : e.present ≠ 0)
    (hd : Radix.Distinct m.presentLink root 3) (hp : p.length < 3) (hn : m.tableOn root p = some n)
    (hempty : m.presentEntry n i = none)
    (hfresh : ∀ q, q.length ≤ 3 → m.tableOn root q ≠ some e.address) :
    Radix.Distinct m'.presentLink root 3 ∧ m'.entryOn root (p ++ [i]) = some e ∧
      ∀ q, q.length ≤ 4 → q ≠ p ++ [i] → m'.entryOn root q = m.entryOn root q := by
  have hne : e.address ≠ n := by
    rintro rfl
    exact hfresh p (by omega) hn
  have hslot : m'.entry n i = e := (h n i).trans (if_pos ⟨rfl, rfl⟩)
  have hnew : m'.presentEntry n i = some e := by
    rw [presentEntry, hslot, if_neg he]
  have hzero (j) : m'.presentEntry e.address j = none := by
    rw [presentEntry_eq_none, h, if_neg fun heq => hne heq.1, if_pos rfl]
    rfl
  have hrest (n' i') (hn' : n' ≠ e.address) (hslot : ¬ (n' = n ∧ i' = i)) :
      m'.presentEntry n' i' = m.presentEntry n' i' := by
    rw [presentEntry, h, if_neg hslot, if_neg hn', presentEntry]
  have hgraft {q : List (Fin 512)} (hq : q.length ≤ 4) :=
    Radix.edgeAt_graft hd hp hn hempty hfresh hzero hnew hrest hq
  refine ⟨?_, (hgraft (q := []) (Nat.zero_le _)).2, fun q hq => (hgraft hq).1⟩
  refine Radix.Distinct.graft (f := e.address) hd hp hn ?_ hfresh (fun j => ?_) ?_
    fun n' i' h h' => Radix.child_congr (hrest n' i' h h')
  · change (m.presentEntry n i).map _ = none
    rw [hempty]
    rfl
  · change (m'.presentEntry e.address j).map _ = none
    rw [hzero]
    rfl
  · change (m'.presentEntry n i).map _ = some e.address
    rw [hnew]
    rfl

/-- An entry of the last level is written. -/
theorem Replaces.entryOn (h : m.Replaces m' n i e) (he : e.present ≠ 0)
    (hd : Radix.Distinct m.presentLink root 3) (hp : p.length = 3) (hn : m.tableOn root p = some n) :
    Radix.Distinct m'.presentLink root 3 ∧ m'.entryOn root (p ++ [i]) = some e ∧
      ∀ q, q.length ≤ 4 → q ≠ p ++ [i] → m'.entryOn root q = m.entryOn root q := by
  have hrest (n' i') (hslot : ¬ (n' = n ∧ i' = i)) : m'.presentEntry n' i' = m.presentEntry n' i' := by
    rw [presentEntry, h, if_neg hslot, presentEntry]
  have hset {q : List (Fin 512)} (hq : q.length ≤ 4) := Radix.edgeAt_set hd hp hn hrest hq
  refine ⟨Radix.Distinct.set hd hp hn fun n' i' h => Radix.child_congr (hrest n' i' h), ?_,
    fun q hq => (hset hq).1⟩
  refine (hset (q := []) (Nat.zero_le _)).2.trans ?_
  have hslot : m'.entry n i = e := (h n i).trans (if_pos ⟨rfl, rfl⟩)
  rw [presentEntry, hslot, if_neg he]

/-- A table behind entries that changed at one path only is that of the new entry, or was there
before. -/
theorem tableOn_cases (hnew : m'.entryOn root p = some e)
    (hsame : ∀ q, q.length ≤ 4 → q ≠ p → m'.entryOn root q = m.entryOn root q) (hq : q.length ≤ 4)
    (hto : m'.tableOn root q = some n) : q = p ∧ n = e.address ∨ m.tableOn root q = some n := by
  induction q using List.reverseRecOn with
  | nil => exact .inr hto
  | append_singleton q j _ =>
    by_cases heq : q ++ [j] = p
    · rw [tableOn_concat, heq, hnew] at hto
      exact .inl ⟨heq, (Option.some.inj hto).symm⟩
    · rw [tableOn_concat, hsame _ hq heq, ← tableOn_concat] at hto
      exact .inr hto

/-- The tables below `page_table` form a tree that the frame allocator will not touch. -/
structure TableInv (m : Machine) (root : BitVec 40) : Prop where
  pageTable_eq : m.pageTable = frameAddr root + m.hhdmMapping
  distinct : Radix.Distinct (Radix.child m.presentEntry PageEntry.address) root 3
  fresh : ∀ {p n}, p.length ≤ 3 → m.tableOn root p = some n → frameAddr n ∉ m.allocator.pending
  allocator : m.allocator.Inv
  pending_nodup : m.allocator.pending.Nodup
  pending_lt : ∀ f ∈ m.allocator.pending, f.toNat < 2 ^ 52

theorem setEntry_present (h : FlagsOk flags) (f : BitVec 64) :
    (PageEntry.setEntry f flags).present ≠ 0 := by
  simp only [PageEntry.setEntry, h.1]
  decide

theorem setEntry_pageSize (h : FlagsOk flags) (f : BitVec 64) :
    (PageEntry.setEntry f flags).pageSize = 0 := by
  simp only [PageEntry.setEntry, h.2]
  rfl

namespace TableInv

theorem frameOk (h : m.TableInv root) (hf : f ∈ m.allocator.pending) : FrameOk f :=
  have ⟨hne, hal⟩ := h.allocator.mem_pending hf
  ⟨hne, hal, h.pending_lt f hf⟩

/-- The state after `__allocate_entry` has put the zero-filled frame `f` into an empty slot. -/
theorem graft (h : m.TableInv root) (hp : p.length < 3) (hn : m.tableOn root p = some n)
    (hempty : m.presentEntry n i = none) (hflags : FlagsOk flags)
    (hpend : m.allocator.pending = f :: a.pending) (ha : a.Inv) :
    let m' := ({ m with allocator := a }.zeroPage (f + m.hhdmMapping)).setPages
      (frameAddr n + m.hhdmMapping) i (.setEntry f flags)
    m'.TableInv root ∧ m'.entryOn root (p ++ [i]) = some (.setEntry f flags) ∧
      ∀ q, q.length ≤ 4 → q ≠ p ++ [i] → m'.entryOn root q = m.entryOn root q := by
  intro m'
  obtain ⟨hmem, hsub, hnodup⟩ := pending_cons hpend h.pending_nodup
  have hf := h.frameOk hmem
  have haddr := frameAddr_frameNumber hf.aligned hf.lt
  have hgrafts : m.Grafts m' n i (.setEntry f flags) := entry_graft hf
  have hfresh (q : List (Fin 512)) (hq : q.length ≤ 3) : m.tableOn root q ≠ some (frameNumber f) :=
    fun hto => h.fresh hq hto (by rwa [haddr])
  obtain ⟨hdistinct, hslot, hsame⟩ :=
    hgrafts.entryOn (setEntry_present hflags f) h.distinct hp hn hempty hfresh
  refine ⟨⟨h.pageTable_eq, hdistinct, fun {q n'} hq hto => ?_, ha, hnodup.2,
    fun g hg => h.pending_lt g (hsub g hg)⟩, hslot, hsame⟩
  -- a table of the new tree is the new one, or was there before
  rcases tableOn_cases hslot hsame (by omega) hto with ⟨-, rfl⟩ | hold
  · change frameAddr (frameNumber f) ∉ a.pending
    rw [haddr]
    exact hnodup.1
  · exact fun hg => h.fresh hq hold (hsub _ hg)

/-- The state after an entry of the last level has been written. -/
theorem setLeaf (h : m.TableInv root) (hp : p.length = 3) (hn : m.tableOn root p = some n)
    (he : e.present ≠ 0) (i : Fin 512) :
    let m' := m.setPages (frameAddr n + m.hhdmMapping) i e
    m'.TableInv root ∧ m'.entryOn root (p ++ [i]) = some e ∧
      ∀ q, q.length ≤ 4 → q ≠ p ++ [i] → m'.entryOn root q = m.entryOn root q := by
  intro m'
  have hreplaces : m.Replaces m' n i e := fun n' i' => entry_setPages rfl n' i i' e
  obtain ⟨hdistinct, hnew, hsame⟩ := hreplaces.entryOn he h.distinct hp hn
  refine ⟨⟨h.pageTable_eq, hdistinct, fun {q n'} hq hto => ?_, h.allocator, h.pending_nodup,
    h.pending_lt⟩, hnew, hsame⟩
  rcases tableOn_cases hnew hsame (by omega) hto with ⟨rfl, -⟩ | hold
  · rw [List.length_append, List.length_singleton] at hq
    omega
  · exact h.fresh hq hold

end TableInv

/-- The entries of `m'` are those of `m`, and new ones with the given flags at prefixes of `path`
where `m` has none. -/
def Adds (m m' : Machine) (root : BitVec 40) (path : List (Fin 512)) (flags : BitVec 16) : Prop :=
  ∀ q, q.length ≤ 4 → m'.entryOn root q = m.entryOn root q ∨
    (q <+: path ∧ m.entryOn root q = none ∧ ∃ f, m'.entryOn root q = some (.setEntry f flags))

theorem Adds.refl (m : Machine) (root : BitVec 40) (path : List (Fin 512)) (flags : BitVec 16) :
    m.Adds m root path flags := fun _ _ => .inl rfl

theorem Adds.trans (h : m.Adds m' root path flags) (h' : m'.Adds m'' root path flags) :
    m.Adds m'' root path flags := by
  intro q hq
  rcases h q hq with hsame | ⟨hpre, hnone, f, hnew⟩
  · rcases h' q hq with hsame' | ⟨hpre, hnone, hnew⟩
    · exact .inl (hsame'.trans hsame)
    · exact .inr ⟨hpre, hsame ▸ hnone, hnew⟩
  · rcases h' q hq with hsame' | ⟨-, hnone', -⟩
    · exact .inr ⟨hpre, hnone, f, hsame'.trans hnew⟩
    · cases hnone'.symm.trans hnew

/-- One new entry. -/
theorem Adds.of_new (hpre : p <+: path) (hnone : m.entryOn root p = none)
    (hnew : m'.entryOn root p = some (.setEntry f flags))
    (hsame : ∀ q, q.length ≤ 4 → q ≠ p → m'.entryOn root q = m.entryOn root q) :
    m.Adds m' root path flags := by
  intro q hq
  by_cases heq : q = p
  · subst heq
    exact .inr ⟨hpre, hnone, f, hnew⟩
  · exact .inl (hsame q hq heq)

namespace TableInv

/-- `allocate_frame` zero-fills a frame that is no table. -/
theorem allocateFrame (h : m.TableInv root) :
    (Lethe.allocateFrame m = .error .couldNotFindFreeEntry ∧ m.allocator.pending = []) ∨
      ∃ f m', Lethe.allocateFrame m = .ok (f, m') ∧ FrameOk f ∧ m'.TableInv root ∧
        (∀ q, q.length ≤ 4 → m'.entryOn root q = m.entryOn root q) ∧
        m.allocator.pending = f :: m'.allocator.pending := by
  rcases allocateFrame_takes h.allocator h.pending_lt with hnil | ⟨f, m', htakes⟩
  · exact .inl hnil
  obtain ⟨hmem, hsub, hnodup⟩ := pending_cons htakes.pending_eq h.pending_nodup
  have hkeep {p n} (hp : p.length ≤ 3) (hn : m.tableOn root p = some n) (i) :
      m'.presentEntry n i = m.presentEntry n i := by
    have hne : frameAddr n ≠ f := fun heq => h.fresh hp hn (heq ▸ hmem)
    rw [presentEntry, htakes.entry_eq, if_neg hne, presentEntry]
  have htable (p : List (Fin 512)) (hp : p.length ≤ 4) : m'.tableOn root p = m.tableOn root p := by
    refine Radix.follow_congr fun q i n hpre hn => Radix.child_congr (hkeep ?_ hn i)
    have hle := hpre.length_le
    rw [List.length_append, List.length_singleton] at hle
    omega
  refine .inr ⟨f, m', htakes.ok, htakes.frame, ⟨?_, fun {p q n} hp hq hnp hnq => ?_,
    fun {p n} hp hn hmem => ?_, htakes.allocator, hnodup.2,
    fun g hg => h.pending_lt g (hsub g hg)⟩, fun q hq => ?_, htakes.pending_eq⟩
  · rw [htakes.pageTable_eq, htakes.hhdmMapping_eq]
    exact h.pageTable_eq
  · rw [← tableOn, htable p (by omega)] at hnp
    rw [← tableOn, htable q (by omega)] at hnq
    exact h.distinct hp hq hnp hnq
  · rw [htable p (by omega)] at hn
    exact h.fresh hp hn (hsub _ hmem)
  · induction q using List.reverseRecOn with
    | nil => rfl
    | append_singleton q i _ =>
      rw [List.length_append, List.length_singleton] at hq
      rw [entryOn_concat, entryOn_concat, htable q (by omega)]
      cases hn : m.tableOn root q with
      | none => rfl
      | some n => exact hkeep (by omega) hn i

/-- The step of `map_page` from a table to the table of the next level. -/
theorem nextTable (h : m.TableInv root) (hp : p.length < 3) (hn : m.tableOn root p = some n)
    (hflags : FlagsOk flags) (hpre : p ++ [i] <+: path) :
    (m.nextTable (frameAddr n + m.hhdmMapping) i flags = .error .couldNotFindFreeEntry ∧
        m.allocator.pending = []) ∨
      ∃ c m', m.nextTable (frameAddr n + m.hhdmMapping) i flags =
          .ok (frameAddr c + m'.hhdmMapping, m') ∧ m'.TableInv root ∧
        m'.tableOn root (p ++ [i]) = some c ∧ m.Adds m' root path flags ∧
        (∀ q, q.length = 4 → m'.entryOn root q = m.entryOn root q) ∧
        m.allocator.pending.length ≤ m'.allocator.pending.length + 1 := by
  by_cases hpresent : (m.entry n i).present = 0
  · -- the slot is empty and gets a new table
    have hempty := presentEntry_eq_none.mpr hpresent
    have hnone : m.entryOn root (p ++ [i]) = none := by
      rw [entryOn_concat, hn]
      exact hempty
    rcases allocateFrame_spec h.allocator with ⟨hnil, herr⟩ | ⟨f, a, halloc, hpend, ha⟩
    · exact .inl ⟨nextTable_error hpresent herr, hnil⟩
    · right
      obtain ⟨hinv, hslot, hsame⟩ := h.graft hp hn hempty hflags hpend ha
      have hf := h.frameOk (pending_cons hpend h.pending_nodup).1
      refine ⟨frameNumber f, _, nextTable_new hpresent hf halloc, hinv, ?_,
        .of_new hpre hnone hslot hsame, fun q hq => hsame q (by omega) ?_, ?_⟩
      · rw [tableOn_concat, hslot]
        rfl
      · rintro rfl
        simp at hq
        omega
      · rw [hpend]
        exact Nat.le_refl _
  · -- the slot holds a table
    refine .inr ⟨(m.entry n i).address, m, nextTable_present hpresent, h, ?_,
      .refl m root path flags, fun _ _ => rfl, Nat.le_succ _⟩
    rw [tableOn_concat, entryOn_concat, hn, Option.bind_some, presentEntry_eq_some hpresent]
    rfl

theorem lastTable (h : m.TableInv root) (hflags : FlagsOk flags) (page : BitVec 64) :
    (TreeInv.lastTable m page flags = .error .couldNotFindFreeEntry ∧
        m.allocator.pending.length < 3) ∨
      ∃ p1 m', TreeInv.lastTable m page flags = .ok (frameAddr p1 + m'.hhdmMapping, m') ∧
        m'.TableInv root ∧ m'.tableOn root [p4Index page, p3Index page, p2Index page] = some p1 ∧
        m.Adds m' root (digits page) flags ∧
        (∀ q, q.length = 4 → m'.entryOn root q = m.entryOn root q) ∧
        m.allocator.pending.length ≤ m'.allocator.pending.length + 3 := by
  simp only [TreeInv.lastTable, h.pageTable_eq, bind, Except.bind]
  rcases h.nextTable (p := []) (i := p4Index page) (by simp) rfl hflags ⟨_, rfl⟩ with
    ⟨herr, hnil⟩ | ⟨p3, m₁, hok, h₁, hto₁, hadds₁, hsame₁, hlen₁⟩
  · rw [herr, hnil]
    exact .inl ⟨rfl, by decide⟩
  rw [hok]
  dsimp only
  rcases h₁.nextTable (i := p3Index page) (by simp) hto₁ hflags ⟨_, rfl⟩ with
    ⟨herr, hnil⟩ | ⟨p2, m₂, hok, h₂, hto₂, hadds₂, hsame₂, hlen₂⟩
  · rw [herr]
    rw [hnil, List.length_nil] at hlen₁
    exact .inl ⟨rfl, by omega⟩
  rw [hok]
  dsimp only
  rcases h₂.nextTable (i := p2Index page) (by simp) hto₂ hflags ⟨_, rfl⟩ with
    ⟨herr, hnil⟩ | ⟨p1, m₃, hok, h₃, hto₃, hadds₃, hsame₃, hlen₃⟩
  · rw [herr]
    rw [hnil, List.length_nil] at hlen₂
    exact .inl ⟨rfl, by omega⟩
  · refine .inr ⟨p1, m₃, hok, h₃, hto₃, (hadds₁.trans hadds₂).trans hadds₃, fun q hq => ?_, by omega⟩
    rw [hsame₃ q hq, hsame₂ q hq, hsame₁ q hq]

/-- `map_page`, whatever the frame is: the page was not present and is added, or it was present,
or the frames are exhausted. -/
theorem mapPage (h : m.TableInv root) (page frame : BitVec 64) (hflags : FlagsOk flags) :
    (m.mapPage page frame flags = .error .couldNotFindFreeEntry ∧
        m.allocator.pending.length < 3) ∨
      (m.mapPage page frame flags = .error (.alreadyMapped frame page) ∧
        m.entryOn root (digits page) ≠ none) ∨
      ∃ m', m.mapPage page frame flags = .ok m' ∧ m'.TableInv root ∧
        m.entryOn root (digits page) = none ∧
        m'.entryOn root (digits page) = some (.setEntry frame flags) ∧
        m.Adds m' root (digits page) flags ∧
        (∀ q, q.length = 4 → q ≠ digits page → m'.entryOn root q = m.entryOn root q) ∧
        m.allocator.pending.length ≤ m'.allocator.pending.length + 3 := by
  rw [TreeInv.mapPage_eq]
  rcases lastTable h hflags page with ⟨herr, hlen⟩ | ⟨p1, m₁, hok, h₁, hto, hadds, hsame, hlen⟩
  · rw [herr]
    exact .inl ⟨rfl, hlen⟩
  have hdigits : digits page = [p4Index page, p3Index page, p2Index page] ++ [p1Index page] := rfl
  have hpage : m.entryOn root (digits page) = m₁.presentEntry p1 (p1Index page) := by
    rw [← hsame (digits page) rfl, hdigits, entryOn_concat, hto, Option.bind_some]
  rw [hok]
  simp only [bind, Except.bind, pages_frame]
  by_cases hpresent : (m₁.entry p1 (p1Index page)).present = 0
  · have hnone := hpage.trans (presentEntry_eq_none.mpr hpresent)
    obtain ⟨h', hnew, hother⟩ :=
      h₁.setLeaf (p := [p4Index page, p3Index page, p2Index page]) rfl hto
        (setEntry_present hflags frame) (p1Index page)
    refine .inr (.inr ⟨_, if_neg (not_not.mpr hpresent), h', hnone, hnew, hadds.trans ?_,
      fun q hq hne => (hother q (by omega) hne).trans (hsame q hq), hlen⟩)
    exact .of_new (List.prefix_refl _) ((hsame _ rfl).trans hnone) hnew hother
  · refine .inr (.inl ⟨if_pos hpresent, ?_⟩)
    rw [hpage, presentEntry_eq_some hpresent]
    exact Option.some_ne_none _

end TableInv

end Machine

end Lethe
