import Lethe.Kernel.ListAllocator
import Lethe.Kernel.Permissions
import Lethe.Kernel.SmallPages
import Lethe.Lib.Wp

/-!
# Functions that map pages

`Machine.Maps` is the specification of a function that calls `map_page` for some pages, one after
another: if it returns, all of the pages were free and different, and are mapped now; and if
`map_page` finds one of them mapped, they were not. `Machine.Maps.bind` is the rule for a function
that calls another one first.

`virtual_to_physical` does not look at the present bit. On tables in which only entries that are
present hold an address (`Machine.Clean`) it finds what the processor finds, and `map_page` leaves
such tables.
-/

namespace Lethe

namespace Machine

variable {m m' : Machine} {root n : BitVec 40} {p : List (Fin 512)} {e : PageEntry}

/-- Entries that are not present hold no address, and no table is in frame 0. -/
structure Clean (m : Machine) (root : BitVec 40) : Prop where
  absent : ∀ {p n}, p.length ≤ 3 → m.tableOn root p = some n → ∀ i,
    (m.entry n i).present = 0 → (m.entry n i).address = 0
  table_ne_zero : ∀ {p n}, p ≠ [] → p.length ≤ 3 → m.tableOn root p = some n → n ≠ 0

/-- The tables are those of small pages, and form a tree. -/
structure Tables (m : Machine) (root : BitVec 40) : Prop where
  tableInv : m.TableInv root
  smallPages : m.SmallPages root

/-- The address to which the processor translates an address. -/
def translate (m : Machine) (root : BitVec 40) (v : BitVec 64) : Option (BitVec 64) :=
  (m.hardwareWalk root v).frame.map fun frame => frameAddr frame + (v &&& (Lethe.pageSize - 1))

/-- The pages of the calls are different, and none of them is mapped. -/
structure CanMap (m : Machine) (root : BitVec 40) (calls : List MapCall) : Prop where
  free : ∀ c ∈ calls, m.hardwareWalk root c.page = .missing
  distinct : calls.Pairwise fun c c' => pageNumber c.page ≠ pageNumber c'.page

/-- The pages of the calls were not mapped, and they are the ones that have been added. -/
structure Added (m m' : Machine) (root : BitVec 40) (calls : List MapCall) : Prop where
  can : m.CanMap root calls
  tables : m'.Tables root
  hhdmMapping_eq : m'.hhdmMapping = m.hhdmMapping
  new : ∀ c ∈ calls, m'.hardwareWalk root c.page = .page (frameNumber c.frame)
  same : ∀ v, (∀ c ∈ calls, pageNumber v ≠ pageNumber c.page) →
    m'.hardwareWalk root v = m.hardwareWalk root v
  clean : m.Clean root → m'.Clean root

/-- `x`, called in the state `m`, maps the pages of the calls. -/
structure Maps (m : Machine) (root : BitVec 40) (calls : List MapCall) (machine : α → Machine)
    (x : Except Panic α) : Prop where
  added : ∀ a, x = .ok a → m.Added (machine a) root calls
  already : ∀ frame page, x = .error (.alreadyMapped frame page) → ¬m.CanMap root calls

/-- What `virtual_to_physical` finds behind the calls. -/
def physicalAfter (m : Machine) (calls : List MapCall) (v : BitVec 64) : BitVec 64 :=
  match calls.find? fun c => pageNumber c.page = pageNumber v with
  | some c => frameAddr (frameNumber c.frame)
  | none => m.virtualToPhysical v

/-! ## Tables without stale entries -/

/-- An entry has been written, with a zero-filled table behind it if it is not one of the last
level. -/
theorem Clean.write (h : m.Clean root) (hp : p ≠ []) (hnew : m'.entryOn root p = some e)
    (hsame : ∀ q, q.length ≤ 4 → q ≠ p → m'.entryOn root q = m.entryOn root q)
    (htable : p.length ≤ 3 → e.address ≠ 0 ∧ ∀ i, m'.entry e.address i = .zero)
    (hentry : ∀ {q n}, q.length ≤ 3 → m.tableOn root q = some n → ∀ i,
      m'.entry n i = m.entry n i ∨ (m'.entry n i).present ≠ 0) : m'.Clean root := by
  refine ⟨fun {q n} hq hto i hpresent => ?_, fun {q n} hne hq hto => ?_⟩
  · rcases tableOn_cases hnew hsame (by omega) hto with ⟨rfl, rfl⟩ | hold
    · rw [(htable hq).2]
      rfl
    · rcases hentry hq hold i with heq | hnot
      · rw [heq] at hpresent ⊢
        exact h.absent hq hold i hpresent
      · exact absurd hpresent hnot
  · rcases tableOn_cases hnew hsame (by omega) hto with ⟨rfl, rfl⟩ | hold
    · exact (htable hq).1
    · exact h.table_ne_zero hne hq hold

namespace TableInv

/-- The step to the table of the next level. -/
theorem nextTable_clean (h : m.TableInv root) (hp : p.length < 3)
    (hn : m.tableOn root p = some n) (hflags : FlagsOk flags)
    (hok : m.nextTable (frameAddr n + m.hhdmMapping) i flags = .ok (ptr, m')) :
    (∃ c, ptr = frameAddr c + m'.hhdmMapping ∧ m'.tableOn root (p ++ [i]) = some c) ∧
      m'.TableInv root ∧ m'.hhdmMapping = m.hhdmMapping ∧ (m.Clean root → m'.Clean root) := by
  rcases h.nextTable hp hn hflags (List.prefix_refl (p ++ [i])) with
    ⟨herr, -⟩ | ⟨c, m₁, heq, h₁, hto, -⟩
  · cases herr.symm.trans hok
  cases heq.symm.trans hok
  refine ⟨⟨c, rfl, hto⟩, h₁, ?_⟩
  by_cases hpresent : (m.entry n i).present = 0
  · rcases allocateFrame_spec h.allocator with ⟨-, herr⟩ | ⟨f, a, halloc, hpend, ha⟩
    · cases (nextTable_error hpresent herr).symm.trans hok
    obtain ⟨hmem, -⟩ := pending_cons hpend h.pending_nodup
    have hf := h.frameOk hmem
    obtain ⟨-, rfl⟩ := Prod.mk.inj (Except.ok.inj ((nextTable_new hpresent hf halloc).symm.trans hok))
    refine ⟨rfl, fun hclean => ?_⟩
    obtain ⟨-, hslot, hsame⟩ :=
      h.graft hp hn (presentEntry_eq_none.mpr hpresent) hflags hpend ha
    have hold {q n'} (hq : q.length ≤ 3) (hto : m.tableOn root q = some n') : n' ≠ frameNumber f := by
      rintro rfl
      refine h.fresh hq hto ?_
      rwa [frameAddr_frameNumber hf.aligned hf.lt]
    refine hclean.write (by simp) hslot hsame (fun _ => ⟨hf.frameNumber_ne_zero, fun j => ?_⟩)
      fun hq hto j => ?_
    · rw [entry_graft hf, if_neg fun heq => hold (by omega) hn heq.1.symm]
      exact if_pos rfl
    · rw [entry_graft hf, if_neg (hold hq hto)]
      split
      · exact .inr (setEntry_present hflags f)
      · exact .inl rfl
  · obtain ⟨-, rfl⟩ := Prod.mk.inj (Except.ok.inj ((nextTable_present hpresent).symm.trans hok))
    exact ⟨rfl, id⟩

theorem lastTable_clean (h : m.TableInv root) (hflags : FlagsOk flags)
    (hok : TreeInv.lastTable m page flags = .ok (ptr, m')) :
    m'.hhdmMapping = m.hhdmMapping ∧ (m.Clean root → m'.Clean root) := by
  rw [TreeInv.lastTable, h.pageTable_eq] at hok
  obtain ⟨⟨p3, m₁⟩, hok₁, hok⟩ := bind_eq_ok.mp hok
  obtain ⟨⟨p2, m₂⟩, hok₂, hok₃⟩ := bind_eq_ok.mp hok
  obtain ⟨⟨p3, rfl, hto₁⟩, h₁, hhdm₁, hclean₁⟩ :=
    h.nextTable_clean (p := []) (by simp) rfl hflags hok₁
  obtain ⟨⟨p2, rfl, hto₂⟩, h₂, hhdm₂, hclean₂⟩ := h₁.nextTable_clean (by simp) hto₁ hflags hok₂
  obtain ⟨-, -, hhdm₃, hclean₃⟩ := h₂.nextTable_clean (by simp) hto₂ hflags hok₃
  exact ⟨(hhdm₃.trans hhdm₂).trans hhdm₁, hclean₃ ∘ hclean₂ ∘ hclean₁⟩

theorem mapPage_clean (h : m.TableInv root) (hflags : FlagsOk flags)
    (hok : m.mapPage page frame flags = .ok m') :
    m'.hhdmMapping = m.hhdmMapping ∧ (m.Clean root → m'.Clean root) := by
  rw [TreeInv.mapPage_eq] at hok
  obtain ⟨⟨p1, m₁⟩, hlast, hok⟩ := bind_eq_ok.mp hok
  obtain ⟨hhdm, hclean⟩ := h.lastTable_clean hflags hlast
  rcases h.lastTable hflags page with ⟨herr, -⟩ | ⟨p1, m₁, heq, h₁, hto, -⟩
  · cases herr.symm.trans hlast
  cases heq.symm.trans hlast
  dsimp only at hok
  split at hok
  · cases hok
  · cases hok
    refine ⟨hhdm, fun hm => ?_⟩
    obtain ⟨-, hnew, hsame⟩ := h₁.setLeaf (p := [p4Index page, p3Index page, p2Index page]) rfl hto
      (setEntry_present hflags frame) (p1Index page)
    refine (hclean hm).write (by simp) hnew hsame (fun hlen => absurd hlen (by simp))
      fun hq hto' j => ?_
    rw [entry_setPages rfl]
    split
    · exact .inr (setEntry_present hflags frame)
    · exact .inl rfl

end TableInv

theorem Clean.link_eq (h : m.Clean root) (hp : p.length < 3) (hn : m.tableOn root p = some n)
    (i : Fin 512) : m.link n i = m.presentLink n i := by
  have hlink : m.presentLink n i = m.tableOn root (p ++ [i]) := by
    rw [tableOn, Radix.follow_concat, ← tableOn, hn]
    rfl
  by_cases hpresent : (m.entry n i).present = 0
  · rw [link_eq_none.mpr (h.absent (by omega) hn i hpresent), Machine.presentLink, Radix.child,
      presentEntry_eq_none.mpr hpresent]
    rfl
  · rw [Machine.presentLink, Radix.child, presentEntry_eq_some hpresent] at hlink ⊢
    exact link_eq_some (h.table_ne_zero (by simp) (by simp; omega) hlink.symm)

theorem Clean.follow_eq (h : m.Clean root) (hp : p.length ≤ 3) :
    Radix.follow m.link root p = m.tableOn root p := by
  refine Radix.follow_congr fun q i n hpre hn => h.link_eq ?_ hn i
  have hlen := hpre.length_le
  rw [List.length_append, List.length_singleton] at hlen
  omega

/-- `virtual_to_physical` finds the frame that the processor finds. -/
theorem Clean.virtualToPhysical_eq (h : m.Clean root) (hm : m.Tables root) (v : BitVec 64) :
    m.virtualToPhysical v = ((m.hardwareWalk root v).frame.map frameAddr).getD 0 := by
  have hdigits : digits v = [p4Index v, p3Index v, p2Index v] ++ [p1Index v] := rfl
  have hlen : [p4Index v, p3Index v, p2Index v].length ≤ 3 := Nat.le_refl 3
  generalize [p4Index v, p3Index v, p2Index v] = path at hdigits hlen
  rw [Lethe.Machine.virtualToPhysical_eq hm.tableInv.pageTable_eq, hm.smallPages.hardwareWalk_eq,
    hdigits, Radix.follow_concat, h.follow_eq hlen, entryOn_concat]
  cases hn : m.tableOn root path with
  | none => rfl
  | some n =>
    rw [Option.bind_some, Option.bind_some]
    by_cases hpresent : (m.entry n (p1Index v)).present = 0
    · rw [link_eq_none.mpr (h.absent hlen hn _ hpresent), presentEntry_eq_none.mpr hpresent]
      rfl
    · rw [presentEntry_eq_some hpresent]
      by_cases haddr : (m.entry n (p1Index v)).address = 0
      · rw [link_eq_none.mpr haddr, Option.map_some, Option.getD_some, haddr]
        rfl
      · rw [link_eq_some haddr]
        rfl

/-! ## The rules -/

theorem Tables.hardwareWalk_congr (h : m.Tables root) (hpage : pageNumber v = pageNumber w) :
    m.hardwareWalk root v = m.hardwareWalk root w := by
  rw [h.smallPages.hardwareWalk_eq, h.smallPages.hardwareWalk_eq, digits_eq_iff.mpr hpage]

theorem Tables.rootFrame_eq (h : m.Tables root) : m.rootFrame = root :=
  Machine.rootFrame_eq h.tableInv.pageTable_eq

theorem translate_of_page (h : m.hardwareWalk root v = .page frame) :
    m.translate root v = some (frameAddr frame + (v &&& (Lethe.pageSize - 1))) := by
  rw [translate, h]
  rfl

theorem Added.refl (h : m.Tables root) : m.Added m root [] :=
  ⟨⟨nofun, .nil⟩, h, rfl, nofun, fun _ _ => rfl, id⟩

/-- An address in a page that has been mapped already. -/
theorem Added.walk_of_mem (h : m.Added m' root calls) (hc : c ∈ calls)
    (hv : pageNumber v = pageNumber c.page) : m'.hardwareWalk root v = .page (frameNumber c.frame) :=
  (h.tables.hardwareWalk_congr hv).trans (h.new c hc)

theorem Added.canMap_append (h : m.Added m' root calls) :
    m.CanMap root (calls ++ calls') ↔ m'.CanMap root calls' := by
  constructor
  · intro hcan
    obtain ⟨-, hdistinct, hcross⟩ := List.pairwise_append.mp hcan.distinct
    refine ⟨fun c hc => ?_, hdistinct⟩
    rw [h.same c.page fun d hd => (hcross d hd c hc).symm]
    exact hcan.free c (List.mem_append_right calls hc)
  · intro hcan
    have hne {c d} (hc : c ∈ calls) (hd : d ∈ calls') : pageNumber c.page ≠ pageNumber d.page := by
      intro hpage
      have hmissing := hcan.free d hd
      rw [h.walk_of_mem hc hpage.symm] at hmissing
      cases hmissing
    refine ⟨fun c hc => ?_, ?_⟩
    · rcases List.mem_append.mp hc with hc | hc
      · exact h.can.free c hc
      · rw [← h.same c.page fun d hd => (hne hd hc).symm]
        exact hcan.free c hc
    · exact List.pairwise_append.mpr ⟨h.can.distinct, hcan.distinct, fun c hc d hd => hne hc hd⟩

theorem Added.trans (h : m.Added m' root calls) (h' : m'.Added m'' root calls') :
    m.Added m'' root (calls ++ calls') := by
  have hcan := h.canMap_append.mpr h'.can
  obtain ⟨-, -, hcross⟩ := List.pairwise_append.mp hcan.distinct
  refine ⟨hcan, h'.tables, h'.hhdmMapping_eq.trans h.hhdmMapping_eq, fun c hc => ?_,
    fun v hv => ?_, h'.clean ∘ h.clean⟩
  · rcases List.mem_append.mp hc with hc | hc
    · rw [h'.same c.page fun d hd => hcross c hc d hd]
      exact h.new c hc
    · exact h'.new c hc
  · rw [h'.same v fun c hc => hv c (List.mem_append_right calls hc),
      h.same v fun c hc => hv c (List.mem_append_left calls' hc)]

theorem Added.virtualToPhysical (h : m.Added m' root calls) (hm : m.Tables root)
    (hclean : m.Clean root) (v : BitVec 64) : m'.virtualToPhysical v = m.physicalAfter calls v := by
  rw [(h.clean hclean).virtualToPhysical_eq h.tables, physicalAfter]
  cases hfind : calls.find? fun c => pageNumber c.page = pageNumber v with
  | some c =>
    have hpage : pageNumber c.page = pageNumber v := of_decide_eq_true (List.find?_some hfind :)
    rw [h.walk_of_mem (List.mem_of_find?_eq_some hfind) hpage.symm]
    rfl
  | none =>
    rw [h.same v fun c hc heq => ?_, hclean.virtualToPhysical_eq hm]
    exact of_decide_eq_false (by simpa using List.find?_eq_none.mp hfind c hc) heq.symm

theorem Maps.ok {a : α} {machine : α → Machine} (ha : machine a = m) (h : m.Tables root) :
    m.Maps root [] machine (.ok a) := by
  refine ⟨fun b hok => ?_, nofun⟩
  cases hok
  rw [ha]
  exact .refl h

/-- A stop for another reason. -/
theorem Maps.error {stop : Panic} (hstop : ∀ frame page, stop ≠ .alreadyMapped frame page)
    (machine : α → Machine) : m.Maps root calls machine (.error stop) :=
  ⟨nofun, fun frame page herr => absurd (Except.error.inj herr) (hstop frame page)⟩

/-- The rule for a sequence. -/
theorem Maps.bind {x : Except Panic α} {f : α → Except Panic β} {machine : α → Machine}
    {machine' : β → Machine} (hx : m.Maps root calls machine x)
    (hf : ∀ a, x = .ok a → (machine a).Maps root calls' machine' (f a)) :
    m.Maps root (calls ++ calls') machine' (x >>= f) := by
  cases x with
  | error e =>
    refine ⟨nofun, fun frame page herr hcan => ?_⟩
    refine hx.already frame page (congrArg _ (Except.error.inj herr)) ⟨fun c hc => ?_, ?_⟩
    · exact hcan.free c (List.mem_append_left calls' hc)
    · exact (List.pairwise_append.mp hcan.distinct).1
  | ok a =>
    have hadded := hx.added a rfl
    refine ⟨fun b hok => hadded.trans ((hf a rfl).added b hok), fun frame page herr => ?_⟩
    rw [hadded.canMap_append]
    exact (hf a rfl).already frame page herr

/-- What follows maps nothing more. -/
theorem Maps.bind_nil {x : Except Panic α} {f : α → Except Panic β} {machine : α → Machine}
    {machine' : β → Machine} (hx : m.Maps root calls machine x)
    (hf : ∀ a, x = .ok a → (machine a).Tables root → (machine a).Maps root [] machine' (f a)) :
    m.Maps root calls machine' (x >>= f) := by
  rw [← List.append_nil calls]
  exact hx.bind fun a ha => hf a ha (hx.added a ha).tables

/-- `map_page`. -/
theorem Tables.mapPage (h : m.Tables root) (page frame : BitVec 64) (hflags : FlagsOk flags) :
    m.Maps root [⟨page, frame, flags⟩] id (m.mapPage page frame flags) := by
  rcases h.tableInv.mapPage page frame hflags with
    ⟨herr, -⟩ | ⟨herr, hmapped⟩ | ⟨m', hok, h', hnone, hnew, hadds, hsame, -⟩
  · rw [herr]
    exact .error (by simp) id
  · refine ⟨fun a hok => ?_, fun _ _ _ hcan => hmapped ?_⟩
    · cases herr.symm.trans hok
    · exact h.smallPages.missing_iff.mp (hcan.free ⟨page, frame, flags⟩ (List.mem_singleton_self _))
  · refine ⟨fun a heq => ?_, fun _ _ herr => ?_⟩
    · cases hok.symm.trans heq
      have hsmall := h.smallPages.adds hflags hadds
      obtain ⟨hhdm, hclean⟩ := h.tableInv.mapPage_clean hflags hok
      refine ⟨⟨?_, List.pairwise_singleton _ _⟩, ⟨h', hsmall⟩, hhdm, ?_, fun v hv => ?_, hclean⟩
      · exact List.forall_mem_singleton.mpr (h.smallPages.missing_iff.mpr hnone)
      · refine List.forall_mem_singleton.mpr ?_
        rw [id, hsmall.hardwareWalk_eq, hnew]
        rfl
      · rw [id, hsmall.hardwareWalk_eq, h.smallPages.hardwareWalk_eq,
          hsame (digits v) rfl (mt digits_eq_iff.mp (hv ⟨page, frame, flags⟩ (List.mem_singleton_self _)))]
    · cases hok.symm.trans herr

/-- `allocate_frame` maps no page. -/
theorem Tables.allocateFrame (h : m.Tables root) :
    m.Maps root [] Prod.snd (Lethe.allocateFrame m) := by
  rcases h.tableInv.allocateFrame with ⟨herr, -⟩ | ⟨f, m', hok, -, h', hsame, -⟩
  · rw [herr]
    exact .error (by simp) _
  refine ⟨fun a heq => ?_, fun _ _ herr => ?_⟩
  · cases hok.symm.trans heq
    rcases allocateFrame_takes h.tableInv.allocator h.tableInv.pending_lt with
      ⟨herr, -⟩ | ⟨f, m', htakes⟩
    · cases herr.symm.trans hok
    cases htakes.ok.symm.trans hok
    have hentry {p n} (hp : p.length ≤ 3) (hn : m.tableOn root p = some n) (i) :
        m'.entry n i = m.entry n i := by
      rw [htakes.entry_eq, if_neg fun heq => h.tableInv.fresh hp hn ?_]
      rw [heq, htakes.pending_eq]
      exact List.mem_cons_self
    have htable {p} (hp : p.length ≤ 4) : m'.tableOn root p = m.tableOn root p := by
      induction p using List.reverseRecOn with
      | nil => rfl
      | append_singleton p i _ => rw [tableOn_concat, hsame _ hp, ← tableOn_concat]
    have hsmall : m'.SmallPages root := fun q e hq he =>
      h.smallPages q e hq ((hsame q (by omega)).symm.trans he)
    refine ⟨⟨nofun, .nil⟩, ⟨h', hsmall⟩, htakes.hhdmMapping_eq, nofun, fun v _ => ?_, fun hm => ?_⟩
    · rw [hsmall.hardwareWalk_eq, h.smallPages.hardwareWalk_eq, hsame (digits v) (Nat.le_refl 4)]
    · refine ⟨fun hp hn i hpresent => ?_, fun hne hp hn => ?_⟩
      · rw [htable (by omega)] at hn
        rw [hentry hp hn] at hpresent ⊢
        exact hm.absent hp hn i hpresent
      · rw [htable (by omega)] at hn
        exact hm.table_ne_zero hne hp hn
  · cases hok.symm.trans herr

/-- `x` maps some pages. -/
def MapsSome (m : Machine) (root : BitVec 40) (machine : α → Machine) (x : Except Panic α) : Prop :=
  ∃ calls, m.Maps root calls machine x

theorem MapsSome.ok {a : α} {machine : α → Machine} (ha : machine a = m) (h : m.Tables root) :
    m.MapsSome root machine (.ok a) :=
  ⟨[], .ok ha h⟩

theorem MapsSome.error {stop : Panic} (hstop : ∀ frame page, stop ≠ .alreadyMapped frame page)
    (machine : α → Machine) : m.MapsSome root machine (.error stop) :=
  ⟨[], .error hstop machine⟩

theorem MapsSome.bind {x : Except Panic α} {f : α → Except Panic β} {machine : α → Machine}
    {machine' : β → Machine} (hx : m.MapsSome root machine x)
    (hf : ∀ a, (machine a).Tables root → (machine a).MapsSome root machine' (f a)) :
    m.MapsSome root machine' (x >>= f) := by
  obtain ⟨calls, hx⟩ := hx
  cases x with
  | error e =>
    exact ⟨calls, nofun, fun frame page herr =>
      hx.already frame page (congrArg _ (Except.error.inj herr))⟩
  | ok a =>
    obtain ⟨calls', hf⟩ := hf a (hx.added a rfl).tables
    refine ⟨calls ++ calls', hx.bind fun b hb => ?_⟩
    cases hb
    exact hf

end Machine

/-! ## The growth of the heap -/

namespace KernelHeap

open Machine

variable {h : KernelHeap} {m : Machine} {root : BitVec 40}

theorem mapHeapLoop_maps (hm : m.Tables root) (last : BitVec 64) (fuel : Nat) (i : BitVec 64) :
    m.MapsSome root id (mapHeapLoop last fuel m i) := by
  induction fuel generalizing m i with
  | zero =>
    exact .error (by simp) id
  | succ fuel ih =>
    rw [mapHeapLoop]
    split
    · refine MapsSome.bind ⟨[], hm.allocateFrame⟩ fun r hm => ?_
      obtain ⟨frame, m⟩ := r
      dsimp only
      split
      · exact .error (by simp) id
      · exact MapsSome.bind ⟨_, hm.mapPage i frame ⟨by decide, by decide⟩⟩ fun m' hm' => ih hm' _
    · exact .ok rfl hm

theorem loadNode_maps (hm : h.machine.Tables root) (ptr : BitVec 64) :
    h.machine.MapsSome root (fun _ => h.machine) (h.loadNode ptr) := by
  rw [loadNode]
  split
  · exact .error (by simp) _
  · exact .ok rfl hm

theorem storeNode_maps (hm : h.machine.Tables root) (ptr : BitVec 64) (node : ListNode) :
    h.machine.MapsSome root machine (h.storeNode ptr node) := by
  rw [storeNode]
  split
  · exact .error (by simp) _
  · exact .ok rfl hm

theorem addRegion_maps (hm : h.machine.Tables root) (start : BitVec 64) (pages : Int) :
    h.machine.MapsSome root machine (h.addRegion start pages) :=
  MapsSome.bind (storeNode_maps hm start _) fun _ hm => .ok rfl hm

theorem increaseHeapSize_maps (hm : h.machine.Tables root) (pages : Int) :
    h.machine.MapsSome root machine (h.increaseHeapSize pages) :=
  MapsSome.bind (mapHeapLoop_maps hm _ _ _) fun machine hm =>
    addRegion_maps (h := { h with
      machine, heapEnd := h.heapEnd + pageSize + pageBytes pages
      grown := ⟨h.heapEnd + pageSize, pages⟩ :: h.grown }) hm _ _

theorem loadNext_maps (hm : h.machine.Tables root) (current : Option (BitVec 64)) :
    h.machine.MapsSome root (fun _ => h.machine) (h.loadNext current) := by
  cases current with
  | none => exact .ok rfl hm
  | some current => exact MapsSome.bind (loadNode_maps hm current) fun _ hm => .ok rfl hm

theorem storeNext_maps (hm : h.machine.Tables root) (next : BitVec 64)
    (current : Option (BitVec 64)) : h.machine.MapsSome root machine (h.storeNext next current) := by
  cases current with
  | none => exact .ok rfl hm
  | some current =>
    exact MapsSome.bind (loadNode_maps hm current) fun _ hm => storeNode_maps hm current _

theorem getValidRegion_maps (hm : h.machine.Tables root) (pages : Int) :
    h.machine.MapsSome root (fun r => r.2.machine) (h.getValidRegion pages) := by
  rw [getValidRegion]
  generalize loopLimit = fuel
  generalize (none : Option (BitVec 64)) = current
  induction fuel generalizing current with
  | zero =>
    exact .error (by simp) _
  | succ fuel ih =>
    refine MapsSome.bind (loadNext_maps hm current) fun next hm => ?_
    split
    · exact .ok rfl hm
    · refine MapsSome.bind (loadNode_maps hm next) fun node hm => ?_
      split
      · exact ih _
      · exact MapsSome.bind (storeNext_maps hm node.next current) fun _ hm => .ok rfl hm

theorem takeRegion_maps (hm : h.machine.Tables root) (pages : Int) :
    h.machine.MapsSome root (fun r => r.2.machine) (h.takeRegion pages) := by
  refine MapsSome.bind (getValidRegion_maps hm pages) fun (region, h₁) hm => ?_
  dsimp only
  split
  · refine MapsSome.bind (increaseHeapSize_maps hm pages) fun h₂ hm => ?_
    refine MapsSome.bind (getValidRegion_maps hm pages) fun (region, h₃) hm => ?_
    dsimp only
    split
    · exact .error (by simp) _
    · exact .ok rfl hm
  · exact .ok rfl hm

/-- `list_alloc` maps the pages by which the heap grows, if it does. -/
theorem listAlloc_maps (hm : h.machine.Tables root) (pages : Int) :
    h.machine.MapsSome root (fun r => r.2.machine) (h.listAlloc pages) := by
  refine MapsSome.bind (takeRegion_maps hm pages) fun (region, h₁) hm => ?_
  refine MapsSome.bind (loadNode_maps hm region) fun node hm => ?_
  dsimp only
  split
  · exact MapsSome.bind (addRegion_maps hm _ _) fun h₂ hm => .ok rfl hm
  · exact .ok rfl hm

end KernelHeap

end Lethe
