import Lethe.Kernel.LiballocMalloc

/-!
# `free`

A piece that is given back takes over its free neighbours, of which there is at most one on either
side (`meltLeftLoop_spec`, `meltRightLoop_spec`). What is then a whole range goes back to the page
source if there are `MAXCOMPLETE` whole ranges in the list of its class, and everything else goes
into that list.
-/

namespace Lethe

variable {σ : Type} {s s' s₁ : Liballoc σ} {t : Tags} {heads : Nat → BitVec 64} {l l' l₁ : Layout}
  {lists : Nat → List (BitVec 64)} {b : Block} {a c p p' q r : BitVec 64} {u v : List (BitVec 64)}

/-- The piece in use at `p` is now part of the one at `p'`. -/
structure Melted (s s' : Liballoc σ) (l l' : Layout) (p p' : BitVec 64) : Prop where
  inv : ∃ lists, LiballocInv s' l' lists
  used : InUse s'.tag l' p'
  spares : Spares s s' l l' p p'
  held : l'.held = l.held
  pages : s'.pages = s.pages
  initialized : s'.initialized = s.initialized

namespace Melted

theorem refl (h : LiballocInv s l lists) (hu : InUse s.tag l p) : Melted s s l l p p :=
  ⟨⟨lists, h⟩, hu, .refl, rfl, rfl, rfl⟩

theorem trans (h : Melted s s₁ l l₁ p q) (h' : Melted s₁ s' l₁ l' q p') : Melted s s' l l' p p' :=
  ⟨h'.inv, h'.used, h.spares.trans h'.spares, h'.held.trans h.held, h'.pages.trans h.pages,
    h'.initialized.trans h.initialized⟩

end Melted

namespace Liballoc

/-- The index of a tag is negative exactly if it is in no list. -/
theorem listed_iff (h : TagHeap t heads l lists) (hp : l.Tag p) :
    0 ≤ (t p).index.toInt ↔ (t p).Listed := by
  have hmax : maxexp = 32 := rfl
  by_cases hlisted : (t p).Listed
  · refine iff_of_true ?_ hlisted
    unfold BoundaryTag.Listed at hlisted
    rw [BitVec.toInt_eq_toNat_of_lt (by omega)]
    omega
  · refine iff_of_false ?_ hlisted
    rw [(h.idle hp hlisted).1]
    decide

/-! ## Two neighbours become one piece -/

section
variable (hb : b ∈ l.held) (htags : l.tags b = u ++ a :: c :: v)
include hb htags

/-- The links of two neighbours. -/
theorem pair_links (h : Arenas t l) : (t a).splitRight = c ∧ (t c).splitLeft = a ∧ a ≠ c ∧
    a ≠ (t c).splitRight := by
  have haTag : l.Tag a := ⟨b, hb, by simp [htags]⟩
  have hpieces := h.pieces b hb
  rw [htags] at hpieces
  have hnodup := (List.nodup_cons.mp (List.nodup_append.mp hpieces.fills.nodup).2.1).1
  obtain ⟨hleft, hright⟩ := hpieces.neighbours_cons
  refine ⟨hpieces.neighbours.2, hleft, fun heq => hnodup (heq ▸ List.mem_cons_self), ?_⟩
  rw [hright]
  cases v with
  | nil => exact h.ne_zero haTag
  | cons d v =>
    rintro rfl
    exact hnodup (List.mem_cons_of_mem _ List.mem_cons_self)

/-- Neither of two neighbours is a whole range. -/
theorem pair_not_whole (h : Arenas t l) : ¬(t a).Whole ∧ ¬(t c).Whole := by
  have haTag : l.Tag a := ⟨b, hb, by simp [htags]⟩
  have hcTag : l.Tag c := ⟨b, hb, by simp [htags]⟩
  obtain ⟨hright, hleft, -⟩ := pair_links hb htags h
  exact ⟨fun hw => h.ne_zero hcTag (hright.symm.trans hw.2),
    fun hw => h.ne_zero haTag (hleft.symm.trans hw.1)⟩

/-- The other pieces are whole ranges if they have been before: the one behind the two is none. -/
theorem whole_melt (h : Arenas t l) (hr : l.Tag r) (hra : r ≠ a) :
    (Tags.melt t a c r).Whole ↔ (t r).Whole := by
  have haTag : l.Tag a := ⟨b, hb, by simp [htags]⟩
  have hcTag : l.Tag c := ⟨b, hb, by simp [htags]⟩
  have hright : (Tags.melt t a c r).splitRight = (t r).splitRight := if_neg hra
  have hleft : (Tags.melt t a c r).splitLeft =
      if r = (t c).splitRight then a else (t r).splitLeft := rfl
  rw [BoundaryTag.Whole, hright, hleft]
  refine and_congr_left fun _ => ?_
  by_cases heq : r = (t c).splitRight
  · have hback := h.splitLeft_eq hcTag (heq ▸ h.ne_zero hr)
    rw [← heq] at hback
    rw [if_pos heq]
    exact iff_of_false (h.ne_zero haTag) fun hz => h.ne_zero hcTag (hback.symm.trans hz)
  · rw [if_neg heq]

variable (hq : (s.tag q).Listed) (hp : ¬(s.tag p).Listed) (hcase : a = q ∧ c = p ∨ a = p ∧ c = q)
  (hr : Rewrites s s' l.Tag (Tags.melt (Tags.unlink s.tag q) a c) fun i =>
    if i = (s.tag q).index.toNat ∧ s.freePages i = q then (s.tag q).next else s.freePages i)
include hq hp hcase

omit hb htags in
/-- When the free one of the two has left its list, neither of them is in one. -/
theorem unlink_pair_idle :
    ¬(Tags.unlink s.tag q a).Listed ∧ ¬(Tags.unlink s.tag q c).Listed := by
  have hself : ¬(Tags.unlink s.tag q q).Listed := BoundaryTag.not_listed (if_pos rfl)
  have hother : ¬(Tags.unlink s.tag q p).Listed := by
    have hpq : p ≠ q := fun heq => hp (heq ▸ hq)
    have hindex : (Tags.unlink s.tag q p).index = (s.tag p).index := if_neg hpq
    rwa [BoundaryTag.Listed, hindex]
  rcases hcase with ⟨rfl, rfl⟩ | ⟨rfl, rfl⟩
  · exact ⟨hself, hother⟩
  · exact ⟨hother, hself⟩

theorem pair_tag : l.Tag q := by
  rcases hcase with ⟨rfl, rfl⟩ | ⟨rfl, rfl⟩
  · exact ⟨b, hb, by simp [htags]⟩
  · exact ⟨b, hb, by simp [htags]⟩

include hr

/-- The invariant holds of the joined piece. -/
theorem join_inv (h : LiballocInv s l lists) :
    ∃ lists', LiballocInv s' (l.setTags b (u ++ a :: v)) lists' := by
  have hqTag := pair_tag hb htags hq hp hcase
  obtain ⟨ha, hc⟩ := unlink_pair_idle hq hp hcase
  have hqwhole : ¬(s.tag q).Whole := by
    obtain ⟨haw, hcw⟩ := pair_not_whole hb htags h.heap.arenas
    rcases hcase with ⟨rfl, rfl⟩ | ⟨rfl, rfl⟩
    · exact haw
    · exact hcw
  have hheap₁ := h.heap.unlink hqTag hq
  have hheap := (hheap₁.melt hb htags ha hc).congr fun r hr' =>
    hr.tag r ((h.heap.arenas.tag_merge hb htags).mp hr').1
  rw [← hr.freePages] at hheap
  refine ⟨_, hheap, fun j hj => ?_, fun j hj => ?_, fun hinit => ?_⟩
  · have hcount := LiballocInv.wholeCount_unlink h.heap hqTag hq (fun r _ => rfl) hj
    rw [if_neg fun hcon => hqwhole hcon.2, Nat.add_zero] at hcount
    rw [hr.completePages, h.complete j hj, ← hcount]
    refine congrArg _ (wholeCount_congr fun r hmem => ?_).symm
    obtain ⟨hrTag, hlisted, -⟩ := hheap₁.lists.listed_of_mem hj hmem
    rw [hr.tag r hrTag]
    exact whole_melt hb htags hheap₁.arenas hrTag fun heq => ha (heq ▸ hlisted)
  · rw [hr.completePages]
    exact h.most j hj
  · exact h.fresh (hr.initialized.symm.trans hinit)

/-- The pieces in use other than the one of the two stay as they are. -/
theorem join_spares (h : Arenas s.tag l) : Spares s s' l (l.setTags b (u ++ a :: v)) p a := by
  have htag {r} : (l.setTags b (u ++ a :: v)).Tag r ↔ l.Tag r ∧ r ≠ c := h.tag_merge hb htags
  have hindex {r} (hrq : r ≠ q) : (Tags.unlink s.tag q r).index = (s.tag r).index := if_neg hrq
  have hpairs {r} : r ≠ a ∧ r ≠ c ↔ r ≠ p ∧ r ≠ q := by
    rcases hcase with ⟨rfl, rfl⟩ | ⟨rfl, rfl⟩
    · exact and_comm
    · exact .rfl
  refine hr.spares (fun r hrp hu x hx => h.outside hu.1 hx) (fun r hrp hu => ?_)
    (fun r hra hr' hidle => ?_) fun r hr' => (htag.mp hr').1
  · have hrq : r ≠ q := fun heq => hu.2 (heq ▸ hq)
    obtain ⟨hra, hrc⟩ := hpairs.mpr ⟨hrp, hrq⟩
    exact ⟨hra, hu.1, htag.mpr ⟨hu.1, hrc⟩, hindex hrq, if_neg hra, rfl⟩
  · obtain ⟨hrTag, hrc⟩ := htag.mp hr'
    obtain ⟨hrp, hrq⟩ := hpairs.mp ⟨hra, hrc⟩
    refine ⟨hrp, hrTag, ?_⟩
    change ¬(Tags.unlink s.tag q r).index.toNat < maxexp at hidle
    rwa [hindex hrq] at hidle

/-- Two neighbours become one piece, of which one has been free and the other in use. -/
theorem join_spec (h : LiballocInv s l lists) :
    Melted s s' l (l.setTags b (u ++ a :: v)) p a ∧ (s'.tag a).splitLeft = (s.tag a).splitLeft ∧
      (s'.tag a).splitRight = (s.tag c).splitRight ∧
      ∀ r, l.Tag r → (s'.tag r).Listed → (s.tag r).Listed := by
  have harenas := h.heap.arenas
  have haTag : l.Tag a := ⟨b, hb, by simp [htags]⟩
  obtain ⟨-, -, hne, hbehind⟩ := pair_links hb htags harenas
  obtain ⟨ha, -⟩ := unlink_pair_idle hq hp hcase
  have hused : InUse s'.tag (l.setTags b (u ++ a :: v)) a := by
    refine ⟨(harenas.tag_merge hb htags).mpr ⟨haTag, hne⟩, ?_⟩
    rw [hr.tag a haTag]
    exact ha
  refine ⟨⟨join_inv hb htags hq hp hcase hr h, hused, join_spares hb htags hq hp hcase hr harenas,
    rfl, hr.pages, hr.initialized⟩, ?_, ?_, fun r hr' hlisted => ?_⟩
  · rw [hr.tag a haTag]
    exact if_neg hbehind
  · rw [hr.tag a haTag]
    exact if_pos rfl
  · rw [hr.tag r hr'] at hlisted
    change (Tags.unlink s.tag q r).index.toNat < maxexp at hlisted
    rcases eq_or_ne r q with rfl | hrq
    · exact hq
    · rwa [Tags.unlink, if_neg hrq] at hlisted

end

/-- `remove_tag` of a free tag, of which the place in its list is known from before. -/
theorem removeTag_of_heap (h : TagHeap t heads l lists) (hq : l.Tag q) (hlisted : (t q).Listed)
    (hkeep : ∀ r, l.Tag r → (s.tag r).index = (t r).index ∧ (s.tag r).next = (t r).next ∧
      (s.tag r).prev = (t r).prev) (hheads : s.freePages = heads) :
    ∃ s', s.removeTag q = .ok s' ∧ Rewrites s s' l.Tag (Tags.unlink s.tag q) fun i =>
      if i = (t q).index.toNat ∧ heads i = q then (t q).next else heads i := by
  obtain ⟨hprev, hnext⟩ := h.lists.neighbours hq hlisted
  obtain ⟨hindex', hnext', hprev'⟩ := hkeep q hq
  have htag {r} (hr : r ∈ lists (t q).index.toNat) : l.Tag r :=
    (h.lists.listed_of_mem hlisted hr).1
  have hspec := removeTag_rewrites (s := s) h.arenas.spaced hq
    (by rwa [BoundaryTag.Listed, hindex']) (by rw [hprev']; exact hprev.imp_right htag)
    (by rw [hnext']; exact hnext.imp_right htag)
    (by rw [hprev', hnext']; exact h.lists.ne_neighbours hq hlisted)
  rwa [hindex', hnext', hheads] at hspec

/-- The piece on the left of a free one is in use. -/
theorem not_listed_left (h : LiballocInv s l lists) (hq : l.Tag q) (hlisted : (s.tag q).Listed)
    (hkeep : ∀ r, l.Tag r → (t r).Listed → (s.tag r).Listed) :
    (s.tag q).splitLeft = 0 ∨ ¬(t (s.tag q).splitLeft).Listed := by
  have harenas := h.heap.arenas
  rcases harenas.splitLeft_tag hq with hz | hTag
  · exact .inl hz
  · refine .inr fun hlisted' => ?_
    have hright := harenas.splitRight_eq hq (harenas.ne_zero hTag)
    have hcoal := h.heap.coalesced _ hTag (hkeep _ hTag hlisted')
    rw [hright] at hcoal
    exact hcoal.elim (harenas.ne_zero hq) fun hnot => hnot hlisted

/-- `melt_left`, and `remove_tag` of the piece that the tag is now part of. -/
theorem meltLeft_spec (h : LiballocInv s l lists) (hu : InUse s.tag l p)
    (hleft : (s.tag p).splitLeft ≠ 0) (hq : (s.tag (s.tag p).splitLeft).Listed) :
    (s.meltLeft p).1 = (s.tag p).splitLeft ∧
      ∃ s' l', (s.meltLeft p).2.removeTag (s.tag p).splitLeft = .ok s' ∧
        Melted s s' l l' p (s.tag p).splitLeft ∧
        ((s'.tag (s.tag p).splitLeft).splitLeft = 0 ∨
          ¬(s'.tag (s'.tag (s.tag p).splitLeft).splitLeft).Listed) := by
  have harenas := h.heap.arenas
  obtain ⟨b, hb, u, v, htags⟩ := harenas.pair_left hu.1 hleft
  have hqTag := (harenas.splitLeft_tag hu.1).resolve_left hleft
  obtain ⟨hfst, hmelt⟩ := meltLeft_rewrites harenas.spaced hqTag hu.1
    (harenas.splitRight_tag hu.1) (harenas.ne_splitLeft hu.1)
  generalize (s.tag p).splitLeft = q at *
  generalize s.meltLeft p = melted at hfst hmelt ⊢
  obtain ⟨q', s₁⟩ := melted
  obtain ⟨s', hs', hr⟩ := removeTag_of_heap (s := s₁) h.heap hqTag hq
    (fun r hr => by rw [hmelt.tag r hr]; exact ⟨rfl, rfl, rfl⟩) hmelt.freePages
  have hr' : Rewrites s s' l.Tag (Tags.melt (Tags.unlink s.tag q) q p) _ :=
    (hmelt.trans hr).congr fun r hr' =>
      (Tags.unlink_congr (hmelt.tag r hr') (hmelt.tag q hqTag)).symm
  obtain ⟨hmelted, hsplit, -, hlisted⟩ := join_spec hb htags hq hu.2 (.inl ⟨rfl, rfl⟩) hr' h
  refine ⟨hfst, s', _, hs', hmelted, ?_⟩
  rw [hsplit]
  exact not_listed_left h hqTag hq fun r => hlisted r

/-- `absorb_right`. -/
theorem absorbRight_spec (h : LiballocInv s l lists) (hu : InUse s.tag l p)
    (hright : (s.tag p).splitRight ≠ 0) (hq : (s.tag (s.tag p).splitRight).Listed)
    (hleft : (s.tag p).splitLeft = 0 ∨ ¬(s.tag (s.tag p).splitLeft).Listed) :
    ∃ s' l', s.absorbRight p = .ok s' ∧ Melted s s' l l' p p ∧
      ((s'.tag p).splitLeft = 0 ∨ ¬(s'.tag (s'.tag p).splitLeft).Listed) ∧
      ((s'.tag p).splitRight = 0 ∨ ¬(s'.tag (s'.tag p).splitRight).Listed) := by
  have harenas := h.heap.arenas
  obtain ⟨b, hb, u, v, htags⟩ := harenas.pair hu.1 hright
  have hqTag := (harenas.splitRight_tag hu.1).resolve_left hright
  have hne := harenas.ne_splitRight hu.1
  obtain ⟨q, hpq⟩ : ∃ q, q = (s.tag p).splitRight := ⟨_, rfl⟩
  rw [← hpq] at htags hqTag hq hne
  obtain ⟨s₁, hs₁, hr⟩ := removeTag_of_heap (s := s) h.heap hqTag hq
    (fun r hr => ⟨rfl, rfl, rfl⟩) rfl
  obtain ⟨s', hs', hr'⟩ := absorbRight_rewrites harenas.spaced hu.1 hqTag hpq.symm hs₁ hr
    (harenas.splitRight_tag hqTag) ⟨hne, harenas.ne_splitRight hqTag⟩
  obtain ⟨hmelted, hsplitLeft, hsplitRight, hlisted⟩ :=
    join_spec hb htags hq hu.2 (.inr ⟨rfl, rfl⟩) hr' h
  refine ⟨s', _, hs', hmelted, ?_, ?_⟩
  · rw [hsplitLeft]
    rcases harenas.splitLeft_tag hu.1 with hz | hTag
    · exact .inl hz
    · exact hleft.imp_right fun hleft hlisted' => hleft (hlisted _ hTag hlisted')
  · rw [hsplitRight]
    rcases harenas.splitRight_tag hqTag with hz | hTag
    · exact .inl hz
    · exact (h.heap.coalesced q hqTag hq).imp_right fun hright hlisted' =>
        hright (hlisted _ hTag hlisted')

/-! ## The loops -/

theorem exists_loopLimit : ∃ n, loopLimit = n + 1 + 1 := ⟨2 ^ 64 - 2, by decide⟩

theorem meltLeftLoop_stop (h : LiballocInv s l lists) (hu : InUse s.tag l p)
    (hleft : (s.tag p).splitLeft = 0 ∨ ¬(s.tag (s.tag p).splitLeft).Listed) (fuel : Nat) :
    meltLeftLoop (fuel + 1) p s = .ok (p, s) := by
  rw [meltLeftLoop]
  refine if_neg fun hcon => ?_
  have hTag := (h.heap.arenas.splitLeft_tag hu.1).resolve_left hcon.1
  exact hleft.elim hcon.1 fun hnot => hnot ((listed_iff h.heap hTag).mp hcon.2)

/-- The first loop of `free`. -/
theorem meltLeftLoop_spec (h : LiballocInv s l lists) (hu : InUse s.tag l p) :
    ∃ p' s' l', meltLeftLoop loopLimit p s = .ok (p', s') ∧ Melted s s' l l' p p' ∧
      ((s'.tag p').splitLeft = 0 ∨ ¬(s'.tag (s'.tag p').splitLeft).Listed) := by
  obtain ⟨fuel, hfuel⟩ := exists_loopLimit
  rw [hfuel]
  by_cases hleft : (s.tag p).splitLeft = 0 ∨ ¬(s.tag (s.tag p).splitLeft).Listed
  · exact ⟨p, s, l, meltLeftLoop_stop h hu hleft _, .refl h hu, hleft⟩
  · obtain ⟨hz, hlisted⟩ := not_or.mp hleft
    rw [not_not] at hlisted
    have hTag := (h.heap.arenas.splitLeft_tag hu.1).resolve_left hz
    obtain ⟨hfst, s', l', hs', hmelted, hleft'⟩ := meltLeft_spec h hu hz hlisted
    obtain ⟨lists', hinv'⟩ := hmelted.inv
    refine ⟨_, s', l', ?_, hmelted, hleft'⟩
    rw [meltLeftLoop]
    dsimp only
    rw [if_pos ⟨hz, (listed_iff h.heap hTag).mpr hlisted⟩]
    generalize s.meltLeft p = melted at hfst hs' ⊢
    obtain ⟨q, s₁⟩ := melted
    replace hfst : q = (s.tag p).splitLeft := hfst
    dsimp only at hs' ⊢
    rw [hfst, hs', ok_bind]
    exact meltLeftLoop_stop hinv' hmelted.used hleft' fuel

theorem meltRightLoop_stop (h : LiballocInv s l lists) (hu : InUse s.tag l p)
    (hright : (s.tag p).splitRight = 0 ∨ ¬(s.tag (s.tag p).splitRight).Listed) (fuel : Nat) :
    meltRightLoop (fuel + 1) p s = .ok s := by
  rw [meltRightLoop]
  refine if_neg fun hcon => ?_
  have hTag := (h.heap.arenas.splitRight_tag hu.1).resolve_left hcon.1
  exact hright.elim hcon.1 fun hnot => hnot ((listed_iff h.heap hTag).mp hcon.2)

/-- The second loop of `free`. -/
theorem meltRightLoop_spec (h : LiballocInv s l lists) (hu : InUse s.tag l p)
    (hleft : (s.tag p).splitLeft = 0 ∨ ¬(s.tag (s.tag p).splitLeft).Listed) :
    ∃ s' l', meltRightLoop loopLimit p s = .ok s' ∧ Melted s s' l l' p p ∧
      ((s'.tag p).splitLeft = 0 ∨ ¬(s'.tag (s'.tag p).splitLeft).Listed) ∧
      ((s'.tag p).splitRight = 0 ∨ ¬(s'.tag (s'.tag p).splitRight).Listed) := by
  obtain ⟨fuel, hfuel⟩ := exists_loopLimit
  rw [hfuel]
  by_cases hright : (s.tag p).splitRight = 0 ∨ ¬(s.tag (s.tag p).splitRight).Listed
  · exact ⟨s, l, meltRightLoop_stop h hu hright _, .refl h hu, hleft, hright⟩
  · obtain ⟨hz, hlisted⟩ := not_or.mp hright
    rw [not_not] at hlisted
    have hTag := (h.heap.arenas.splitRight_tag hu.1).resolve_left hz
    obtain ⟨s', l', hs', hmelted, hleft', hright'⟩ := absorbRight_spec h hu hz hlisted hleft
    obtain ⟨lists', hinv'⟩ := hmelted.inv
    refine ⟨s', l', ?_, hmelted, hleft', hright'⟩
    rw [meltRightLoop, if_pos ⟨hz, (listed_iff h.heap hTag).mpr hlisted⟩, hs', ok_bind]
    exact meltRightLoop_stop hinv' hmelted.used hright' fuel

/-! ## The piece goes back -/

variable {src : PageSource σ} {Owns : σ → List Block → Prop} {Room : σ → Prop} {limit : Nat}
  {null : Prop} {i : BitVec 32}

/-- The piece in use at `p` is given back. -/
structure Freed (Owns : σ → List Block → Prop) (s s' : Liballoc σ) (l l' : Layout)
    (p : BitVec 64) : Prop where
  inv : ∃ lists, LiballocInv s' l' lists
  gone : ¬InUse s'.tag l' p
  spares : Spares s s' l l' p p
  owns : Owns s'.pages l'.held
  initialized : s'.initialized = s.initialized

/-- The piece goes into the list of its class, and the counter of the class counts the ranges. -/
theorem insertFree_spec {complete : Nat → Int} (h : LiballocInv s l lists) (hu : InUse s.tag l p)
    (howns : Owns s.pages l.held)
    (hleft : (s.tag p).splitLeft = 0 ∨ ¬(s.tag (s.tag p).splitLeft).Listed)
    (hright : (s.tag p).splitRight = 0 ∨ ¬(s.tag (s.tag p).splitRight).Listed)
    (hi : i = bucket ((s.tag p).realSize - 48))
    (hcomplete : ∀ j, complete j =
      s.completePages j + if j = i.toNat ∧ (s.tag p).Whole then 1 else 0)
    (hmost : ∀ j < maxexp, complete j ≤ maxComplete) :
    ∃ s', insertTag { s with completePages := complete } p i = .ok s' ∧
      Freed Owns s s' l l p := by
  obtain ⟨s', hs', hr, hheap⟩ := insertTag_spec (s := { s with completePages := complete }) h.heap
    hu hleft hright hi
  have hlt : i.toNat < maxexp := hi ▸ bucket_lt _
  have htag {r} (hr' : l.Tag r) : (s'.tag r).index = (if r = p then i else (s.tag r).index) ∧
      ((s'.tag r).Whole ↔ (s.tag r).Whole) := by
    rw [hr.tag r hr']
    exact ⟨rfl, .rfl⟩
  have hcount {j} (hj : j < maxexp) : wholeCount s'.tag (lists j) = wholeCount s.tag (lists j) :=
    wholeCount_congr fun r hmem => (htag (h.heap.lists.listed_of_mem hj hmem).1).2
  refine ⟨s', hs', ⟨_, hheap, fun j hj => ?_, fun j hj => ?_, fun hinit => ?_⟩, fun hused => ?_,
    (hr.spares_self h.heap.arenas fun r hrp hr' => ⟨if_neg hrp, rfl, rfl⟩).of_mem rfl rfl, ?_,
    hr.initialized⟩
  · rw [hr.completePages]
    change complete j = _
    rw [hcomplete, h.complete j hj]
    rcases eq_or_ne j i.toNat with rfl | hji
    · rw [Function.update_self, wholeCount_cons, hcount hj]
      simp only [true_and, (htag hu.1).2, Nat.cast_add, Nat.cast_ite, Nat.cast_one, Nat.cast_zero]
    · rw [Function.update_of_ne hji, hcount hj, if_neg fun hcon => hji hcon.1, Int.add_zero]
  · rw [hr.completePages]
    exact hmost j hj
  · exact h.fresh (hr.initialized.symm.trans hinit)
  · have hidle := hused.2
    rw [BoundaryTag.Listed, (htag hu.1).1, if_pos rfl] at hidle
    exact hidle hlt
  · rw [hr.pages]
    exact howns

/-- A whole range goes back to the page source. -/
theorem release_spec (hsrc : src.Lawful Owns Room limit null) (h : LiballocInv s l lists)
    (hu : InUse s.tag l p) (howns : Owns s.pages l.held) (hwhole : (s.tag p).Whole) :
    ∃ source l', src.liballocFree p (pageCount (s.tag p).realSize) s.pages = .ok source ∧
      Freed Owns s { s with pages := source } l l' p := by
  obtain ⟨b, hb, htags, rfl, hreal⟩ := h.heap.arenas.whole hu.1 hwhole
  have husable := h.heap.arenas.ok b hb
  obtain ⟨hge, hlt⟩ := And.intro husable.pages_ge husable.pages_lt
  have hpages : pageCount (s.tag b.start).realSize = BitVec.ofInt 32 b.pages := by
    apply BitVec.eq_of_toNat_eq
    rw [toNat_pageCount, hreal, BitVec.toNat_ofInt]
    omega
  obtain ⟨source, hsource, howns'⟩ := hsrc.free howns hb
  have htag {r} : (l.drop b).Tag r ↔ l.Tag r ∧ r ≠ b.start :=
    h.heap.arenas.tag_drop hb htags
  refine ⟨source, l.drop b, by rw [hpages, hsource], ⟨lists, h.heap.drop hb htags hu.2, h.complete,
    h.most, fun hinit => ?_⟩, fun hused => (htag.mp hused.1).2 rfl,
    ⟨fun r hr hu => ⟨hr, ⟨htag.mpr ⟨hu.1, hr⟩, hu.2⟩, rfl, rfl⟩,
      fun r hr hu => ⟨hr, (htag.mp hu.1).1, hu.2⟩, fun r hr hu x hx => rfl⟩, howns', rfl⟩
  have hheld := h.fresh hinit
  rw [hheld] at hb
  cases hb

/-- The end of `free`. -/
theorem releaseTag_spec (hsrc : src.Lawful Owns Room limit null) (h : LiballocInv s l lists)
    (hu : InUse s.tag l p) (howns : Owns s.pages l.held)
    (hleft : (s.tag p).splitLeft = 0 ∨ ¬(s.tag (s.tag p).splitLeft).Listed)
    (hright : (s.tag p).splitRight = 0 ∨ ¬(s.tag (s.tag p).splitRight).Listed) :
    ∃ s' l', s.releaseTag src p = .ok s' ∧ Freed Owns s s' l l' p := by
  obtain ⟨i, hi⟩ : ∃ i, i = bucket ((s.tag p).realSize - 48) := ⟨_, rfl⟩
  have hlt : i.toNat < maxexp := hi ▸ bucket_lt _
  rw [releaseTag]
  dsimp only
  rw [← hi]
  by_cases hwhole : (s.tag p).Whole
  · have hw : (s.tag p).splitLeft = 0 ∧ (s.tag p).splitRight = 0 := hwhole
    have hcomplete : s.completePage i = .ok (s.completePages i.toNat) := if_pos hlt
    rw [if_pos hw, hcomplete, ok_bind]
    by_cases hmost : s.completePages i.toNat = maxComplete
    · obtain ⟨source, l', hsource, hfreed⟩ := release_spec hsrc h hu howns hwhole
      refine ⟨_, l', ?_, hfreed⟩
      rw [if_pos hmost, hsource]
      rfl
    · have hcount (j) : Function.update s.completePages i.toNat (s.completePages i.toNat + 1) j =
          s.completePages j + if j = i.toNat ∧ (s.tag p).Whole then 1 else 0 := by
        rw [Function.update_apply]
        split
        · simp_all
        · simp_all
      have hle (j) (hj : j < maxexp) : Function.update s.completePages i.toNat
          (s.completePages i.toNat + 1) j ≤ maxComplete := by
        have := h.most j hj
        rw [hcount]
        split
        case isTrue heq =>
          obtain ⟨rfl, -⟩ := heq
          omega
        case isFalse => omega
      obtain ⟨s', hs', hfreed⟩ := insertFree_spec h hu howns hleft hright hi hcount hle
      refine ⟨s', l, ?_, hfreed⟩
      have hadd : s.addComplete i 1 = .ok _ := if_pos hlt
      rw [if_neg hmost, hadd, ok_bind, hs']
  · have hw : ¬((s.tag p).splitLeft = 0 ∧ (s.tag p).splitRight = 0) := hwhole
    have hsame (j) : s.completePages j =
        s.completePages j + if j = i.toNat ∧ (s.tag p).Whole then 1 else 0 := by
      simp [hwhole]
    obtain ⟨s', hs', hfreed⟩ := insertFree_spec h hu howns hleft hright hi hsame h.most
    rw [if_neg hw]
    exact ⟨s', l, hs', hfreed⟩

/-- `free` of a piece in use always returns. The other pieces in use, with their contents, stay as
they are. -/
theorem free_spec (hsrc : src.Lawful Owns Room limit null) (h : LiballocInv s l lists)
    (hu : InUse s.tag l p) (howns : Owns s.pages l.held) :
    ∃ s' l', s.free src (p + 48) = .ok s' ∧ Freed Owns s s' l l' p := by
  have harenas := h.heap.arenas
  obtain ⟨hptr, hmagic⟩ : p + 48 ≠ 0 ∧ (s.tag p).magic = liballocMagic := by
    obtain ⟨b, hb, hmem⟩ := hu.1
    have hbounds := harenas.bounds hb hmem
    have hroom := harenas.room hu.1
    have hlimit := (harenas.ok b hb).limit_lt
    refine ⟨fun hz => ?_, (harenas.pieces b hb).magic p hmem⟩
    have htagSize : tagSize = 48 := rfl
    have hnat : (p + 48).toNat = 0 := congrArg BitVec.toNat hz
    rw [BitVec.toNat_add, show (48 : BitVec 64).toNat = 48 from rfl] at hnat
    omega
  obtain ⟨p₁, s₁, l₁, hs₁, hmelted₁, hleft₁⟩ := meltLeftLoop_spec h hu
  obtain ⟨lists₁, hinv₁⟩ := hmelted₁.inv
  obtain ⟨s₂, l₂, hs₂, hmelted₂, hleft₂, hright₂⟩ :=
    meltRightLoop_spec hinv₁ hmelted₁.used hleft₁
  have hmelted := hmelted₁.trans hmelted₂
  obtain ⟨lists₂, hinv₂⟩ := hmelted.inv
  obtain ⟨s', l', hs', hfreed⟩ := releaseTag_spec hsrc hinv₂ hmelted.used
    (by rw [hmelted.pages, hmelted.held]; exact howns) hleft₂ hright₂
  have hspares := hmelted.spares.trans hfreed.spares
  refine ⟨s', l', ?_, hfreed.inv, fun hused => ?_, ⟨fun r hr hu => ?_, fun r hr hu => ?_,
    hspares.mem⟩, hfreed.owns, hfreed.initialized.trans hmelted.initialized⟩
  · rw [free]
    dsimp only
    rw [if_neg hptr, BitVec.add_sub_cancel, if_neg (not_not.mpr hmagic), hs₁, ok_bind]
    dsimp only
    rw [hs₂, ok_bind, hs']
  · rcases eq_or_ne p p₁ with rfl | hne
    · exact hfreed.gone hused
    · exact (hspares.back p hne hused).1 rfl
  · obtain ⟨-, hrest⟩ := hspares.tag r hr hu
    exact ⟨hr, hrest⟩
  · refine hspares.back r ?_ hu
    rintro rfl
    exact hfreed.gone hu

end Liballoc

end Lethe
