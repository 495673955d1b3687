import Lethe.Kernel.LiballocSpec

/-!
# The invariant of `memory/liballoc.c`

`TagHeap` is the state between two calls as the tags show it: the pieces fill the ranges that are
held, the free ones are in the list of their class, and no two neighbours are free. Its lemmas say
how the changes of `Tags` keep it.
-/

namespace Lethe

/-- The tags of the ranges in `l` and the lists of the free ones. -/
structure TagHeap (t : Tags) (heads : Nat → BitVec 64) (l : Layout)
    (lists : Nat → List (BitVec 64)) : Prop where
  arenas : Arenas t l
  lists : FreeLists t heads lists l.Tag
  classes : ∀ p, l.Tag p → (t p).Listed → (t p).index = bucket ((t p).realSize - 48)
  coalesced : ∀ p, l.Tag p → (t p).Listed →
    (t p).splitRight = 0 ∨ ¬(t (t p).splitRight).Listed

variable {t t' : Tags} {heads : Nat → BitVec 64} {l : Layout} {lists : Nat → List (BitVec 64)}
  {b : Block} {p q r : BitVec 64} {u v : List (BitVec 64)} {n : BitVec 32}

/-! ## Neighbours -/

namespace Arenas

/-- The right neighbour of a tag. -/
theorem pair (h : Arenas t l) (hp : l.Tag p) (hright : (t p).splitRight ≠ 0) :
    ∃ b ∈ l.held, ∃ u v, l.tags b = u ++ p :: (t p).splitRight :: v := by
  obtain ⟨b, hb, hmem⟩ := hp
  obtain ⟨u, v, huv⟩ := List.append_of_mem hmem
  have hpieces := h.pieces b hb
  rw [huv] at hpieces
  cases v with
  | nil => exact absurd hpieces.neighbours.2 hright
  | cons q v => exact ⟨b, hb, u, v, by rw [huv, hpieces.neighbours.2, List.headD_cons]⟩

/-- The left neighbour of a tag. -/
theorem pair_left (h : Arenas t l) (hq : l.Tag q) (hleft : (t q).splitLeft ≠ 0) :
    ∃ b ∈ l.held, ∃ u v, l.tags b = u ++ (t q).splitLeft :: q :: v := by
  obtain ⟨b, hb, hmem⟩ := hq
  obtain ⟨u, v, huv⟩ := List.append_of_mem hmem
  have hpieces := h.pieces b hb
  rw [huv] at hpieces
  rcases List.eq_nil_or_concat u with rfl | ⟨u, a, rfl⟩
  · exact absurd hpieces.neighbours.1 hleft
  · refine ⟨b, hb, u, v, ?_⟩
    rw [huv, hpieces.neighbours.1]
    simp

theorem splitRight_tag (h : Arenas t l) (hp : l.Tag p) :
    (t p).splitRight = 0 ∨ l.Tag (t p).splitRight := by
  refine or_iff_not_imp_left.mpr fun hz => ?_
  obtain ⟨b, hb, u, v, htags⟩ := h.pair hp hz
  exact ⟨b, hb, by rw [htags]; simp⟩

theorem splitLeft_tag (h : Arenas t l) (hp : l.Tag p) :
    (t p).splitLeft = 0 ∨ l.Tag (t p).splitLeft := by
  refine or_iff_not_imp_left.mpr fun hz => ?_
  obtain ⟨b, hb, u, v, htags⟩ := h.pair_left hp hz
  exact ⟨b, hb, by rw [htags]; simp⟩

/-- The links between two neighbours. -/
theorem splitLeft_eq (h : Arenas t l) (hp : l.Tag p) (hright : (t p).splitRight ≠ 0) :
    (t (t p).splitRight).splitLeft = p := by
  obtain ⟨b, hb, u, v, htags⟩ := h.pair hp hright
  have hpieces := h.pieces b hb
  rw [htags] at hpieces
  exact hpieces.neighbours_cons.1

theorem splitRight_eq (h : Arenas t l) (hq : l.Tag q) (hleft : (t q).splitLeft ≠ 0) :
    (t (t q).splitLeft).splitRight = q := by
  obtain ⟨b, hb, u, v, htags⟩ := h.pair_left hq hleft
  have hpieces := h.pieces b hb
  rw [htags] at hpieces
  exact hpieces.neighbours.2

/-- A tag is not its own neighbour. -/
theorem ne_splitRight (h : Arenas t l) (hp : l.Tag p) : p ≠ (t p).splitRight := by
  by_cases hz : (t p).splitRight = 0
  · rw [hz]
    exact h.ne_zero hp
  · obtain ⟨b, hb, u, v, htags⟩ := h.pair hp hz
    have hnodup := (h.pieces b hb).fills.nodup
    rw [htags] at hnodup
    intro heq
    have hrest := (List.nodup_append.mp hnodup).2.1
    exact (List.nodup_cons.mp hrest).1 (heq ▸ List.mem_cons_self)

theorem ne_splitLeft (h : Arenas t l) (hp : l.Tag p) : p ≠ (t p).splitLeft := by
  by_cases hz : (t p).splitLeft = 0
  · rw [hz]
    exact h.ne_zero hp
  · have hright := h.splitRight_eq hp hz
    intro heq
    rw [← heq] at hright
    exact h.ne_splitRight hp hright.symm

/-- A range in one piece. -/
theorem whole (h : Arenas t l) (hp : l.Tag p)
    (hz : (t p).splitLeft = 0 ∧ (t p).splitRight = 0) : ∃ b ∈ l.held, l.tags b = [p] ∧
      p = b.start ∧ (t p).realSize.toNat = 4096 * b.pages.toNat := by
  obtain ⟨b, hb, hmem⟩ := hp
  obtain ⟨u, v, huv⟩ := List.append_of_mem hmem
  have hpieces := h.pieces b hb
  rw [huv] at hpieces
  have hv : v = [] := by
    cases v with
    | nil => rfl
    | cons a v =>
      refine absurd ?_ hpieces.null
      have : a = 0 := hpieces.neighbours.2.symm.trans hz.2
      simp [this]
  have hu : u = [] := by
    rcases List.eq_nil_or_concat u with rfl | ⟨u, a, rfl⟩
    · rfl
    · refine absurd ?_ hpieces.null
      have : (u.concat a).getLastD 0 = 0 := hpieces.neighbours.1.symm.trans hz.1
      rw [List.concat_eq_append, List.getLastD_concat] at this
      simp [this]
  subst hu hv
  obtain ⟨hstart, -, hlen⟩ := hpieces.fills
  refine ⟨b, hb, huv, BitVec.eq_of_toNat_eq hstart, ?_⟩
  have : b.start.toNat + (t p).realSize.toNat = b.limit := hlen
  unfold Block.limit at this
  omega

end Arenas

namespace FreeLists

/-- A free tag is not linked to itself. -/
theorem ne_neighbours {S : BitVec 64 → Prop} (h : FreeLists t heads lists S) (hp : S p)
    (hlisted : (t p).Listed) : p ≠ (t p).prev ∧ p ≠ (t p).next := by
  have hzero : p ≠ 0 := by
    rintro rfl
    exact h.null hp
  obtain ⟨u, v, huv⟩ := List.append_of_mem (h.mem_of_listed hp hlisted)
  have hnodup := h.nodup _ hlisted
  rw [huv] at hnodup
  have hpuv := (List.nodup_cons.mp (List.nodup_middle.mp hnodup)).1
  obtain ⟨hprev, hnext⟩ := Linked.neighbours (huv ▸ h.linked _ hlisted)
  rw [hprev, hnext]
  constructor
  · intro heq
    rcases List.mem_cons.mp (List.getLastD_mem_cons (l := u) (a := 0)) with hz | hmem
    · exact hzero (heq.trans hz)
    · exact hpuv (List.mem_append_left _ (heq ▸ hmem))
  · intro heq
    cases v with
    | nil => exact hzero heq
    | cons a v =>
      have : p = a := heq
      exact hpuv (by simp [this])

/-- A tag that is in no list is added to `S`. -/
theorem extend {S S' : BitVec 64 → Prop} (h : FreeLists t heads lists S)
    (hS : ∀ q, S' q ↔ q = p ∨ S q) (hp : p ≠ 0) (hnew : ¬S p)
    (hidle : (t p).index = -1 ∧ (t p).next = 0 ∧ (t p).prev = 0) :
    FreeLists t heads lists S' where
  head := h.head
  linked := h.linked
  nodup := h.nodup
  mem_iff i hi q := by
    rw [h.mem_iff i hi q, hS q]
    constructor
    · rintro ⟨hq, hindex⟩
      exact ⟨.inr hq, hindex⟩
    · rintro ⟨rfl | hq, hindex⟩
      · rw [hidle.1] at hindex
        subst hindex
        exact absurd hi (by decide)
      · exact ⟨hq, hindex⟩
  idle q hq hnone := by
    rcases (hS q).mp hq with rfl | hq
    · exact hidle
    · exact h.idle q hq hnone
  null h0 := by
    rcases (hS 0).mp h0 with h0 | h0
    · exact hp h0.symm
    · exact h.null h0

/-- The first tag of a list. -/
theorem head_tag {S : BitVec 64 → Prop} (h : FreeLists t heads lists S) (hi : i < maxexp) :
    heads i = 0 ∨ S (heads i) ∧ (t (heads i)).Listed := by
  rw [h.head i hi]
  cases hlist : lists i with
  | nil => exact .inl rfl
  | cons a v =>
    obtain ⟨hS, hlisted, -⟩ := h.listed_of_mem hi (hlist ▸ List.mem_cons_self : a ∈ lists i)
    exact .inr ⟨hS, hlisted⟩

end FreeLists

/-! ## The tags of a changed layout -/

theorem Arenas.tag_merge (h : Arenas t l) (hb : b ∈ l.held) (htags : l.tags b = u ++ p :: q :: v) :
    (l.setTags b (u ++ p :: v)).Tag r ↔ l.Tag r ∧ r ≠ q := by
  have hnodup := (h.pieces b hb).fills.nodup
  rw [htags, show u ++ p :: q :: v = (u ++ [p]) ++ q :: v by simp, List.nodup_middle] at hnodup
  have hq : q ∉ u ++ p :: v := by simpa using (List.nodup_cons.mp hnodup).1
  have hqb : q ∈ l.tags b := by simp [htags]
  rw [Layout.tag_setTags hb]
  constructor
  · rintro (hr | ⟨c, hc, hcb, hr⟩)
    · refine ⟨⟨b, hb, ?_⟩, fun heq => hq (heq ▸ hr)⟩
      rw [htags]
      simp at hr ⊢
      tauto
    · exact ⟨⟨c, hc, hr⟩, fun heq => hcb (h.block_eq hc hb hr (heq ▸ hqb))⟩
  · rintro ⟨⟨c, hc, hr⟩, hrq⟩
    rcases eq_or_ne c b with rfl | hcb
    · rw [htags] at hr
      simp at hr ⊢
      tauto
    · exact .inr ⟨c, hc, hcb, hr⟩

theorem Layout.tag_cut (hb : b ∈ l.held) (htags : l.tags b = u ++ p :: v) :
    (l.setTags b (u ++ p :: q :: v)).Tag r ↔ r = q ∨ l.Tag r := by
  rw [Layout.tag_setTags hb]
  constructor
  · rintro (hr | ⟨c, hc, -, hr⟩)
    · rcases eq_or_ne r q with hrq | hrq
      · exact .inl hrq
      · refine .inr ⟨b, hb, ?_⟩
        rw [htags]
        simp [hrq] at hr ⊢
        exact hr
    · exact .inr ⟨c, hc, hr⟩
  · rintro (rfl | ⟨c, hc, hr⟩)
    · simp
    · rcases eq_or_ne c b with rfl | hcb
      · rw [htags] at hr
        simp at hr ⊢
        tauto
      · exact .inr ⟨c, hc, hcb, hr⟩

theorem Layout.tag_add (hb : b ∉ l.held) : (l.add b).Tag r ↔ r = b.start ∨ l.Tag r := by
  have hne {c} (hc : c ∈ l.held) : c ≠ b := by
    rintro rfl
    exact hb hc
  constructor
  · rintro ⟨c, hc, hr⟩
    rcases List.mem_cons.mp hc with rfl | hc
    · rw [tags_add_self, List.mem_singleton] at hr
      exact .inl hr
    · rw [tags_add_of_ne (hne hc)] at hr
      exact .inr ⟨c, hc, hr⟩
  · rintro (rfl | ⟨c, hc, hr⟩)
    · exact ⟨b, List.mem_cons_self, by simp⟩
    · exact ⟨c, List.mem_cons_of_mem _ hc, by rwa [tags_add_of_ne (hne hc)]⟩

theorem Arenas.tag_drop (h : Arenas t l) (hb : b ∈ l.held) (htags : l.tags b = [p]) :
    (l.drop b).Tag r ↔ l.Tag r ∧ r ≠ p := by
  have hmem {c} : c ∈ (l.drop b).held ↔ c ≠ b ∧ c ∈ l.held := h.nodup.mem_erase_iff
  have hp : p ∈ l.tags b := by simp [htags]
  constructor
  · rintro ⟨c, hc, hr⟩
    obtain ⟨hcb, hc⟩ := hmem.mp hc
    exact ⟨⟨c, hc, hr⟩, fun heq => hcb (h.block_eq hc hb hr (heq ▸ hp))⟩
  · rintro ⟨⟨c, hc, hr⟩, hrp⟩
    refine ⟨c, hmem.mpr ⟨?_, hc⟩, hr⟩
    rintro rfl
    rw [htags, List.mem_singleton] at hr
    exact hrp hr

/-! ## What keeps the invariant -/

namespace TagHeap

/-- The invariant is not about the sizes that the clients have asked for. -/
theorem resize (h : TagHeap t heads l lists)
    (ht : ∀ r, l.Tag r → ∃ n, t' r = { t r with size := n }) : TagHeap t' heads l lists := by
  have hkeep {r} (hr : l.Tag r) : (t' r).index = (t r).index ∧ (t' r).next = (t r).next ∧
      (t' r).prev = (t r).prev ∧ (t' r).realSize = (t r).realSize ∧ (t' r).magic = (t r).magic ∧
      (t' r).splitLeft = (t r).splitLeft ∧ (t' r).splitRight = (t r).splitRight := by
    obtain ⟨n, hn⟩ := ht r hr
    rw [hn]
    exact ⟨rfl, rfl, rfl, rfl, rfl, rfl, rfl⟩
  refine ⟨h.arenas.congr fun r hr => ?_, h.lists.congr (fun _ => .rfl) fun r hr => ?_,
    fun r hr => ?_, fun r hr => ?_⟩
  · obtain ⟨-, -, -, hrest⟩ := hkeep hr
    exact hrest
  · obtain ⟨hindex, hnext, hprev, -⟩ := hkeep hr
    exact ⟨hindex, hnext, hprev⟩
  · obtain ⟨hindex, -, -, hreal, -⟩ := hkeep hr
    rw [BoundaryTag.Listed, hindex, hreal]
    exact h.classes r hr
  · obtain ⟨hindex, -, -, -, -, -, hsplit⟩ := hkeep hr
    rw [BoundaryTag.Listed, hindex, hsplit]
    intro hlisted
    rcases h.arenas.splitRight_tag hr with hz | hright
    · exact .inl hz
    · rw [BoundaryTag.Listed, (hkeep hright).1]
      exact h.coalesced r hr hlisted

theorem congr (h : TagHeap t heads l lists) (ht : ∀ r, l.Tag r → t' r = t r) :
    TagHeap t' heads l lists := h.resize fun r hr => ⟨_, ht r hr⟩

/-- The links of a tag that is in no list. -/
theorem idle (h : TagHeap t heads l lists) (hp : l.Tag p) (hidle : ¬(t p).Listed) :
    (t p).index = -1 ∧ (t p).next = 0 ∧ (t p).prev = 0 := h.lists.idle p hp hidle

/-- A free tag leaves its list. -/
theorem unlink (h : TagHeap t heads l lists) (hp : l.Tag p) (hlisted : (t p).Listed) :
    TagHeap (Tags.unlink t p)
      (fun i => if i = (t p).index.toNat ∧ heads i = p then (t p).next else heads i) l
      (Function.update lists (t p).index.toNat ((lists (t p).index.toNat).erase p)) := by
  have hkeep {r} (hr : (Tags.unlink t p r).Listed) : r ≠ p ∧ (t r).Listed := by
    rcases eq_or_ne r p with rfl | hne
    · simp only [BoundaryTag.Listed, Tags.unlink, if_true] at hr
      exact absurd hr (by decide)
    · simp only [BoundaryTag.Listed, Tags.unlink, if_neg hne] at hr
      exact ⟨hne, hr⟩
  refine ⟨h.arenas.congr fun r hr => ⟨rfl, rfl, rfl, rfl⟩, h.lists.remove hp hlisted
    ⟨fun r hr => rfl, fun r hr => rfl, fun r hr => rfl, rfl⟩, fun r hr hlisted => ?_,
    fun r hr hlisted => ?_⟩
  · obtain ⟨hne, hlisted⟩ := hkeep hlisted
    exact (if_neg hne).trans (h.classes r hr hlisted)
  · obtain ⟨hne, hlisted⟩ := hkeep hlisted
    exact (h.coalesced r hr hlisted).imp_right fun hright hlisted => hright (hkeep hlisted).2

/-- A tag without free neighbours is put into the list of its class. -/
theorem link (h : TagHeap t heads l lists) (hp : l.Tag p) (hidle : ¬(t p).Listed)
    (hleft : (t p).splitLeft = 0 ∨ ¬(t (t p).splitLeft).Listed)
    (hright : (t p).splitRight = 0 ∨ ¬(t (t p).splitRight).Listed)
    (hi : i = bucket ((t p).realSize - 48)) :
    TagHeap (Tags.link t p (heads i.toNat) i) (Function.update heads i.toNat p) l
      (Function.update lists i.toNat (p :: lists i.toNat)) := by
  have hlt : i.toNat < maxexp := hi ▸ bucket_lt _
  have hfirst := h.lists.head_tag hlt
  have hne : p ≠ heads i.toNat := by
    intro heq
    rw [← heq] at hfirst
    exact hfirst.elim (h.arenas.ne_zero hp) fun hlisted => hidle hlisted.2
  have hother {r} (hr : r ≠ p) : (Tags.link t p (heads i.toNat) i r).index = (t r).index :=
    if_neg hr
  refine ⟨h.arenas.congr fun r hr => ⟨rfl, rfl, rfl, rfl⟩, ?_, fun r hr hlisted => ?_,
    fun r hr hlisted => ?_⟩
  · refine h.lists.insert hlt (h.arenas.ne_zero hp)
      (fun q => ⟨.inr, fun hq => hq.elim (fun heq => heq ▸ hp) id⟩) (fun _ => hidle)
      ⟨fun r hr => apply_ite _ .., fun r hr => rfl, fun r hr => ?_, rfl⟩
    rcases eq_or_ne r p with rfl | hrp
    · rw [if_pos rfl]
      exact (if_neg hne).trans (h.idle hp hidle).2.2
    · rw [if_neg hrp]
      rfl
  · rcases eq_or_ne r p with rfl | hrp
    · exact (if_pos rfl).trans hi
    · rw [BoundaryTag.Listed, hother hrp] at hlisted
      exact (hother hrp).trans (h.classes r hr hlisted)
  · change (t r).splitRight = 0 ∨ ¬(Tags.link t p _ i (t r).splitRight).Listed
    rcases eq_or_ne r p with rfl | hrp
    · rw [BoundaryTag.Listed, hother (h.arenas.ne_splitRight hr).symm]
      exact hright
    · rw [BoundaryTag.Listed, hother hrp] at hlisted
      have hcases := h.coalesced r hr hlisted
      rcases eq_or_ne (t r).splitRight p with heq | hne'
      · -- the tag is on the left of `p`
        have hback := h.arenas.splitLeft_eq hr (heq ▸ h.arenas.ne_zero hp)
        rw [heq] at hback
        rw [hback] at hleft
        exact absurd hlisted (hleft.resolve_left (h.arenas.ne_zero hr))
      · rwa [BoundaryTag.Listed, hother hne']

/-- Two neighbours that are in no list become one piece. -/
theorem melt (h : TagHeap t heads l lists) (hb : b ∈ l.held) (htags : l.tags b = u ++ p :: q :: v)
    (hp : ¬(t p).Listed) (hq : ¬(t q).Listed) :
    TagHeap (Tags.melt t p q) heads (l.setTags b (u ++ p :: v)) lists := by
  have htag {r} : (l.setTags b (u ++ p :: v)).Tag r ↔ l.Tag r ∧ r ≠ q :=
    h.arenas.tag_merge hb htags
  have hother {r} (hlisted : (t r).Listed) : r ≠ p ∧ r ≠ q :=
    ⟨fun heq => hp (heq ▸ hlisted), fun heq => hq (heq ▸ hlisted)⟩
  refine ⟨h.arenas.merge hb htags ⟨fun r hr => rfl, fun r hr => rfl, fun r hr => rfl,
    fun r hr => rfl⟩, ?_, fun r hr hlisted => ?_, fun r hr hlisted => ?_⟩
  · refine (h.lists.shrink (fun r hr => (htag.mp hr).1) fun r hr hlisted => ?_).congr
      (fun _ => .rfl) fun r hr => ⟨rfl, rfl, rfl⟩
    exact htag.mpr ⟨hr, (hother hlisted).2⟩
  · have hreal : (Tags.melt t p q r).realSize = (t r).realSize := if_neg (hother hlisted).1
    rw [hreal]
    exact h.classes r (htag.mp hr).1 hlisted
  · have hright : (Tags.melt t p q r).splitRight = (t r).splitRight := if_neg (hother hlisted).1
    rw [hright]
    exact h.coalesced r (htag.mp hr).1 hlisted

/-- Behind the tag of a piece there is no other. -/
theorem split_new (h : TagHeap t heads l lists) (hp : l.Tag p) (hn : tagSize ≤ n.toNat)
    (hsize : n.toNat + tagSize ≤ (t p).realSize.toNat)
    (hstart : q.toNat = p.toNat + (t p).realSize.toNat - n.toNat) : ¬l.Tag q ∧ q ≠ 0 := by
  have hpos : 0 < tagSize := by decide
  refine ⟨h.arenas.not_tag_of_inside hp (by omega) (by omega), ?_⟩
  rintro rfl
  have : (0 : BitVec 64).toNat = 0 := rfl
  omega

section
variable {l' : Layout} {i : BitVec 32} (hq : ¬l.Tag q) (h : TagHeap t heads l lists) (hp : l.Tag p)
include hq

theorem split_index (hr : l.Tag r) :
    (Tags.link (Tags.cut t p q n) q (heads i.toNat) i r).index = (t r).index := by
  have hne : r ≠ q := fun heq => hq (heq ▸ hr)
  simp only [Tags.link, Tags.cut, if_neg hne]

/-- The other free pieces keep their size and their right neighbour. -/
theorem split_other (hidle : ¬(t p).Listed) (hr : l.Tag r) (hlisted : (t r).Listed) :
    (Tags.link (Tags.cut t p q n) q (heads i.toNat) i r).realSize = (t r).realSize ∧
      (Tags.link (Tags.cut t p q n) q (heads i.toNat) i r).splitRight = (t r).splitRight := by
  have hne : r ≠ q := fun heq => hq (heq ▸ hr)
  have hrp : r ≠ p := fun heq => hidle (heq ▸ hlisted)
  simp only [Tags.link, Tags.cut, if_neg hne, if_neg hrp, and_self]

include h

theorem split_lists (hqz : q ≠ 0) (hi : i.toNat < maxexp)
    (htag : ∀ r, l'.Tag r ↔ r = q ∨ l.Tag r) :
    FreeLists (Tags.link (Tags.cut t p q n) q (heads i.toNat) i) (Function.update heads i.toNat q)
      (Function.update lists i.toNat (q :: lists i.toNat)) l'.Tag := by
  have hlists : FreeLists (Tags.cut t p q n) heads lists l.Tag := by
    refine h.lists.congr (fun _ => .rfl) fun r hr => ?_
    have hne : r ≠ q := fun heq => hq (heq ▸ hr)
    simp only [Tags.cut, if_neg hne, and_self]
  have hfirst : q ≠ heads i.toNat := by
    intro heq
    rcases h.lists.head_tag hi with hz | hlisted
    · exact hqz (heq.trans hz)
    · exact hq (heq ▸ hlisted.1)
  refine hlists.insert hi hqz htag (fun hcon => absurd hcon hq)
    ⟨fun r hr => apply_ite _ .., fun r hr => rfl, fun r hr => ?_, rfl⟩
  rcases eq_or_ne r q with rfl | hrq
  · rw [if_pos rfl]
    simp only [Tags.link, Tags.cut, if_true, if_neg hfirst]
  · rw [if_neg hrq]
    rfl

include hp

/-- Neither piece has a free one to its right. -/
theorem split_coalesced (hidle : ¬(t p).Listed)
    (hright : (t p).splitRight = 0 ∨ ¬(t (t p).splitRight).Listed)
    (hr : r = q ∨ l.Tag r)
    (hlisted : (Tags.link (Tags.cut t p q n) q (heads i.toNat) i r).Listed) :
    (Tags.link (Tags.cut t p q n) q (heads i.toNat) i r).splitRight = 0 ∨
      ¬(Tags.link (Tags.cut t p q n) q (heads i.toNat) i
        (Tags.link (Tags.cut t p q n) q (heads i.toNat) i r).splitRight).Listed := by
  rcases hr with rfl | hr
  · have hsplit : (Tags.link (Tags.cut t p r n) r (heads i.toNat) i r).splitRight =
        (t p).splitRight := by
      simp only [Tags.link, Tags.cut, if_true]
    rw [hsplit]
    rcases h.arenas.splitRight_tag hp with hz | htag
    · exact .inl hz
    · rwa [BoundaryTag.Listed, split_index hq htag]
  · rw [BoundaryTag.Listed, split_index hq hr] at hlisted
    rw [(split_other hq hidle hr hlisted).2]
    rcases h.arenas.splitRight_tag hr with hz | htag
    · exact .inl hz
    · rw [BoundaryTag.Listed, split_index hq htag]
      exact h.coalesced r hr hlisted

end

/-- A piece that is in use is cut in two, of which the second is free. -/
theorem split (h : TagHeap t heads l lists) (hb : b ∈ l.held) (htags : l.tags b = u ++ p :: v)
    (hidle : ¬(t p).Listed) (hright : (t p).splitRight = 0 ∨ ¬(t (t p).splitRight).Listed)
    (hn : tagSize ≤ n.toNat) (hsize : n.toNat + tagSize ≤ (t p).realSize.toNat)
    (hstart : q.toNat = p.toNat + (t p).realSize.toNat - n.toNat) (hi : i = bucket (n - 48)) :
    TagHeap (Tags.link (Tags.cut t p q n) q (heads i.toNat) i) (Function.update heads i.toNat q)
      (l.setTags b (u ++ p :: q :: v)) (Function.update lists i.toNat (q :: lists i.toNat)) := by
  have hp : l.Tag p := ⟨b, hb, by simp [htags]⟩
  obtain ⟨hq, hqz⟩ := h.split_new hp hn hsize hstart
  have htag {r} : (l.setTags b (u ++ p :: q :: v)).Tag r ↔ r = q ∨ l.Tag r :=
    Layout.tag_cut hb htags
  refine ⟨?_, split_lists hq h hqz (hi ▸ bucket_lt _) fun r => htag, fun r hr hlisted => ?_,
    fun r hr hlisted => split_coalesced hq h hp hidle hright (htag.mp hr) hlisted⟩
  · refine h.arenas.cut hb htags hn hsize hstart ⟨?_, fun r hr => ?_, fun r hr => ?_,
      fun r hr => ?_, fun r hr => ?_⟩
    · simp only [Tags.link, Tags.cut, if_true, and_self]
    all_goals
      have hne : r ≠ q := fun heq => hq (heq ▸ hr)
      simp only [Tags.link, Tags.cut, if_neg hne]
  · rcases htag.mp hr with rfl | hr
    · simp only [Tags.link, Tags.cut, if_true, hi]
    · rw [BoundaryTag.Listed, split_index hq hr] at hlisted
      rw [split_index hq hr, (split_other hq hidle hr hlisted).1, h.classes r hr hlisted]

/-- Another range, in one piece that is in use. -/
theorem add (h : TagHeap t heads l lists) (hb : b.Usable)
    (hnew : ∀ c ∈ l.held, b.range.Disjoint c.range) (hpieces : Pieces t' b [b.start])
    (hidle : (t' b.start).index = -1 ∧ (t' b.start).next = 0 ∧ (t' b.start).prev = 0)
    (hkeep : ∀ r, l.Tag r → t' r = t r) : TagHeap t' heads (l.add b) lists := by
  have hbl : b ∉ l.held := fun hmem => hb.ok.ne (hnew b hmem) rfl
  have htag {r} : (l.add b).Tag r ↔ r = b.start ∨ l.Tag r := Layout.tag_add hbl
  have h' := h.congr hkeep
  have hidle' {r} (hr : (l.add b).Tag r) (hlisted : (t' r).Listed) : l.Tag r := by
    refine (htag.mp hr).resolve_left ?_
    rintro rfl
    rw [BoundaryTag.Listed, hidle.1] at hlisted
    exact absurd hlisted (by decide)
  refine ⟨h'.arenas.add hb hnew hpieces fun r hr => ⟨rfl, rfl, rfl, rfl⟩, ?_,
    fun r hr hlisted => h'.classes r (hidle' hr hlisted) hlisted,
    fun r hr hlisted => h'.coalesced r (hidle' hr hlisted) hlisted⟩
  exact h'.lists.extend (fun r => htag) hb.ok.start_ne (h.arenas.not_tag_new hb.ok hnew) hidle

/-- A range in one piece that is in use is given back. -/
theorem drop (h : TagHeap t heads l lists) (hb : b ∈ l.held) (htags : l.tags b = [p])
    (hidle : ¬(t p).Listed) : TagHeap t heads (l.drop b) lists := by
  have htag {r} : (l.drop b).Tag r ↔ l.Tag r ∧ r ≠ p := h.arenas.tag_drop hb htags
  refine ⟨h.arenas.drop, h.lists.shrink (fun r hr => (htag.mp hr).1) fun r hr hlisted => ?_,
    fun r hr => h.classes r (htag.mp hr).1, fun r hr => h.coalesced r (htag.mp hr).1⟩
  exact htag.mpr ⟨hr, fun heq => hidle (heq ▸ hlisted)⟩

end TagHeap

end Lethe
