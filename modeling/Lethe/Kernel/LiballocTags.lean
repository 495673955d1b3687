import Lethe.Kernel.HeapPartition
import Lethe.Kernel.Liballoc
import Lethe.Lib.Consecutive
import Lethe.Lib.Linked

/-!
# The tags of `memory/liballoc.c`

What the tags in memory stand for. `Arenas` says that the pieces of each range of pages fill it and
are linked in order, `FreeLists` that the lists of free tags hold exactly the tags with their index,
each once. Both are about the tags as a function of their addresses, so that what the code does to
them is a change of that function: two neighbours become one piece (`Arenas.merge`), a piece is cut
in two (`Arenas.cut`), a tag leaves a list (`FreeLists.remove`) or enters one
(`FreeLists.insert`).
-/

namespace Lethe

/-- The tags at their addresses. -/
abbrev Tags := BitVec 64 → BoundaryTag

/-- The ranges of pages that the allocator holds, and the tags in each from left to right. -/
structure Layout where
  held : List Block
  tags : Block → List (BitVec 64)

namespace Layout

/-- `p` is the address of a tag. -/
def Tag (l : Layout) (p : BitVec 64) : Prop := ∃ b ∈ l.held, p ∈ l.tags b

/-- Other tags in a range. -/
def setTags (l : Layout) (b : Block) (ts : List (BitVec 64)) : Layout :=
  { l with tags := Function.update l.tags b ts }

/-- Another range, with one tag at its start. -/
def add (l : Layout) (b : Block) : Layout :=
  { held := b :: l.held, tags := Function.update l.tags b [b.start] }

/-- A range is given back. -/
def drop (l : Layout) (b : Block) : Layout := { l with held := l.held.erase b }

variable {l : Layout} {b c : Block} {ts : List (BitVec 64)} {p : BitVec 64}

@[simp] theorem tags_add_self : (l.add b).tags b = [b.start] := Function.update_self ..

theorem tags_add_of_ne (h : c ≠ b) : (l.add b).tags c = l.tags c := Function.update_of_ne h ..

@[simp] theorem tags_setTags_self : (l.setTags b ts).tags b = ts := Function.update_self ..

theorem tags_setTags_of_ne (h : c ≠ b) : (l.setTags b ts).tags c = l.tags c :=
  Function.update_of_ne h ..

theorem tag_setTags (hb : b ∈ l.held) :
    (l.setTags b ts).Tag p ↔ p ∈ ts ∨ ∃ c ∈ l.held, c ≠ b ∧ p ∈ l.tags c := by
  constructor
  · rintro ⟨c, hc, hp⟩
    by_cases hcb : c = b
    · subst hcb
      rw [tags_setTags_self] at hp
      exact .inl hp
    · rw [tags_setTags_of_ne hcb] at hp
      exact .inr ⟨c, hc, hcb, hp⟩
  · rintro (hp | ⟨c, hc, hcb, hp⟩)
    · exact ⟨b, hb, by rwa [tags_setTags_self]⟩
    · exact ⟨c, hc, by rwa [tags_setTags_of_ne hcb]⟩

end Layout

/-- The address behind a range of pages. -/
def Block.limit (b : Block) : Nat := b.start.toNat + 4096 * b.pages.toNat

/-- A range that the allocator can use: its bytes can be counted in a tag, and it does not reach to
the end of the address space. -/
structure Block.Usable (b : Block) : Prop where
  ok : b.Ok
  pages_ge : 16 ≤ b.pages
  pages_lt : b.pages < 2 ^ 20
  limit_lt : b.limit < 2 ^ 64

/-- The tag is in a list of free tags. -/
def BoundaryTag.Listed (t : BoundaryTag) : Prop := t.index.toNat < maxexp

instance : DecidablePred BoundaryTag.Listed := fun _ => inferInstanceAs (Decidable (_ < _))

/-- The pieces of a range, at the addresses `ts`. -/
structure Pieces (t : Tags) (b : Block) (ts : List (BitVec 64)) : Prop where
  fills : Fills BitVec.toNat (fun p => (t p).realSize.toNat) b.start.toNat ts b.limit
  room : ∀ p ∈ ts, tagSize ≤ (t p).realSize.toNat
  magic : ∀ p ∈ ts, (t p).magic = liballocMagic
  split : Linked (fun p => (t p).splitRight) (fun p => (t p).splitLeft) 0 ts 0
  null : 0 ∉ ts

/-- The ranges that are held, and their pieces. -/
structure Arenas (t : Tags) (l : Layout) : Prop where
  ok : ∀ b ∈ l.held, b.Usable
  disjoint : l.held.Pairwise fun b c => b.range.Disjoint c.range
  pieces : ∀ b ∈ l.held, Pieces t b (l.tags b)

/-- The lists of free tags among the tags in `S`. -/
structure FreeLists (t : Tags) (heads : Nat → BitVec 64) (lists : Nat → List (BitVec 64))
    (S : BitVec 64 → Prop) : Prop where
  head : ∀ i < maxexp, heads i = (lists i).headD 0
  linked : ∀ i < maxexp, Linked (fun p => (t p).next) (fun p => (t p).prev) 0 (lists i) 0
  nodup : ∀ i < maxexp, (lists i).Nodup
  mem_iff : ∀ i < maxexp, ∀ p, p ∈ lists i ↔ S p ∧ (t p).index.toNat = i
  idle : ∀ p, S p → ¬(t p).Listed → (t p).index = -1 ∧ (t p).next = 0 ∧ (t p).prev = 0
  null : ¬S 0

/-! ## Disjoint ranges of pages -/

theorem Block.Ok.apart {b c : Block} (hb : b.Ok) (hc : c.Ok) (h : b.range.Disjoint c.range) :
    b.limit ≤ c.start.toNat ∨ c.limit ≤ b.start.toNat := by
  obtain ⟨-, hbal, hbpos, -, -⟩ := hb
  obtain ⟨-, hcal, hcpos, -, -⟩ := hc
  have hbc := h (b.start.toNat / 4096)
  have hcb := h (c.start.toNat / 4096)
  simp only [Range.Covers, Block.range] at hbc hcb
  simp only [Block.limit]
  omega

theorem Block.Ok.ne {b c : Block} (hb : b.Ok) (h : b.range.Disjoint c.range) : b ≠ c := by
  rintro rfl
  exact h _ hb.covers_start hb.covers_start

/-! ## Pieces -/

/-- The tag `p` takes over the piece of its right neighbour `q`. Among the other tags, which are
those in `S`, only the one behind `q` changes its link. -/
structure Merges (t t' : Tags) (p q : BitVec 64) (S : BitVec 64 → Prop) : Prop where
  realSize : ∀ r, S r →
    (t' r).realSize = if r = p then (t p).realSize + (t q).realSize else (t r).realSize
  splitRight : ∀ r, S r →
    (t' r).splitRight = if r = p then (t q).splitRight else (t r).splitRight
  splitLeft : ∀ r, S r →
    (t' r).splitLeft = if r = (t q).splitRight then p else (t r).splitLeft
  magic : ∀ r, S r → (t' r).magic = (t r).magic

/-- The tag `p` leaves the last `n` bytes of its piece to the new tag `q`. -/
structure Cuts (t t' : Tags) (p q : BitVec 64) (n : BitVec 32) (S : BitVec 64 → Prop) : Prop where
  new : (t' q).magic = liballocMagic ∧ (t' q).realSize = n ∧ (t' q).splitLeft = p ∧
    (t' q).splitRight = (t p).splitRight
  realSize : ∀ r, S r → (t' r).realSize = if r = p then (t p).realSize - n else (t r).realSize
  splitRight : ∀ r, S r → (t' r).splitRight = if r = p then q else (t r).splitRight
  splitLeft : ∀ r, S r → (t' r).splitLeft = if r = (t p).splitRight then q else (t r).splitLeft
  magic : ∀ r, S r → (t' r).magic = (t r).magic

namespace Pieces

variable {t t' : Tags} {b : Block} {p q r : BitVec 64} {ts u v : List (BitVec 64)}

theorem congr (h : Pieces t b ts) (hkeep : ∀ p ∈ ts, (t' p).realSize = (t p).realSize ∧
    (t' p).magic = (t p).magic ∧ (t' p).splitLeft = (t p).splitLeft ∧
    (t' p).splitRight = (t p).splitRight) : Pieces t' b ts where
  fills := h.fills.congr fun p hp => congrArg BitVec.toNat (hkeep p hp).1
  room p hp := (hkeep p hp).1 ▸ h.room p hp
  magic p hp := (hkeep p hp).2.1.trans (h.magic p hp)
  split := h.split.congr (fun p hp => (hkeep p hp).2.2.2) fun p hp => (hkeep p hp).2.2.1
  null := h.null

/-- The neighbours of a piece. -/
theorem neighbours (h : Pieces t b (u ++ p :: v)) :
    (t p).splitLeft = u.getLastD 0 ∧ (t p).splitRight = v.headD 0 := h.split.neighbours

/-- The neighbours of a piece that is not the first one. -/
theorem neighbours_cons (h : Pieces t b (u ++ p :: q :: v)) :
    (t q).splitLeft = p ∧ (t q).splitRight = v.headD 0 := by
  have hsplit := h.split
  rw [show u ++ p :: q :: v = (u ++ [p]) ++ q :: v by simp] at hsplit
  simpa using hsplit.neighbours

/-- Two neighbours become one piece. -/
theorem merge (h : Pieces t b (u ++ p :: q :: v)) (hb : b.pages < 2 ^ 20)
    (hm : Merges t t' p q (· ∈ u ++ p :: v)) : Pieces t' b (u ++ p :: v) := by
  have hnodup := h.fills.nodup
  have hp : p ∈ u ++ p :: q :: v := by simp
  have hq : q ∈ u ++ p :: q :: v := by simp
  have hsub : ∀ r ∈ u ++ p :: v, r ∈ u ++ p :: q :: v := by simp; tauto
  have hpuv : p ∉ u ++ v := by
    have := (List.nodup_middle.mp hnodup)
    simp at this ⊢
    tauto
  have hsum : ((t p).realSize + (t q).realSize).toNat =
      (t p).realSize.toNat + (t q).realSize.toNat := by
    have hpb := (h.fills.bounds hp).1
    have hqb := (h.fills.bounds hq).2.2
    have hnext := h.fills.start_next
    have hlimit : b.limit = b.start.toNat + 4096 * b.pages.toNat := rfl
    rw [BitVec.toNat_add, Nat.mod_eq_of_lt]
    omega
  have hreal : ∀ r ∈ u ++ v, (t' r).realSize.toNat = (t r).realSize.toNat := by
    intro r hr
    rw [hm.realSize r (by simp at hr ⊢; tauto), if_neg]
    rintro rfl
    exact hpuv hr
  refine ⟨h.fills.merge ?_ hreal, fun r hr => ?_, fun r hr => ?_, ?_, ?_⟩
  · simp only [hm.realSize p (by simp), if_true, hsum]
  · rw [hm.realSize r hr]
    split
    · have := h.room p hp
      omega
    · exact h.room r (hsub r hr)
  · exact (hm.magic r hr).trans (h.magic r (hsub r hr))
  · have hql := h.neighbours_cons.1
    have hsplit := h.split
    rw [show u ++ p :: q :: v = (u ++ [p]) ++ q :: v by simp] at hsplit
    rw [show u ++ p :: v = (u ++ [p]) ++ v by simp] at hm ⊢
    refine hsplit.remove ?_ ?_ ?_ (fun r hr => ?_) fun r hr => ?_
    · exact hnodup.sublist (by simp)
    · exact fun h0 => h.null (by simp at h0 ⊢; tauto)
    · exact fun h0 => h.null (by simp at h0 ⊢; tauto)
    · rw [hql]
      exact hm.splitRight r hr
    · rw [hql]
      exact hm.splitLeft r hr
  · exact fun h0 => h.null (hsub 0 h0)

/-- A piece is cut in two. -/
theorem cut (h : Pieces t b (u ++ p :: v)) (hn : tagSize ≤ n.toNat)
    (hsize : n.toNat + tagSize ≤ (t p).realSize.toNat) (hq : q ∉ u ++ p :: v)
    (hstart : q.toNat = p.toNat + (t p).realSize.toNat - n.toNat)
    (hc : Cuts t t' p q n (· ∈ u ++ p :: v)) : Pieces t' b (u ++ p :: q :: v) := by
  have hnodup := h.fills.nodup
  have hpuv : p ∉ u ++ v := (List.nodup_cons.mp (List.nodup_middle.mp hnodup)).1
  have hrp : ∀ r ∈ u ++ v, r ∈ u ++ p :: v := by simp; tauto
  have hcases : ∀ r ∈ u ++ p :: q :: v, r = q ∨ r ∈ u ++ p :: v := by simp; tauto
  have hpos : 0 < tagSize := by decide
  have hdiff : ((t p).realSize - n).toNat = (t p).realSize.toNat - n.toNat := by
    rw [BitVec.toNat_sub_of_le]
    rw [BitVec.le_def]
    omega
  have hreal : ∀ r ∈ u ++ v, (t' r).realSize.toNat = (t r).realSize.toNat := by
    intro r hr
    rw [hc.realSize r (hrp r hr), if_neg]
    rintro rfl
    exact hpuv hr
  have hp' : (t' p).realSize.toNat = (t p).realSize.toNat - n.toNat := by
    rw [hc.realSize p (by simp), if_pos rfl, hdiff]
  have hq' : (t' q).realSize.toNat = n.toNat := by rw [hc.new.2.1]
  have hpq : (0 : BitVec 64) ≠ q := by
    rintro rfl
    simp at hstart
    omega
  refine ⟨h.fills.split ?_ ?_ ?_ hreal, fun r hr => ?_, fun r hr => ?_, ?_, ?_⟩
  · rw [hp', hq']
    omega
  · rw [hp']
    omega
  · rw [hp', hq']
    omega
  · rcases hcases r hr with rfl | hr
    · rwa [hq']
    · rw [hc.realSize r hr]
      split
      · rw [hdiff]
        omega
      · exact h.room r hr
  · rcases hcases r hr with rfl | hr
    · exact hc.new.1
    · exact (hc.magic r hr).trans (h.magic r hr)
  · have hsplit := h.split
    have hright := h.neighbours.2
    have hlast : (u ++ [p]).getLastD 0 = p := by simp
    rw [show u ++ p :: v = (u ++ [p]) ++ v by simp] at hsplit hc hnodup
    rw [show u ++ p :: q :: v = (u ++ [p]) ++ q :: v by simp]
    refine hsplit.insert hnodup ?_ ?_ ?_ (fun r hr => ?_) fun r hr => ?_
    · exact fun h0 => h.null (by simp at h0 ⊢; tauto)
    · exact fun h0 => h.null (by simp at h0 ⊢; tauto)
    · rw [hlast, ← hright]
      exact ⟨hc.new.2.2.1, hc.new.2.2.2⟩
    · rw [hlast]
      exact hc.splitRight r hr
    · rw [← hright]
      exact hc.splitLeft r hr
  · intro h0
    rcases hcases 0 h0 with h0 | h0
    · exact hpq h0
    · exact h.null h0

/-- A range in one piece. -/
theorem whole (hb : b.Ok) (hpages : b.pages < 2 ^ 20) (hmagic : (t b.start).magic = liballocMagic)
    (hreal : (t b.start).realSize.toNat = 4096 * b.pages.toNat)
    (hsplit : (t b.start).splitLeft = 0 ∧ (t b.start).splitRight = 0) : Pieces t b [b.start] := by
  have hpos := hb.pages_pos
  have hsize : tagSize ≤ 4096 := by decide
  refine ⟨⟨rfl, ?_, ?_⟩, ?_, ?_, ⟨hsplit.1, hsplit.2, trivial⟩, ?_⟩
  · simp only [hreal]
    omega
  · simp only [Fills, hreal, Block.limit]
  · rw [List.forall_mem_singleton, hreal]
    omega
  · rwa [List.forall_mem_singleton]
  · rw [List.mem_singleton]
    exact hb.start_ne.symm

end Pieces

namespace Arenas

variable {t t' : Tags} {l : Layout} {b c : Block} {p q r : BitVec 64} {ts u v : List (BitVec 64)}
  {n : BitVec 32}

theorem congr (h : Arenas t l) (hkeep : ∀ p, l.Tag p → (t' p).realSize = (t p).realSize ∧
    (t' p).magic = (t p).magic ∧ (t' p).splitLeft = (t p).splitLeft ∧
    (t' p).splitRight = (t p).splitRight) : Arenas t' l where
  ok := h.ok
  disjoint := h.disjoint
  pieces b hb := (h.pieces b hb).congr fun p hp => hkeep p ⟨b, hb, hp⟩

/-- A piece lies within its range, and the range within the address space. -/
theorem bounds (h : Arenas t l) (hb : b ∈ l.held) (hp : p ∈ l.tags b) :
    b.start.toNat ≤ p.toNat ∧ p.toNat + (t p).realSize.toNat ≤ b.limit ∧ b.limit ≤ 2 ^ 64 := by
  obtain ⟨hle, -, hend⟩ := (h.pieces b hb).fills.bounds hp
  exact ⟨hle, hend, (h.ok b hb).ok.end_le⟩

theorem ne_zero (h : Arenas t l) (hp : l.Tag p) : p ≠ 0 := by
  obtain ⟨b, hb, hp⟩ := hp
  rintro rfl
  exact (h.pieces b hb).null hp

theorem room (h : Arenas t l) (hp : l.Tag p) : tagSize ≤ (t p).realSize.toNat :=
  let ⟨b, hb, hp⟩ := hp
  (h.pieces b hb).room p hp

theorem inSpace (h : Arenas t l) (hp : l.Tag p) : InSpace p (t p).realSize.toNat := by
  obtain ⟨b, hb, hp⟩ := hp
  have := h.bounds hb hp
  unfold InSpace
  omega

theorem nodup (h : Arenas t l) : l.held.Nodup :=
  h.disjoint.imp_of_mem fun hb _ hdis => (h.ok _ hb).ok.ne hdis

theorem apart_blocks (h : Arenas t l) (hb : b ∈ l.held) (hc : c ∈ l.held) (hne : b ≠ c) :
    b.limit ≤ c.start.toNat ∨ c.limit ≤ b.start.toNat := by
  have : Std.Symm fun b c : Block => b.range.Disjoint c.range := ⟨fun _ _ h => h.symm⟩
  exact (h.ok b hb).ok.apart (h.ok c hc).ok (h.disjoint.forall hb hc hne)

/-- The range of a tag is known from the tag. -/
theorem block_eq (h : Arenas t l) (hb : b ∈ l.held) (hc : c ∈ l.held) (hpb : p ∈ l.tags b)
    (hpc : p ∈ l.tags c) : b = c := by
  by_contra hne
  have hpos : 0 < tagSize := by decide
  have hroom := h.room ⟨b, hb, hpb⟩
  obtain ⟨hle, hend, -⟩ := h.bounds hb hpb
  obtain ⟨hle', hend', -⟩ := h.bounds hc hpc
  have := h.apart_blocks hb hc hne
  omega

/-- Different pieces do not overlap. -/
theorem apart (h : Arenas t l) (hp : l.Tag p) (hq : l.Tag q) (hne : p ≠ q) :
    Apart p (t p).realSize.toNat q (t q).realSize.toNat := by
  obtain ⟨b, hb, hpb⟩ := hp
  obtain ⟨c, hc, hqc⟩ := hq
  by_cases hbc : b = c
  · subst hbc
    exact (h.pieces b hb).fills.apart hpb hqc hne
  · have := h.apart_blocks hb hc hbc
    have := h.bounds hb hpb
    have := h.bounds hc hqc
    unfold Apart
    omega

/-- Other tags in one of the ranges, where those of the others are left alone. -/
theorem setTags (h : Arenas t l) (hpieces : Pieces t' b ts)
    (hkeep : ∀ c ∈ l.held, c ≠ b → ∀ p ∈ l.tags c, (t' p).realSize = (t p).realSize ∧
      (t' p).magic = (t p).magic ∧ (t' p).splitLeft = (t p).splitLeft ∧
      (t' p).splitRight = (t p).splitRight) : Arenas t' (l.setTags b ts) := by
  refine ⟨h.ok, h.disjoint, fun c hc => ?_⟩
  by_cases hcb : c = b
  · subst hcb
    rwa [Layout.tags_setTags_self]
  · rw [Layout.tags_setTags_of_ne hcb]
    exact (h.pieces c hc).congr (hkeep c hc hcb)

/-- The tags of another range, where `p` and those linked to it are in this one. -/
theorem ne_of_other (h : Arenas t l) (hb : b ∈ l.held) (hc : c ∈ l.held) (hcb : c ≠ b)
    (hr : r ∈ l.tags c) (hp : p ∈ l.tags b ∨ p = 0) : r ≠ p := by
  rintro rfl
  rcases hp with hp | rfl
  · exact hcb (h.block_eq hc hb hr hp)
  · exact h.ne_zero ⟨c, hc, hr⟩ rfl

/-- Two neighbours become one piece. -/
theorem merge (h : Arenas t l) (hb : b ∈ l.held) (htags : l.tags b = u ++ p :: q :: v)
    (hm : Merges t t' p q fun r => l.Tag r ∧ r ≠ q) : Arenas t' (l.setTags b (u ++ p :: v)) := by
  have hpieces := h.pieces b hb
  rw [htags] at hpieces
  have hq : q ∉ u ++ p :: v := by
    have := hpieces.fills.nodup
    rw [show u ++ p :: q :: v = (u ++ [p]) ++ q :: v by simp, List.nodup_middle] at this
    simpa using (List.nodup_cons.mp this).1
  have hin : ∀ r ∈ u ++ p :: v, l.Tag r ∧ r ≠ q := by
    refine fun r hr => ⟨⟨b, hb, ?_⟩, fun heq => hq (heq ▸ hr)⟩
    rw [htags]
    simp at hr ⊢
    tauto
  refine h.setTags (hpieces.merge (h.ok b hb).pages_lt ⟨fun r hr => hm.realSize r (hin r hr),
    fun r hr => hm.splitRight r (hin r hr), fun r hr => hm.splitLeft r (hin r hr),
    fun r hr => hm.magic r (hin r hr)⟩) fun c hc hcb r hr => ?_
  have hrp : r ≠ p := h.ne_of_other hb hc hcb hr (.inl (by simp [htags]))
  have hrq : r ≠ q := h.ne_of_other hb hc hcb hr (.inl (by simp [htags]))
  have hnext : r ≠ (t q).splitRight := by
    refine h.ne_of_other hb hc hcb hr ?_
    rw [(hpieces.neighbours_cons).2, htags]
    cases v <;> simp
  have hS := And.intro (show l.Tag r from ⟨c, hc, hr⟩) hrq
  exact ⟨(hm.realSize r hS).trans (if_neg hrp), hm.magic r hS, (hm.splitLeft r hS).trans (if_neg hnext),
    (hm.splitRight r hS).trans (if_neg hrp)⟩

/-- A new tag in the piece of `p` is none of the old ones. -/
theorem not_tag_of_inside (h : Arenas t l) (hp : l.Tag p) (hlt : p.toNat < q.toNat)
    (hend : q.toNat < p.toNat + (t p).realSize.toNat) : ¬l.Tag q := by
  intro hq
  have hne : p ≠ q := by
    rintro rfl
    omega
  have := h.room hq
  have hpos : 0 < tagSize := by decide
  have := h.apart hp hq hne
  unfold Apart at this
  omega

section
variable (h : Arenas t l) (hb : b.Ok) (hnew : ∀ c ∈ l.held, b.range.Disjoint c.range)
include h hb hnew

/-- The pieces do not overlap with new pages. -/
theorem apart_new (hr : l.Tag r) :
    b.limit ≤ r.toNat ∨ r.toNat + (t r).realSize.toNat ≤ b.start.toNat := by
  obtain ⟨c, hc, hmem⟩ := hr
  have hbounds := h.bounds hc hmem
  have := hb.apart (h.ok c hc).ok (hnew c hc)
  omega

/-- There is no tag yet at the start of new pages. -/
theorem not_tag_new : ¬l.Tag b.start := by
  intro hr
  have hpos : 0 < tagSize := by decide
  have hlimit : b.limit = b.start.toNat + 4096 * b.pages.toNat := rfl
  have := h.apart_new hb hnew hr
  have := h.room hr
  have := hb.pages_pos
  omega

end

/-- A piece is cut in two. -/
theorem cut (h : Arenas t l) (hb : b ∈ l.held) (htags : l.tags b = u ++ p :: v)
    (hn : tagSize ≤ n.toNat) (hsize : n.toNat + tagSize ≤ (t p).realSize.toNat)
    (hstart : q.toNat = p.toNat + (t p).realSize.toNat - n.toNat) (hc : Cuts t t' p q n l.Tag) :
    Arenas t' (l.setTags b (u ++ p :: q :: v)) := by
  have hp : l.Tag p := ⟨b, hb, by simp [htags]⟩
  have hpos : 0 < tagSize := by decide
  have hq : ¬l.Tag q := h.not_tag_of_inside hp (by omega) (by omega)
  have hpieces := h.pieces b hb
  have hin : ∀ r ∈ u ++ p :: v, l.Tag r := fun r hr => ⟨b, hb, by rwa [htags]⟩
  rw [htags] at hpieces
  refine h.setTags (hpieces.cut hn hsize (fun hmem => hq (hin q hmem)) hstart ⟨hc.new,
    fun r hr => hc.realSize r (hin r hr), fun r hr => hc.splitRight r (hin r hr),
    fun r hr => hc.splitLeft r (hin r hr), fun r hr => hc.magic r (hin r hr)⟩)
    fun c hc' hcb r hr => ?_
  have hrp : r ≠ p := h.ne_of_other hb hc' hcb hr (.inl (by simp [htags]))
  have hnext : r ≠ (t p).splitRight := by
    refine h.ne_of_other hb hc' hcb hr ?_
    rw [hpieces.neighbours.2, htags]
    cases v <;> simp
  have hS : l.Tag r := ⟨c, hc', hr⟩
  exact ⟨(hc.realSize r hS).trans (if_neg hrp), hc.magic r hS,
    (hc.splitLeft r hS).trans (if_neg hnext), (hc.splitRight r hS).trans (if_neg hrp)⟩

/-- Another range, in one piece. -/
theorem add (h : Arenas t l) (hb : b.Usable)
    (hnew : ∀ c ∈ l.held, b.range.Disjoint c.range) (hpieces : Pieces t' b [b.start])
    (hkeep : ∀ p, l.Tag p → (t' p).realSize = (t p).realSize ∧ (t' p).magic = (t p).magic ∧
      (t' p).splitLeft = (t p).splitLeft ∧ (t' p).splitRight = (t p).splitRight) :
    Arenas t' (l.add b) where
  ok := List.forall_mem_cons.mpr ⟨hb, h.ok⟩
  disjoint := List.pairwise_cons.mpr ⟨hnew, h.disjoint⟩
  pieces := by
    refine List.forall_mem_cons.mpr ⟨by rwa [Layout.tags_add_self], fun c hc => ?_⟩
    rw [Layout.tags_add_of_ne (hb.ok.ne (hnew c hc)).symm]
    exact (h.pieces c hc).congr fun p hp => hkeep p ⟨c, hc, hp⟩

/-- A range is given back. -/
theorem drop (h : Arenas t l) : Arenas t (l.drop b) where
  ok c hc := h.ok c (List.mem_of_mem_erase hc)
  disjoint := h.disjoint.sublist List.erase_sublist
  pieces c hc := h.pieces c (List.mem_of_mem_erase hc)

end Arenas

/-! ## Lists of free tags -/

/-- The tag `p` is taken out of the list that it is in. -/
structure Unlinks (t t' : Tags) (heads heads' : Nat → BitVec 64) (p : BitVec 64)
    (S : BitVec 64 → Prop) : Prop where
  index : ∀ r, S r → (t' r).index = if r = p then -1 else (t r).index
  next : ∀ r, S r → (t' r).next =
    if r = p then 0 else if r = (t p).prev then (t p).next else (t r).next
  prev : ∀ r, S r → (t' r).prev =
    if r = p then 0 else if r = (t p).next then (t p).prev else (t r).prev
  head : heads' = fun i => if i = (t p).index.toNat ∧ heads i = p then (t p).next else heads i

/-- The tag `p` is put in front of list `i`. -/
structure Links (t t' : Tags) (heads heads' : Nat → BitVec 64) (p : BitVec 64) (i : Nat)
    (S : BitVec 64 → Prop) : Prop where
  index : ∀ r, S r → (t' r).index.toNat = if r = p then i else (t r).index.toNat
  next : ∀ r, S r → (t' r).next = if r = p then heads i else (t r).next
  prev : ∀ r, S r → (t' r).prev = if r = p then 0 else if r = heads i then p else (t r).prev
  head : heads' = Function.update heads i p

namespace FreeLists

variable {t t' : Tags} {heads heads' : Nat → BitVec 64} {lists : Nat → List (BitVec 64)}
  {S S' : BitVec 64 → Prop} {p q : BitVec 64} {i j : Nat}

theorem congr (h : FreeLists t heads lists S) (hS : ∀ p, S' p ↔ S p)
    (hkeep : ∀ p, S p → (t' p).index = (t p).index ∧ (t' p).next = (t p).next ∧
      (t' p).prev = (t p).prev) : FreeLists t' heads lists S' where
  head := h.head
  linked i hi := (h.linked i hi).congr
    (fun p hp => (hkeep p ((h.mem_iff i hi p).mp hp).1).2.1)
    fun p hp => (hkeep p ((h.mem_iff i hi p).mp hp).1).2.2
  nodup := h.nodup
  mem_iff i hi p := by
    rw [h.mem_iff i hi p, hS p]
    exact and_congr_right fun hp => by rw [(hkeep p hp).1]
  idle p hp hidle := by
    rw [hS p] at hp
    obtain ⟨hindex, hnext, hprev⟩ := hkeep p hp
    rw [hindex, hnext, hprev]
    refine h.idle p hp ?_
    rwa [BoundaryTag.Listed, hindex] at hidle
  null := mt (hS 0).mp h.null

/-- A tag without links is left out of `S`. -/
theorem shrink (h : FreeLists t heads lists S) (hS : ∀ p, S' p → S p)
    (hlisted : ∀ p, S p → (t p).Listed → S' p) : FreeLists t heads lists S' where
  head := h.head
  linked := h.linked
  nodup := h.nodup
  mem_iff i hi p := by
    rw [h.mem_iff i hi p]
    constructor
    · rintro ⟨hp, rfl⟩
      exact ⟨hlisted p hp hi, rfl⟩
    · rintro ⟨hp, rfl⟩
      exact ⟨hS p hp, rfl⟩
  idle p hp := h.idle p (hS p hp)
  null := mt (hS 0) h.null

theorem mem_of_listed (h : FreeLists t heads lists S) (hp : S p) (hlisted : (t p).Listed) :
    p ∈ lists (t p).index.toNat := (h.mem_iff _ hlisted p).mpr ⟨hp, rfl⟩

theorem listed_of_mem (h : FreeLists t heads lists S) (hi : i < maxexp) (hp : p ∈ lists i) :
    S p ∧ (t p).Listed ∧ (t p).index.toNat = i := by
  obtain ⟨hS, hindex⟩ := (h.mem_iff i hi p).mp hp
  exact ⟨hS, by rwa [BoundaryTag.Listed, hindex], hindex⟩

theorem zero_notMem (h : FreeLists t heads lists S) (hi : i < maxexp) : 0 ∉ lists i :=
  fun h0 => h.null ((h.mem_iff i hi 0).mp h0).1

/-- The neighbours of a free tag are in the same list. -/
theorem neighbours (h : FreeLists t heads lists S) (hp : S p) (hlisted : (t p).Listed) :
    ((t p).prev = 0 ∨ (t p).prev ∈ lists (t p).index.toNat) ∧
      ((t p).next = 0 ∨ (t p).next ∈ lists (t p).index.toNat) := by
  obtain ⟨u, v, huv⟩ := List.append_of_mem (h.mem_of_listed hp hlisted)
  obtain ⟨hprev, hnext⟩ := Linked.neighbours (huv ▸ h.linked _ hlisted)
  rw [hprev, hnext, huv]
  constructor
  · rcases List.mem_cons.mp (List.getLastD_mem_cons (l := u) (a := 0)) with hz | hmem
    · exact .inl hz
    · exact .inr (List.mem_append_left _ hmem)
  · cases v with
    | nil => exact .inl rfl
    | cons a v => exact .inr (by simp)

/-- Only the neighbours of a free tag are linked to it. -/
theorem ne_of_index (h : FreeLists t heads lists S) (hi : i < maxexp) (hq : S q)
    (hqi : (t q).index.toNat ≠ i) (hp : p = 0 ∨ p ∈ lists i) : q ≠ p := by
  rintro rfl
  rcases hp with rfl | hp
  · exact h.null hq
  · exact hqi (h.listed_of_mem hi hp).2.2

section
variable (h : FreeLists t heads lists S) (hp : S p) (hlisted : (t p).Listed)
include h hp hlisted

/-- The list of a free tag, with the tag and without it. -/
theorem split_list : ∃ u v, lists (t p).index.toNat = u ++ p :: v ∧
    (lists (t p).index.toNat).erase p = u ++ v := by
  obtain ⟨u, v, huv⟩ := List.append_of_mem (h.mem_of_listed hp hlisted)
  have hnodup := h.nodup _ hlisted
  rw [huv] at hnodup
  have hpuv := (List.nodup_cons.mp (List.nodup_middle.mp hnodup)).1
  refine ⟨u, v, huv, ?_⟩
  rw [huv, List.erase_append_right _ fun hmem => hpuv (List.mem_append_left _ hmem),
    List.erase_cons_head]

variable (hu : Unlinks t t' heads heads' p S)
include hu

/-- A tag that is in no list, or in another one, keeps its links. -/
theorem unlink_other (hq : S q) (hqi : (t q).index.toNat ≠ (t p).index.toNat) :
    (t' q).index = (t q).index ∧ (t' q).next = (t q).next ∧ (t' q).prev = (t q).prev := by
  obtain ⟨hprev, hnext⟩ := h.neighbours hp hlisted
  have hqp : q ≠ p := fun heq => hqi (heq ▸ rfl)
  rw [hu.index q hq, hu.next q hq, hu.prev q hq, if_neg hqp, if_neg hqp, if_neg hqp,
    if_neg (h.ne_of_index hlisted hq hqi hprev), if_neg (h.ne_of_index hlisted hq hqi hnext)]
  exact ⟨rfl, rfl, rfl⟩

theorem unlink_idle (hq : S q) (hidle : ¬(t' q).Listed) :
    (t' q).index = -1 ∧ (t' q).next = 0 ∧ (t' q).prev = 0 := by
  rcases eq_or_ne q p with rfl | hqp
  · exact ⟨(hu.index q hq).trans (if_pos rfl), (hu.next q hq).trans (if_pos rfl),
      (hu.prev q hq).trans (if_pos rfl)⟩
  · rw [BoundaryTag.Listed, hu.index q hq, if_neg hqp] at hidle
    have hqi : (t q).index.toNat ≠ (t p).index.toNat := fun heq => hidle (heq ▸ hlisted)
    obtain ⟨hindex, hnext, hprev⟩ := h.unlink_other hp hlisted hu hq hqi
    rw [hindex, hnext, hprev]
    exact h.idle q hq hidle

theorem unlink_head :
    heads' (t p).index.toNat = ((lists (t p).index.toNat).erase p).headD 0 := by
  obtain ⟨u, v, huv, herase⟩ := h.split_list hp hlisted
  have hhead := h.head _ hlisted
  have hlist := h.linked _ hlisted
  have hnodup := h.nodup _ hlisted
  rw [huv] at hhead hlist hnodup
  rw [herase, hu.head]
  cases u with
  | nil => exact (if_pos ⟨rfl, hhead⟩).trans hlist.neighbours.2
  | cons a u =>
    have ha : heads (t p).index.toNat = a := hhead
    refine (if_neg ?_).trans ha
    rintro ⟨-, heq⟩
    exact (List.nodup_cons.mp hnodup).1 (by simp [← ha, heq])

/-- The list that the tag was in. -/
theorem unlink_linked : Linked (fun q => (t' q).next) (fun q => (t' q).prev) 0
    ((lists (t p).index.toNat).erase p) 0 := by
  obtain ⟨u, v, huv, herase⟩ := h.split_list hp hlisted
  have hrest {r} (hr : r ∈ u ++ v) : S r ∧ r ≠ p := by
    rw [← herase, (h.nodup _ hlisted).mem_erase_iff] at hr
    exact ⟨(h.listed_of_mem hlisted hr.2).1, hr.1⟩
  have hnodup := (h.nodup _ hlisted).erase p
  have hzero := h.zero_notMem hlisted
  have hlist := h.linked _ hlisted
  rw [huv] at hzero hlist
  rw [herase] at hnodup ⊢
  refine hlist.remove hnodup (fun h0 => hzero ?_) (fun h0 => hzero ?_) (fun r hr => ?_)
    fun r hr => ?_
  · exact List.mem_append_right _ (List.mem_cons_of_mem _ h0)
  · exact List.mem_append_left _ h0
  · exact (hu.next r (hrest hr).1).trans (if_neg (hrest hr).2)
  · exact (hu.prev r (hrest hr).1).trans (if_neg (hrest hr).2)

theorem unlink_mem_iff (hj : j < maxexp) (q : BitVec 64) :
    q ∈ Function.update lists (t p).index.toNat ((lists (t p).index.toNat).erase p) j ↔
      S q ∧ (t' q).index.toNat = j := by
  rcases eq_or_ne q p with rfl | hqp
  · refine iff_of_false (fun hmem => ?_) fun hcon => ?_
    · rcases eq_or_ne j (t q).index.toNat with rfl | hji
      · rw [Function.update_self] at hmem
        exact (h.nodup _ hlisted).not_mem_erase hmem
      · rw [Function.update_of_ne hji] at hmem
        exact hji (h.listed_of_mem hj hmem).2.2.symm
    · have hgone : (t' q).index = -1 := (hu.index q hp).trans (if_pos rfl)
      rw [hgone] at hcon
      exact absurd (hcon.2 ▸ hj) (by decide)
  · have hback : q ∈ lists j ↔ S q ∧ (t' q).index.toNat = j := by
      rw [h.mem_iff j hj q]
      exact and_congr_right fun hq => by rw [hu.index q hq, if_neg hqp]
    rcases eq_or_ne j (t p).index.toNat with rfl | hji
    · rw [Function.update_self, (h.nodup _ hlisted).mem_erase_iff, and_iff_right hqp, hback]
    · rw [Function.update_of_ne hji, hback]

/-- A tag leaves its list. -/
theorem remove : FreeLists t' heads'
    (Function.update lists (t p).index.toNat ((lists (t p).index.toNat).erase p)) S := by
  refine ⟨fun j hj => ?_, fun j hj => ?_, fun j hj => ?_,
    fun j hj => h.unlink_mem_iff hp hlisted hu hj, fun q => h.unlink_idle hp hlisted hu, h.null⟩ <;>
    rcases eq_or_ne j (t p).index.toNat with rfl | hji
  · rw [Function.update_self]
    exact h.unlink_head hp hlisted hu
  · rw [Function.update_of_ne hji, hu.head]
    exact (if_neg fun hcon => hji hcon.1).trans (h.head j hj)
  · rw [Function.update_self]
    exact h.unlink_linked hp hlisted hu
  · rw [Function.update_of_ne hji]
    refine (h.linked j hj).congr (fun r hr => ?_) fun r hr => ?_ <;>
      obtain ⟨hS, -, hrj⟩ := h.listed_of_mem hj hr
    · exact (h.unlink_other hp hlisted hu hS (hrj.trans_ne hji)).2.1
    · exact (h.unlink_other hp hlisted hu hS (hrj.trans_ne hji)).2.2
  · rw [Function.update_self]
    exact (h.nodup _ hlisted).erase p
  · rw [Function.update_of_ne hji]
    exact h.nodup j hj

end

/-- A tag that is in no list. -/
theorem notMem_of_idle (h : FreeLists t heads lists S) (hidle : S p → ¬(t p).Listed)
    (hj : j < maxexp) : p ∉ lists j := by
  intro hmem
  obtain ⟨hp, hlisted, -⟩ := h.listed_of_mem hj hmem
  exact hidle hp hlisted

/-- The tags of the other lists, and those that are in none, are not in front of a list. -/
theorem ne_head (h : FreeLists t heads lists S) (hi : i < maxexp) (hq : S q)
    (hqi : (t q).index.toNat ≠ i) : q ≠ heads i := by
  rw [h.head i hi]
  refine h.ne_of_index hi hq hqi ?_
  cases lists i with
  | nil => exact .inl rfl
  | cons a l => exact .inr List.mem_cons_self

section
variable (h : FreeLists t heads lists S) (hi : i < maxexp) (hS : ∀ q, S' q ↔ q = p ∨ S q)
  (hidle : S p → ¬(t p).Listed) (hl : Links t t' heads heads' p i S')
include h hi hS hidle hl

omit h hi hidle in
/-- The other tags keep their links, but for the one that was in front of the list. -/
theorem link_other (hq : S q) (hqp : q ≠ p) : (t' q).index.toNat = (t q).index.toNat ∧
    (t' q).next = (t q).next ∧ (t' q).prev = if q = heads i then p else (t q).prev :=
  have hq' := (hS q).mpr (.inr hq)
  ⟨(hl.index q hq').trans (if_neg hqp), (hl.next q hq').trans (if_neg hqp),
    (hl.prev q hq').trans (if_neg hqp)⟩

/-- The list with the tag in front. -/
theorem link_linked : Linked (fun q => (t' q).next) (fun q => (t' q).prev) 0 (p :: lists i) 0 := by
  have hSp : S' p := (hS p).mpr (.inl rfl)
  have hnew := h.notMem_of_idle hidle hi
  have hold {q} (hq : q ∈ lists i) :=
    link_other hS hl (h.listed_of_mem hi hq).1 fun heq => hnew (heq ▸ hq)
  refine ⟨(hl.prev p hSp).trans (if_pos rfl), ?_, ?_⟩
  · exact ((hl.next p hSp).trans (if_pos rfl)).trans (h.head i hi)
  · refine (h.linked i hi).relink_first (h.nodup i hi) (fun q hq => (hold hq).2.1) fun q hq => ?_
    rw [← h.head i hi]
    exact (hold hq).2.2

/-- The other lists. -/
theorem link_linked_other (hj : j < maxexp) (hji : j ≠ i) :
    Linked (fun q => (t' q).next) (fun q => (t' q).prev) 0 (lists j) 0 := by
  have hnew := h.notMem_of_idle hidle hj
  refine (h.linked j hj).congr (fun q hq => ?_) fun q hq => ?_ <;>
    obtain ⟨hSq, -, hqj⟩ := h.listed_of_mem hj hq <;>
    obtain ⟨-, hnext, hprev⟩ := link_other hS hl hSq fun heq => hnew (heq ▸ hq)
  · exact hnext
  · exact hprev.trans (if_neg (h.ne_head hi hSq (hqj.trans_ne hji)))

theorem link_mem_iff (hj : j < maxexp) (q : BitVec 64) :
    q ∈ Function.update lists i (p :: lists i) j ↔ S' q ∧ (t' q).index.toNat = j := by
  have hSp : S' p := (hS p).mpr (.inl rfl)
  have hindex : (t' p).index.toNat = i := (hl.index p hSp).trans (if_pos rfl)
  rcases eq_or_ne q p with rfl | hqp
  · rcases eq_or_ne j i with rfl | hji
    · rw [Function.update_self]
      simp [hSp, hindex]
    · rw [Function.update_of_ne hji]
      simp [h.notMem_of_idle hidle hj, hindex, hji.symm]
  · have hback : q ∈ lists j ↔ S' q ∧ (t' q).index.toNat = j := by
      rw [h.mem_iff j hj q, hS q, or_iff_right hqp]
      exact and_congr_right fun hq => by rw [(link_other hS hl hq hqp).1]
    rcases eq_or_ne j i with rfl | hji
    · rw [Function.update_self, List.mem_cons, or_iff_right hqp, hback]
    · rw [Function.update_of_ne hji, hback]

omit hidle in
theorem link_idle (hq : S' q) (hnone : ¬(t' q).Listed) :
    (t' q).index = -1 ∧ (t' q).next = 0 ∧ (t' q).prev = 0 := by
  have hqp : q ≠ p := by
    rintro rfl
    rw [BoundaryTag.Listed, hl.index q hq, if_pos rfl] at hnone
    exact hnone hi
  have hSq : S q := ((hS q).mp hq).resolve_left hqp
  obtain ⟨hindex, hnext, hprev⟩ := link_other hS hl hSq hqp
  rw [BoundaryTag.Listed, hindex] at hnone
  rw [BitVec.eq_of_toNat_eq hindex, hnext, hprev,
    if_neg (h.ne_head hi hSq fun heq => hnone (heq ▸ hi))]
  exact h.idle q hSq hnone

end

/-- A tag is put in front of a list. -/
theorem insert (h : FreeLists t heads lists S) (hi : i < maxexp) (hp : p ≠ 0)
    (hS : ∀ q, S' q ↔ q = p ∨ S q) (hidle : S p → ¬(t p).Listed)
    (hl : Links t t' heads heads' p i S') :
    FreeLists t' heads' (Function.update lists i (p :: lists i)) S' := by
  refine ⟨fun j hj => ?_, fun j hj => ?_, fun j hj => ?_,
    fun j hj => h.link_mem_iff hi hS hidle hl hj, fun q => h.link_idle hi hS hl, fun h0 => ?_⟩
  · rw [hl.head]
    rcases eq_or_ne j i with rfl | hji
    · rw [Function.update_self, Function.update_self, List.headD_cons]
    · rw [Function.update_of_ne hji, Function.update_of_ne hji, h.head j hj]
  · rcases eq_or_ne j i with rfl | hji
    · rw [Function.update_self]
      exact h.link_linked hj hS hidle hl
    · rw [Function.update_of_ne hji]
      exact h.link_linked_other hi hS hidle hl hj hji
  · rcases eq_or_ne j i with rfl | hji
    · rw [Function.update_self]
      exact List.nodup_cons.mpr ⟨h.notMem_of_idle hidle hj, h.nodup j hj⟩
    · rw [Function.update_of_ne hji]
      exact h.nodup j hj
  · exact ((hS 0).mp h0).elim (fun heq => hp heq.symm) h.null

end FreeLists

end Lethe
