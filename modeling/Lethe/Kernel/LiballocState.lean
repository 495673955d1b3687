import Lethe.Kernel.LiballocInv
import Lethe.Lib.Wp

/-!
# The state of the allocator between two calls

`LiballocInv` adds the counters of whole ranges to `TagHeap`. `Spares` says that a function leaves
the pieces in use alone, with their contents, and `PageSource.Lawful` is what the allocator relies
on.
-/

namespace Lethe

theorem BoundaryTag.not_listed {t : BoundaryTag} (h : t.index = -1) : ¬t.Listed := by
  rw [BoundaryTag.Listed, h]
  decide

/-- The piece at `p` is in use. -/
def InUse (t : Tags) (l : Layout) (p : BitVec 64) : Prop := l.Tag p ∧ ¬(t p).Listed

/-- The byte at `x` lies in the piece at `p`, behind the tag. -/
def InPiece (t : Tags) (p x : BitVec 64) : Prop :=
  p.toNat + tagSize ≤ x.toNat ∧ x.toNat < p.toNat + (t p).realSize.toNat

/-- The piece is a whole range. -/
def BoundaryTag.Whole (t : BoundaryTag) : Prop := t.splitLeft = 0 ∧ t.splitRight = 0

instance : DecidablePred BoundaryTag.Whole := fun _ => inferInstanceAs (Decidable (_ ∧ _))

/-- The number of whole ranges with a tag in `ts`. -/
def wholeCount (t : Tags) (ts : List (BitVec 64)) : Nat := ts.countP fun p => (t p).Whole

/-- The state between two calls. -/
structure LiballocInv {σ : Type} (s : Liballoc σ) (l : Layout) (lists : Nat → List (BitVec 64)) :
    Prop where
  heap : TagHeap s.tag s.freePages l lists
  complete : ∀ i < maxexp, s.completePages i = wholeCount s.tag (lists i)
  most : ∀ i < maxexp, s.completePages i ≤ maxComplete
  fresh : s.initialized = false → l.held = []

/-- The pieces in use other than `p` are those other than `p'` afterwards, with their contents. -/
structure Spares {σ : Type} (s s' : Liballoc σ) (l l' : Layout) (p p' : BitVec 64) : Prop where
  tag : ∀ r, r ≠ p → InUse s.tag l r → r ≠ p' ∧ InUse s'.tag l' r ∧
    (s'.tag r).realSize = (s.tag r).realSize ∧ (s'.tag r).size = (s.tag r).size
  back : ∀ r, r ≠ p' → InUse s'.tag l' r → r ≠ p ∧ InUse s.tag l r
  mem : ∀ r, r ≠ p → InUse s.tag l r → ∀ x, InPiece s.tag r x → s'.mem x = s.mem x

/-- What the allocator relies on: `liballoc_alloc` returns new pages, if there are any, and
`liballoc_free` takes back what it has handed out. `Owns` says which pages the caller holds; the
number of pages per call is at most `limit`, and `null` says that there may be none. -/
structure PageSource.Lawful {σ : Type} (src : PageSource σ) (Owns : σ → List Block → Prop)
    (Room : σ → Prop) (limit : Nat) (null : Prop) : Prop where
  limit_ge : 16 ≤ limit
  limit_lt : limit < 2 ^ 20
  alloc : ∀ {s held} {n : BitVec 32}, Owns s held → Room s → 16 ≤ n.toNat → n.toNat ≤ limit →
    Ends (fun _ => True) (fun r => (r.1 = 0 ∧ null ∧ Owns r.2 held) ∨
      (Block.Usable ⟨r.1, n.toNat⟩ ∧ (∀ b ∈ held, (Block.range ⟨r.1, n.toNat⟩).Disjoint b.range) ∧
        Owns r.2 (⟨r.1, n.toNat⟩ :: held))) (src.liballocAlloc n s)
  free : ∀ {s held b}, Owns s held → b ∈ held →
    Yields (Owns · (held.erase b)) (src.liballocFree b.start (BitVec.ofInt 32 b.pages) s)

variable {σ : Type} {s s' s₀ s₁ : Liballoc σ} {t t' : Tags} {heads : Nat → BitVec 64}
  {l l' l₁ : Layout} {lists lists' : Nat → List (BitVec 64)} {p p' q r x : BitVec 64}

namespace Spares

/-- The tags and their pieces are those of the memory. -/
theorem of_mem (h : Spares s₀ s₁ l l' p p') (hmem : s.mem = s₀.mem) (hmem' : s'.mem = s₁.mem) :
    Spares s s' l l' p p' := by
  have htag : s.tag = s₀.tag := by
    funext r
    rw [Liballoc.tag, hmem, Liballoc.tag]
  have htag' : s'.tag = s₁.tag := by
    funext r
    rw [Liballoc.tag, hmem', Liballoc.tag]
  refine ⟨fun r => ?_, fun r => ?_, fun r => ?_⟩
  · rw [htag, htag']
    exact h.tag r
  · rw [htag, htag']
    exact h.back r
  · rw [htag, hmem, hmem']
    exact h.mem r

theorem refl : Spares s s l l p p :=
  ⟨fun _ hr h => ⟨hr, h, rfl, rfl⟩, fun _ hr h => ⟨hr, h⟩, fun _ _ _ _ _ => rfl⟩

theorem trans (h : Spares s s₁ l l₁ p q) (h' : Spares s₁ s' l₁ l' q p') :
    Spares s s' l l' p p' where
  tag r hr hu := by
    obtain ⟨hrq, hu₁, hreal₁, hsize₁⟩ := h.tag r hr hu
    obtain ⟨hr', hu', hreal', hsize'⟩ := h'.tag r hrq hu₁
    exact ⟨hr', hu', hreal'.trans hreal₁, hsize'.trans hsize₁⟩
  back r hr hu := by
    obtain ⟨hrq, hu₁⟩ := h'.back r hr hu
    exact h.back r hrq hu₁
  mem r hr hu x hx := by
    obtain ⟨hrq, hu₁, hreal₁, -⟩ := h.tag r hr hu
    refine (h'.mem r hrq hu₁ x ?_).trans (h.mem r hr hu x hx)
    rwa [InPiece, hreal₁]

end Spares

/-- The bytes of a piece behind its tag are in no tag. -/
theorem Arenas.outside (h : Arenas t l) (hp : l.Tag p) (hx : InPiece t p x) : Outside l.Tag x := by
  intro r hr
  obtain ⟨hle, hlt⟩ := hx
  rcases eq_or_ne r p with rfl | hrp
  · exact .inr hle
  · have hroom := h.room hr
    rcases h.apart hr hp hrp with hle' | hle'
    · exact .inr (by omega)
    · exact .inl (by omega)

namespace Rewrites

/-- Writes to tags spare the pieces in use whose tags they leave alone. -/
theorem spares {S : BitVec 64 → Prop} (h : Rewrites s s' S t heads)
    (hS : ∀ r, r ≠ p → InUse s.tag l r → ∀ x, InPiece s.tag r x → Outside S x)
    (htag : ∀ r, r ≠ p → InUse s.tag l r → r ≠ p' ∧ S r ∧ l'.Tag r ∧
      (t r).index = (s.tag r).index ∧ (t r).realSize = (s.tag r).realSize ∧
      (t r).size = (s.tag r).size)
    (hback : ∀ r, r ≠ p' → l'.Tag r → ¬(t r).Listed → r ≠ p ∧ InUse s.tag l r)
    (hl : ∀ r, l'.Tag r → S r) : Spares s s' l l' p p' where
  tag r hr hu := by
    obtain ⟨hr', hSr, hl', hindex, hreal, hsize⟩ := htag r hr hu
    rw [InUse, h.tag r hSr, BoundaryTag.Listed, hindex]
    exact ⟨hr', ⟨hl', hu.2⟩, hreal, hsize⟩
  back r hr hu := by
    refine hback r hr hu.1 ?_
    rw [← h.tag r (hl r hu.1)]
    exact hu.2
  mem r hr hu x hx := h.mem x (hS r hr hu x hx)

/-- The same where the layout stays as it is. -/
theorem spares_self (h : Rewrites s s' l.Tag t heads) (harenas : Arenas s.tag l)
    (htag : ∀ r, r ≠ p → l.Tag r → (t r).index = (s.tag r).index ∧
      (t r).realSize = (s.tag r).realSize ∧ (t r).size = (s.tag r).size) :
    Spares s s' l l p p := by
  refine h.spares (fun r _ hu x hx => harenas.outside hu.1 hx)
    (fun r hr hu => ⟨hr, hu.1, hu.1, htag r hr hu.1⟩) (fun r hr hl hidle => ⟨hr, hl, ?_⟩)
    fun r hr => hr
  rwa [BoundaryTag.Listed, (htag r hr hl).1] at hidle

end Rewrites

namespace Liballoc

/-- `remove_tag` of a free tag. -/
theorem removeTag_spec (h : TagHeap s.tag s.freePages l lists) (hp : l.Tag p)
    (hlisted : (s.tag p).Listed) : ∃ s' heads, s.removeTag p = .ok s' ∧
      Rewrites s s' l.Tag (Tags.unlink s.tag p) heads ∧
      TagHeap s'.tag s'.freePages l
        (Function.update lists (s.tag p).index.toNat ((lists (s.tag p).index.toNat).erase p)) := by
  obtain ⟨hprev, hnext⟩ := h.lists.neighbours hp hlisted
  have htag {q} (hq : q ∈ lists (s.tag p).index.toNat) : l.Tag q :=
    (h.lists.listed_of_mem hlisted hq).1
  obtain ⟨s', hs', hr⟩ := removeTag_rewrites h.arenas.spaced hp hlisted (hprev.imp_right htag)
    (hnext.imp_right htag) (h.lists.ne_neighbours hp hlisted)
  refine ⟨s', _, hs', hr, ?_⟩
  rw [hr.freePages]
  exact (h.unlink hp hlisted).congr hr.tag

/-- `insert_tag` of a tag that is in no list, and has no free neighbours. -/
theorem insertTag_spec (h : TagHeap s.tag s.freePages l lists) (hp : InUse s.tag l p)
    (hleft : (s.tag p).splitLeft = 0 ∨ ¬(s.tag (s.tag p).splitLeft).Listed)
    (hright : (s.tag p).splitRight = 0 ∨ ¬(s.tag (s.tag p).splitRight).Listed)
    (hi : i = bucket ((s.tag p).realSize - 48)) : ∃ s', s.insertTag p i = .ok s' ∧
      Rewrites s s' l.Tag (Tags.link s.tag p (s.freePages i.toNat) i)
        (Function.update s.freePages i.toNat p) ∧
      TagHeap s'.tag s'.freePages l (Function.update lists i.toNat (p :: lists i.toNat)) := by
  have hlt : i.toNat < maxexp := hi ▸ bucket_lt _
  have hmax : maxexp = 32 := rfl
  have hfirst := h.lists.head_tag hlt
  have hne : p ≠ s.freePages i.toNat := by
    intro heq
    rw [← heq] at hfirst
    exact hfirst.elim (h.arenas.ne_zero hp.1) fun hlisted => hp.2 hlisted.2
  have hindex : (if i.toInt < 0 then bucket ((s.tag p).realSize - 48) else i) = i := by
    refine if_neg ?_
    rw [BitVec.toInt_eq_toNat_of_lt (by omega)]
    omega
  obtain ⟨s', hs', hr⟩ := insertTag_rewrites h.arenas.spaced hp.1 (h.idle hp.1 hp.2).2.1 hlt hindex
    (hfirst.imp_right And.left) hne
  refine ⟨s', hs', hr, ?_⟩
  rw [hr.freePages]
  exact (h.link hp.1 hp.2 hleft hright hi).congr hr.tag

end Liballoc

/-! ## Whole ranges -/

theorem wholeCount_congr {ts : List (BitVec 64)} (h : ∀ p ∈ ts, (t' p).Whole ↔ (t p).Whole) :
    wholeCount t' ts = wholeCount t ts :=
  List.countP_congr fun p hp => by simpa using h p hp

theorem wholeCount_cons {ts : List (BitVec 64)} :
    wholeCount t (p :: ts) = wholeCount t ts + if (t p).Whole then 1 else 0 := by
  simp [wholeCount, List.countP_cons]

theorem wholeCount_erase {ts : List (BitVec 64)} (hp : p ∈ ts) :
    wholeCount t (ts.erase p) + (if (t p).Whole then 1 else 0) = wholeCount t ts := by
  rw [← wholeCount_cons, wholeCount, wholeCount, (List.perm_cons_erase hp).countP_eq]

namespace LiballocInv

/-- What else changes when a free tag leaves its list. -/
theorem wholeCount_unlink (h : TagHeap t heads l lists) (hp : l.Tag p) (hlisted : (t p).Listed)
    (ht : ∀ r, l.Tag r → t' r = Tags.unlink t p r) (hj : j < maxexp) :
    wholeCount t' (Function.update lists (t p).index.toNat
        ((lists (t p).index.toNat).erase p) j) +
      (if j = (t p).index.toNat ∧ (t p).Whole then 1 else 0) = wholeCount t (lists j) := by
  have hwhole {r} (hr : r ∈ lists j) : (t' r).Whole ↔ (t r).Whole := by
    rw [ht r (h.lists.listed_of_mem hj hr).1]
    exact .rfl
  rcases eq_or_ne j (t p).index.toNat with rfl | hne
  · rw [Function.update_self, ← wholeCount_erase (h.lists.mem_of_listed hp hlisted),
      wholeCount_congr fun r hr => hwhole (List.mem_of_mem_erase hr)]
    simp
  · rw [Function.update_of_ne hne, if_neg fun hcon => hne hcon.1,
      wholeCount_congr fun r hr => hwhole hr, Nat.add_zero]

end LiballocInv

namespace Liballoc

/-- A free piece is taken from its list. -/
theorem takeFree_spec (h : LiballocInv s l lists) (hp : l.Tag p) (hlisted : (s.tag p).Listed) :
    ∃ s₁ s' lists', s.removeTag p = .ok s₁ ∧
      (if (s₁.tag p).Whole then s₁.addComplete (s.tag p).index (-1) else pure s₁) = .ok s' ∧
      LiballocInv s' l lists' ∧ InUse s'.tag l p ∧ Spares s s' l l p p ∧ s'.pages = s.pages ∧
      s'.tag p = Tags.unlink s.tag p p ∧ s'.initialized = s.initialized ∧
      ∀ r, l.Tag r → (s'.tag r).Listed → (s.tag r).Listed := by
  obtain ⟨s₁, heads, hs₁, hr, hheap⟩ := removeTag_spec h.heap hp hlisted
  have htag := hr.tag p hp
  have hidle : ¬(s₁.tag p).Listed := by
    rw [htag]
    exact BoundaryTag.not_listed (if_pos rfl)
  have hkeep {r} (hr' : l.Tag r) (hrl : (s₁.tag r).Listed) : (s.tag r).Listed := by
    have hrp : r ≠ p := fun heq => hidle (heq ▸ hrl)
    rw [hr.tag r hr', BoundaryTag.Listed] at hrl
    rwa [Tags.unlink, if_neg hrp] at hrl
  have hspares : Spares s s₁ l l p p := hr.spares_self h.heap.arenas fun r hrp _ =>
    ⟨if_neg hrp, rfl, rfl⟩
  have hcount {j} (hj : j < maxexp) := LiballocInv.wholeCount_unlink h.heap hp hlisted hr.tag hj
  obtain ⟨complete, hs', hcomplete⟩ : ∃ complete,
      (if (s₁.tag p).Whole then s₁.addComplete (s.tag p).index (-1) else pure s₁) =
        .ok { s₁ with completePages := complete } ∧
      ∀ j, complete j =
        s.completePages j - if j = (s.tag p).index.toNat ∧ (s.tag p).Whole then 1 else 0 := by
    have hwhole : (s₁.tag p).Whole ↔ (s.tag p).Whole := by
      rw [htag]
      exact .rfl
    rw [← hr.completePages]
    simp only [hwhole]
    by_cases hw : (s.tag p).Whole
    · refine ⟨_, (if_pos hw).trans (if_pos hlisted), fun j => ?_⟩
      rw [Function.update_apply]
      split
      · simp_all
        omega
      · simp_all
    · exact ⟨_, if_neg hw, fun j => by simp [hw]⟩
  refine ⟨s₁, _, _, hs₁, hs', ⟨hheap, fun j hj => ?_, fun j hj => ?_, fun hinit => ?_⟩, ⟨hp, hidle⟩,
    hspares.of_mem rfl rfl, hr.pages, htag, hr.initialized, fun r => hkeep⟩
  · have hold := h.complete j hj
    have hnew := hcount hj
    change complete j = _
    rw [hcomplete, hold, ← hnew]
    change _ = ((wholeCount s₁.tag _ : Nat) : Int)
    push_cast
    omega
  · have := h.most j hj
    change complete j ≤ _
    rw [hcomplete]
    split <;> omega
  · exact h.fresh (hr.initialized.symm.trans hinit)

end Liballoc

end Lethe
