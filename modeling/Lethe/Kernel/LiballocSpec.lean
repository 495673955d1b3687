import Lethe.Kernel.LiballocTags

/-!
# The operations of `memory/liballoc.c` on the tags

What each of the functions that work on tags does to the tags at the addresses in a set, as a
function on `Tags` (`Tags.unlink`, `Tags.link`, `Tags.melt`, `Tags.cut`). `Rewrites` relates this to
memory: a function writes nothing but tags, so that the bytes outside of them are kept.
-/

namespace Lethe

/-! ## Tags in memory -/

/-- The tags at the addresses in `S` lie within the address space and do not overlap. -/
structure Spaced (S : BitVec 64 → Prop) : Prop where
  inSpace : ∀ p, S p → InSpace p tagSize
  apart : ∀ p q, S p → S q → p ≠ q → Apart p tagSize q tagSize
  null : ¬S 0

/-- The byte at `x` is in none of the tags in `S`. -/
def Outside (S : BitVec 64 → Prop) (x : BitVec 64) : Prop :=
  ∀ p, S p → x.toNat < p.toNat ∨ p.toNat + tagSize ≤ x.toNat

theorem Spaced.insert {S : BitVec 64 → Prop} {q : BitVec 64} (h : Spaced S) (hq : q ≠ 0)
    (hin : InSpace q tagSize) (hapart : ∀ p, S p → Apart q tagSize p tagSize) :
    Spaced fun p => p = q ∨ S p where
  inSpace := by
    rintro p (rfl | hp)
    · exact hin
    · exact h.inSpace p hp
  apart := by
    rintro p r (rfl | hp) (rfl | hr) hne
    · exact absurd rfl hne
    · exact hapart r hr
    · exact (hapart p hp).symm
    · exact h.apart p r hp hr hne
  null := by
    rintro (h0 | h0)
    · exact hq h0.symm
    · exact h.null h0

theorem Arenas.spaced {t : Tags} {l : Layout} (h : Arenas t l) : Spaced l.Tag where
  inSpace p hp := by
    have := h.inSpace hp
    have := h.room hp
    unfold InSpace at *
    omega
  apart p q hp hq hne := by
    have := h.apart hp hq hne
    have := h.room hp
    have := h.room hq
    unfold Apart at *
    omega
  null h0 := h.ne_zero h0 rfl

/-- `s'` is `s` with the tags in `S` changed to those of `t` and the heads of the lists to
`heads`. -/
structure Rewrites {σ : Type} (s s' : Liballoc σ) (S : BitVec 64 → Prop) (t : Tags)
    (heads : Nat → BitVec 64) : Prop where
  tag : ∀ p, S p → s'.tag p = t p
  mem : ∀ x, Outside S x → s'.mem x = s.mem x
  freePages : s'.freePages = heads
  completePages : s'.completePages = s.completePages
  pages : s'.pages = s.pages
  initialized : s'.initialized = s.initialized

variable {σ : Type} {s s' s₁ : Liballoc σ} {S : BitVec 64 → Prop} {t t' : Tags}
  {heads heads' : Nat → BitVec 64} {p q : BitVec 64} {f : BoundaryTag → BoundaryTag}

namespace Rewrites

theorem refl : Rewrites s s S s.tag s.freePages := ⟨fun _ _ => rfl, fun _ _ => rfl, rfl, rfl, rfl, rfl⟩

theorem trans (h : Rewrites s s₁ S t heads) (h' : Rewrites s₁ s' S t' heads') :
    Rewrites s s' S t' heads' where
  tag := h'.tag
  mem x hx := (h'.mem x hx).trans (h.mem x hx)
  freePages := h'.freePages
  completePages := h'.completePages.trans h.completePages
  pages := h'.pages.trans h.pages
  initialized := h'.initialized.trans h.initialized

theorem congr (h : Rewrites s s' S t heads) (ht : ∀ p, S p → t' p = t p) :
    Rewrites s s' S t' heads :=
  { h with tag := fun p hp => (h.tag p hp).trans (ht p hp).symm }

/-- A further tag is changed. -/
theorem modifyTag (h : Rewrites s s' S t heads) (hS : Spaced S) (hp : S p) :
    Rewrites s (s'.modifyTag p f) S (Function.update t p (f (t p))) heads where
  tag r hr := by
    have hlen : (f (s'.tag p)).encode.length = tagSize := BoundaryTag.length_encode _
    have hin := hS.inSpace p hp
    rcases eq_or_ne r p with rfl | hne
    · rw [Function.update_self, ← h.tag r hr, Liballoc.tag, Liballoc.modifyTag, ← hlen,
        readBytes_writeBytes (hlen ▸ hin), BoundaryTag.decode_encode]
    · rw [Function.update_of_ne hne, ← h.tag r hr, Liballoc.tag, Liballoc.modifyTag,
        readBytes_writeBytes_of_apart (hS.inSpace r hr) (hlen ▸ hin)
          (hlen ▸ hS.apart r p hr hp hne)]
      rfl
  mem x hx := by
    have hlen : (f (s'.tag p)).encode.length = tagSize := BoundaryTag.length_encode _
    refine Eq.trans ?_ (h.mem x hx)
    exact writeBytes_of_outside (hlen ▸ hS.inSpace p hp) (hlen ▸ hx p hp)
  freePages := h.freePages
  completePages := h.completePages
  pages := h.pages
  initialized := h.initialized

/-- A further tag is changed, if it exists. -/
theorem modifyTag? (h : Rewrites s s' S t heads) (hS : Spaced S) (hp : p = 0 ∨ S p) :
    Rewrites s (if p ≠ 0 then s'.modifyTag p f else s') S (Function.update t p (f (t p)))
      heads := by
  by_cases hz : p = 0
  · rw [if_neg (not_not.mpr hz)]
    refine h.congr fun r hr => Function.update_of_ne ?_ ..
    rintro rfl
    exact hS.null (hz ▸ hr)
  · rw [if_pos hz]
    exact h.modifyTag hS (hp.resolve_left hz)

theorem setFreePages (h : Rewrites s s' S t heads) :
    Rewrites s { s' with freePages := heads' } S t heads' :=
  ⟨h.tag, h.mem, rfl, h.completePages, h.pages, h.initialized⟩

end Rewrites

/-! ## Changes of the tags -/

namespace Tags

/-- The tag `p` is taken out of its list. -/
def unlink (t : Tags) (p : BitVec 64) : Tags := fun r =>
  { t r with
    index := if r = p then -1 else (t r).index
    next := if r = p then 0 else if r = (t p).prev then (t p).next else (t r).next
    prev := if r = p then 0 else if r = (t p).next then (t p).prev else (t r).prev }

/-- The tag `p` is put in front of the list that starts with `first`. -/
def link (t : Tags) (p first : BitVec 64) (index : BitVec 32) : Tags := fun r =>
  { t r with
    index := if r = p then index else (t r).index
    next := if r = p then first else (t r).next
    prev := if r = first then p else (t r).prev }

/-- The tag `p` takes over the piece of `q`. -/
def melt (t : Tags) (p q : BitVec 64) : Tags := fun r =>
  { t r with
    realSize := if r = p then (t p).realSize + (t q).realSize else (t r).realSize
    splitRight := if r = p then (t q).splitRight else (t r).splitRight
    splitLeft := if r = (t q).splitRight then p else (t r).splitLeft }

/-- The tag `p` leaves the last `n` bytes of its piece to the new tag `q`. -/
def cut (t : Tags) (p q : BitVec 64) (n : BitVec 32) : Tags := fun r =>
  if r = q then
    { t q with
      magic := liballocMagic, realSize := n, next := 0, prev := 0
      splitLeft := p, splitRight := (t p).splitRight }
  else
    { t r with
      realSize := if r = p then (t p).realSize - n else (t r).realSize
      splitRight := if r = p then q else (t r).splitRight
      splitLeft := if r = (t p).splitRight then q else (t r).splitLeft }

theorem unlink_congr (hr : t' r = t r) (hp : t' p = t p) : unlink t' p r = unlink t p r := by
  rw [unlink, unlink, hr, hp]

end Tags

namespace Liballoc

@[simp] theorem freePages_modifyTag : (s.modifyTag p f).freePages = s.freePages := rfl

theorem freePage_eq (s : Liballoc σ) {i : BitVec 32} (hi : i.toNat < maxexp) :
    s.freePage i = .ok (s.freePages i.toNat) := if_pos hi

theorem setFreePage_eq (s : Liballoc σ) {i : BitVec 32} (hi : i.toNat < maxexp) (p : BitVec 64) :
    s.setFreePage i p = .ok { s with freePages := Function.update s.freePages i.toNat p } := if_pos hi

/-- The neighbours of a tag are linked to each other. -/
theorem unlinkTag_rewrites (h : Rewrites s s₁ S s.tag heads) (hS : Spaced S) (hp : S p)
    (hprev : (s.tag p).prev = 0 ∨ S (s.tag p).prev) (hnext : (s.tag p).next = 0 ∨ S (s.tag p).next)
    (hne : p ≠ (s.tag p).prev ∧ p ≠ (s.tag p).next) :
    Rewrites s (s₁.unlinkTag p) S (Tags.unlink s.tag p) heads := by
  have h₂ := h.modifyTag? (f := fun t => { t with next := (s.tag p).next }) hS hprev
  have htag := (h₂.tag p hp).trans (Function.update_of_ne hne.1 ..)
  have h₃ := h₂.modifyTag? (f := fun t => { t with prev := (s.tag p).prev }) hS hnext
  have h₄ := h₃.modifyTag (f := fun t => { t with next := 0, prev := 0, index := -1 }) hS hp
  simp only [unlinkTag, h.tag p hp, htag]
  refine h₄.congr fun r hr => ?_
  simp only [Tags.unlink, Function.update_apply]
  rcases eq_or_ne r p with rfl | hrp
  · simp [hne.1, hne.2]
  · simp only [if_neg hrp]
    split <;> split <;> simp_all

/-- `remove_tag` of a tag that is in a list. -/
theorem removeTag_rewrites (hS : Spaced S) (hp : S p) (hlisted : (s.tag p).Listed)
    (hprev : (s.tag p).prev = 0 ∨ S (s.tag p).prev) (hnext : (s.tag p).next = 0 ∨ S (s.tag p).next)
    (hne : p ≠ (s.tag p).prev ∧ p ≠ (s.tag p).next) : ∃ s', s.removeTag p = .ok s' ∧
      Rewrites s s' S (Tags.unlink s.tag p) fun i =>
        if i = (s.tag p).index.toNat ∧ s.freePages i = p then (s.tag p).next else s.freePages i := by
  simp only [removeTag, s.freePage_eq hlisted, bind, Except.bind]
  by_cases hfirst : s.freePages (s.tag p).index.toNat = p
  · rw [if_pos hfirst, s.setFreePage_eq hlisted]
    refine ⟨_, rfl, unlinkTag_rewrites ?_ hS hp hprev hnext hne⟩
    convert Rewrites.refl.setFreePages using 1
    funext i
    rcases eq_or_ne i (s.tag p).index.toNat with rfl | hi
    · rw [Function.update_self, if_pos ⟨rfl, hfirst⟩]
    · rw [Function.update_of_ne hi, if_neg fun h => hi h.1]
  · rw [if_neg hfirst]
    refine ⟨_, rfl, unlinkTag_rewrites ?_ hS hp hprev hnext hne⟩
    convert Rewrites.refl using 1
    funext i
    rw [if_neg]
    rintro ⟨rfl, h⟩
    exact hfirst h

/-- `insert_tag` of a tag that is in no list. -/
theorem insertTag_rewrites (hS : Spaced S) (hp : S p) (hnext : (s.tag p).next = 0)
    (hi : i.toNat < maxexp)
    (hindex : (if index.toInt < 0 then bucket ((s.tag p).realSize - 48) else index) = i)
    (hfirst : s.freePages i.toNat = 0 ∨ S (s.freePages i.toNat)) (hne : p ≠ s.freePages i.toNat) :
    ∃ s', s.insertTag p index = .ok s' ∧
      Rewrites s s' S (Tags.link s.tag p (s.freePages i.toNat) i)
        (Function.update s.freePages i.toNat p) := by
  have h₁ := Rewrites.refl.modifyTag (s := s) (f := fun t => { t with index := i }) hS hp
  simp only [insertTag, hindex, freePage_eq _ hi, freePages_modifyTag, bind, Except.bind]
  by_cases hz : s.freePages i.toNat = 0
  · refine ⟨_, ?_, h₁.setFreePages.congr fun r hr => ?_⟩
    · rw [if_neg (not_not.mpr hz)]
      exact setFreePage_eq _ hi p
    · have hr0 : r ≠ 0 := fun h0 => hS.null (h0 ▸ hr)
      simp only [Tags.link, Function.update_apply, hz]
      split
      · simp_all
      · simp_all
  · have h₂ := h₁.modifyTag (f := fun t => { t with prev := p }) hS (hfirst.resolve_left hz)
    have h₃ := h₂.modifyTag (f := fun t => { t with next := s.freePages i.toNat }) hS hp
    refine ⟨_, ?_, h₃.setFreePages.congr fun r hr => ?_⟩
    · rw [if_pos hz]
      exact setFreePage_eq _ hi p
    · simp only [Tags.link, Function.update_apply]
      rcases eq_or_ne r p with rfl | hrp
      · simp [hne]
      · simp only [if_neg hrp]
        split <;> simp_all

/-- `melt_left`. -/
theorem meltLeft_rewrites (hS : Spaced S) (hp : S (s.tag q).splitLeft) (hq : S q)
    (hright : (s.tag q).splitRight = 0 ∨ S (s.tag q).splitRight)
    (hne : q ≠ (s.tag q).splitLeft) : (s.meltLeft q).1 = (s.tag q).splitLeft ∧
      Rewrites s (s.meltLeft q).2 S (Tags.melt s.tag (s.tag q).splitLeft q) s.freePages := by
  have h₁ := Rewrites.refl.modifyTag (s := s) (f := fun t =>
    { t with realSize := t.realSize + (s.tag q).realSize, splitRight := (s.tag q).splitRight })
    hS hp
  have htag := (h₁.tag q hq).trans (Function.update_of_ne hne ..)
  have h₂ := h₁.modifyTag? (f := fun t => { t with splitLeft := (s.tag q).splitLeft }) hS hright
  refine ⟨rfl, ?_⟩
  simp only [meltLeft, htag]
  refine h₂.congr fun r hr => ?_
  simp only [Tags.melt, Function.update_apply]
  split <;> split <;> simp_all

/-- `absorb_right`. -/
theorem absorbRight_rewrites (hS : Spaced S) (hp : S p) (hq : S q)
    (hright : (s.tag p).splitRight = q) (hremove : s.removeTag q = .ok s₁)
    (h : Rewrites s s₁ S t heads)
    (hnext : (t q).splitRight = 0 ∨ S (t q).splitRight) (hne : p ≠ q ∧ q ≠ (t q).splitRight) :
    ∃ s', s.absorbRight p = .ok s' ∧ Rewrites s s' S (Tags.melt t p q) heads := by
  have hp₁ := h.tag p hp
  have h₁ := h.modifyTag (f := fun r =>
    { r with realSize := r.realSize + (t q).realSize, splitRight := (t q).splitRight }) hS hp
  have htag := (h₁.tag q hq).trans (Function.update_of_ne hne.1.symm ..)
  have h₂ := h₁.modifyTag? (f := fun r => { r with splitLeft := p }) hS hnext
  simp only [absorbRight, hright, hremove, bind, Except.bind, h.tag q hq, htag]
  refine ⟨_, rfl, h₂.congr fun r hr => ?_⟩
  simp only [Tags.melt, Function.update_apply]
  split <;> split <;> simp_all

/-- `split_tag` without the call of `insert_tag`. -/
theorem cutTag_rewrites (hS : Spaced S) (hp : S p) (hq : S q)
    (hstart : p + 48 + (s.tag p).size.setWidth 64 = q)
    (hright : (s.tag p).splitRight = 0 ∨ S (s.tag p).splitRight)
    (hne : p ≠ q ∧ p ≠ (s.tag p).splitRight ∧ q ≠ (s.tag p).splitRight) :
    (s.cutTag p).1 = q ∧ Rewrites s (s.cutTag p).2 S
      (Tags.cut s.tag p q ((s.tag p).realSize - 48 - (s.tag p).size)) s.freePages := by
  have h₁ := Rewrites.refl.modifyTag (s := s) (f := fun t =>
    { t with
      magic := liballocMagic, realSize := (s.tag p).realSize - 48 - (s.tag p).size
      next := 0, prev := 0, splitLeft := p, splitRight := (s.tag p).splitRight }) hS hq
  have h₂ := h₁.modifyTag? (f := fun t => { t with splitLeft := q }) hS hright
  have h₃ := h₂.modifyTag (f := fun t =>
    { t with
      splitRight := q
      realSize := t.realSize - ((s.tag p).realSize - 48 - (s.tag p).size) }) hS hp
  simp only [cutTag, hstart, true_and]
  refine h₃.congr fun r hr => ?_
  simp only [Tags.cut, Function.update_apply]
  rcases eq_or_ne r q with rfl | hrq
  · simp [hne.1.symm, hne.2.2]
  · rcases eq_or_ne r p with rfl | hrp
    · simp [hne.1, hne.2.1]
    · simp only [if_neg hrq, if_neg hrp]
      split <;> simp_all

end Liballoc

end Lethe
