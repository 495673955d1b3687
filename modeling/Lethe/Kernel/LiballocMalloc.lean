import Lethe.Kernel.LiballocState

/-!
# `malloc`

`malloc` takes the first piece that is large enough from the list of the class of the request, or
new pages, and leaves the rest of the piece in the list of its own class if it is large enough to be
of use. It stops only where the page source does.
-/

namespace Lethe

variable {σ : Type} {s s' s₁ : Liballoc σ} {t : Tags} {l l' : Layout}
  {lists : Nat → List (BitVec 64)} {p q : BitVec 64}

namespace Liballoc

/-! ## A free piece -/

/-- A piece that `malloc` may use. -/
def Fits (t : Tags) (size p : BitVec 64) : Prop := (t p).realSize.setWidth 64 - 48 ≥ size + 48

instance (t : Tags) (size : BitVec 64) : DecidablePred (Fits t size) :=
  fun _ => inferInstanceAs (Decidable (_ ≥ _))

/-- The search finds the first piece that is large enough. -/
theorem findTag_eq {ts : List (BitVec 64)} (hnull : 0 ∉ ts)
    (hlinked : Linked (fun p => (s.tag p).next) (fun p => (s.tag p).prev) a ts 0)
    (hfuel : ts.length < fuel) :
    s.findTag size fuel (ts.headD 0) = .ok ((ts.find? (Fits s.tag size ·)).getD 0) := by
  induction ts generalizing a fuel with
  | nil =>
    obtain ⟨fuel, rfl⟩ := Nat.exists_eq_add_of_lt hfuel
    rfl
  | cons p ts ih =>
    obtain ⟨fuel, rfl⟩ := Nat.exists_eq_add_of_lt hfuel
    obtain ⟨-, hnext, hrest⟩ := hlinked
    rw [List.mem_cons, not_or] at hnull
    have hp : p ≠ 0 := fun heq => hnull.1 heq.symm
    rw [List.headD_cons, findTag, if_neg hp, List.find?_cons]
    change (if Fits s.tag size p then _ else _) = _
    by_cases hfits : Fits s.tag size p
    · rw [if_pos hfits]
      simp [hfits]
    · rw [List.length_cons] at hfuel
      have hnext' : (s.tag p).next = ts.headD 0 := hnext
      rw [if_neg hfits, hnext', ih hnull.2 hrest (by rw [List.length_cons]; omega)]
      simp only [hfits, decide_false]

/-- The list of a class is shorter than the bound of the loops. -/
theorem length_lt_of_nodup {ts : List (BitVec 64)} (hnodup : ts.Nodup) (hnull : 0 ∉ ts) :
    ts.length < loopLimit := by
  have hlt : (ts.map fun p => (⟨p, 0⟩ : Block)).length < loopLimit :=
    length_lt_loopLimit (by simpa [Function.comp_def] using hnodup) (by
      simp only [List.mem_map, forall_exists_index, and_imp]
      rintro b p hp rfl rfl
      exact hnull hp)
  simpa using hlt

/-! ## New pages -/

/-- The number of pages for `usage` bytes. -/
theorem toNat_pageCount (usage : BitVec 32) :
    (pageCount usage).toNat = max 16 ((usage.toNat + 4095) / 4096) := by
  have hsize : lPageSize.toNat = 4096 := rfl
  have hcount : lPageCount.toNat = 16 := rfl
  have hmod : usage % lPageSize ≠ 0 ↔ usage.toNat % 4096 ≠ 0 := by
    rw [← BitVec.toNat_inj.ne, BitVec.toNat_umod, hsize]
    rfl
  have hpages : (if usage % lPageSize ≠ 0 then usage / lPageSize + 1 else usage / lPageSize).toNat =
      (usage.toNat + 4095) / 4096 := by
    simp only [hmod]
    split
    · rw [BitVec.toNat_add, BitVec.toNat_udiv, hsize, show (1 : BitVec 32).toNat = 1 from rfl]
      omega
    · rw [BitVec.toNat_udiv, hsize]
      omega
  simp only [pageCount, BitVec.lt_def, hpages, hcount]
  split
  · omega
  · rw [hpages]
    omega

variable {src : PageSource σ} {Owns : σ → List Block → Prop} {Room : σ → Prop} {limit : Nat}
  {null : Prop} {size : BitVec 32}

/-- What `malloc` has in hand: the piece `p`, which is now in use and has no free piece on its
right. -/
structure Taken (Owns : σ → List Block → Prop) (s s' : Liballoc σ) (l l' : Layout)
    (p : BitVec 64) (size : Nat) : Prop where
  inv : ∃ lists, LiballocInv s' l' lists
  used : InUse s'.tag l' p
  new : ¬InUse s.tag l p
  large : size + tagSize ≤ (s'.tag p).realSize.toNat
  right : (s'.tag p).splitRight = 0 ∨ ¬(s'.tag (s'.tag p).splitRight).Listed
  spares : Spares s s' l l' p p
  owns : Owns s'.pages l'.held
  initialized : s'.initialized = true

/-- The tag of new pages. -/
def newTag (size realSize : BitVec 32) : BoundaryTag where
  magic := liballocMagic
  size := size
  realSize := realSize
  index := -1
  next := 0
  prev := 0
  splitLeft := 0
  splitRight := 0

section
variable {b : Block} (h : LiballocInv s l lists) (husable : b.Usable)
  (hnew : ∀ c ∈ l.held, b.range.Disjoint c.range)
include h husable hnew

theorem newRange_spaced : Spaced fun r => r = b.start ∨ l.Tag r := by
  have hok := husable.ok
  have htagSize : tagSize = 48 := rfl
  have hlimit : b.limit = b.start.toNat + 4096 * b.pages.toNat := rfl
  have hend := hok.end_le
  have hpos := hok.pages_pos
  refine h.heap.arenas.spaced.insert hok.start_ne ?_ fun r hr => ?_
  · unfold InSpace
    omega
  · have := h.heap.arenas.apart_new hok hnew hr
    have := h.heap.arenas.room hr
    unfold Apart
    omega

variable (hr : Rewrites s s' (fun r => r = b.start ∨ l.Tag r)
  (Function.update s.tag b.start (newTag size realSize)) s.freePages)
include hr

/-- The tag at the start of the pages, and the other ones. -/
theorem newRange_tags :
    s'.tag b.start = newTag size realSize ∧ ∀ r, l.Tag r → s'.tag r = s.tag r := by
  refine ⟨(hr.tag _ (.inl rfl)).trans (Function.update_self ..), fun r hr' => ?_⟩
  refine (hr.tag r (.inr hr')).trans (Function.update_of_ne ?_ ..)
  rintro rfl
  exact h.heap.arenas.not_tag_new husable.ok hnew hr'

theorem newRange_inv (hinit : s.initialized = true)
    (hreal : realSize.toNat = 4096 * b.pages.toNat) : LiballocInv s' (l.add b) lists := by
  obtain ⟨hself, hother⟩ := newRange_tags h husable hnew hr
  refine ⟨?_, fun j hj => ?_, fun j hj => ?_, fun hfalse => ?_⟩
  · rw [hr.freePages]
    refine h.heap.add husable hnew ?_ ?_ hother
    · refine Pieces.whole husable.ok husable.pages_lt ?_ ?_ ?_ <;> rw [hself]
      · rfl
      · exact hreal
      · exact ⟨rfl, rfl⟩
    · rw [hself]
      exact ⟨rfl, rfl, rfl⟩
  · rw [hr.completePages, h.complete j hj]
    refine congrArg _ (wholeCount_congr fun r hmem => ?_).symm
    rw [hother r (h.heap.lists.listed_of_mem hj hmem).1]
  · rw [hr.completePages]
    exact h.most j hj
  · rw [hr.initialized, hinit] at hfalse
    cases hfalse

theorem newRange_spares : Spares s s' l (l.add b) b.start b.start := by
  have hbl : b ∉ l.held := fun hmem => husable.ok.ne (hnew b hmem) rfl
  have htag {r} : (l.add b).Tag r ↔ r = b.start ∨ l.Tag r := Layout.tag_add hbl
  refine hr.spares (fun r hne hu x hx => ?_) (fun r hne hu => ?_) (fun r hne hr' hidle' => ?_)
    fun r => htag.mp
  · rintro q (rfl | hq)
    · have := h.heap.arenas.apart_new husable.ok hnew hu.1
      have hlimit : b.limit = b.start.toNat + 4096 * b.pages.toNat := rfl
      have htagSize : tagSize = 48 := rfl
      have := husable.ok.pages_pos
      unfold InPiece at hx
      omega
    · exact h.heap.arenas.outside hu.1 hx q hq
  · rw [Function.update_of_ne hne]
    exact ⟨hne, .inr hu.1, htag.mpr (.inr hu.1), rfl, rfl, rfl⟩
  · rw [Function.update_of_ne hne] at hidle'
    exact ⟨hne, (htag.mp hr').resolve_left hne, hidle'⟩

omit hr in
/-- A tag is put at the start of new pages. -/
theorem newRange_spec (hinit : s.initialized = true) (howns : Owns s.pages (l.add b).held)
    (hreal : realSize.toNat = 4096 * b.pages.toNat)
    (hsize : size.toNat + tagSize ≤ realSize.toNat) :
    Taken Owns s (s.modifyTag b.start fun _ => newTag size realSize) l (l.add b) b.start
      size.toNat := by
  have hbl : b ∉ l.held := fun hmem => husable.ok.ne (hnew b hmem) rfl
  have hr := Rewrites.refl.modifyTag (s := s) (f := fun _ => newTag size realSize)
    (newRange_spaced h husable hnew) (.inl rfl)
  generalize (s.modifyTag b.start fun _ => newTag size realSize) = s' at hr ⊢
  obtain ⟨hself, -⟩ := newRange_tags h husable hnew hr
  refine ⟨⟨lists, newRange_inv h husable hnew hr hinit hreal⟩,
    ⟨(Layout.tag_add hbl).mpr (.inl rfl), ?_⟩,
    fun hu => h.heap.arenas.not_tag_new husable.ok hnew hu.1, ?_, ?_,
    newRange_spares h husable hnew hr, ?_, hr.initialized.trans hinit⟩
  · rw [hself]
    exact BoundaryTag.not_listed rfl
  · rw [hself]
    exact hsize
  · rw [hself]
    exact .inl rfl
  · rw [hr.pages]
    exact howns

end

/-- `allocate_new_tag`. -/
theorem allocateNewTag_spec (hsrc : src.Lawful Owns Room limit null) (h : LiballocInv s l lists)
    (hinit : s.initialized = true) (howns : Owns s.pages l.held) (hroom : Room s.pages)
    (hsize : size.toNat + tagSize ≤ 4096 * limit) :
    Ends (fun e => ∃ panic, e = .panic panic) (fun r =>
      (r.1 = 0 ∧ null ∧ LiballocInv r.2 l lists ∧ r.2.mem = s.mem ∧ Owns r.2.pages l.held ∧
        r.2.initialized = true) ∨
      ∃ l', Taken Owns s r.2 l l' r.1 size.toNat) (s.allocateNewTag src size) := by
  obtain ⟨hge, hlt⟩ := And.intro hsrc.limit_ge hsrc.limit_lt
  have hsum : (size + 48).toNat = size.toNat + 48 := by
    rw [BitVec.toNat_add, show (48 : BitVec 32).toNat = 48 from rfl, Nat.mod_eq_of_lt]
    simp only [tagSize] at hsize
    omega
  have hn := toNat_pageCount (size + 48)
  rw [hsum] at hn
  simp only [allocateNewTag]
  generalize pageCount (size + 48) = n at hn ⊢
  simp only [tagSize] at hsize
  have hreal : (n * lPageSize).toNat = 4096 * n.toNat := by
    rw [BitVec.toNat_mul, show lPageSize.toNat = 4096 from rfl, Nat.mod_eq_of_lt] <;> omega
  have halloc := hsrc.alloc (n := n) howns hroom (by omega) (by omega)
  generalize src.liballocAlloc n s.pages = x at halloc ⊢
  cases halloc with
  | @error e _ => exact .error ⟨e, rfl⟩
  | @ok r hnew =>
    obtain ⟨p, source⟩ := r
    simp only [Except.mapError, ok_bind]
    rcases hnew with ⟨rfl, hnull, howns'⟩ | ⟨hok, hdis, howns'⟩
    · exact .ok (.inl ⟨rfl, hnull, ⟨h.heap, h.complete, h.most, h.fresh⟩, rfl, howns', hinit⟩)
    · rw [if_neg hok.ok.start_ne]
      refine .ok (.inr ⟨l.add ⟨p, n.toNat⟩, ?_⟩)
      have hfit : size.toNat + tagSize ≤ (n * lPageSize).toNat := by
        rw [hreal]
        simp only [tagSize]
        omega
      have htaken := newRange_spec (s := { s with pages := source }) (b := ⟨p, n.toNat⟩)
        ⟨h.heap, h.complete, h.most, h.fresh⟩ hok hdis hinit howns'
        (by rw [hreal, Int.toNat_natCast]) hfit
      exact { htaken with spares := htaken.spares.of_mem rfl rfl }

/-! ## `malloc` -/

variable {bytes : BitVec 64}

/-- The size as `allocate_new_tag` and the tag see it. -/
theorem toNat_setWidth_size (h : bytes.toNat + tagSize ≤ 4096 * limit) (hlimit : limit < 2 ^ 20) :
    (bytes.setWidth 32).toNat = bytes.toNat := by
  rw [BitVec.toNat_setWidth, Nat.mod_eq_of_lt]
  omega

theorem toNat_of_fits (hroom : tagSize ≤ (t p).realSize.toNat)
    (h : bytes.toNat + tagSize ≤ 4096 * limit) (hlimit : limit < 2 ^ 20) (hfits : Fits t bytes p) :
    bytes.toNat + tagSize ≤ (t p).realSize.toNat := by
  have hlt := (t p).realSize.isLt
  have h48 : (48 : BitVec 64).toNat = 48 := rfl
  simp only [tagSize, Fits, ge_iff_le, BitVec.le_def, BitVec.toNat_add, BitVec.toNat_sub,
    BitVec.toNat_setWidth, h48] at *
  omega

/-- `malloc` takes the first piece of its class that is large enough, or new pages. -/
theorem takeTag_spec (hsrc : src.Lawful Owns Room limit null) (h : LiballocInv s l lists)
    (hinit : s.initialized = true) (howns : Owns s.pages l.held) (hroom : Room s.pages)
    (hsize : bytes.toNat + tagSize ≤ 4096 * limit) :
    Ends (fun e => ∃ panic, e = .panic panic) (fun r =>
      (r.1 = 0 ∧ null ∧ LiballocInv r.2 l lists ∧ r.2.mem = s.mem ∧ Owns r.2.pages l.held ∧
        r.2.initialized = true) ∨
      ∃ l', Taken Owns s r.2 l l' r.1 bytes.toNat) (s.takeTag src bytes) := by
  have hlt := bucket_lt (bytes.setWidth 32)
  have hnull := h.heap.lists.zero_notMem hlt
  have hfuel := length_lt_of_nodup (h.heap.lists.nodup _ hlt) hnull
  rw [takeTag, freePage_eq s hlt, ok_bind, h.heap.lists.head _ hlt,
    findTag_eq hnull (h.heap.lists.linked _ hlt) hfuel, ok_bind]
  cases hfirst : (lists (bucket (bytes.setWidth 32)).toNat).find? (Fits s.tag bytes ·) with
  | none =>
    rw [Option.getD_none, if_pos rfl]
    have hwidth := toNat_setWidth_size hsize hsrc.limit_lt
    rw [← hwidth] at hsize ⊢
    exact allocateNewTag_spec hsrc h hinit howns hroom hsize
  | some p =>
    have hmem := List.mem_of_find?_eq_some hfirst
    obtain ⟨hp, hlisted, hindex⟩ := h.heap.lists.listed_of_mem hlt hmem
    have hfits := toNat_of_fits (h.heap.arenas.room hp) hsize hsrc.limit_lt
      (by simpa using List.find?_some hfirst)
    obtain ⟨s₁, s', lists', hs₁, hs', hinv, hused, hspares, hpages, htag, hinit', hkeep⟩ :=
      takeFree_spec h hp hlisted
    have htaken : Taken Owns s s' l l p bytes.toNat := by
      refine ⟨⟨lists', hinv⟩, hused, fun hu => hu.2 hlisted, ?_, ?_, hspares, hpages ▸ howns,
        hinit'.trans hinit⟩
      · rw [htag]
        exact hfits
      · rw [htag]
        rcases h.heap.arenas.splitRight_tag hp with hz | hq
        · exact .inl hz
        · exact (h.heap.coalesced p hp hlisted).imp_right fun hright hlisted' =>
            hright (hkeep _ hq hlisted')
    rw [Option.getD_some, if_neg (h.heap.arenas.ne_zero hp), hs₁, ok_bind]
    have hindex' : (s.tag p).index = bucket (bytes.setWidth 32) := BitVec.eq_of_toNat_eq hindex
    simp only [hindex'] at hs'
    by_cases hw : (s₁.tag p).Whole
    · have hw' : (s₁.tag p).splitLeft = 0 ∧ (s₁.tag p).splitRight = 0 := hw
      rw [if_pos hw] at hs'
      rw [if_pos hw', hs']
      exact .ok (.inr ⟨l, htaken⟩)
    · have hw' : ¬((s₁.tag p).splitLeft = 0 ∧ (s₁.tag p).splitRight = 0) := hw
      rw [if_neg hw] at hs'
      cases hs'
      rw [if_neg hw']
      exact .ok (.inr ⟨l, htaken⟩)

/-- `tag->size = size` in a piece that is in use. -/
theorem setSize_spec {n : BitVec 32} (h : Taken Owns s s₁ l l' p size.toNat)
    (hn : n = size) : Taken Owns s (s₁.modifyTag p fun t => { t with size := n }) l l' p size.toNat ∧
      (s₁.modifyTag p fun t => { t with size := n }).tag p = { s₁.tag p with size := size } := by
  subst hn
  obtain ⟨lists, hinv⟩ := h.inv
  have hr := Rewrites.refl.modifyTag (s := s₁) (f := fun t => { t with size := n })
    hinv.heap.arenas.spaced h.used.1
  generalize (s₁.modifyTag p fun t => { t with size := n }) = s' at hr ⊢
  have htag {r} (hr' : l'.Tag r) : ∃ n, s'.tag r = { s₁.tag r with size := n } := by
    rw [hr.tag r hr', Function.update_apply]
    split
    case isTrue heq => exact ⟨n, by rw [heq]⟩
    case isFalse => exact ⟨_, rfl⟩
  have hself : s'.tag p = { s₁.tag p with size := n } :=
    (hr.tag p h.used.1).trans (Function.update_self ..)
  have hspares : Spares s₁ s' l' l' p p := hr.spares_self hinv.heap.arenas fun r hrp _ => by
    rw [Function.update_of_ne hrp]
    exact ⟨rfl, rfl, rfl⟩
  have hwhole {r} (hr' : l'.Tag r) : (s'.tag r).Whole ↔ (s₁.tag r).Whole := by
    obtain ⟨n, hn⟩ := htag hr'
    rw [hn]
    exact .rfl
  refine ⟨⟨⟨lists, ?_, fun j hj => ?_, fun j hj => ?_, fun hinit => ?_⟩, ⟨h.used.1, ?_⟩, h.new,
    ?_, ?_, h.spares.trans hspares, ?_, hr.initialized.trans h.initialized⟩, hself⟩
  · rw [hr.freePages]
    exact hinv.heap.resize fun r => htag
  · rw [hr.completePages, hinv.complete j hj]
    exact congrArg _ (wholeCount_congr fun r hmem =>
      hwhole (hinv.heap.lists.listed_of_mem hj hmem).1).symm
  · rw [hr.completePages]
    exact hinv.most j hj
  · exact hinv.fresh (hr.initialized.symm.trans hinit)
  · rw [hself]
    exact h.used.2
  · rw [hself]
    exact h.large
  · rw [hself]
    rcases hinv.heap.arenas.splitRight_tag h.used.1 with hz | hq
    · exact .inl hz
    · obtain ⟨n, hn⟩ := htag hq
      exact h.right.imp_right fun hright => by rwa [hn]
  · rw [hr.pages]
    exact h.owns

/-- The piece of the tag `p` has room for the tag `q` behind the bytes of the client, and `n` bytes
from there on. -/
structure CutAt (t : Tags) (l : Layout) (p q : BitVec 64) (n : BitVec 32) : Prop where
  place : q.toNat = p.toNat + tagSize + (t p).size.toNat
  rest : n.toNat + tagSize + (t p).size.toNat = (t p).realSize.toNat
  room : tagSize ≤ n.toNat
  new : ¬l.Tag q
  ne_zero : q ≠ 0
  inside : ∀ r, l.Tag r → r ≠ p →
    r.toNat + (t r).realSize.toNat ≤ p.toNat ∨ q.toNat + tagSize ≤ r.toNat
  spaced : Spaced fun r => r = q ∨ l.Tag r

theorem cutAt (h : Arenas t l) (hp : l.Tag p)
    (hsize : (t p).size.toNat + 2 * tagSize ≤ (t p).realSize.toNat) :
    CutAt t l p (p + 48 + (t p).size.setWidth 64) ((t p).realSize - 48 - (t p).size) := by
  have htagSize : tagSize = 48 := rfl
  have hspace := h.inSpace hp
  unfold InSpace at hspace
  obtain ⟨q, hq⟩ : ∃ q, q = p + 48 + (t p).size.setWidth 64 := ⟨_, rfl⟩
  have hqNat : q.toNat = p.toNat + tagSize + (t p).size.toNat := by
    rw [hq, BitVec.toNat_add, BitVec.toNat_add, BitVec.toNat_setWidth,
      show (48 : BitVec 64).toNat = 48 from rfl]
    omega
  have hnNat : ((t p).realSize - 48 - (t p).size).toNat =
      (t p).realSize.toNat - tagSize - (t p).size.toNat := by
    rw [BitVec.toNat_sub, BitVec.toNat_sub, show (48 : BitVec 32).toNat = 48 from rfl]
    omega
  have hnew : ¬l.Tag q := h.not_tag_of_inside hp (by omega) (by omega)
  have hqz : q ≠ 0 := by
    rintro rfl
    have : (0 : BitVec 64).toNat = 0 := rfl
    omega
  have hinside {r} (hr : l.Tag r) (hrp : r ≠ p) : r.toNat + (t r).realSize.toNat ≤ p.toNat ∨
      q.toNat + tagSize ≤ r.toNat := by
    rcases h.apart hr hp hrp with hle | hle
    · exact .inl hle
    · exact .inr (by omega)
  rw [← hq]
  refine ⟨hqNat, by omega, by omega, hnew, hqz, fun r => hinside,
    h.spaced.insert hqz ?_ fun r hr => ?_⟩
  · unfold InSpace
    omega
  · unfold Apart
    rcases eq_or_ne r p with rfl | hrp
    · omega
    · have := hinside hr hrp
      have := h.room hr
      omega

/-- `split_tag` of a piece that is in use, as a change of the tags. -/
theorem splitTag_rewrites (h : TagHeap s.tag s.freePages l lists) (hp : l.Tag p)
    (hq : p + 48 + (s.tag p).size.setWidth 64 = q)
    (hn : (s.tag p).realSize - 48 - (s.tag p).size = n) (hcut : CutAt s.tag l p q n)
    (hi : i = bucket (n - 48)) : ∃ s', s.splitTag p = .ok s' ∧
      Rewrites s s' (fun r => r = q ∨ l.Tag r)
        (Tags.link (Tags.cut s.tag p q n) q (s.freePages i.toNat) i)
        (Function.update s.freePages i.toNat q) := by
  have hlt : i.toNat < maxexp := hi ▸ bucket_lt _
  have hfirst := h.lists.head_tag hlt
  have hright := h.arenas.splitRight_tag hp
  have hpq : p ≠ q := by
    rintro rfl
    exact hcut.new hp
  have hqright : q ≠ (s.tag p).splitRight := by
    rintro heq
    exact hright.elim (fun hz => hcut.ne_zero (heq.trans hz)) fun htag => hcut.new (heq ▸ htag)
  have hqfirst : q ≠ s.freePages i.toNat := by
    rintro heq
    exact hfirst.elim (fun hz => hcut.ne_zero (heq.trans hz)) fun htag => hcut.new (heq ▸ htag.1)
  obtain ⟨hfst, hr⟩ := cutTag_rewrites hcut.spaced (.inr hp) (.inl rfl) hq
    (hright.imp_right .inr) ⟨hpq, h.arenas.ne_splitRight hp, hqright⟩
  rw [hn] at hr
  rw [splitTag]
  generalize s.cutTag p = cut at hfst hr ⊢
  obtain ⟨newTag, s₁⟩ := cut
  replace hfst : newTag = q := hfst
  replace hr : Rewrites s s₁ _ _ _ := hr
  dsimp only
  rw [hfst]
  have htag : s₁.tag q = { s.tag q with
      magic := liballocMagic, realSize := n, next := 0, prev := 0
      splitLeft := p, splitRight := (s.tag p).splitRight } :=
    (hr.tag q (.inl rfl)).trans (if_pos rfl)
  have hindex : (if (-1 : BitVec 32).toInt < 0 then bucket ((s₁.tag q).realSize - 48) else -1) =
      i := by
    rw [htag, hi]
    exact if_pos (by decide)
  obtain ⟨s', hs', hlink⟩ := insertTag_rewrites hcut.spaced (.inl rfl) (by rw [htag]) hlt hindex
    (by rw [hr.freePages]; exact hfirst.imp_right fun htag => .inr htag.1)
    (by rwa [hr.freePages])
  rw [hr.freePages] at hlink
  refine ⟨s', hs', (hr.trans hlink).congr fun r hr' => ?_⟩
  simp only [Tags.link, hr.tag r hr']

section
variable {b : Block} {u v : List (BitVec 64)} {n i : BitVec 32} (hcut : CutAt s.tag l p q n)
  (hr : Rewrites s s' (fun r => r = q ∨ l.Tag r)
    (Tags.link (Tags.cut s.tag p q n) q (s.freePages i.toNat) i)
    (Function.update s.freePages i.toNat q))
include hcut hr

/-- The old tags. -/
theorem split_old (hr' : l.Tag r) : (s'.tag r).index = (s.tag r).index ∧
    (s'.tag r).size = (s.tag r).size ∧
    (s'.tag r).realSize = (if r = p then (s.tag p).realSize - n else (s.tag r).realSize) ∧
    (s'.tag r).splitRight = (if r = p then q else (s.tag r).splitRight) ∧
    (s'.tag r).splitLeft = if r = (s.tag p).splitRight then q else (s.tag r).splitLeft := by
  have hrq : r ≠ q := fun heq => hcut.new (heq ▸ hr')
  rw [hr.tag r (.inr hr')]
  simp only [Tags.link, Tags.cut, if_neg hrq, and_self]

theorem split_listed (hr' : l.Tag r) : (s'.tag r).Listed ↔ (s.tag r).Listed := by
  rw [BoundaryTag.Listed, (split_old hcut hr hr').1, BoundaryTag.Listed]

omit hcut in
/-- The new tag. -/
theorem split_new : (s'.tag q).splitLeft = p ∧ (s'.tag q).index = i := by
  rw [hr.tag q (.inl rfl)]
  simp only [Tags.link, Tags.cut, if_true, and_self]

/-- The other pieces are whole ranges if they have been before: the one behind the two is none. -/
theorem split_whole (h : Arenas s.tag l) (hp : l.Tag p) (hr' : l.Tag r) (hrp : r ≠ p) :
    (s'.tag r).Whole ↔ (s.tag r).Whole := by
  obtain ⟨-, -, -, hright, hleft⟩ := split_old hcut hr hr'
  rw [BoundaryTag.Whole, BoundaryTag.Whole, hright, hleft, if_neg hrp]
  refine and_congr_left fun _ => ?_
  by_cases heq : r = (s.tag p).splitRight
  · have hback := h.splitLeft_eq hp (heq ▸ h.ne_zero hr')
    rw [← heq] at hback
    rw [if_pos heq, hback]
    exact iff_of_false hcut.ne_zero (h.ne_zero hp)
  · rw [if_neg heq]

variable (hb : b ∈ l.held) (htags : l.tags b = u ++ p :: v) (hi : i = bucket (n - 48))
include hb htags hi

theorem split_inv (h : LiballocInv s l lists) (hidle : ¬(s.tag p).Listed)
    (hright : (s.tag p).splitRight = 0 ∨ ¬(s.tag (s.tag p).splitRight).Listed) :
    ∃ lists', LiballocInv s' (l.setTags b (u ++ p :: q :: v)) lists' := by
  have hp : l.Tag p := ⟨b, hb, by simp [htags]⟩
  have hpz := h.heap.arenas.ne_zero hp
  have hheap : TagHeap s'.tag s'.freePages (l.setTags b (u ++ p :: q :: v))
      (Function.update lists i.toNat (q :: lists i.toNat)) := by
    obtain ⟨hplace, hrest, hroom, -⟩ := hcut
    rw [hr.freePages]
    exact (h.heap.split hb htags hidle hright hroom (by omega) (by omega) hi).congr
      fun r hr' => hr.tag r ((Layout.tag_cut hb htags).mp hr')
  have hcount {j} (hj : j < maxexp) : wholeCount s'.tag (lists j) = wholeCount s.tag (lists j) := by
    refine wholeCount_congr fun r hmem => ?_
    obtain ⟨hrTag, hlisted, -⟩ := h.heap.lists.listed_of_mem hj hmem
    exact split_whole hcut hr h.heap.arenas hp hrTag fun heq => hidle (heq ▸ hlisted)
  refine ⟨_, hheap, fun j hj => ?_, fun j hj => ?_, fun hinit => ?_⟩
  · rw [hr.completePages, h.complete j hj]
    rcases eq_or_ne j i.toNat with rfl | hji
    · rw [Function.update_self, wholeCount_cons,
        if_neg fun hw => hpz ((split_new hr).1.symm.trans hw.1), Nat.add_zero, hcount hj]
    · rw [Function.update_of_ne hji, hcount hj]
  · rw [hr.completePages]
    exact h.most j hj
  · exact h.fresh (hr.initialized.symm.trans hinit)

theorem split_spares (h : Arenas s.tag l) :
    Spares s s' l (l.setTags b (u ++ p :: q :: v)) p p := by
  have htag {r} : (l.setTags b (u ++ p :: q :: v)).Tag r ↔ r = q ∨ l.Tag r :=
    Layout.tag_cut hb htags
  refine ⟨fun r hrp hu => ?_, fun r hrp hu => ?_, fun r hrp hu x hx => hr.mem x ?_⟩
  · obtain ⟨-, hsize, hreal, -⟩ := split_old hcut hr hu.1
    rw [if_neg hrp] at hreal
    exact ⟨hrp, ⟨htag.mpr (.inr hu.1), mt (split_listed hcut hr hu.1).mp hu.2⟩, hreal, hsize⟩
  · rcases htag.mp hu.1 with rfl | hr'
    · have hlt : i.toNat < maxexp := hi ▸ bucket_lt _
      exact absurd hlt ((split_new hr).2 ▸ hu.2)
    · exact ⟨hrp, hr', mt (split_listed hcut hr hr').mpr hu.2⟩
  · rintro r' (rfl | hr')
    · have := hcut.inside r hu.1 hrp
      have := hcut.place
      unfold InPiece at hx
      omega
    · exact h.outside hu.1 hx r' hr'

end

/-- `split_tag` of a piece that is in use and has no free piece on its right. -/
theorem splitTag_spec (h : LiballocInv s l lists) (hu : InUse s.tag l p)
    (hright : (s.tag p).splitRight = 0 ∨ ¬(s.tag (s.tag p).splitRight).Listed)
    (hsize : (s.tag p).size.toNat + 2 * tagSize ≤ (s.tag p).realSize.toNat) :
    ∃ s' l', s.splitTag p = .ok s' ∧ (∃ lists, LiballocInv s' l' lists) ∧ InUse s'.tag l' p ∧
      l'.held = l.held ∧ Spares s s' l l' p p ∧ s'.pages = s.pages ∧
      s'.initialized = s.initialized ∧ (s'.tag p).size = (s.tag p).size ∧
      (s'.tag p).realSize.toNat = (s.tag p).size.toNat + tagSize := by
  obtain ⟨⟨b, hb, hmem⟩, hidle⟩ := hu
  have hp : l.Tag p := ⟨b, hb, hmem⟩
  obtain ⟨u, v, htags⟩ := List.append_of_mem hmem
  have hcut := cutAt h.heap.arenas hp hsize
  obtain ⟨i, hi⟩ : ∃ i, i = bucket ((s.tag p).realSize - 48 - (s.tag p).size - 48) := ⟨_, rfl⟩
  obtain ⟨s', hs', hr⟩ := splitTag_rewrites h.heap hp rfl rfl hcut hi
  generalize p + 48 + (s.tag p).size.setWidth 64 = q at hcut hr
  generalize hn : (s.tag p).realSize - 48 - (s.tag p).size = n at hcut hr hi
  obtain ⟨-, hsize', hreal, -⟩ := split_old hcut hr hp
  refine ⟨s', _, hs', split_inv hcut hr hb htags hi h hidle hright,
    ⟨(Layout.tag_cut hb htags).mpr (.inr hp), mt (split_listed hcut hr hp).mp hidle⟩, rfl,
    split_spares hcut hr hb htags hi h.heap.arenas, hr.pages, hr.initialized, hsize', ?_⟩
  have := hcut.rest
  rw [hreal, if_pos rfl, BitVec.toNat_sub]
  omega

/-- What `malloc` hands out: the piece `p`, which is now in use, for `size` bytes. -/
structure Allocated (Owns : σ → List Block → Prop) (s s' : Liballoc σ) (l l' : Layout)
    (p : BitVec 64) (size : Nat) : Prop where
  inv : ∃ lists, LiballocInv s' l' lists
  used : InUse s'.tag l' p
  new : ¬InUse s.tag l p
  asked : (s'.tag p).size.toNat = size
  large : size + tagSize ≤ (s'.tag p).realSize.toNat
  spares : Spares s s' l l' p p
  owns : Owns s'.pages l'.held
  initialized : s'.initialized = true

/-- A rest of the piece, as a signed number, is there only behind a further tag. -/
theorem le_of_remainder {realSize : BitVec 32} (hlarge : bytes.toNat + tagSize ≤ realSize.toNat)
    (hpos : 0 < ((realSize.setWidth 64 - bytes - 96).setWidth 32).toInt) :
    bytes.toNat + 2 * tagSize ≤ realSize.toNat := by
  have htagSize : tagSize = 48 := rfl
  have h96 : (96 : BitVec 64).toNat = 96 := rfl
  have hlt := realSize.isLt
  rw [BitVec.toInt_eq_toNat_cond] at hpos
  simp only [BitVec.toNat_setWidth, BitVec.toNat_sub, h96] at hpos
  split at hpos <;> omega

/-- `malloc`, behind its initialization. -/
theorem mallocTag_spec (hsrc : src.Lawful Owns Room limit null) (h : LiballocInv s l lists)
    (hinit : s.initialized = true) (howns : Owns s.pages l.held) (hroom : Room s.pages)
    (hsize : bytes.toNat + tagSize ≤ 4096 * limit) :
    Ends (fun e => ∃ panic, e = .panic panic) (fun r =>
      (r.1 = 0 ∧ null ∧ LiballocInv r.2 l lists ∧ r.2.mem = s.mem ∧ Owns r.2.pages l.held ∧
        r.2.initialized = true) ∨
      ∃ p l', r.1 = p + 48 ∧ Allocated Owns s r.2 l l' p bytes.toNat) (s.mallocTag src bytes) := by
  rw [mallocTag]
  refine (takeTag_spec hsrc h hinit howns hroom hsize).bind fun r hr => ?_
  obtain ⟨p, s₁⟩ := r
  rcases hr with ⟨rfl, hrest⟩ | ⟨l', htaken⟩
  · exact .ok (.inl ⟨rfl, hrest⟩)
  · have hsz := toNat_setWidth_size hsize hsrc.limit_lt
    obtain ⟨lists', hinv⟩ := htaken.inv
    rw [← hsz] at htaken
    obtain ⟨hset, hself⟩ := setSize_spec htaken rfl
    dsimp only
    rw [if_neg (hinv.heap.arenas.ne_zero htaken.used.1)]
    generalize (s₁.modifyTag p fun t => { t with size := bytes.setWidth 32 }) = s₂ at hset hself ⊢
    obtain ⟨lists₂, hinv₂⟩ := hset.inv
    have hasked : (s₂.tag p).size.toNat = bytes.toNat := by
      rw [hself]
      exact hsz
    split
    case isTrue hrest =>
      have hlarge := hset.large
      rw [hsz] at hlarge
      have hroom' := le_of_remainder hlarge hrest.1
      obtain ⟨s', l₂, hs', hinv', hused, hheld, hspares, hpages, hinit', hsize', hreal⟩ :=
        splitTag_spec hinv₂ hset.used hset.right (by rw [hasked]; exact hroom')
      rw [hs', ok_bind]
      refine .ok (.inr ⟨p, l₂, rfl, hinv', hused, hset.new, ?_, ?_, hset.spares.trans hspares, ?_,
        hinit'.trans hset.initialized⟩)
      · rw [hsize', hasked]
      · rw [hreal, hasked]
      · rw [hpages, hheld]
        exact hset.owns
    case isFalse =>
      refine .ok (.inr ⟨p, l', rfl, hset.inv, hset.used, hset.new, hasked, ?_, hset.spares,
        hset.owns, hset.initialized⟩)
      rw [← hsz]
      exact hset.large

/-- The initialization, which the first call of `malloc` makes. -/
theorem init_spec (h : LiballocInv s l lists) : LiballocInv s.init l lists ∧
    s.init.initialized = true ∧ s.init.mem = s.mem ∧ s.init.pages = s.pages := by
  rw [init]
  split
  case isTrue hinit => exact ⟨h, hinit, rfl, rfl⟩
  case isFalse hinit =>
    -- nothing is held yet, so that the lists are empty
    have hheld := h.fresh (Bool.not_eq_true _ ▸ hinit)
    have hnone {p} : ¬l.Tag p := by
      rintro ⟨b, hb, -⟩
      rw [hheld] at hb
      cases hb
    have hempty {i} (hi : i < maxexp) : lists i = [] :=
      List.eq_nil_iff_forall_not_mem.mpr fun p hp => hnone (h.heap.lists.listed_of_mem hi hp).1
    refine ⟨⟨⟨h.heap.arenas, ?_, h.heap.classes, h.heap.coalesced⟩, fun i hi => ?_, fun i hi => ?_,
      nofun⟩, rfl, rfl, rfl⟩
    · exact { h.heap.lists with head := fun i hi => by rw [hempty hi]; rfl }
    · rw [hempty hi]
      rfl
    · exact (by decide : (0 : Int) ≤ maxComplete)

/-- `malloc` gives a piece for the request, or stops where the page source does. The other pieces in
use, with their contents, stay as they are. -/
theorem malloc_spec (hsrc : src.Lawful Owns Room limit null) (h : LiballocInv s l lists)
    (howns : Owns s.pages l.held) (hroom : Room s.pages)
    (hsize : bytes.toNat + tagSize ≤ 4096 * limit) :
    Ends (fun e => ∃ panic, e = .panic panic) (fun r =>
      (r.1 = 0 ∧ null ∧ LiballocInv r.2 l lists ∧ r.2.mem = s.mem ∧ Owns r.2.pages l.held ∧
        r.2.initialized = true) ∨
      ∃ p l', r.1 = p + 48 ∧ Allocated Owns s r.2 l l' p bytes.toNat) (s.malloc src bytes) := by
  obtain ⟨hinv, hinit, hmem, hpages⟩ := init_spec h
  refine (mallocTag_spec hsrc hinv hinit (hpages ▸ howns) (hpages ▸ hroom) hsize).mono
    (fun _ he => he) fun r hr => ?_
  rw [hmem] at hr
  refine hr.imp_right ?_
  rintro ⟨p, l', hp, halloc⟩
  have htag : s.init.tag = s.tag := by
    funext r
    rw [Liballoc.tag, hmem, Liballoc.tag]
  exact ⟨p, l', hp, { halloc with
    new := htag ▸ halloc.new
    spares := halloc.spares.of_mem hmem.symm rfl }⟩

end Liballoc

end Lethe
