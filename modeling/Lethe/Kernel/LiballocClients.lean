import Lethe.Kernel.LiballocFree

/-!
# What the clients of `memory/liballoc.c` hold

An `Allocation` is a block that a client holds, with the bytes that it expects to find there.
`Holds` ties it to a piece in use; a session is sound if each piece in use is held by one client
(`Clients`). `Session` adds the state of the allocator, and is what a call of `malloc`
(`Session.gain`), of `free` (`Session.lose`) and a store of a client (`Session.store`) keep.
-/

namespace Lethe

/-- A block that a client holds, and the bytes in it. -/
structure Allocation where
  ptr : BitVec 64
  data : List UInt8
  deriving DecidableEq, Repr

/-- The block lies in a piece in use, and has the expected contents. -/
structure Holds {σ : Type} (s : Liballoc σ) (l : Layout) (a : Allocation) : Prop where
  used : InUse s.tag l (a.ptr - 48)
  size : (s.tag (a.ptr - 48)).size.toNat = a.data.length
  room : a.data.length + tagSize ≤ (s.tag (a.ptr - 48)).realSize.toNat
  contents : readBytes s.mem a.ptr a.data.length = a.data

/-- The clients hold the pieces in use. -/
structure Clients {σ : Type} (s : Liballoc σ) (l : Layout) (allocs : List Allocation) : Prop where
  holds : ∀ a ∈ allocs, Holds s l a
  used : ∀ p, InUse s.tag l p → ∃ a ∈ allocs, a.ptr = p + 48
  nodup : (allocs.map Allocation.ptr).Nodup

/-- The allocator with the blocks that its clients hold. -/
def Session {σ : Type} (Owns : σ → List Block → Prop) (s : Liballoc σ) (allocs : List Allocation) :
    Prop :=
  ∃ l, (∃ lists, LiballocInv s l lists) ∧ Owns s.pages l.held ∧ Clients s l allocs

variable {σ : Type} {Owns : σ → List Block → Prop} {s s' : Liballoc σ} {l l' : Layout}
  {lists : Nat → List (BitVec 64)} {a b : Allocation} {allocs : List Allocation}
  {p p' : BitVec 64} {bs : List UInt8} {n : Nat}

/-- A block starts behind the tag of its piece, and ends within the piece. -/
theorem Holds.bounds (h : Holds s l a) (harenas : Arenas s.tag l) :
    a.ptr.toNat = (a.ptr - 48).toNat + tagSize ∧
      a.ptr.toNat + a.data.length ≤ (a.ptr - 48).toNat + (s.tag (a.ptr - 48)).realSize.toNat := by
  have hspace := harenas.inSpace h.used.1
  have hlt : (a.ptr - 48).toNat + tagSize < 2 ^ 64 := by
    obtain ⟨b, hb, hmem⟩ := h.used.1
    have := harenas.bounds hb hmem
    have := harenas.room h.used.1
    have := (harenas.ok b hb).limit_lt
    omega
  have htagSize : tagSize = 48 := rfl
  have hptr : a.ptr = a.ptr - 48 + 48 := (BitVec.sub_add_cancel ..).symm
  have hnat : a.ptr.toNat = (a.ptr - 48).toNat + tagSize := by
    rw [hptr, BitVec.toNat_add, show (48 : BitVec 64).toNat = 48 from rfl, ← hptr, ← htagSize,
      Nat.mod_eq_of_lt hlt]
  have := h.room
  exact ⟨hnat, by omega⟩

/-- What a call leaves alone, a client still holds. -/
theorem Holds.spares (h : Holds s l a) (harenas : Arenas s.tag l) (hs : Spares s s' l l' p p')
    (hne : a.ptr - 48 ≠ p) : Holds s' l' a := by
  obtain ⟨-, hused, hreal, hsize⟩ := hs.tag _ hne h.used
  obtain ⟨hptr, hend⟩ := h.bounds harenas
  have hspace := harenas.inSpace h.used.1
  unfold InSpace at hspace
  refine ⟨hused, hsize ▸ h.size, hreal ▸ h.room, Eq.trans ?_ h.contents⟩
  refine readBytes_congr (by unfold InSpace; omega) fun x hle hlt => hs.mem _ hne h.used x ?_
  unfold InPiece
  omega

theorem sub_eq_iff {x y : BitVec 64} : x - 48 = y ↔ x = y + 48 := by
  constructor
  · rintro rfl
    exact (BitVec.sub_add_cancel ..).symm
  · rintro rfl
    exact BitVec.add_sub_cancel ..

/-- Different blocks do not overlap. -/
theorem Holds.apart (ha : Holds s l a) (hb : Holds s l b) (harenas : Arenas s.tag l)
    (hne : a.ptr ≠ b.ptr) : Apart a.ptr a.data.length b.ptr b.data.length := by
  obtain ⟨haptr, haend⟩ := ha.bounds harenas
  obtain ⟨hbptr, hbend⟩ := hb.bounds harenas
  have hne' : a.ptr - 48 ≠ b.ptr - 48 := fun heq =>
    hne ((sub_eq_iff.mp heq).trans (BitVec.sub_add_cancel ..))
  have := harenas.apart ha.used.1 hb.used.1 hne'
  unfold Apart at *
  omega

namespace Clients

/-- A client gets a block. -/
theorem gain (h : Clients s l allocs) (harenas : Arenas s.tag l)
    (ha : Liballoc.Allocated Owns s s' l l' p n) :
    Clients s' l' (⟨p + 48, readBytes s'.mem (p + 48) n⟩ :: allocs) := by
  have hne {a} (hmem : a ∈ allocs) : a.ptr - 48 ≠ p := by
    rintro rfl
    exact ha.new (h.holds a hmem).used
  refine ⟨List.forall_mem_cons.mpr ⟨?_, fun a hmem => ?_⟩, fun r hr => ?_, ?_⟩
  · have hp : p + 48 - 48 = p := BitVec.add_sub_cancel ..
    constructor
    · exact hp.symm ▸ ha.used
    · rw [hp, length_readBytes]
      exact ha.asked
    · rw [hp, length_readBytes]
      exact ha.large
    · rw [length_readBytes]
  · exact (h.holds a hmem).spares harenas ha.spares (hne hmem)
  · rcases eq_or_ne r p with rfl | hrp
    · exact ⟨_, List.mem_cons_self, rfl⟩
    · obtain ⟨a, hmem, hptr⟩ := h.used r (ha.spares.back r hrp hr).2
      exact ⟨a, List.mem_cons_of_mem _ hmem, hptr⟩
  · refine List.nodup_cons.mpr ⟨fun hmem => ?_, h.nodup⟩
    obtain ⟨a, hmem, hptr⟩ := List.mem_map.mp hmem
    exact hne hmem (sub_eq_iff.mpr hptr)

/-- A client gives a block back. -/
theorem lose (h : Clients s l allocs) (harenas : Arenas s.tag l)
    (hf : Liballoc.Freed Owns s s' l l' p) :
    Clients s' l' (allocs.filter (·.ptr ≠ p + 48)) := by
  refine ⟨fun a hmem => ?_, fun r hr => ?_, ?_⟩
  · obtain ⟨hmem, hne⟩ := List.mem_filter.mp hmem
    refine (h.holds a hmem).spares harenas hf.spares fun heq => ?_
    exact of_decide_eq_true hne (sub_eq_iff.mp heq)
  · have hrp : r ≠ p := by
      rintro rfl
      exact hf.gone hr
    obtain ⟨a, hmem, hptr⟩ := h.used r (hf.spares.back r hrp hr).2
    refine ⟨a, List.mem_filter.mpr ⟨hmem, decide_eq_true fun heq => hrp ?_⟩, hptr⟩
    exact (sub_eq_iff.mpr hptr).symm.trans (sub_eq_iff.mpr heq)
  · exact h.nodup.sublist (List.filter_sublist.map _)

end Clients

/-- The byte at `x` is not in the block. -/
def Allocation.Outside (a : Allocation) (x : BitVec 64) : Prop :=
  x.toNat < a.ptr.toNat ∨ a.ptr.toNat + a.data.length ≤ x.toNat

/-- The block at `ptr` has other contents. -/
def updateData (allocs : List Allocation) (ptr : BitVec 64) (data : List UInt8) :
    List Allocation :=
  allocs.map fun a => if a.ptr = ptr then { a with data } else a

theorem map_ptr_updateData (ptr : BitVec 64) (data : List UInt8) :
    (updateData allocs ptr data).map Allocation.ptr = allocs.map Allocation.ptr := by
  rw [updateData, List.map_map]
  refine List.map_congr_left fun a _ => ?_
  simp only [Function.comp_apply]
  split <;> rfl

/-- A write to a block changes no tag. -/
theorem Holds.tag_eq {mem : Bytes} (h : Holds s l a) (harenas : Arenas s.tag l)
    (hmem : ∀ x, a.Outside x → mem x = s.mem x) (hp : l.Tag p) :
    Liballoc.tag { s with mem } p = s.tag p := by
  obtain ⟨hptr, hend⟩ := h.bounds harenas
  have hroom := harenas.room hp
  refine congrArg BoundaryTag.decode (readBytes_congr (harenas.spaced.inSpace p hp)
    fun x hle hlt => hmem x ?_)
  unfold Allocation.Outside
  rcases eq_or_ne p (a.ptr - 48) with rfl | hne
  · omega
  · have := harenas.apart hp h.used.1 hne
    unfold Apart at this
    omega

namespace Session

/-- A client writes to its block. -/
theorem store {mem : Bytes} (h : Session Owns s allocs) (ha : a ∈ allocs)
    (hmem : ∀ x, a.Outside x → mem x = s.mem x) :
    Session Owns { s with mem }
      (updateData allocs a.ptr (readBytes mem a.ptr a.data.length)) := by
  obtain ⟨l, ⟨lists, hinv⟩, howns, hclients⟩ := h
  have harenas := hinv.heap.arenas
  have hold := hclients.holds a ha
  have htag {p} (hp : l.Tag p) := hold.tag_eq harenas hmem hp
  have hused {p} : InUse (Liballoc.tag { s with mem }) l p ↔ InUse s.tag l p := by
    refine and_congr_right fun hp => ?_
    rw [htag hp]
  refine ⟨l, ⟨lists, hinv.heap.congr fun r => htag, fun j hj => ?_, hinv.most, hinv.fresh⟩, howns,
    fun b' hb' => ?_, fun p hp => ?_, ?_⟩
  · refine (hinv.complete j hj).trans (congrArg _ (wholeCount_congr fun r hr => ?_).symm)
    rw [htag (hinv.heap.lists.listed_of_mem hj hr).1]
  · obtain ⟨b, hb, rfl⟩ := List.mem_map.mp hb'
    have holdb := hclients.holds b hb
    by_cases heq : b.ptr = a.ptr
    · rw [if_pos heq, heq]
      refine ⟨hused.mpr hold.used, ?_, ?_, ?_⟩
      · rw [htag hold.used.1, length_readBytes]
        exact hold.size
      · rw [htag hold.used.1, length_readBytes]
        exact hold.room
      · rw [length_readBytes]
    · rw [if_neg heq]
      refine ⟨hused.mpr holdb.used, ?_, ?_, Eq.trans ?_ holdb.contents⟩
      · rw [htag holdb.used.1]
        exact holdb.size
      · rw [htag holdb.used.1]
        exact holdb.room
      · have hspace := harenas.inSpace holdb.used.1
        obtain ⟨hptr, hend⟩ := holdb.bounds harenas
        unfold InSpace at hspace
        refine readBytes_congr (by unfold InSpace; omega) fun x hle hlt => hmem x ?_
        have := holdb.apart hold harenas heq
        unfold Apart at this
        unfold Allocation.Outside
        omega
  · obtain ⟨b, hb, hptr⟩ := hclients.used p (hused.mp hp)
    refine ⟨_, List.mem_map_of_mem hb, ?_⟩
    split <;> exact hptr
  · rw [map_ptr_updateData]
    exact hclients.nodup

end Session

/-! ## Filling and copying -/

/-- The loops of `liballoc_memcpy` between ranges that do not overlap. -/
theorem copyUnits_eq {w : Nat} {mem : Bytes} {dest src : BitVec 64} (k : Nat)
    (hdest : InSpace dest (k * w)) (hsrc : InSpace src (k * w))
    (hapart : Apart src (k * w) dest (k * w)) :
    Liballoc.copyUnits w k dest src mem = writeBytes mem dest (readBytes mem src (k * w)) := by
  induction k generalizing mem dest src with
  | zero =>
    rw [Nat.zero_mul]
    rfl
  | succ k ih =>
    have hsum : (k + 1) * w = w + k * w := by rw [Nat.succ_mul, Nat.add_comm]
    rw [hsum] at hdest hsrc hapart ⊢
    rw [Liballoc.copyUnits, ih hdest.advance hsrc.advance (hapart.advance hsrc hdest),
      copy_add hsrc hdest hapart]

/-- `liballoc_memcpy` between ranges that do not overlap. -/
theorem liballocMemcpy_eq {dest src size : BitVec 64} (hz : size ≠ 0 → dest ≠ 0)
    (hdest : InSpace dest size.toNat) (hsrc : InSpace src size.toNat)
    (hapart : Apart src size.toNat dest size.toNat) : s.liballocMemcpy dest src size =
      .ok { s with mem := writeBytes s.mem dest (readBytes s.mem src size.toNat) } := by
  rw [Liballoc.liballocMemcpy]
  by_cases hsize : size = 0
  · rw [if_pos hsize, hsize]
    rfl
  · rw [if_neg hsize, if_neg (hz hsize)]
    have hsum : size.toNat = size.toNat / 4 * 4 + size.toNat % 4 * 1 := by omega
    rw [hsum] at hdest hsrc hapart
    have hwords {a : BitVec 64} {n m : Nat} (h : InSpace a (n + m)) : InSpace a n := by
      unfold InSpace at *
      omega
    have hapart' : Apart src (size.toNat / 4 * 4) dest (size.toNat / 4 * 4) := by
      unfold Apart at *
      omega
    dsimp only
    rw [copyUnits_eq _ (hwords hdest) (hwords hsrc) hapart', Nat.mul_comm 4,
      copyUnits_eq _ hdest.advance hsrc.advance (hapart.advance hsrc hdest),
      copy_add hsrc hdest hapart, ← hsum]

/-- `liballoc_memset`. -/
theorem memsetZero_eq {ptr size : BitVec 64} (hz : size ≠ 0 → ptr ≠ 0) (hlt : size.toNat < 2 ^ 31) :
    s.memsetZero ptr size =
      .ok { s with mem := writeBytes s.mem ptr (List.replicate size.toNat 0) } := by
  rw [Liballoc.memsetZero]
  by_cases hsize : size = 0
  · rw [if_pos hsize, hsize]
    rfl
  · rw [if_neg hsize, if_neg (hz hsize), if_pos hlt]

end Lethe
