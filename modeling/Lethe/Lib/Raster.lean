import Lethe.Lib.Memory
import Mathlib.Tactic.GCongr

/-!
# Rasters in a memory of bytes

A raster is an array of rows that lie `pitch` bytes apart; a point has `depth` bytes. `Painted` says
what a sequence of writes to points has changed: the points, and nothing outside the raster.
-/

namespace Lethe

/-- Where the points of a raster lie. -/
structure Raster (w : Nat) where
  base : BitVec w
  pitch : Nat
  width : Nat
  height : Nat
  depth : Nat

namespace Raster

variable {w : Nat} {β : Type u} (r : Raster w)

/-- The rows do not overlap, and lie within the address space. -/
structure Fits : Prop where
  row : r.depth * r.width ≤ r.pitch
  space : r.base.toNat + r.pitch * r.height ≤ 2 ^ w

/-- The address of a point. -/
def address (x y : Nat) : BitVec w := r.base + BitVec.ofNat w (r.pitch * y + r.depth * x)

/-- The bytes of a point. -/
def get (mem : BitVec w → β) (x y : Nat) : List β := readBytes mem (r.address x y) r.depth

/-- The byte at `a` is in no row. -/
def Outside (a : BitVec w) : Prop :=
  a.toNat < r.base.toNat ∨ r.base.toNat + r.pitch * r.height ≤ a.toNat

/-- The points where `f` has a value have got that value, and nothing else has changed. -/
structure Painted (mem mem' : BitVec w → β) (f : Nat → Nat → Option (List β)) : Prop where
  point : ∀ x y, x < r.width → y < r.height → r.get mem' x y = (f x y).getD (r.get mem x y)
  outside : ∀ a, r.Outside a → mem' a = mem a

variable {r} {mem mem' mem'' : BitVec w → β} {f g : Nat → Nat → Option (List β)} {x y x' y' : Nat}
  {bs : List β}

namespace Fits

/-- A point lies within the raster. -/
theorem within (h : r.Fits) (hx : x < r.width) (hy : y < r.height) :
    r.pitch * y + r.depth * x + r.depth ≤ r.pitch * (y + 1) ∧
      r.pitch * (y + 1) ≤ r.pitch * r.height := by
  have hrow : r.depth * (x + 1) ≤ r.pitch := (Nat.mul_le_mul_left _ hx).trans h.row
  refine ⟨?_, Nat.mul_le_mul_left _ hy⟩
  rw [Nat.mul_add_one] at hrow ⊢
  omega

theorem toNat_address (h : r.Fits) (hx : x < r.width) (hy : y < r.height) (hd : 0 < r.depth) :
    (r.address x y).toNat = r.base.toNat + (r.pitch * y + r.depth * x) := by
  obtain ⟨hrow, hcol⟩ := h.within hx hy
  have hspace := h.space
  rw [address, BitVec.toNat_add, BitVec.toNat_ofNat, Nat.add_mod_mod, Nat.mod_eq_of_lt]
  omega

theorem inSpace (h : r.Fits) (hx : x < r.width) (hy : y < r.height) (hd : 0 < r.depth) :
    InSpace (r.address x y) r.depth := by
  obtain ⟨hrow, hcol⟩ := h.within hx hy
  have hspace := h.space
  rw [InSpace, h.toNat_address hx hy hd]
  omega

/-- Two points. -/
theorem apart (h : r.Fits) (hx : x < r.width) (hy : y < r.height) (hx' : x' < r.width)
    (hy' : y' < r.height) (hd : 0 < r.depth) (hne : ¬(x' = x ∧ y' = y)) :
    Apart (r.address x' y') r.depth (r.address x y) r.depth := by
  have hrow := (h.within hx hy).1
  have hrow' := (h.within hx' hy').1
  rw [Apart, h.toNat_address hx hy hd, h.toNat_address hx' hy' hd]
  rcases Nat.lt_trichotomy y' y with hlt | rfl | hlt
  · have : r.pitch * (y' + 1) ≤ r.pitch * y := Nat.mul_le_mul_left _ hlt
    exact .inl (by omega)
  · rcases Nat.lt_or_gt_of_ne fun heq => hne ⟨heq, rfl⟩ with hlt | hlt
    · have : r.depth * (x' + 1) ≤ r.depth * x := Nat.mul_le_mul_left _ hlt
      rw [Nat.mul_add_one] at this
      exact .inl (by omega)
    · have : r.depth * (x + 1) ≤ r.depth * x' := Nat.mul_le_mul_left _ hlt
      rw [Nat.mul_add_one] at this
      exact .inr (by omega)
  · have : r.pitch * (y + 1) ≤ r.pitch * y' := Nat.mul_le_mul_left _ hlt
    exact .inr (by omega)

end Fits

namespace Painted

theorem refl : r.Painted mem mem fun _ _ => none :=
  ⟨fun _ _ _ _ => rfl, fun _ _ => rfl⟩

theorem trans (h : r.Painted mem mem' f) (h' : r.Painted mem' mem'' g) :
    r.Painted mem mem'' fun x y => (g x y).or (f x y) where
  point x y hx hy := by
    rw [h'.point x y hx hy, h.point x y hx hy]
    cases g x y <;> rfl
  outside a ha := (h'.outside a ha).trans (h.outside a ha)

/-- Only what `f` says of the points of the raster matters. -/
theorem congr (h : r.Painted mem mem' f) (hf : ∀ x y, x < r.width → y < r.height → g x y = f x y) :
    r.Painted mem mem' g where
  point x y hx hy := by rw [h.point x y hx hy, hf x y hx hy]
  outside := h.outside

/-- One point is written. -/
theorem write (h : r.Fits) (hx : x < r.width) (hy : y < r.height) (hd : 0 < r.depth)
    (hbs : bs.length = r.depth) :
    r.Painted mem (writeBytes mem (r.address x y) bs)
      fun x' y' => if x' = x ∧ y' = y then some bs else none where
  point x' y' hx' hy' := by
    have hspace := h.inSpace hx hy hd
    rw [← hbs] at hspace
    split
    case isTrue heq =>
      obtain ⟨rfl, rfl⟩ := heq
      rw [get, ← hbs, readBytes_writeBytes hspace]
      rfl
    case isFalse hne =>
      have hapart := h.apart hx hy hx' hy' hd hne
      nth_rewrite 2 [← hbs] at hapart
      exact readBytes_writeBytes_of_apart (h.inSpace hx' hy' hd) hspace hapart
  outside a ha := by
    obtain ⟨hrow, hcol⟩ := h.within hx hy
    have hspace := h.inSpace hx hy hd
    refine writeBytes_of_outside (hbs ▸ hspace) ?_
    rw [h.toNat_address hx hy hd, hbs]
    unfold Outside at ha
    omega

end Painted

end Raster

end Lethe
