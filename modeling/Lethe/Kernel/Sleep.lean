import Lethe.Kernel.Config

/-!
# Deadlines

`ksleep` of `lethe-kernel/cpu/sleep.c` in the mode of the TSC deadline. The frequency is that which
`init_config_cpuid` takes from leaf 0x15: the ratio is rounded down before it is multiplied, and the
product has 32 bits. The number of cycles is a product of 64 bits that is divided afterwards.
-/

namespace Lethe

/-! ## The code -/

/-- `kernel_duration_t`. -/
structure KernelDuration where
  seconds : BitVec 64
  milliseconds : BitVec 64
  nanoseconds : BitVec 64

/-- `duration_to_ns`; `MS_PER_NS` is 1000000. -/
def durationToNs (duration : KernelDuration) : BitVec 64 :=
  duration.nanoseconds + duration.milliseconds * 1000000 + duration.seconds * 1000000000

/-- `duration_to_ms`. -/
def durationToMs (duration : KernelDuration) : BitVec 64 :=
  duration.milliseconds + duration.nanoseconds / 1000000 + duration.seconds * 1000

/-- `ksleep` up to its loop, with the reading `now` of the TSC: `ticks`, and the deadline that is
programmed in the mode of the TSC. -/
def ksleep (timers : TimerSubconfig) (now : BitVec 64) (duration : KernelDuration) :
    BitVec 64 × Option (BitVec 64) :=
  if timers.timerSource &&& 0b10 ≠ 0 then
    let nanos := durationToNs duration
    (1, some (now + nanos * timers.tscFreqKhz.setWidth 64 / 1000000))
  else (durationToMs duration, none)

/-! ## The exact values -/

namespace KernelDuration

/-- The nanoseconds of a duration. -/
def total (duration : KernelDuration) : Nat :=
  duration.nanoseconds.toNat + duration.milliseconds.toNat * 1000000 +
    duration.seconds.toNat * 1000000000

theorem toNat_durationToNs {duration : KernelDuration} (h : duration.total < 2 ^ 64) :
    (durationToNs duration).toNat = duration.total := by
  rw [total] at h ⊢
  have hmillion : (1000000 : BitVec 64).toNat = 1000000 := rfl
  have hbillion : (1000000000 : BitVec 64).toNat = 1000000000 := rfl
  rw [durationToNs, BitVec.toNat_add, BitVec.toNat_add, BitVec.toNat_mul, BitVec.toNat_mul,
    hmillion, hbillion]
  omega

end KernelDuration

/-- A quotient by `1000 * e`, from what is left of `p` below `w` and what is cut off. -/
theorem mul_add_div_eq {e : Nat} (p w r : Nat) (h : 0 < e) : (p * e + r) / (e * 1000) =
    p % w / 1000 + ((p / w * w + p % w % 1000) * e + r) / (e * 1000) := by
  have hp : p = p / w * w + p % w % 1000 + 1000 * (p % w / 1000) := by
    rw [Nat.add_assoc, Nat.mod_add_div, Nat.mul_comm, Nat.div_add_mod]
  have hsplit : p * e = (p / w * w + p % w % 1000) * e + e * 1000 * (p % w / 1000) := by
    calc p * e = (p / w * w + p % w % 1000 + 1000 * (p % w / 1000)) * e := by rw [← hp]
      _ = (p / w * w + p % w % 1000) * e + e * 1000 * (p % w / 1000) := by
        rw [Nat.add_mul, Nat.mul_comm (1000 * _), Nat.mul_assoc]
  rw [hsplit, Nat.add_right_comm, Nat.add_mul_div_left _ _ (by omega), Nat.add_comm]

namespace CpuidRegs

/-- The frequency of leaf 0x15 in kHz. -/
def freqKhz (regs : CpuidRegs) : Nat := regs.ecx.toNat * regs.ebx.toNat / (regs.eax.toNat * 1000)

/-- The product of the crystal's frequency and the ratio, rounded down. -/
def product (regs : CpuidRegs) : Nat := regs.ecx.toNat * (regs.ebx.toNat / regs.eax.toNat)

/-- The whole kHz in what is cut off: the bits of the product from 32 on, the rest of its division
by 1000, and the rest of the ratio. -/
def lostKhz (regs : CpuidRegs) : Nat :=
  ((regs.product / 2 ^ 32 * 2 ^ 32 + regs.product % 2 ^ 32 % 1000) * regs.eax.toNat +
    regs.ecx.toNat * (regs.ebx.toNat % regs.eax.toNat)) / (regs.eax.toNat * 1000)

theorem mul_eq_product (regs : CpuidRegs) : regs.ecx.toNat * regs.ebx.toNat =
    regs.product * regs.eax.toNat + regs.ecx.toNat * (regs.ebx.toNat % regs.eax.toNat) := by
  rw [product, Nat.mul_assoc, Nat.mul_comm (_ / _), ← Nat.mul_add, Nat.div_add_mod]

theorem freqKhz_eq {regs : CpuidRegs} (h : 0 < regs.eax.toNat) :
    regs.freqKhz = regs.product % 2 ^ 32 / 1000 + regs.lostKhz := by
  rw [freqKhz, mul_eq_product]
  exact mul_add_div_eq regs.product (2 ^ 32) _ h

end CpuidRegs

/-- The cycles of `n` nanoseconds at `f + lost` kHz, from the product of 64 bits at `f` kHz. -/
theorem cycles_eq_iff {n f lost now : Nat} (hf : f < 2 ^ 32)
    (h : now + n * (f + lost) / 1000000 < 2 ^ 64) :
    (now + n * f % 2 ^ 64 / 1000000) % 2 ^ 64 = now + n * (f + lost) / 1000000 ↔
      (lost = 0 → n * (f + lost) < 2 ^ 64) ∧ n * lost ≤ n * (f + lost) % 1000000 := by
  rw [Nat.mul_add] at h ⊢
  constructor
  · intro heq
    have hle : n * f % 2 ^ 64 / 1000000 ≤ (n * f + n * lost) / 1000000 :=
      Nat.div_le_div_right (by omega)
    rw [Nat.mod_eq_of_lt (Nat.lt_of_le_of_lt (Nat.add_le_add_left hle now) h)] at heq
    have hproduct : n * f < 2 ^ 64 := by
      apply Nat.lt_of_not_le
      intro hbig
      have hmod : n * f % 2 ^ 64 ≤ n * f - 2 ^ 64 := by omega
      have hdiv : n * f % 2 ^ 64 / 1000000 ≤ (n * f - 2 ^ 64) / 1000000 :=
        Nat.div_le_div_right hmod
      omega
    rw [Nat.mod_eq_of_lt hproduct] at heq
    refine ⟨fun hzero => ?_, by omega⟩
    rw [hzero, Nat.mul_zero]
    exact hproduct
  · rintro ⟨hfits, hshort⟩
    have hproduct : n * f < 2 ^ 64 := by
      cases lost with
      | zero =>
        rw [Nat.mul_zero] at hfits
        exact hfits rfl
      | succ lost =>
        have hn : n ≤ n * (lost + 1) := Nat.le_mul_of_pos_right n (Nat.succ_pos lost)
        have hmul : n * f ≤ 1000000 * 2 ^ 32 := Nat.mul_le_mul (by omega) (Nat.le_of_lt hf)
        omega
    rw [Nat.mod_eq_of_lt hproduct]
    omega

/-! ## The deadline -/

variable {getCpuid : BitVec 32 → Option CpuidRegs} {regs : CpuidRegs} {duration : KernelDuration}
  {now : BitVec 64}

theorem initConfigCpuid_zero (hfirst : (getCpuid 1).isSome) (hleaf : getCpuid 0x15 = some regs)
    (heax : regs.eax = 0) : initConfigCpuid getCpuid = .error .divisionByZero := by
  obtain ⟨first, hfirst⟩ := Option.isSome_iff_exists.mp hfirst
  rw [initConfigCpuid, hfirst, hleaf]
  dsimp only
  rw [if_pos heax]
  rfl

theorem initConfigCpuid_leaf (hfirst : (getCpuid 1).isSome) (hleaf : getCpuid 0x15 = some regs)
    (hnext : getCpuid 0x16 = none) (heax : regs.eax ≠ 0) :
    ∃ config, initConfigCpuid getCpuid = .ok config ∧
      config.timers.tscFreqKhz = regs.ecx * (regs.ebx / regs.eax) / 1000 := by
  obtain ⟨first, hfirst⟩ := Option.isSome_iff_exists.mp hfirst
  rw [initConfigCpuid, hfirst, hleaf, hnext]
  dsimp only
  rw [if_neg heax]
  exact ⟨_, rfl, rfl⟩

theorem CpuidRegs.toNat_product (regs : CpuidRegs) :
    (regs.ecx * (regs.ebx / regs.eax) / 1000).toNat = regs.product % 2 ^ 32 / 1000 := by
  rw [BitVec.toNat_udiv, BitVec.toNat_mul, BitVec.toNat_udiv, product]
  rfl

/-- The deadline, before it is cut to 64 bits. -/
def exactDeadline (regs : CpuidRegs) (duration : KernelDuration) (now : BitVec 64) : Nat :=
  now.toNat + duration.total * regs.freqKhz / 1000000

/-- The frequency fits 32 bits, and the duration and the deadline fit 64. -/
structure Representable (regs : CpuidRegs) (duration : KernelDuration) (now : BitVec 64) :
    Prop where
  freqKhz : regs.freqKhz < 2 ^ 32
  total : duration.total < 2 ^ 64
  deadline : exactDeadline regs duration now < 2 ^ 64

/-- `init_config_cpuid` comes to its end, and with the frequency that it leaves `ksleep` programs
the exact deadline if that can be represented. -/
def SleepsExactly (getCpuid : BitVec 32 → Option CpuidRegs) (regs : CpuidRegs)
    (duration : KernelDuration) (now : BitVec 64) : Prop :=
  ∃ config, initConfigCpuid getCpuid = .ok config ∧
    (regs.eax ≠ 0 → Representable regs duration now →
      ∀ source : BitVec 3, source &&& 0b10 ≠ 0 →
        (ksleep { config.timers with timerSource := source } now duration).2 =
          some (BitVec.ofNat 64 (exactDeadline regs duration now)))

theorem ksleep_deadline_eq_iff (timers : TimerSubconfig) (hsource : timers.timerSource &&& 0b10 ≠ 0)
    (hfreq : timers.tscFreqKhz = regs.ecx * (regs.ebx / regs.eax) / 1000)
    (heax : regs.eax ≠ 0) (hrep : Representable regs duration now) :
    (ksleep timers now duration).2 = some (BitVec.ofNat 64 (exactDeadline regs duration now)) ↔
      (regs.lostKhz = 0 → duration.total * regs.freqKhz < 2 ^ 64) ∧
        duration.total * regs.lostKhz ≤ duration.total * regs.freqKhz % 1000000 := by
  have hpos : 0 < regs.eax.toNat :=
    Nat.pos_of_ne_zero fun hzero => heax (BitVec.eq_of_toNat_eq hzero)
  have hkhz : regs.product % 2 ^ 32 / 1000 < 2 ^ 32 := by omega
  have hdeadline := hrep.deadline
  have hmillion : (1000000 : BitVec 64).toNat = 1000000 := rfl
  rw [ksleep, if_pos hsource, Option.some_inj, hfreq]
  rw [exactDeadline, CpuidRegs.freqKhz_eq hpos] at hdeadline ⊢
  rw [← BitVec.toNat_inj, BitVec.toNat_add, BitVec.toNat_udiv, BitVec.toNat_mul,
    BitVec.toNat_setWidth_of_le (by decide), KernelDuration.toNat_durationToNs hrep.total,
    regs.toNat_product, hmillion, BitVec.toNat_ofNat, Nat.mod_eq_of_lt hdeadline]
  exact cycles_eq_iff hkhz hdeadline

/-- The deadline is exact if what is lost of the frequency is less than a cycle over the duration.
`__get_cpuid` supports leaf 1 if it supports leaf 0x15. -/
theorem sleepsExactly_iff (getCpuid : BitVec 32 → Option CpuidRegs) (regs : CpuidRegs)
    (duration : KernelDuration) (now : BitVec 64)
    (hleaves : (getCpuid 0x15).isSome → (getCpuid 1).isSome)
    (hleaf : getCpuid 0x15 = some regs) (hnext : getCpuid 0x16 = none) :
    SleepsExactly getCpuid regs duration now ↔ regs.eax ≠ 0 ∧ (Representable regs duration now →
      (regs.lostKhz = 0 → duration.total * regs.freqKhz < 2 ^ 64) ∧
        duration.total * regs.lostKhz ≤ duration.total * regs.freqKhz % 1000000) := by
  have hfirst : (getCpuid 1).isSome := hleaves (Option.isSome_of_mem hleaf)
  rw [SleepsExactly]
  constructor
  · rintro ⟨config, hconfig, hexact⟩
    have heax : regs.eax ≠ 0 := by
      intro heax
      rw [initConfigCpuid_zero hfirst hleaf heax] at hconfig
      cases hconfig
    obtain ⟨config', hconfig', hfreq⟩ := initConfigCpuid_leaf hfirst hleaf hnext heax
    obtain rfl : config' = config := Except.ok.inj (hconfig'.symm.trans hconfig)
    refine ⟨heax, fun hrep => ?_⟩
    have hsource : (0b10 : BitVec 3) &&& 0b10 ≠ 0 := by decide
    exact (ksleep_deadline_eq_iff { config'.timers with timerSource := 0b10 } hsource hfreq heax
      hrep).mp (hexact heax hrep 0b10 hsource)
  · rintro ⟨heax, hshort⟩
    obtain ⟨config, hconfig, hfreq⟩ := initConfigCpuid_leaf hfirst hleaf hnext heax
    refine ⟨config, hconfig, fun _ hrep source hsource => ?_⟩
    exact (ksleep_deadline_eq_iff { config.timers with timerSource := source } hsource hfreq heax
      hrep).mpr (hshort hrep)

/-- `__get_cpuid` of a CPU that has leaf 1 and leaf 0x15 only. -/
def cpuidTsc (regs : CpuidRegs) (leaf : BitVec 32) : Option CpuidRegs :=
  if leaf = 1 then some ⟨0, 0, 0, 0⟩ else if leaf = 0x15 then some regs else none

theorem sleepsExactly_crystal : SleepsExactly (cpuidTsc ⟨2, 250, 24000000, 0⟩)
    ⟨2, 250, 24000000, 0⟩ ⟨0, 10, 0⟩ 7 :=
  (sleepsExactly_iff _ _ ⟨0, 10, 0⟩ 7 (fun _ => rfl) rfl rfl).mpr ⟨by decide, fun _ => by decide⟩

/-- Leaf 0x15 without a ratio divides by zero, and with a ratio of 3 / 2 and a crystal of 24 MHz a
millisecond is 12000 cycles short. -/
theorem sleep_inexact :
    initConfigCpuid (cpuidTsc ⟨0, 0, 0, 0⟩) = .error .divisionByZero ∧
    ¬SleepsExactly (cpuidTsc ⟨0, 0, 0, 0⟩) ⟨0, 0, 0, 0⟩ ⟨0, 1, 0⟩ 0 ∧
    ¬SleepsExactly (cpuidTsc ⟨2, 3, 24000000, 0⟩) ⟨2, 3, 24000000, 0⟩ ⟨0, 1, 0⟩ 0 := by
  have hzero : initConfigCpuid (cpuidTsc ⟨0, 0, 0, 0⟩) = .error .divisionByZero :=
    initConfigCpuid_zero rfl rfl rfl
  have hhalves : initConfigCpuid (cpuidTsc ⟨2, 3, 24000000, 0⟩) =
      .ok { timers := { tscFreqKhz := 24000 } } := rfl
  have hrep : Representable ⟨2, 3, 24000000, 0⟩ ⟨0, 1, 0⟩ 0 :=
    ⟨by decide, by decide, by decide⟩
  refine ⟨hzero, ?_, ?_⟩
  · rintro ⟨config, hconfig, -⟩
    rw [hzero] at hconfig
    cases hconfig
  · rintro ⟨config, hconfig, hexact⟩
    rw [hhalves] at hconfig
    cases hconfig
    have hdeadline := hexact (by decide) hrep 0b10 (by decide)
    revert hdeadline
    decide

end Lethe
