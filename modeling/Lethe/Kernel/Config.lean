import Mathlib.Tactic.Common
import Lethe.Lib.Run
import Lethe.Lib.Wp

/-!
# The configuration of timers and interrupts

`lethe-kernel/misc/config.c`. The functions that turn something on put their work between
`MAYBE_CLI` and `MAYBE_STI`, which mask and unmask interrupts if they have been enabled.
`enable_apic` leaves without `MAYBE_STI` when the calibration of the TSC fails, and `enable_pit` adds
its bit to that of the APIC timer.

`__get_cpuid` of a leaf is a parameter. The devices, and the handlers that are registered, are not
looked at; none of them changes the configuration or the interrupt flag.
-/

namespace Lethe

/-! ## The code -/

/-- `struct timer_subconfig`. -/
structure TimerSubconfig where
  timerSource : BitVec 3 := 0
  apicTscDeadline : Bool := false
  tscInvariant : Bool := false
  tscFreqKhz : BitVec 32 := 0
  deriving DecidableEq, Repr

/-- `struct kernel_config`. -/
structure KernelConfig where
  kexit : Bool := false
  interruptsEnabled : Bool := false
  interruptSource : BitVec 2 := 0
  multitaskingEnabled : Bool := false
  timers : TimerSubconfig := {}
  hasMcfg : Bool := false
  deriving DecidableEq, Repr

/-- The registers that `__get_cpuid` fills in. -/
structure CpuidRegs where
  eax : BitVec 32
  ebx : BitVec 32
  ecx : BitVec 32
  edx : BitVec 32

inductive ConfigFault
  | divisionByZero
  deriving DecidableEq, Repr

/-- `init_config_cpuid`; a leaf that is not supported is `none`. -/
def initConfigCpuid (getCpuid : BitVec 32 → Option CpuidRegs) :
    Except ConfigFault KernelConfig := do
  let timers : TimerSubconfig := {}
  match getCpuid 1 with
  | none => pure { timers }
  | some regs =>
    let timers := { timers with apicTscDeadline := regs.ecx.getLsbD 24 }
    let timers :=
      match getCpuid 0x80000007 with
      | none => timers
      | some regs => { timers with tscInvariant := regs.edx.getLsbD 8 }
    let timers ←
      (match getCpuid 0x15 with
      | none => pure timers
      | some regs =>
        if regs.eax = 0 then .error .divisionByZero
        else pure { timers with tscFreqKhz := regs.ecx * (regs.ebx / regs.eax) / 1000 })
    match getCpuid 0x16 with
    | none => pure { timers }
    | some regs => pure { timers := { timers with tscFreqKhz := regs.eax * 1000 } }

/-- `madt_init`, for a table that has been found or not. -/
def madtInit (found : Bool) (config : KernelConfig) : KernelConfig :=
  { config with interruptSource := if found then 0b10 else 0b1 }

/-- The configuration, the interrupt flag of the CPU and the one of the local APIC. -/
structure KernelState where
  config : KernelConfig
  interruptFlag : Bool
  lapicEnabled : Bool

namespace KernelState

/-- `cli`. -/
def cli (s : KernelState) : KernelState :=
  { s with
    interruptFlag := false
    lapicEnabled := if s.config.interruptSource &&& 0b10 ≠ 0 then false else s.lapicEnabled }

/-- `sti`. -/
def sti (s : KernelState) : KernelState :=
  { s with
    interruptFlag := true
    lapicEnabled := if s.config.interruptSource &&& 0b10 ≠ 0 then true else s.lapicEnabled }

/-- `MAYBE_STI`. -/
def maybeSti (s : KernelState) : KernelState := if s.config.interruptsEnabled then s.sti else s

/-- `MAYBE_CLI`. -/
def maybeCli (s : KernelState) : KernelState := if s.config.interruptsEnabled then s.cli else s

/-- An assignment to the fields of `kernel_config`. -/
def configure (f : KernelConfig → KernelConfig) (s : KernelState) : KernelState :=
  { s with config := f s.config }

/-- An assignment to the fields of `kernel_config.timers`. -/
def configureTimers (f : TimerSubconfig → TimerSubconfig) : KernelState → KernelState :=
  configure fun config => { config with timers := f config.timers }

/-- `enable_interrupts`. -/
def enableInterrupts (s : KernelState) : KernelState :=
  s.sti.configure fun config => { config with interruptsEnabled := true }

/-- `enable_tasking`. -/
def enableTasking (s : KernelState) : KernelState :=
  (s.maybeCli.configure fun config => { config with multitaskingEnabled := true }).maybeSti

/-- `enable_pit`. -/
def enablePit (s : KernelState) : KernelState :=
  (s.maybeCli.configureTimers fun timers =>
    { timers with timerSource := timers.timerSource ||| 0b001 }).maybeSti

/-- The end of `enable_apic`. -/
def useApicTimer (s : KernelState) : KernelState :=
  (s.configureTimers fun timers =>
    { timers with timerSource := timers.timerSource &&& ~~~0b001 ||| 0b010 }).maybeSti

/-- `enable_apic`, for the results of the two calls of `calibrate_tsc_slow`. -/
def enableApic (frequency second : BitVec 64) (s : KernelState) : KernelState :=
  let s := s.maybeCli
  if s.config.timers.tscFreqKhz = 0 then
    if s.config.interruptSource ≠ 0b10 ∨ !s.config.timers.apicTscDeadline ∨
        !s.config.timers.tscInvariant then s.enablePit
    else
      let error : BitVec 32 := (frequency - second).setWidth 32
      if error.toInt > 1500 ∨ error.toInt < -1500 then s
      else
        (s.configureTimers fun timers =>
          { timers with tscFreqKhz := frequency.setWidth 32 }).useApicTimer
  else s.useApicTimer

end KernelState

/-- A call, with the outcome of the calibration. -/
inductive ConfigCall
  | enableInterrupts
  | enableTasking
  | enablePit
  | enableApic (frequency second : BitVec 64)

def ConfigCall.run (s : KernelState) : ConfigCall → KernelState
  | .enableInterrupts => s.enableInterrupts
  | .enableTasking => s.enableTasking
  | .enablePit => s.enablePit
  | .enableApic frequency second => s.enableApic frequency second

/-! ## What stays consistent -/

namespace KernelState

/-- No timer, the PIT, or the APIC timer. -/
def Documented (timerSource : BitVec 3) : Prop :=
  timerSource = 0 ∨ timerSource = 1 ∨ timerSource = 2

/-- `timer_source` is one of the documented values, and interrupts are not masked once they have
been enabled. -/
structure Consistent (s : KernelState) : Prop where
  timerSource : Documented s.config.timers.timerSource
  interruptFlag : s.config.interruptsEnabled = true → s.interruptFlag = true

/-- The APIC timer can be used. -/
def ApicTimer (s : KernelState) : Prop :=
  s.config.interruptSource = 0b10 ∧ s.config.timers.apicTscDeadline = true ∧
    s.config.timers.tscInvariant = true

/-- The frequency of the TSC is not known, and the two calibrations differ by more than 1500. -/
def CalibrationFails (s : KernelState) (frequency second : BitVec 64) : Prop :=
  s.config.timers.tscFreqKhz = 0 ∧ s.ApicTimer ∧
    (((frequency - second).setWidth 32 : BitVec 32).toInt > 1500 ∨
      ((frequency - second).setWidth 32 : BitVec 32).toInt < -1500)

end KernelState

/-- `enable_pit` is not called for the APIC timer, and no calibration fails once interrupts have been
enabled. -/
def ConfigCall.Safe (s : KernelState) : ConfigCall → Prop
  | .enablePit => s.config.timers.timerSource &&& 0b010 = 0
  | .enableApic frequency second =>
    s.config.interruptsEnabled = true → ¬s.CalibrationFails frequency second
  | _ => True

namespace KernelState
variable {s : KernelState}

@[simp] theorem config_maybeSti : s.maybeSti.config = s.config := by
  rw [maybeSti]
  split <;> rfl

@[simp] theorem config_maybeCli : s.maybeCli.config = s.config := by
  rw [maybeCli]
  split <;> rfl

/-- Behind `MAYBE_STI` interrupts are not masked. -/
theorem interruptFlag_maybeSti (h : s.maybeSti.config.interruptsEnabled = true) :
    s.maybeSti.interruptFlag = true := by
  rw [config_maybeSti] at h
  rw [maybeSti, if_pos h]
  rfl

theorem interruptFlag_maybeCli (h : s.config.interruptsEnabled = true) :
    s.maybeCli.interruptFlag = false := by
  rw [maybeCli, if_pos h]
  rfl

theorem config_enablePit : s.enablePit.config = { s.config with
    timers.timerSource := s.config.timers.timerSource ||| 0b001 } := by
  rw [enablePit, config_maybeSti, configureTimers, configure, config_maybeCli]

theorem config_useApicTimer : s.useApicTimer.config = { s.config with
    timers.timerSource := s.config.timers.timerSource &&& ~~~0b001 ||| 0b010 } := by
  rw [useApicTimer, config_maybeSti, configureTimers, configure]

/-- The APIC timer is in use only where it can be. -/
structure Settled (s : KernelState) : Prop extends Consistent s where
  apic : s.config.timers.timerSource = 2 → s.config.timers.tscFreqKhz ≠ 0 ∨ s.ApicTimer

/-- The four ways through `enable_apic`. -/
theorem enableApic_cases (s : KernelState) (frequency second : BitVec 64) :
    (s.config.timers.tscFreqKhz ≠ 0 ∧
      s.enableApic frequency second = s.maybeCli.useApicTimer) ∨
    (s.config.timers.tscFreqKhz = 0 ∧ ¬s.ApicTimer ∧
      s.enableApic frequency second = s.maybeCli.enablePit) ∨
    (s.CalibrationFails frequency second ∧ s.enableApic frequency second = s.maybeCli) ∨
    (¬s.CalibrationFails frequency second ∧ s.ApicTimer ∧ s.enableApic frequency second =
      (s.maybeCli.configureTimers fun timers =>
        { timers with tscFreqKhz := frequency.setWidth 32 }).useApicTimer) := by
  have hunsupported : (s.config.interruptSource ≠ 0b10 ∨ !s.config.timers.apicTscDeadline ∨
      !s.config.timers.tscInvariant) ↔ ¬s.ApicTimer := by
    rw [ApicTimer, not_and_or, not_and_or, Bool.not_eq_true', Bool.not_eq_true',
      Bool.not_eq_true, Bool.not_eq_true]
  rw [enableApic, config_maybeCli]
  dsimp only
  split
  · next hfreq =>
    split
    · next hpit => exact .inr (.inl ⟨hfreq, hunsupported.mp hpit, rfl⟩)
    · next hpit =>
      have hapic : s.ApicTimer := not_not.mp (mt hunsupported.mpr hpit)
      split
      · next herror => exact .inr (.inr (.inl ⟨⟨hfreq, hapic, herror⟩, rfl⟩))
      · next herror => exact .inr (.inr (.inr ⟨fun hfails => herror hfails.2.2, hapic, rfl⟩))
  · next hfreq => exact .inl ⟨hfreq, rfl⟩

namespace Settled

theorem enableInterrupts (h : s.Settled) : s.enableInterrupts.Settled where
  timerSource := h.timerSource
  interruptFlag _ := rfl
  apic := h.apic

theorem enableTasking (h : s.Settled) : s.enableTasking.Settled where
  timerSource := by
    rw [KernelState.enableTasking, config_maybeSti, configure, config_maybeCli]
    exact h.timerSource
  interruptFlag := interruptFlag_maybeSti
  apic := by
    rw [ApicTimer, KernelState.enableTasking, config_maybeSti, configure, config_maybeCli]
    exact h.apic

end Settled

/-- From no timer or the PIT, the PIT. -/
theorem timerSource_enablePit (htimer : Documented s.config.timers.timerSource)
    (hsafe : s.config.timers.timerSource &&& 0b010 = 0) :
    s.enablePit.config.timers.timerSource = 1 := by
  rw [config_enablePit]
  dsimp only
  obtain hzero | hone | htwo := htimer
  · rw [hzero]
    rfl
  · rw [hone]
    rfl
  · rw [htwo] at hsafe
    exact absurd hsafe (by decide)

/-- From any timer, that of the APIC. -/
theorem timerSource_useApicTimer (htimer : Documented s.config.timers.timerSource) :
    s.useApicTimer.config.timers.timerSource = 2 := by
  rw [config_useApicTimer]
  dsimp only
  obtain hzero | hone | htwo := htimer
  · rw [hzero]
    rfl
  · rw [hone]
    rfl
  · rw [htwo]
    rfl

theorem settled_enablePit (htimer : Documented s.config.timers.timerSource)
    (hsafe : s.config.timers.timerSource &&& 0b010 = 0) : s.enablePit.Settled where
  timerSource := .inr (.inl (timerSource_enablePit htimer hsafe))
  interruptFlag := interruptFlag_maybeSti
  apic htwo := by
    rw [timerSource_enablePit htimer hsafe] at htwo
    exact absurd htwo (by decide)

theorem settled_useApicTimer (htimer : Documented s.config.timers.timerSource)
    (hapic : s.config.timers.tscFreqKhz ≠ 0 ∨ s.ApicTimer) : s.useApicTimer.Settled where
  timerSource := .inr (.inr (timerSource_useApicTimer htimer))
  interruptFlag := interruptFlag_maybeSti
  apic _ := by
    rw [ApicTimer, config_useApicTimer]
    exact hapic

theorem Settled.enableApic (h : s.Settled) {frequency second : BitVec 64}
    (hsafe : s.config.interruptsEnabled = true → ¬s.CalibrationFails frequency second) :
    (s.enableApic frequency second).Settled := by
  obtain ⟨hfreq, heq⟩ | ⟨hfreq, hpit, heq⟩ | ⟨hfails, heq⟩ | ⟨-, hapic, heq⟩ :=
    s.enableApic_cases frequency second
  · rw [heq]
    apply settled_useApicTimer
    · rw [config_maybeCli]
      exact h.timerSource
    · rw [config_maybeCli]
      exact .inl hfreq
  · rw [heq]
    apply settled_enablePit
    · rw [config_maybeCli]
      exact h.timerSource
    · -- the APIC timer is not in use, since it cannot be used
      rw [config_maybeCli]
      obtain hzero | hone | htwo := h.timerSource
      · rw [hzero]
        rfl
      · rw [hone]
        rfl
      · exact (h.apic htwo).elim (absurd hfreq) fun hapic => absurd hapic hpit
  · have hdisabled : s.config.interruptsEnabled ≠ true := fun henabled => hsafe henabled hfails
    rw [heq, maybeCli, if_neg hdisabled]
    exact h
  · rw [heq]
    apply settled_useApicTimer
    · rw [configureTimers, configure, config_maybeCli]
      exact h.timerSource
    · rw [ApicTimer, configureTimers, configure, config_maybeCli]
      exact .inr hapic

theorem Settled.run (h : s.Settled) {call : ConfigCall} (hsafe : call.Safe s) :
    (call.run s).Settled := by
  cases call with
  | enableInterrupts => exact h.enableInterrupts
  | enableTasking => exact h.enableTasking
  | enablePit => exact settled_enablePit h.timerSource hsafe
  | enableApic frequency second => exact h.enableApic hsafe

/-- The other calls leave `timer_source` at 3, or interrupts masked. -/
theorem Settled.safe_of_consistent (h : s.Settled) {call : ConfigCall}
    (hcall : (call.run s).Consistent) : call.Safe s := by
  cases call with
  | enableInterrupts => trivial
  | enableTasking => trivial
  | enablePit =>
    have htimer := hcall.timerSource
    rw [ConfigCall.run, config_enablePit] at htimer
    rw [ConfigCall.Safe]
    obtain hzero | hone | htwo := h.timerSource
    · rw [hzero]
      rfl
    · rw [hone]
      rfl
    · rw [htwo] at htimer
      have hreserved : ¬Documented (2 ||| 0b001) := by
        unfold Documented
        decide
      exact absurd htimer hreserved
  | enableApic frequency second =>
    intro henabled hfails
    have hmasked : s.enableApic frequency second = s.maybeCli := by
      obtain ⟨hfreq, -⟩ | ⟨-, hpit, -⟩ | ⟨-, heq⟩ | ⟨hnot, -⟩ :=
        s.enableApic_cases frequency second
      · exact absurd hfails.1 hfreq
      · exact absurd hfails.2.1 hpit
      · exact heq
      · exact absurd hfails hnot
    have hflag := hcall.interruptFlag
    rw [ConfigCall.run, hmasked, config_maybeCli, interruptFlag_maybeCli henabled] at hflag
    exact Bool.false_ne_true (hflag henabled)

/-- A call as a step of a run. -/
def step (s : KernelState) (call : ConfigCall) : Except ConfigFault (Unit × KernelState) :=
  .ok ((), call.run s)

end KernelState

theorem initConfigCpuid_spec {getCpuid : BitVec 32 → Option CpuidRegs} {config : KernelConfig}
    (h : initConfigCpuid getCpuid = .ok config) :
    config.interruptsEnabled = false ∧ config.timers.timerSource = 0 := by
  rw [initConfigCpuid] at h
  split at h
  · cases h
    exact ⟨rfl, rfl⟩
  · obtain ⟨timers, htimers, h⟩ := bind_eq_ok.mp h
    have hsource : timers.timerSource = 0 := by
      split at htimers
      · cases htimers
        split <;> rfl
      · split at htimers
        · cases htimers
        · cases htimers
          dsimp only
          split <;> rfl
    split at h
    · cases h
      exact ⟨rfl, hsource⟩
    · cases h
      exact ⟨rfl, hsource⟩

/-- From a configuration that `init_config_cpuid` and `madt_init` have made, every state is
consistent exactly if every call is safe. -/
theorem config_consistent_iff (getCpuid : BitVec 32 → Option CpuidRegs) (config : KernelConfig)
    (hinit : initConfigCpuid getCpuid = .ok config) (found interruptFlag lapicEnabled : Bool)
    (calls : List ConfigCall) :
    Run.Always KernelState.step KernelState.Consistent
        ⟨madtInit found config, interruptFlag, lapicEnabled⟩ calls ↔
      Run.Along KernelState.step (fun s call => call.Safe s)
        ⟨madtInit found config, interruptFlag, lapicEnabled⟩ calls := by
  obtain ⟨hdisabled, hnone⟩ := initConfigCpuid_spec hinit
  have hsettled : KernelState.Settled ⟨madtInit found config, interruptFlag, lapicEnabled⟩ := by
    refine ⟨⟨.inl hnone, fun henabled => ?_⟩, fun htwo => ?_⟩
    · exact absurd (hdisabled.symm.trans henabled) Bool.false_ne_true
    · exact absurd (hnone.symm.trans htwo) (by decide)
  refine Run.always_iff_along _ KernelState.Settled.toConsistent ?_ ?_ hsettled
  · intro s call hs hsafe
    exact ⟨(), call.run s, rfl, hs.run hsafe⟩
  · intro s call _ s' hs hstep hconsistent
    cases hstep
    exact hs.safe_of_consistent hconsistent

/-- A processor that only has leaf 1, with the deadline mode, and the invariant TSC. -/
def plainCpuid (leaf : BitVec 32) : Option CpuidRegs :=
  if leaf = 1 then some ⟨0, 0, 0x1000000, 0⟩
  else if leaf = 0x80000007 then some ⟨0, 0, 0, 0x100⟩
  else none

def plainConfig : KernelConfig :=
  { timers := { apicTscDeadline := true, tscInvariant := true } }

theorem plainCpuid_init : initConfigCpuid plainCpuid = .ok plainConfig := rfl

theorem config_consistent_iff_plain :
    Run.Always KernelState.step KernelState.Consistent
      ⟨madtInit true plainConfig, false, false⟩ [.enablePit, .enableInterrupts] :=
  (config_consistent_iff plainCpuid plainConfig plainCpuid_init true false false _).mpr
    ⟨rfl, fun _ _ _ => ⟨trivial, fun _ _ _ => trivial⟩⟩

/-- With the APIC timer in use `enable_pit` gives the reserved value 3; and with interrupts enabled
a calibration that fails masks them. -/
theorem config_inconsistent :
    ¬Run.Always KernelState.step KernelState.Consistent
      ⟨madtInit true plainConfig, false, false⟩ [.enableApic 3000000 3000000, .enablePit] ∧
    ¬Run.Always KernelState.step KernelState.Consistent
      ⟨madtInit true plainConfig, false, false⟩ [.enableInterrupts, .enableApic 3000000 2000000] := by
  constructor
  · rintro ⟨-, _, s, hs, -, _, s', hs', hconsistent⟩
    cases hs
    cases hs'
    have hreserved : ¬KernelState.Documented 3 := by
      unfold KernelState.Documented
      decide
    exact hreserved hconsistent.timerSource
  · rintro ⟨-, _, s, hs, -, _, s', hs', hconsistent⟩
    cases hs
    cases hs'
    exact absurd (hconsistent.interruptFlag rfl) (by decide)

end Lethe
