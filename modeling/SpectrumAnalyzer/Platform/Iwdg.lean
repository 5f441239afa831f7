import Mathlib.Data.Nat.Notation
import Mathlib.Logic.Function.Iterate

/-!
# IWDG and the reset flags

The independent watchdog and the reset flags of RCC belong to the microcontroller and not to
the source.  They are taken as they are used: `Hardware` has a function for each call that
`board_skeleton.c` makes and for each thing that can happen to them, on states of any type,
and `Hardware.Documented` is what the reference manual says about these functions.  The
counter of IWDG is loaded with the reload value and goes down by one with each period of the
prescaled clock; a period that finds it at zero resets the microcontroller.  So a load lasts
for one period more than the reload value.

## Main definitions

* `Reset` — what can reset the microcontroller.
* `Hardware`, `Hardware.Documented` — the peripherals, and their documented behaviour.
* `Registers`, `registers` — peripherals that behave so.
-/

namespace SpectrumAnalyzer

/-- What can reset the microcontroller. -/
inductive Reset where
  | power
  | pin
  | iwdg
  deriving DecidableEq, Repr

/-- IWDG and the reset flags, as the source uses them. -/
structure Hardware (σ : Type*) where
  /-- As power comes up. -/
  powerUp : σ
  /-- Behind a reset. -/
  reset : Reset → σ → σ
  /-- `__HAL_RCC_GET_FLAG(RCC_FLAG_IWDGRST)`. -/
  iwdgrst : σ → Bool
  /-- `__HAL_RCC_CLEAR_RESET_FLAGS`. -/
  clearResetFlags : σ → σ
  /-- `HAL_IWDG_Init`, with prescaler and reload value. -/
  iwdgInit : ℕ → ℕ → σ → σ
  /-- `HAL_IWDG_Refresh`. -/
  iwdgRefresh : σ → σ
  /-- A period of the prescaled clock, and whether IWDG resets the microcontroller. -/
  iwdgTick : σ → σ × Bool
  /-- The reload register. -/
  reload : σ → ℕ
  /-- The counter, once IWDG is started. -/
  counter : σ → Option ℕ

/-- What the reference manual says. -/
structure Hardware.Documented {σ : Type*} (hardware : Hardware σ) : Prop where
  iwdgrst_powerUp : hardware.iwdgrst hardware.powerUp = false
  iwdgrst_power : ∀ s, hardware.iwdgrst (hardware.reset .power s) = false
  iwdgrst_pin : ∀ s, hardware.iwdgrst (hardware.reset .pin s) = hardware.iwdgrst s
  iwdgrst_iwdg : ∀ s, hardware.iwdgrst (hardware.reset .iwdg s) = true
  iwdgrst_clear : ∀ s, hardware.iwdgrst (hardware.clearResetFlags s) = false
  iwdgrst_init : ∀ prescaler reload s,
    hardware.iwdgrst (hardware.iwdgInit prescaler reload s) = hardware.iwdgrst s
  iwdgrst_refresh : ∀ s, hardware.iwdgrst (hardware.iwdgRefresh s) = hardware.iwdgrst s
  iwdgrst_tick : ∀ s, hardware.iwdgrst (hardware.iwdgTick s).1 = hardware.iwdgrst s
  reload_init : ∀ prescaler reload s,
    hardware.reload (hardware.iwdgInit prescaler reload s) = reload
  reload_refresh : ∀ s, hardware.reload (hardware.iwdgRefresh s) = hardware.reload s
  reload_tick : ∀ s, hardware.reload (hardware.iwdgTick s).1 = hardware.reload s
  counter_init : ∀ prescaler reload s,
    hardware.counter (hardware.iwdgInit prescaler reload s) = some reload
  counter_refresh : ∀ s, hardware.counter s ≠ none →
    hardware.counter (hardware.iwdgRefresh s) = some (hardware.reload s)
  counter_tick : ∀ s left, hardware.counter s = some (left + 1) →
    hardware.counter (hardware.iwdgTick s).1 = some left
  expires : ∀ s, hardware.counter s = some 0 → (hardware.iwdgTick s).2 = true

/-- The registers that matter. -/
structure Registers where
  iwdgrst : Bool
  reload : ℕ
  counter : Option ℕ
  deriving DecidableEq, Repr

/-- Peripherals that behave as documented. -/
def registers : Hardware Registers where
  powerUp := ⟨false, 4095, none⟩
  reset cause s := match cause with
    | .power => ⟨false, 4095, none⟩
    | .pin => ⟨s.iwdgrst, 4095, none⟩
    | .iwdg => ⟨true, 4095, none⟩
  iwdgrst := Registers.iwdgrst
  clearResetFlags s := { s with iwdgrst := false }
  iwdgInit _ reload s := { s with reload := reload, counter := some reload }
  iwdgRefresh s := { s with counter := s.counter.map fun _ => s.reload }
  iwdgTick s := match s.counter with
    | none => (s, false)
    | some 0 => (s, true)
    | some (left + 1) => ({ s with counter := some left }, false)
  reload := Registers.reload
  counter := Registers.counter

theorem registers_tick (s : Registers) :
    (registers.iwdgTick s).1.iwdgrst = s.iwdgrst ∧ (registers.iwdgTick s).1.reload = s.reload := by
  rw [registers]
  dsimp only
  split <;> exact ⟨rfl, rfl⟩

theorem registers_documented : registers.Documented where
  iwdgrst_powerUp := rfl
  iwdgrst_power _ := rfl
  iwdgrst_pin _ := rfl
  iwdgrst_iwdg _ := rfl
  iwdgrst_clear _ := rfl
  iwdgrst_init _ _ _ := rfl
  iwdgrst_refresh _ := rfl
  iwdgrst_tick s := (registers_tick s).1
  reload_init _ _ _ := rfl
  reload_refresh _ := rfl
  reload_tick s := (registers_tick s).2
  counter_init _ _ _ := rfl
  counter_refresh s h := by
    obtain ⟨left, hleft⟩ := Option.ne_none_iff_exists'.mp h
    simp only [registers] at hleft ⊢
    rw [hleft]
    rfl
  counter_tick s left h := by
    simp only [registers] at h ⊢
    rw [h]
  expires s h := by
    simp only [registers] at h ⊢
    rw [h]

/-- Some refreshes leave the counter as it was, or loaded. -/
theorem registers_refresh (flag : Bool) (reload left n : ℕ) :
    registers.iwdgRefresh^[n] ⟨flag, reload, some left⟩ =
      ⟨flag, reload, some (if n = 0 then left else reload)⟩ := by
  induction n with
  | zero => rfl
  | succ n ih =>
      rw [Function.iterate_succ_apply', ih, if_neg (Nat.succ_ne_zero n)]
      rfl

end SpectrumAnalyzer
