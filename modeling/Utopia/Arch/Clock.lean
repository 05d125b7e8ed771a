/-
The clocks of `arch/x86_64/clock/invariant-tsc.c` and `arch/riscv64/cpu/timer.c`.
-/
import Utopia.Lib.Memory

namespace Utopia

def nsPerSec : Word := 1000000000

/-- `invariant_tsc_to_ns`. -/
def invariantTscToNs (ticks tscHz : Word) : Word := ticks * nsPerSec / tscHz

def tscDeltaNs (start stop tscHz : Word) : Word := invariantTscToNs (stop - start) tscHz

/-- What `tsc_get_ns_time` reads beside the counter. -/
structure TscClock where
  hasInvariantTsc : Bool
  tscFrequency : Word
  tscBootValue : Word
  tscInitialized : Bool

/-- `tsc_get_ns_time` with the counter at `now`. -/
def TscClock.getNsTime (clock : TscClock) (now : Word) : Word :=
  if !clock.hasInvariantTsc || !clock.tscInitialized then 0
  else invariantTscToNs (now - clock.tscBootValue) clock.tscFrequency

/-- What `arch_get_ns_time` of riscv64 reads beside the counter. -/
structure RiscvTimer where
  timerHz : Word
  timerBootVal : Word
  timerInitialized : Bool

/-- `arch_get_ns_time` with the counter at `now`. -/
def RiscvTimer.getNsTime (timer : RiscvTimer) (now : Word) : Word :=
  if !timer.timerInitialized then 0
  else (now - timer.timerBootVal) * nsPerSec / timer.timerHz

/-- The nanoseconds that `ticks` last. -/
def elapsedNs (ticks hz : Word) : ℕ := ticks.toNat * 10 ^ 9 / hz.toNat

/-- After `ticks` both clocks tell the time exactly, and none of their earlier readings is
later. -/
structure TellsTime (hz ticks : Word) : Prop where
  tsc : (invariantTscToNs ticks hz).toNat = elapsedNs ticks hz
  riscv : ∀ boot, (RiscvTimer.getNsTime ⟨hz, boot, true⟩ (boot + ticks)).toNat =
    elapsedNs ticks hz
  tscMonotone : ∀ boot, ∀ earlier ≤ ticks,
    TscClock.getNsTime ⟨true, hz, boot, true⟩ (boot + earlier) ≤
      TscClock.getNsTime ⟨true, hz, boot, true⟩ (boot + ticks)
  riscvMonotone : ∀ boot, ∀ earlier ≤ ticks,
    RiscvTimer.getNsTime ⟨hz, boot, true⟩ (boot + earlier) ≤
      RiscvTimer.getNsTime ⟨hz, boot, true⟩ (boot + ticks)

variable {hz ticks earlier boot : Word}

theorem invariantTscToNs_toNat (ticks hz : Word) : (invariantTscToNs ticks hz).toNat =
    ticks.toNat * 10 ^ 9 % 2 ^ 64 / hz.toNat := by
  rw [invariantTscToNs, BitVec.toNat_udiv, BitVec.toNat_mul]
  rfl

theorem TscClock.getNsTime_after (boot ticks hz : Word) :
    TscClock.getNsTime ⟨true, hz, boot, true⟩ (boot + ticks) = invariantTscToNs ticks hz := by
  simp only [TscClock.getNsTime, BitVec.add_comm boot, BitVec.add_sub_cancel]
  rfl

theorem RiscvTimer.getNsTime_after (boot ticks hz : Word) :
    RiscvTimer.getNsTime ⟨hz, boot, true⟩ (boot + ticks) = invariantTscToNs ticks hz := by
  simp only [RiscvTimer.getNsTime, BitVec.add_comm boot, BitVec.add_sub_cancel]
  rfl

/-- A product that wraps is told as less than it is, whatever the frequency. -/
theorem invariantTscToNs_lt (hhz : hz ≠ 0) (hwraps : 2 ^ 64 ≤ ticks.toNat * 10 ^ 9) :
    (invariantTscToNs ticks hz).toNat < elapsedNs ticks hz := by
  have hpos : 0 < hz.toNat := Nat.pos_of_ne_zero fun h => hhz (BitVec.eq_of_toNat_eq h)
  have hlt := hz.isLt
  have hsmaller : ticks.toNat * 10 ^ 9 % 2 ^ 64 + hz.toNat ≤ ticks.toNat * 10 ^ 9 := by
    omega
  rw [invariantTscToNs_toNat, elapsedNs]
  calc ticks.toNat * 10 ^ 9 % 2 ^ 64 / hz.toNat
      < ticks.toNat * 10 ^ 9 % 2 ^ 64 / hz.toNat + 1 := Nat.lt_succ_self _
    _ = (ticks.toNat * 10 ^ 9 % 2 ^ 64 + hz.toNat) / hz.toNat := (Nat.add_div_right _ hpos).symm
    _ ≤ ticks.toNat * 10 ^ 9 / hz.toNat := Nat.div_le_div_right hsmaller

theorem invariantTscToNs_eq (hfits : ticks.toNat * 10 ^ 9 < 2 ^ 64) :
    (invariantTscToNs ticks hz).toNat = elapsedNs ticks hz := by
  rw [invariantTscToNs_toNat, elapsedNs, Nat.mod_eq_of_lt hfits]

theorem invariantTscToNs_mono (hfits : ticks.toNat * 10 ^ 9 < 2 ^ 64) (hle : earlier ≤ ticks) :
    invariantTscToNs earlier hz ≤ invariantTscToNs ticks hz := by
  rw [BitVec.le_def] at hle ⊢
  have hearlier : earlier.toNat * 10 ^ 9 < 2 ^ 64 :=
    (Nat.mul_le_mul_right _ hle).trans_lt hfits
  rw [invariantTscToNs_eq hfits, invariantTscToNs_eq hearlier]
  exact Nat.div_le_div_right (Nat.mul_le_mul_right _ hle)

/-- The clocks tell the time exactly as long as its product with 10⁹ fits in 64 bits. -/
theorem tellsTime_iff (hhz : hz ≠ 0) :
    TellsTime hz ticks ↔ ticks.toNat * 10 ^ 9 < 2 ^ 64 := by
  constructor
  · intro h
    rcases Nat.lt_or_ge (ticks.toNat * 10 ^ 9) (2 ^ 64) with hfits | hwraps
    · exact hfits
    · have hless := invariantTscToNs_lt hhz hwraps
      rw [h.tsc] at hless
      exact absurd hless (Nat.lt_irrefl _)
  · intro hfits
    refine ⟨invariantTscToNs_eq hfits, fun boot => ?_, fun boot earlier hle => ?_,
      fun boot earlier hle => ?_⟩
    · rw [RiscvTimer.getNsTime_after, invariantTscToNs_eq hfits]
    · rw [TscClock.getNsTime_after, TscClock.getNsTime_after]
      exact invariantTscToNs_mono hfits hle
    · rw [RiscvTimer.getNsTime_after, RiscvTimer.getNsTime_after]
      exact invariantTscToNs_mono hfits hle

/-- Five seconds on the timer of riscv64. -/
theorem tellsTime_iff_sample :
    TellsTime 10000000 50000000 ↔ (50000000 : Word).toNat * 10 ^ 9 < 2 ^ 64 :=
  tellsTime_iff (by decide)

/-- A counter at 2.5 GHz, 7.4 s after the boot: the reported time has fallen back to 0. -/
theorem not_tellsTime : ∃ hz ticks : Word, hz ≠ 0 ∧ elapsedNs ticks hz < 2 ^ 64 ∧
    ¬ TellsTime hz ticks :=
  ⟨2500000000, 18446744074, by decide, by decide, fun h => absurd h.tsc (by decide)⟩

end Utopia
