import Mathlib.Algebra.Order.Group.Nat
import Mathlib.Data.Nat.Basic

namespace Countdown

variable {bound cnt spent spent' amount most unit n : Nat}

/-- As long as a budget is counted down, what was spent and what is left fit in it. -/
def Within (bound cnt spent : Nat) : Prop := cnt ≠ 0 → spent + cnt ≤ bound

theorem Within.start (bound : Nat) (h : spent + cnt ≤ bound) : Within bound cnt spent := fun _ => h

/-- The countdown stops at zero; an amount that is larger ends it. -/
theorem Within.spend (h : Within bound cnt spent) (hc : cnt ≠ 0) (hs : spent' ≤ spent + amount) :
    Within bound (cnt - amount) spent' := by
  intro hleft
  have hle := h hc
  omega

theorem Within.lower {cnt' : Nat} (h : Within bound cnt spent) (hle : cnt' ≤ cnt) :
    Within bound cnt' spent := by
  intro hleft
  have hspent := h (by omega)
  omega

/-- The last amount may exceed what was left by all but one of its units. -/
theorem Within.overshoot (h : Within bound cnt spent) (hc : cnt ≠ 0) (ha : amount ≤ most) :
    spent + amount ≤ bound + most - 1 := by
  have hle := h hc
  omega

/-- When every amount is at least `unit`, few of them fit. -/
theorem Within.count {k : Nat} (h : Within bound cnt (k * unit)) (hc : cnt ≠ 0)
    (hb : bound ≤ n * unit) : k < n := by
  have hle := h hc
  have hlt : k * unit < n * unit := by omega
  exact Nat.lt_of_mul_lt_mul_right hlt

end Countdown
