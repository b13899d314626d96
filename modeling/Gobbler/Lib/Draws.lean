import Mathlib.Data.Int.CardIntervalMod
import Mathlib.Order.Bounds.Basic
import Mathlib.Order.Interval.Finset.Nat
import Mathlib.Order.Lattice.Nat

namespace Draws

variable {γ ν : Type} {ok : ν → Prop} {vs : Nat → ν} {n : Nat}

/-- The values that a generator gives one after the other, from the state `g` on. -/
def outputs (next : γ → ν × γ) (g : γ) : Nat → ν
  | 0 => (next g).1
  | n + 1 => outputs next (next g).2 n

/-- The generator after so many outputs. -/
def after (next : γ → ν × γ) (g : γ) : Nat → γ
  | 0 => g
  | n + 1 => after next (next g).2 n

theorem outputs_eq (next : γ → ν × γ) (g : γ) (n : Nat) :
    outputs next g n = (next (after next g n)).1 := by
  induction n generalizing g with
  | zero => rfl
  | succ n ih => exact ih (next g).2

/-- A generator that reads its outputs off a stream. -/
def reading (vs : Nat → ν) (n : Nat) : ν × Nat := (vs n, n + 1)

/-- Its state counts the draws. -/
theorem after_reading (vs : Nat → ν) (m n : Nat) : after (reading vs) m n = m + n := by
  induction n generalizing m with
  | zero => rfl
  | succ n ih =>
    have hnext := ih (m + 1)
    rw [Nat.add_right_comm] at hnext
    exact hnext

theorem outputs_reading (vs : Nat → ν) (m n : Nat) : outputs (reading vs) m n = vs (m + n) := by
  rw [outputs_eq, after_reading, reading]

/-- Rejection sampling takes the first value that it accepts. -/
def StopsAt (ok : ν → Prop) (vs : Nat → ν) (n : Nat) : Prop := IsLeast {n | ok (vs n)} n

/-- With a cap on the rejections, it takes the last value that it may draw, where it
accepts none before. -/
def SettlesAt (ok : ν → Prop) (vs : Nat → ν) (cap n : Nat) : Prop :=
  IsLeast {n | ok (vs n) ∨ n = cap} n

theorem isLeast_succ {P : Nat → Prop} (h : ¬P 0) (hn : IsLeast {n | P (n + 1)} n) :
    IsLeast {n | P n} (n + 1) := by
  refine ⟨hn.1, fun m hm => ?_⟩
  cases m with
  | zero => exact absurd hm h
  | succ m => exact Nat.succ_le_succ (hn.2 hm)

theorem StopsAt.unique {m : Nat} (h : StopsAt ok vs n) (h' : StopsAt ok vs m) : n = m :=
  IsLeast.unique h h'

theorem stopsAt_zero (h : ok (vs 0)) : StopsAt ok vs 0 := ⟨h, fun _ _ => Nat.zero_le _⟩

theorem StopsAt.succ (h : ¬ok (vs 0)) (hn : StopsAt ok (fun k => vs (k + 1)) n) :
    StopsAt ok vs (n + 1) :=
  isLeast_succ h hn

section cap

variable {cap : Nat}

theorem settlesAt_zero (h : ok (vs 0)) : SettlesAt ok vs cap 0 :=
  ⟨.inl h, fun _ _ => Nat.zero_le _⟩

theorem settlesAt_cap : SettlesAt ok vs 0 0 := ⟨.inr rfl, fun _ _ => Nat.zero_le _⟩

theorem SettlesAt.le_cap (h : SettlesAt ok vs cap n) : n ≤ cap := h.2 (.inr rfl)

theorem SettlesAt.succ (h : ¬ok (vs 0)) (hn : SettlesAt ok (fun k => vs (k + 1)) cap n) :
    SettlesAt ok vs (cap + 1) (n + 1) := by
  have hzero : ¬(ok (vs 0) ∨ 0 = cap + 1) := not_or.mpr ⟨h, (Nat.succ_ne_zero cap).symm⟩
  apply isLeast_succ hzero
  simpa only [SettlesAt, Nat.add_right_cancel_iff] using hn

end cap

section fold

variable [DecidableEq ν] {f : Nat → ν}

/-- How many of the outputs below `bound` are accepted and folded to `x`. -/
def hits (ok : Nat → Prop) [DecidablePred ok] (f : Nat → ν) (bound : Nat) (x : ν) : Nat :=
  Nat.count (fun v => ok v ∧ f v = x) bound

theorem hits_congr {ok ok' : Nat → Prop} [DecidablePred ok] [DecidablePred ok'] {f' : Nat → ν}
    {x x' : ν} {bound : Nat} (h : ∀ v, (ok v ∧ f v = x) ↔ (ok' v ∧ f' v = x')) :
    hits ok f bound x = hits ok' f' bound x' := by
  simp only [hits, h]

end fold

/-- Of the first multiple of `r` values, the residues take an equal part each. -/
theorem hits_mod {q r x bound : Nat} (hx : x < r) (h : q * r ≤ bound) :
    hits (· < q * r) (· % r) bound x = q := by
  obtain ⟨rest, rfl⟩ := Nat.exists_eq_add_of_le h
  have hin : Nat.count (fun v => v < q * r ∧ v % r = x) (q * r) =
      Nat.count (· ≡ x [MOD r]) (q * r) := by
    rw [Nat.count_eq_card_filter_range, Nat.count_eq_card_filter_range]
    refine congrArg Finset.card (Finset.filter_congr fun v hv => ?_)
    rw [and_iff_right (Finset.mem_range.mp hv), Nat.ModEq, Nat.mod_eq_of_lt hx]
  have hout : Nat.count (fun k => q * r + k < q * r ∧ (q * r + k) % r = x) rest = 0 := by
    apply Nat.count_of_forall_not
    intro k _ hk
    omega
  have hpos : 0 < r := by omega
  rw [hits, Nat.count_add, hin, hout, Nat.count_modEq_card _ hpos, Nat.mul_mod_left,
    Nat.mul_div_cancel _ hpos]
  simp

/-- The quotients below `m` are all hit equally often. -/
theorem hits_div {b d m bound : Nat} (hd : 0 < d) (hb : b < m) (h : m * d ≤ bound) :
    hits (fun v => v / d < m) (· / d) bound b = d := by
  have hfilter : (Finset.range bound).filter (fun v => v / d < m ∧ v / d = b) =
      Finset.Ico (b * d) (b * d + d) := by
    ext v
    have hend : b * d + d ≤ m * d := Nat.succ_mul b d ▸ Nat.mul_le_mul_right d hb
    rw [Finset.mem_filter, Finset.mem_range, Finset.mem_Ico]
    constructor
    · intro hq
      obtain ⟨_, _, hv⟩ := hq
      rw [Nat.div_eq_iff hd] at hv
      omega
    · intro hv
      have hquotient : v / d = b := (Nat.div_eq_iff hd).mpr (by omega)
      exact ⟨by omega, hquotient ▸ hb, hquotient⟩
  rw [hits, Nat.count_eq_card_filter_range, hfilter, Nat.card_Ico, Nat.add_sub_cancel_left]

end Draws
