import Gobbler.Proofs.Stride

namespace Gobbler.Proofs
open Effect

variable {γ : Type} {len len' dist dist' passes : Nat}

/-- `pattern_repeat` on a mapping of `len` bytes touches the offsets below its
distance in their order, so many times over, and nothing else. -/
def Repeats (len passes : Nat) : Prop :=
  ∃ dist, ∀ (γ : Type) (s : St γ) (addr : Nat),
    Ends (strideGetOffset len) s (fun v _ => v = dist) (fun _ _ => False) ∧
    Ends (patternRepeat addr len) s
      (fun _ t => t.writes =
        ((List.replicate passes ((List.range dist).map (addr + ·))).flatten.map
          fun a => (s.curr, a)).reverse ++ s.writes)
      fun _ _ => False

/-- The longer of two mappings is repeated at most as often, and both are
between `MIN_CNT` and `MAX_CNT` times. -/
def RepeatsFewer (len len' : Nat) : Prop :=
  ∃ passes passes', Repeats len passes ∧ Repeats len' passes' ∧ passes' ≤ passes ∧
    (minCnt ≤ passes ∧ passes ≤ maxCnt) ∧ minCnt ≤ passes' ∧ passes' ≤ maxCnt

theorem truncInt_of_nonneg {x : ℚ} (h : 0 ≤ x) : truncInt x = ⌊x⌋ := if_pos h

/-- The macro `CEIL` rounds up. -/
theorem ceil_of_pos {x : ℚ} (h : 0 < x) : ceil x = ⌈x⌉ := by
  have hlow := Int.floor_le x
  have hhigh := Int.lt_floor_add_one x
  have hx : truncInt x = ⌊x⌋ := truncInt_of_nonneg (le_of_lt h)
  have hx' : truncInt (x + 1) = ⌊x⌋ + 1 := by
    rw [truncInt_of_nonneg (by linarith), Int.floor_add_one]
  rw [ceil, if_pos h, ceilingPos, hx, hx']
  symm
  split
  · apply Int.ceil_eq_iff.mpr
    push_cast
    constructor <;> linarith
  · apply Int.ceil_eq_iff.mpr
    constructor <;> linarith

/-- The part of `MAX_CNT` that a distance below `MAX_DIST` leaves. -/
def share (dist : Nat) : ℚ := maxCnt * (((maxDist - dist : Nat) : ℚ) / maxDist)

theorem share_eq (h : dist < maxDist) : share dist = 5 * (1000 - dist) / 1000 := by
  have hcast : ((maxDist - dist : Nat) : ℚ) = 1000 - dist := by
    rw [Nat.cast_sub (Nat.le_of_lt h)]
    norm_num [maxDist]
  rw [share, hcast]
  norm_num [maxCnt, maxDist]
  ring

theorem repeatGetCount_near (hpos : dist ≠ 0) (h : dist < maxDist) :
    (repeatGetCount dist : ℤ) = ⌈share dist⌉ := by
  have hshare : 0 < share dist := by
    have hlt : (dist : ℚ) < 1000 := by exact_mod_cast h
    rw [share_eq h]
    linarith
  have hceil : 0 ≤ ⌈share dist⌉ := Int.ceil_nonneg (le_of_lt hshare)
  rw [repeatGetCount, if_neg hpos, if_neg (Nat.not_le_of_lt h)]
  change ((ceil (share dist)).toNat : ℤ) = _
  rw [ceil_of_pos hshare]
  exact Int.toNat_of_nonneg hceil

theorem repeatGetCount_far (h : maxDist ≤ dist) : repeatGetCount dist = minCnt := by
  have hpos : dist ≠ 0 := by
    rintro rfl
    exact absurd h (by decide)
  rw [repeatGetCount, if_neg hpos, if_pos h]

theorem repeatGetCount_le (hpos : dist ≠ 0) : repeatGetCount dist ≤ maxCnt := by
  by_cases h : dist < maxDist
  · have hceil : ⌈share dist⌉ ≤ 5 := by
      apply Int.ceil_le.mpr
      rw [share_eq h]
      have hnonneg : (0 : ℚ) ≤ dist := Nat.cast_nonneg dist
      push_cast
      linarith
    have hcount := repeatGetCount_near hpos h
    simp only [maxCnt]
    omega
  · rw [repeatGetCount_far (Nat.le_of_not_lt h)]
    decide

/-- From a distance of 800 on the fraction is at most one. -/
theorem le_repeatGetCount_iff (hpos : dist ≠ 0) (h : dist < maxDist) :
    minCnt ≤ repeatGetCount dist ↔ dist < 800 := by
  have hcount := repeatGetCount_near hpos h
  have htwo : minCnt ≤ repeatGetCount dist ↔ 1 < ⌈share dist⌉ := by
    simp only [minCnt]
    omega
  rw [htwo, Int.lt_ceil, share_eq h]
  push_cast
  constructor
  · intro hlt
    have hcast : (dist : ℚ) < 800 := by linarith
    exact_mod_cast hcast
  · intro hlt
    have hcast : (dist : ℚ) < 800 := by exact_mod_cast hlt
    linarith

theorem repeatGetCount_anti (hpos : dist ≠ 0) (hle : dist ≤ dist') (h : dist' < maxDist) :
    repeatGetCount dist' ≤ repeatGetCount dist := by
  have hcount := repeatGetCount_near hpos (Nat.lt_of_le_of_lt hle h)
  have hcount' := repeatGetCount_near (show dist' ≠ 0 by omega) h
  have hshare : share dist' ≤ share dist := by
    have hcast : (dist : ℚ) ≤ dist' := by exact_mod_cast hle
    rw [share_eq h, share_eq (Nat.lt_of_le_of_lt hle h)]
    linarith
  have hceil := Int.ceil_mono hshare
  omega

/-- The count is within its bounds except for distances from 800 to 999. -/
theorem minCnt_le_iff (hpos : dist ≠ 0) :
    minCnt ≤ repeatGetCount dist ↔ dist < 800 ∨ maxDist ≤ dist := by
  by_cases h : dist < maxDist
  · rw [le_repeatGetCount_iff hpos h]
    omega
  · have hfar := Nat.le_of_not_lt h
    rw [repeatGetCount_far hfar]
    exact ⟨fun _ => .inr hfar, fun _ => Nat.le_refl _⟩

theorem strideGetOffset_long (h : strideCut ≤ len) (s : St γ) :
    Ends (strideGetOffset len) s (fun v t => Visits [] s t ∧ v = len / strideCut)
      fun _ _ => False := by
  apply (strideGetOffset_ends (by simp only [strideCut] at h; omega) s).imp
  intro v t hq
  obtain ⟨ht, _, _, hv⟩ := hq
  exact ⟨ht, hv h⟩

theorem patternRepeat_visits (h : strideCut ≤ len) (addr : Nat) :
    Performs Visits (List.replicate (repeatGetCount (len / strideCut))
        ((List.range (len / strideCut)).map (addr + ·))).flatten
      (patternRepeat addr len : M γ PUnit) := by
  apply performs_of_ends
  intro s
  unfold patternRepeat repeatGetDistance
  apply (strideGetOffset_long h s).bind
  rintro _ t ⟨ht, rfl⟩
  apply ((performs_times (touchAll_visits addr _) _).ends t).imp
  intro _ u hu
  exact ht.append hu

/-- A mapping of 1000 bytes or more is repeated as often as its distance says. -/
theorem repeats_iff (h : strideCut ≤ len) :
    Repeats len passes ↔ passes = repeatGetCount (len / strideCut) := by
  constructor
  · intro hq
    obtain ⟨dist, hrep⟩ := hq
    obtain ⟨hdist, hwrites⟩ := hrep Unit (initial smallTable (fun _ => 0) ()) 0
    have hpos : 0 < len / strideCut := Nat.div_pos h (by decide)
    obtain rfl : len / strideCut = dist := by
      obtain ⟨v, t, _, hv, _, hlong⟩ :=
        (hdist.and (strideGetOffset_long h _)).returns fun _ _ he => he.1
      exact hlong.symm.trans hv
    obtain ⟨_, t, _, ht, hvisits⟩ :=
      (hwrites.and ((patternRepeat_visits h 0).ends _)).returns fun _ _ he => he.1
    have hsame := congrArg List.length (ht.symm.trans hvisits.writes)
    simp only [List.length_append, List.length_reverse, List.length_map, List.length_flatten,
      List.map_replicate, List.sum_replicate_nat, List.length_range, Nat.add_right_cancel_iff] at hsame
    exact Nat.eq_of_mul_eq_mul_right hpos hsame
  · rintro rfl
    refine ⟨len / strideCut, fun γ s addr => ⟨?_, ?_⟩⟩
    · exact (strideGetOffset_long h s).mono (fun _ _ hv => hv.2) fun _ _ he => he
    · exact ((patternRepeat_visits h addr).ends s).mono (fun _ _ hv => hv.writes) fun _ _ he => he

/-- The distance of the mapping is none of those for which the count is one. -/
def OutsideGap (len : Nat) : Prop := len < 800000 ∨ 1000000 ≤ len

theorem minCnt_le_count (h : strideCut ≤ len) :
    minCnt ≤ repeatGetCount (len / strideCut) ↔ OutsideGap len := by
  have hpos : len / strideCut ≠ 0 := Nat.ne_of_gt (Nat.div_pos h (by decide))
  rw [minCnt_le_iff hpos]
  simp only [OutsideGap, strideCut, maxDist]
  omega

theorem page_le {len : Nat} (hpos : 0 < len) (hdvd : 4096 ∣ len) : strideCut ≤ len := by
  have hle := Nat.le_of_dvd hpos hdvd
  simp only [strideCut]
  omega

/-- The repeat pattern keeps its promises on two lengths just when neither is
between 800000 and 999999 bytes. -/
theorem repeat_pattern (len len' : Nat) (hpos : 0 < len) (hle : len ≤ len') (hdvd : 4096 ∣ len)
    (hdvd' : 4096 ∣ len') : RepeatsFewer len len' ↔ OutsideGap len ∧ OutsideGap len' := by
  have hcut := page_le hpos hdvd
  have hcut' := page_le (Nat.lt_of_lt_of_le hpos hle) hdvd'
  have hdist : len / strideCut ≠ 0 := Nat.ne_of_gt (Nat.div_pos hcut (by decide))
  have hdist' : len' / strideCut ≠ 0 := Nat.ne_of_gt (Nat.div_pos hcut' (by decide))
  constructor
  · intro hq
    obtain ⟨_, _, hrep, hrep', _, ⟨hmin, _⟩, hmin', _⟩ := hq
    obtain rfl := (repeats_iff hcut).mp hrep
    obtain rfl := (repeats_iff hcut').mp hrep'
    exact ⟨(minCnt_le_count hcut).mp hmin, (minCnt_le_count hcut').mp hmin'⟩
  · intro hq
    obtain ⟨hout, hout'⟩ := hq
    have hmin := (minCnt_le_count hcut).mpr hout
    refine ⟨_, _, (repeats_iff hcut).mpr rfl, (repeats_iff hcut').mpr rfl, ?_,
      ⟨hmin, repeatGetCount_le hdist⟩, (minCnt_le_count hcut').mpr hout', repeatGetCount_le hdist'⟩
    by_cases hfar : len' / strideCut < maxDist
    · exact repeatGetCount_anti hdist (Nat.div_le_div_right hle) hfar
    · rw [repeatGetCount_far (Nat.le_of_not_lt hfar)]
      exact hmin

theorem repeat_pattern_one_page : RepeatsFewer 4096 8192 ↔ OutsideGap 4096 ∧ OutsideGap 8192 :=
  repeat_pattern 4096 8192 (by decide) (by decide) (by decide) (by decide)

/-- 196 pages are passed over once, and 245 pages twice. -/
theorem repeat_pattern_once : ¬RepeatsFewer 802816 1003520 ∧ Repeats 802816 1 ∧ Repeats 1003520 2 := by
  have hcut : strideCut ≤ 802816 := by decide
  have hcount : repeatGetCount (802816 / strideCut) = 1 := by decide +kernel
  refine ⟨?_, (repeats_iff hcut).mpr hcount.symm, (repeats_iff (by decide)).mpr (by decide +kernel)⟩
  intro hq
  obtain ⟨_, _, hrep, _, _, ⟨hmin, _⟩, _⟩ := hq
  obtain rfl := (repeats_iff hcut).mp hrep
  rw [hcount] at hmin
  exact absurd hmin (by decide)

end Gobbler.Proofs
