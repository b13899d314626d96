import Gobbler.Lib.Draws
import Gobbler.Proofs.Stride

namespace Gobbler.Proofs
open Effect Draws

variable {γ : Type} {w : World γ} {addr len limit : Nat} {g : γ}

/-- The bucket of `rand_lim` that an output of the generator falls in. -/
def bucket (limit v : Nat) : Nat := v / (randMax / (limit + 1))

/-- The draws that end the loop of `rand_lim`. -/
def Accepted (limit v : Nat) : Prop := bucket limit v < limit

instance (limit : Nat) : DecidablePred (Accepted limit) := fun v =>
  inferInstanceAs (Decidable (bucket limit v < limit))

/-- The whole seconds of a reading of the CPU clock, as an unsigned int. -/
def seedAt (w : World γ) (n : Nat) : Nat := (w.cpu n).sec % 2 ^ 32

/-- The outputs after `srand`. -/
def sequence (w : World γ) (g : γ) (seed : Nat) : Nat → Nat := outputs w.rand (w.srand seed g)

/-- `srand` restarts an output sequence that depends only on the seed. -/
def Restarts (w : World γ) : Prop := ∀ seed g g', sequence w g seed = sequence w g' seed

/-- The first accepted draw after a seed falls in the bucket `b`. -/
def FirstBucket (w : World γ) (g : γ) (limit seed b : Nat) : Prop :=
  ∃ k, StopsAt (Accepted limit) (sequence w g seed) k ∧ b = bucket limit (sequence w g seed k)

/-- The ten bytes of an attempt. -/
def tenBytes (addr offset : Nat) : List Nat := (List.range 10).map (addr + offset + ·)

theorem tenBytes_writes (addr offset : Nat) :
    Performs Writes (tenBytes addr offset) (patternSeq (addr + offset) 10 : M γ PUnit) := by
  rw [tenBytes, List.map_eq_flatMap]
  exact performs_upTo (fun i => touchSimple_writes (addr + offset + i)) 10

theorem FirstBucket.unique {seed b b' : Nat} (h : FirstBucket w g limit seed b)
    (h' : FirstBucket w g limit seed b') : b = b' := by
  obtain ⟨k, hk, rfl⟩ := h
  obtain ⟨k', hk', rfl⟩ := h'
  rw [hk.unique hk']

theorem randLimLoop_stops (limit n : Nat) (s : St γ) :
    Ends (randLimLoop w (randMax / (limit + 1) : Nat) limit n) s
      (fun v t => Writes [] s t ∧ ∃ k, k < n ∧ StopsAt (Accepted limit) (outputs w.rand s.gen) k ∧
        v = bucket limit (outputs w.rand s.gen k))
      (fun _ _ => ∀ k, k < n → ¬Accepted limit (outputs w.rand s.gen k)) := by
  induction n generalizing s with
  | zero => exact fun k hk => absurd hk (Nat.not_lt_zero k)
  | succ n ih =>
    have hdraw : ((w.rand s.gen).1 : Int).tdiv (randMax / (limit + 1) : Nat) =
        bucket limit (outputs w.rand s.gen 0) := (Int.ofNat_tdiv _ _).symm
    unfold randLimLoop rand
    simp only [ends_bind, ends_get, ends_set, ends_pure, hdraw, Nat.cast_le]
    rw [ends_ite]
    constructor
    · intro hout
      have hnot : ¬Accepted limit (outputs w.rand s.gen 0) := Nat.not_lt.mpr hout
      refine (ih _).mono ?_ ?_
      · intro v t hq
        obtain ⟨⟨⟨hbook, hwrites⟩, hreads⟩, k, hk, hstop, hv⟩ := hq
        exact ⟨⟨⟨hbook, hwrites⟩, hreads⟩, k + 1, Nat.succ_lt_succ hk, hstop.succ hnot, hv⟩
      · intro _ _ hnone k hk
        cases k with
        | zero => exact hnot
        | succ k => exact hnone k (Nat.lt_of_succ_lt_succ hk)
    · intro hin
      have hstop : StopsAt (Accepted limit) (outputs w.rand s.gen) 0 :=
        stopsAt_zero (Nat.lt_of_not_le hin)
      exact ⟨⟨⟨rfl, rfl⟩, rfl⟩, 0, Nat.zero_lt_succ n, hstop, rfl⟩

/-- Both samplers restart the generator with the seconds of the next reading. -/
theorem reseed_ends (s : St γ) :
    Ends (reseed w) s
      (fun _ t => t = { s with
        cpuReads := s.cpuReads + 1, gen := w.srand (seedAt w s.cpuReads) s.gen })
      fun _ _ => False := by
  have hseed : (⌊cpuTime w .secs s.cpuReads⌋ % 2 ^ 32).toNat = seedAt w s.cpuReads := by
    simp only [cpuTime, converter_secs, Int.floor_natCast, seedAt, wrap]
    omega
  unfold reseed
  apply (cputime_ends .secs s).bind
  rintro _ t ⟨rfl, rfl⟩
  rw [hseed]
  rfl

/-- A draw of `rand_lim` is the first accepted one after its seed. -/
theorem randLim_stops (hl : 1 ≤ limit) (hr : limit < randMax) (s : St γ) :
    Ends (randLim w limit) s
      (fun v t => (Visits [] s t ∧ t.cpuReads = s.cpuReads + 1) ∧ ∃ k, k < w.patience ∧
        StopsAt (Accepted limit) (sequence w s.gen (seedAt w s.cpuReads)) k ∧
        v = bucket limit (sequence w s.gen (seedAt w s.cpuReads) k))
      (fun _ _ => ∀ k, k < w.patience →
        ¬Accepted limit (sequence w s.gen (seedAt w s.cpuReads) k)) := by
  have hdiv : (randMax : Int).tdiv (limit + 1) = (randMax / (limit + 1) : Nat) :=
    (Int.ofNat_tdiv _ _).symm
  have hpos : 0 < randMax / (limit + 1) := Nat.div_pos (by omega) (Nat.succ_pos limit)
  have hone : (limit : Int) + 1 ≠ 0 := by omega
  have hdivisor : ((randMax / (limit + 1) : Nat) : Int) ≠ 0 := by omega
  unfold randLim note defined
  simp only [ends_bind, ends_modify, if_pos hone, ends_pure, hdiv, if_pos hdivisor]
  refine (reseed_ends _).mono ?_ fun _ _ he => he.elim
  rintro _ t rfl
  apply (randLimLoop_stops limit w.patience _).imp
  intro v u hq
  obtain ⟨⟨⟨hbook, hwrites⟩, hreads⟩, hstop⟩ := hq
  exact ⟨⟨⟨hbook, hwrites⟩, hreads⟩, hstop⟩

/-- An attempt of `random_touch_page`. -/
def attempt (w : World γ) (addr len : Nat) : M γ PUnit := do
  let index ← randLim w (toLong (wrapSub len 20))
  patternSeq (addr + ofLong index) 10

theorem attempt_limit (hl : 21 ≤ len) (hr : len < randMax) :
    toLong (wrapSub len 20) = (len - 20 : Nat) := by
  have hsub : wrapSub len 20 = len - 20 := by
    simp only [wrapSub, randMax] at hr ⊢
    omega
  rw [hsub, toLong, if_pos]
  simp only [randMax] at hr
  omega

theorem attempt_ends (hl : 21 ≤ len) (hr : len < randMax) (s : St γ) :
    Ends (attempt w addr len) s
      (fun _ t => ∃ o, (Visits (tenBytes addr o) s t ∧ t.cpuReads = s.cpuReads + 1) ∧
        FirstBucket w s.gen (len - 20) (seedAt w s.cpuReads) o)
      (fun _ _ => ∀ k, k < w.patience →
        ¬Accepted (len - 20) (sequence w s.gen (seedAt w s.cpuReads) k)) := by
  unfold attempt
  rw [attempt_limit hl hr, ends_bind]
  apply (randLim_stops (by omega) (by omega) s).imp
  rintro v t ⟨⟨hvisits, hreads⟩, k, _, hstop, rfl⟩
  have hoffset : ofLong (bucket (len - 20) (sequence w s.gen (seedAt w s.cpuReads) k) : Nat) =
      bucket (len - 20) (sequence w s.gen (seedAt w s.cpuReads) k) := by
    have hlt : bucket (len - 20) (sequence w s.gen (seedAt w s.cpuReads) k) < len - 20 := hstop.1
    simp only [ofLong, randMax] at hr ⊢
    omega
  rw [hoffset]
  refine ((tenBytes_writes addr _).ends t).mono ?_ fun _ _ he => he.elim
  intro _ u hbytes
  exact ⟨_, ⟨hvisits.append hbytes.visits, hbytes.reads.trans hreads⟩, k, hstop, rfl⟩

/-- The attempts of a call: each is drawn after the seed of its own reading. -/
theorem attempts_end (hw : Restarts w) (g : γ) (hl : 21 ≤ len) (hr : len < randMax) (n : Nat)
    (s : St γ) :
    Ends (times (attempt w addr len) n) s
      (fun _ t => ∃ offsets : List Nat, offsets.length = n ∧
        Visits (offsets.flatMap (tenBytes addr)) s t ∧
        ∀ i o, offsets[i]? = some o → FirstBucket w g (len - 20) (seedAt w (s.cpuReads + i)) o)
      (fun _ _ => ∃ i, i < n ∧ ∀ k, k < w.patience →
        ¬Accepted (len - 20) (sequence w g (seedAt w (s.cpuReads + i)) k)) := by
  induction n generalizing s with
  | zero => exact ⟨[], rfl, Visits.refl s, nofun⟩
  | succ n ih =>
    unfold times
    rw [ends_bind]
    refine (attempt_ends hl hr s).mono ?_ fun _ _ hnone => ⟨0, Nat.zero_lt_succ n, ?_⟩
    · intro _ t hq
      obtain ⟨o, ⟨hvisits, hreads⟩, hfirst⟩ := hq
      refine (ih t).mono ?_ ?_
      · intro _ u hq
        obtain ⟨offsets, hlen, hrest, hfirsts⟩ := hq
        refine ⟨o :: offsets, by rw [List.length_cons, hlen], hvisits.append hrest, ?_⟩
        rintro (_ | i) o' ho'
        · obtain rfl := Option.some.inj ho'
          rw [FirstBucket, hw _ g s.gen]
          exact hfirst
        · have hnext := hfirsts i o' ho'
          rwa [hreads, Nat.add_assoc, Nat.add_comm 1 i] at hnext
      · intro _ u hq
        obtain ⟨i, hi, hnone⟩ := hq
        refine ⟨i + 1, Nat.succ_lt_succ hi, ?_⟩
        rwa [hreads, Nat.add_assoc, Nat.add_comm 1 i] at hnone
    · rwa [hw _ g s.gen]

/-- Two attempts of the call touched different offsets. -/
def Varies (addr : Nat) (s t : St γ) : Prop :=
  ∃ offsets : List Nat, offsets.length = maxAtt ∧ Visits (offsets.flatMap (tenBytes addr)) s t ∧
    ∃ a ∈ offsets, ∃ b ∈ offsets, a ≠ b

/-- The seeds that the clock gives the attempts all lead to an accepted draw, and
two of them to draws in different buckets. -/
def SecondsVary (w : World γ) (g : γ) (limit reads : Nat) : Prop :=
  ∃ firsts : Nat → Nat,
    (∀ i, i < maxAtt → FirstBucket w g limit (seedAt w (reads + i)) (firsts i)) ∧
      ∃ i j, i < maxAtt ∧ j < maxAtt ∧ firsts i ≠ firsts j

/-- A world whose loops are observed for so many passes. -/
def observed (w : World γ) (patience : Nat) : World γ := { w with patience }

theorem tenBytes_length (addr offset : Nat) : (tenBytes addr offset).length = 10 := by
  rw [tenBytes, List.length_map, List.length_range]

/-- The touches of the attempts tell their offsets. -/
theorem offsets_eq {offsets offsets' : List Nat}
    (h : offsets.flatMap (tenBytes addr) = offsets'.flatMap (tenBytes addr)) :
    offsets = offsets' := by
  induction offsets generalizing offsets' with
  | nil =>
    cases offsets' with
    | nil => rfl
    | cons o' offsets' => cases h
  | cons o offsets ih =>
    cases offsets' with
    | nil => cases h
    | cons o' offsets' =>
      rw [List.flatMap_cons, List.flatMap_cons] at h
      obtain ⟨hten, hrest⟩ := List.append_inj h (by rw [tenBytes_length, tenBytes_length])
      have hhead : addr + o + 0 = addr + o' + 0 := (List.cons.inj hten).1
      have hsame : o = o' := by omega
      rw [hsame, ih hrest]

theorem visits_eq {as bs : List Nat} {s t : St γ} (h : Visits as s t) (h' : Visits bs s t) :
    as = bs := by
  have hwrites := h.writes.symm.trans h'.writes
  have hmaps := List.reverse_injective (List.append_cancel_right hwrites)
  exact List.map_injective_iff.mpr (fun _ _ heq => (Prod.mk.inj heq).2) hmaps

theorem randomTouchPage_ends (hw : Restarts w) (g : γ) (hl : 21 ≤ len) (hr : len < randMax)
    (s : St γ) (ht : s.inTransition = false) :
    Ends (randomTouchPage w addr len) s
      (fun _ t => ∃ offsets : List Nat, offsets.length = maxAtt ∧
        Visits (offsets.flatMap (tenBytes addr)) s t ∧
        ∀ i o, offsets[i]? = some o → FirstBucket w g (len - 20) (seedAt w (s.cpuReads + i)) o)
      (fun _ _ => ∃ i, i < maxAtt ∧ ∀ k, k < w.patience →
        ¬Accepted (len - 20) (sequence w g (seedAt w (s.cpuReads + i)) k)) := by
  unfold randomTouchPage
  rw [ends_bind, ends_get, ht]
  exact attempts_end hw g hl hr maxAtt s

theorem SecondsVary.of_varies (hw : Restarts w) (hl : 21 ≤ len) (hr : len < randMax) (s : St γ)
    (ht : s.inTransition = false) (h : Ends (randomTouchPage w addr len) s
      (fun _ t => Varies addr s t) fun _ _ => False) :
    SecondsVary w s.gen (len - 20) s.cpuReads := by
  have hboth := h.and (randomTouchPage_ends hw s.gen hl hr s ht)
  obtain ⟨_, t, _, hvaries, hends⟩ := hboth.returns fun _ _ he => he.1
  obtain ⟨offsets, hlen, hvisits, a, ha, b, hb, hne⟩ := hvaries
  obtain ⟨offsets', _, hvisits', hfirsts⟩ := hends
  obtain rfl := offsets_eq (visits_eq hvisits hvisits')
  obtain ⟨i, hi, rfl⟩ := List.getElem_of_mem ha
  obtain ⟨j, hj, rfl⟩ := List.getElem_of_mem hb
  have hget : ∀ i (hi : i < offsets.length), offsets.getD i 0 = offsets[i] :=
    fun i hi => List.getD_eq_getElem _ _ hi
  refine ⟨fun i => offsets.getD i 0, fun i hi => ?_, i, j, hlen ▸ hi, hlen ▸ hj, ?_⟩
  · have hlt : i < offsets.length := hlen ▸ hi
    simp only [hget i hlt]
    exact hfirsts i _ (List.getElem?_eq_getElem hlt)
  · simpa only [hget i hi, hget j hj] using hne

/-- Observed for long enough, the call comes to its end. -/
theorem SecondsVary.varies (hw : Restarts w) (hl : 21 ≤ len) (hr : len < randMax) (s : St γ)
    (ht : s.inTransition = false) (h : SecondsVary w s.gen (len - 20) s.cpuReads) :
    ∃ patience, Ends (randomTouchPage (observed w patience) addr len) s
      (fun _ t => Varies addr s t) fun _ _ => False := by
  obtain ⟨firsts, hfirsts, i, j, hi, hj, hne⟩ := h
  choose stop hstop hbucket using hfirsts
  obtain ⟨last, hlast⟩ := Finite.exists_le fun i : Fin maxAtt => stop i i.isLt
  refine ⟨last + 1, ?_⟩
  have hw' : Restarts (observed w (last + 1)) := hw
  refine (randomTouchPage_ends hw' s.gen hl hr s ht).mono ?_ ?_
  · intro _ t hq
    obtain ⟨offsets, hlen, hvisits, hoffsets⟩ := hq
    have hoffset : ∀ i (hi : i < maxAtt), firsts i ∈ offsets := by
      intro i hi
      have hlt : i < offsets.length := hlen ▸ hi
      have hown : FirstBucket w s.gen (len - 20) (seedAt w (s.cpuReads + i)) offsets[i] :=
        hoffsets i _ (List.getElem?_eq_getElem hlt)
      rw [FirstBucket.unique ⟨stop i hi, hstop i hi, hbucket i hi⟩ hown]
      exact List.getElem_mem hlt
    exact ⟨offsets, hlen, hvisits, firsts i, hoffset i hi, firsts j, hoffset j hj, hne⟩
  · intro _ _ hq
    obtain ⟨i, hi, hnone⟩ := hq
    exact hnone (stop i hi) (Nat.lt_succ_of_le (hlast ⟨i, hi⟩)) (hstop i hi).1

/-- The attempts of a call vary just when the seconds of the clock vary enough. -/
theorem random_attempts (w : World γ) (hw : Restarts w) (addr len : Nat) (hl : 21 < len)
    (hr : len < randMax) (s : St γ) (ht : s.inTransition = false) :
    (∃ patience, Ends (randomTouchPage (observed w patience) addr len) s
      (fun _ t => Varies addr s t) fun _ _ => False) ↔
        SecondsVary w s.gen (len - 20) s.cpuReads := by
  constructor
  · intro hq
    obtain ⟨patience, h⟩ := hq
    exact SecondsVary.of_varies (w := observed w patience) hw (by omega) hr s ht h
  · exact SecondsVary.varies hw (by omega) hr s ht

/-- While the second does not change, neither does the offset. -/
theorem not_secondsVary {reads seed : Nat} (h : ∀ i, i < maxAtt → seedAt w (reads + i) = seed) :
    ¬SecondsVary w g limit reads := by
  intro hq
  obtain ⟨firsts, hfirsts, i, j, hi, hj, hne⟩ := hq
  have hfirst := hfirsts i hi
  have hfirst' := hfirsts j hj
  rw [h i hi] at hfirst
  rw [h j hj] at hfirst'
  exact hne (hfirst.unique hfirst')

/-- One of the first `MAX_ATT` accepted draws of a sequence. -/
def EarlyDraw (limit : Nat) (vs : Nat → Nat) (n : Nat) : Prop :=
  Accepted limit (vs n) ∧ Nat.count (fun k => Accepted limit (vs k)) n < maxAtt

/-- Among them are two in different buckets. -/
def Mixed (limit : Nat) (vs : Nat → Nat) : Prop :=
  ∃ i j, EarlyDraw limit vs i ∧ EarlyDraw limit vs j ∧ bucket limit (vs i) ≠ bucket limit (vs j)

/-- A machine with the given generator and CPU clock. -/
def drawingWorld (srand : Nat → γ → γ) (rand : γ → Nat × γ) (h : ∀ g, (rand g).1 ≤ randMax)
    (cpu : Nat → Timespec) : World γ where
  pageSize := 4096
  srand := srand
  rand := rand
  rand_le := h
  cpu := cpu
  wall := plainWorld.wall
  opens := plainWorld.opens
  mmap := plainWorld.mmap
  mmap_ne_zero := plainWorld.mmap_ne_zero
  madvise := plainWorld.madvise
  malloc := plainWorld.malloc
  pdLen := plainWorld.pdLen
  patience := plainWorld.patience

/-- Its generator counts up from the seed, in steps of a million. -/
def countingWorld (cpu : Nat → Timespec) : World Nat :=
  drawingWorld (fun seed _ => seed) (fun g => (1000000 * g % 2147483648, g + 1))
    (fun _ => Nat.le_of_lt_succ (Nat.mod_lt _ (by decide))) cpu

/-- A CPU clock that stays in its first second. -/
def firstSecond (_ : Nat) : Timespec := ⟨0, 0, whole_nsec⟩

theorem countingWorld_restarts (cpu : Nat → Timespec) : Restarts (countingWorld cpu) :=
  fun _ _ _ => rfl

/-- By a clock that shows another second at each reading, the attempts vary. -/
theorem random_attempts_ticking :
    let s : St Nat := initial smallTable (fun _ => 0) 0
    ∃ patience, Ends (randomTouchPage (observed (countingWorld plainWorld.cpu) patience) 0 4096) s
      (fun _ t => Varies 0 s t) fun _ _ => False := by
  have hiff := random_attempts (countingWorld plainWorld.cpu) (countingWorld_restarts _) 0 4096
    (by decide) (by decide) (initial smallTable (fun _ => 0) 0) rfl
  have hfirst : ∀ i, i < maxAtt →
      sequence (countingWorld plainWorld.cpu) 0 (seedAt (countingWorld plainWorld.cpu) (0 + i)) 0 =
        1000000 * i := by
    intro i hi
    change 1000000 * ((0 + i) % 2 ^ 32) % 2147483648 = 1000000 * i
    simp only [maxAtt] at hi
    omega
  apply hiff.mpr
  refine ⟨fun i => bucket 4076 (1000000 * i), fun i hi => ⟨0, ?_, ?_⟩, 0, 1, ?_⟩
  · apply stopsAt_zero
    change Accepted 4076 (sequence _ 0 (seedAt _ (0 + i)) 0)
    rw [hfirst i hi]
    simp only [Accepted, bucket, randMax, maxAtt] at hi ⊢
    omega
  · exact congrArg (bucket 4076) (hfirst i hi).symm
  · decide +kernel

/-- In one second of the CPU clock all attempts touch the same offset, though the
sequence of its seed has others to offer. -/
theorem random_attempts_same :
    let w := countingWorld firstSecond
    let s : St Nat := initial smallTable (fun _ => 0) 0
    Restarts w ∧ Mixed 4076 (sequence w s.gen (seedAt w s.cpuReads)) ∧
      ∀ patience, ¬Ends (randomTouchPage (observed w patience) 0 4096) s
        (fun _ t => Varies 0 s t) fun _ _ => False := by
  refine ⟨countingWorld_restarts _, ⟨0, 1, ?_⟩, fun patience h => ?_⟩
  · simp only [EarlyDraw]
    decide +kernel
  · have hw : Restarts (observed (countingWorld firstSecond) patience) :=
      countingWorld_restarts firstSecond
    have hlen : 21 ≤ 4096 ∧ 4096 < randMax := by decide
    have hvary := SecondsVary.of_varies hw hlen.1 hlen.2 _ rfl h
    have hsame : ∀ i, i < maxAtt → seedAt (observed (countingWorld firstSecond) patience) (0 + i) = 0 :=
      fun _ _ => rfl
    exact not_secondsVary hsame hvary

end Gobbler.Proofs
