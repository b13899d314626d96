import Gobbler.Proofs.Progress

namespace Gobbler.Proofs
open Effect

/-- A world in which every call succeeds. The first draw after a seed is the one
the script has for the stage of the reading that gave the seed, and all others are zero. -/
def scriptWorld (ps : Nat) (stage : Nat → Fin 3) (script : Fin 3 → Nat) :
    World (Option (Fin 3)) where
  pageSize := ps
  srand seed _ := some (Fin.ofNat 3 seed)
  rand g := (g.elim 0 fun v => min (script v) randMax, none)
  rand_le g := by cases g <;> simp
  cpu n := ⟨stage n, 0, whole_nsec⟩
  wall _ := ⟨0, 0, whole_usec⟩
  opens _ := true
  mmap n := some (pageSize * (n + 1))
  mmap_ne_zero := by
    intro n a h
    simp only [Option.some.injEq, pageSize] at h
    omega
  madvise _ := true
  malloc _ := true
  pdLen _ _ := .taken
  patience := 2

variable {ps : Nat} {stage : Nat → Fin 3} {script : Fin 3 → Nat} {s : St (Option (Fin 3))}

theorem reseed_script (s : St (Option (Fin 3))) :
    Ends (reseed (scriptWorld ps stage script)) s
      (fun _ t => t = { s with gen := some (stage s.cpuReads), cpuReads := s.cpuReads + 1 })
      (fun _ _ => False) := by
  have hlt := (stage s.cpuReads).isLt
  have hsec : ((scriptWorld ps stage script).cpu s.cpuReads).sec < 2 ^ 63 := by
    change (stage s.cpuReads).val < 2 ^ 63
    omega
  unfold reseed
  rw [ends_bind]
  refine (cputime_ends _ s).mono ?_ fun _ _ h => h.elim
  rintro now _ ⟨rfl, rfl⟩
  rw [cpuTime_secs hsec]
  have hseed : (⌊((stage s.cpuReads).val : ℚ)⌋ % 2 ^ 32).toNat = (stage s.cpuReads).val := by
    rw [Int.floor_natCast]
    omega
  change { s with gen := some (Fin.ofNat 3 (⌊((stage s.cpuReads).val : ℚ)⌋ % 2 ^ 32).toNat),
                  cpuReads := s.cpuReads + 1 } = _
  rw [hseed, Fin.ofNat_val_eq_self]

theorem rand_script (s : St (Option (Fin 3))) :
    Ends (rand (scriptWorld ps stage script)) s
      (fun v t => v = (s.gen.elim 0 fun v => min (script v) randMax) ∧ t = { s with gen := none })
      (fun _ _ => False) :=
  ⟨rfl, rfl⟩

/-- `rand_lim` accepts the draw of the script when it is below the limit. -/
theorem randLim_script {limit : Int} (h : 1 ≤ limit) (h' : limit < randMax)
    (hdraw : ((min (script (stage s.cpuReads)) randMax : Nat) : Int).tdiv
      ((randMax : Int).tdiv (limit + 1)) < limit) :
    Ends (randLim (scriptWorld ps stage script) limit) s
      (fun v t => v = ((min (script (stage s.cpuReads)) randMax : Nat) : Int).tdiv
          ((randMax : Int).tdiv (limit + 1)) ∧ t.cpuReads = s.cpuReads + 1)
      (fun _ _ => False) := by
  have hd := randLim_divisor h h'
  unfold randLim note defined
  simp only [if_pos (show limit + 1 ≠ 0 by omega), if_pos (ne_of_gt hd), ends_bind, ends_modify,
    ends_pure]
  refine (reseed_script _).mono ?_ fun _ _ h => h.elim
  rintro _ _ rfl
  change Ends (randLimLoop _ _ _ 2) _ _ _
  unfold randLimLoop
  rw [ends_bind]
  refine (rand_script _).mono ?_ fun _ _ h => h.elim
  intro v t hq
  obtain ⟨hv, ht⟩ := hq
  have hv' : v = min (script (stage s.cpuReads)) randMax := hv
  subst hv' ht
  rw [if_neg (not_le.mpr hdraw)]
  exact ⟨rfl, rfl⟩

/-- A draw that `rand_lim` rejects is followed by zero, which it accepts. -/
theorem scriptWorld_draws : Draws (scriptWorld ps stage script) := by
  intro limit s hlow hhigh
  have hd := randLim_divisor hlow hhigh
  unfold randLim note defined
  simp only [if_pos (show limit + 1 ≠ 0 by omega), if_pos (ne_of_gt hd), ends_bind, ends_modify,
    ends_pure]
  refine (reseed_script _).mono (fun _ _ _ => ?_) fun _ _ h => h
  change Ends (randLimLoop _ _ _ 2) _ _ _
  unfold randLimLoop
  apply (rand_script _).bind
  rintro v _ ⟨rfl, rfl⟩
  rw [ends_ite]
  refine ⟨fun _ => ?_, fun _ => trivial⟩
  unfold randLimLoop
  apply (rand_script _).bind
  intro v t hq
  obtain ⟨hv, _⟩ := hq
  have hv' : v = 0 := hv
  subst hv'
  rw [Nat.cast_zero, Int.zero_tdiv, if_neg (by omega)]
  trivial

theorem scriptWorld_willing : Willing (scriptWorld ps stage script) :=
  ⟨scriptWorld_draws, fun _ => rfl, fun _ => Option.some_ne_none _, fun _ => rfl, fun _ => rfl⟩

/-- `rand_intr` gives the draw of the script when it is within its ends. -/
theorem randIntr_script {last i : Nat} (hlast : last < randMax)
    (hdraw : script (stage s.cpuReads) = i) (hi : i ≤ last) :
    Ends (randIntr (scriptWorld ps stage script) 0 last) s
      (fun v t => v = i ∧ t.cpuReads = s.cpuReads + 1) (fun _ _ => False) := by
  have hsmall : last < 2147483647 := hlast
  have hrange : wrap (wrapSub last 0 + 1) = last + 1 := by
    simp only [wrap, wrapSub]
    omega
  have hmin : min (script (stage s.cpuReads)) randMax = i := by
    rw [hdraw]
    exact Nat.min_eq_left (by omega)
  have hlimit : i < randMax - randMax % (last + 1) := by
    have hdiv := Nat.div_add_mod randMax (last + 1)
    have hone : 1 ≤ randMax / (last + 1) := (Nat.one_le_div_iff (Nat.succ_pos _)).mpr hlast
    have hmul : (last + 1) * 1 ≤ (last + 1) * (randMax / (last + 1)) := Nat.mul_le_mul_left _ hone
    omega
  unfold randIntr note defined
  simp only [hrange, if_pos (Nat.succ_ne_zero last), ends_bind, ends_modify, ends_pure]
  refine (reseed_script _).mono ?_ fun _ _ h => h.elim
  rintro _ _ rfl
  refine (rand_script _).mono ?_ fun _ _ h => h.elim
  rintro v _ ⟨rfl, rfl⟩
  change Ends (randIntrLoop _ _ (127 + 1) (min (script (stage s.cpuReads)) randMax)) _ _ _
  rw [hmin]
  unfold randIntrLoop
  rw [if_neg (not_le.mpr hlimit)]
  refine ⟨?_, rfl⟩
  have hmod : i % (last + 1) = i := Nat.mod_eq_of_lt (Nat.lt_succ_of_le hi)
  simp only [hmod, wrap]
  omega

/-- The script picks class `c` at reading `n`. A class above the limit is drawn ten times. -/
structure Picks (stage : Nat → Fin 3) (script : Fin 3 → Nat) (b : Book) (n i : Nat)
    (c : FileClass) : Prop where
  asked : i ≤ lastAsked b
  found : b.fileLst[i]? = some c
  now : script (stage n) = i
  later : wrap (b.maxLimit * pageSize) < c.size → ∀ k, n ≤ k → script (stage k) = i

theorem fileSize_found {s : St (Option (Fin 3))} {i : Nat} {c : FileClass} (h : s.fileLst[i]? = some c) :
    Ends (fileSize i) s (fun size t => Quiet s t ∧ size = c.size ∧ t.cpuReads = s.cpuReads)
      (fun _ _ => False) := by
  have hi := (List.getElem?_eq_some_iff.mp h).1
  unfold fileSize note
  simp only [ends_bind, ends_modify, ends_get, h, ends_pure]
  exact ⟨⟨rfl, rfl, note_safe (c := .fileLst i) hi rfl, Nat.le_refl _⟩, trivial, trivial⟩

/-- The class the script has is drawn, and, when it is too large, left to the
rest of the loop. -/
theorem randomizeAllocLenLoop_step {c : FileClass} {i : Nat} (hr : Ready s.toBook)
    (hi : i ≤ s.speed) (hc : s.fileLst[i]? = some c) (maxReq l j : Nat)
    (hnow : script (stage s.cpuReads) = i)
    (hrest : ∀ u, Quiet s u → maxReq < c.size →
      Ends (randomizeAllocLenLoop (scriptWorld ps stage script) maxReq l i) u
        (fun v t => v = i ∧ Quiet u t) fun _ _ => False) :
    Ends (randomizeAllocLenLoop (scriptWorld ps stage script) maxReq (l + 1) j) s
      (fun v t => v = i ∧ Quiet s t ∧ s.cpuReads < t.cpuReads) (fun _ _ => False) := by
  have hspeed := hr.speed
  have hlen := hr.length
  have hlast : s.speed < randMax := by
    simp only [randMax]
    omega
  unfold randomizeAllocLenLoop
  simp only [ends_bind, ends_get]
  refine ((randIntr_script hlast hnow hi).and (randIntr_quiet (X := fun _ => False)
    (Nat.zero_le s.speed) (by omega) (by omega) s)).mono ?_ fun _ _ h => h.1
  rintro v t ⟨⟨rfl, hreads⟩, hq, _⟩
  apply (fileSize_found (s := t) (by rwa [hq.fileLst])).imp
  rintro size u ⟨hq', rfl, _⟩
  have hu := hq.trans hq'
  have hmore : s.cpuReads < u.cpuReads := by
    have := hq'.reads
    omega
  rw [ends_ite]
  refine ⟨fun hbig => ?_, fun _ => ⟨rfl, hu, hmore⟩⟩
  apply (hrest u hu hbig).imp
  rintro _ x ⟨rfl, hx⟩
  exact ⟨rfl, hu.trans hx, Nat.lt_of_lt_of_le hmore hx.reads⟩

theorem randomizeAllocLenLoop_script {c : FileClass} {i : Nat} (hr : Ready s.toBook)
    (hi : i ≤ s.speed) (hc : s.fileLst[i]? = some c) (maxReq l j : Nat)
    (hnow : script (stage s.cpuReads) = i)
    (hlater : maxReq < c.size → ∀ k, s.cpuReads ≤ k → script (stage k) = i) :
    Ends (randomizeAllocLenLoop (scriptWorld ps stage script) maxReq (l + 1) j) s
      (fun v t => v = i ∧ Quiet s t ∧ s.cpuReads < t.cpuReads) (fun _ _ => False) := by
  induction l generalizing s j with
  | zero => exact randomizeAllocLenLoop_step hr hi hc maxReq 0 j hnow fun u _ _ => ⟨rfl, Quiet.refl u⟩
  | succ l ih =>
    refine randomizeAllocLenLoop_step hr hi hc maxReq (l + 1) j hnow fun u hu hbig => ?_
    have hspeed : u.speed = s.speed := congrArg (fun b : Book => b.speed) hu.book
    have hlater' := hlater hbig
    refine (ih (s := u) (hu.book ▸ hr) (hspeed ▸ hi) (by rwa [hu.fileLst]) i
      (hlater' _ hu.reads) fun _ k hk => hlater' k (Nat.le_trans hu.reads hk)).imp ?_
    rintro v t ⟨rfl, hq, _⟩
    exact ⟨rfl, hq⟩

/-- `randomize_alloc_len` returns the size of the class that the script picks. -/
theorem randomizeAllocLen_script {c : FileClass} {i : Nat} (hr : Ready s.toBook)
    (h : Picks stage script s.toBook s.cpuReads i c) :
    Ends (randomizeAllocLen (scriptWorld ps stage script)) s
      (fun len t => len = c.size ∧ Quiet s t ∧
        ((∀ d, s.fileLst[0]? = some d → d.size < wrap (s.maxLimit * pageSize)) →
          s.cpuReads < t.cpuReads)) (fun _ _ => False) := by
  have hpos : 0 < s.fileLst.length := Nat.lt_of_le_of_lt (Nat.zero_le _) hr.speed
  have hlast := lastAsked_eq hpos
  have hasked := h.asked
  unfold randomizeAllocLen
  simp only [ends_bind, ends_get]
  refine (fileSize_found (List.getElem?_eq_getElem hpos)).imp ?_
  rintro size t ⟨hq, rfl, hsame⟩
  rw [ends_ite]
  refine ⟨fun hle => ?_, fun hle => ?_⟩
  · rw [if_pos hle] at hlast
    have hi : i = 0 := by omega
    have hfound := h.found
    rw [hi, List.getElem?_eq_getElem hpos, Option.some.injEq] at hfound
    refine ⟨by rw [hfound], hq, fun hbig => ?_⟩
    exact absurd hle (Nat.not_le_of_lt (hbig _ (List.getElem?_eq_getElem hpos)))
  · rw [if_neg hle] at hlast
    have hspeed : t.speed = s.speed := congrArg (fun b : Book => b.speed) hq.book
    have hi : i ≤ t.speed := by omega
    have hfound : t.fileLst[i]? = some c := by rw [hq.fileLst, h.found]
    rw [ends_bind]
    refine (randomizeAllocLenLoop_script (hq.book ▸ hr) hi hfound _ 9 0 (hsame ▸ h.now)
      (hsame ▸ h.later)).imp ?_
    rintro v u ⟨rfl, hq', hreads⟩
    apply (fileSize_found (s := u) (by rw [hq'.fileLst, hfound])).imp
    rintro len x ⟨hq'', rfl, _⟩
    have hmore := hq''.reads
    exact ⟨rfl, (hq.trans hq').trans hq'', fun _ => by omega⟩

/-- A request for the size of the class that the script picks, of the type chosen. -/
def Pinned (type : MemType) (c : FileClass) : MemType → FileClass → Prop :=
  fun type' c' => type' = type ∧ c' = c

theorem Pinned.firstFor {type : MemType} {c : FileClass} {lst : List FileClass}
    (hpos : 0 < lst.length) (hc : c.size ≠ 0) : FirstFor (Pinned type c) lst :=
  ⟨lst[0], List.getElem?_eq_getElem hpos, by
    rintro _ ⟨_, rfl⟩ hz
    exact absurd hz hc⟩

/-- The readings that the choice of a type takes. -/
def typeReads (anonSlice : Int) : Nat := if 0 < anonSlice then 1 else 0

/-- A draw that makes `rand_lim(type_max)` choose the type. -/
def typeDraw (type : MemType) : Nat := if type = .anon then 715827882 else 0

theorem typeDraw_bucket {type : MemType} (ht : type = .file ∨ type = .anon) :
    ((min (typeDraw type) randMax : Nat) : Int).tdiv ((randMax : Int).tdiv (2 + 1)) < 2 ∧
      MemType.ofLong (((min (typeDraw type) randMax : Nat) : Int).tdiv
        ((randMax : Int).tdiv (2 + 1))) = type := by
  rcases ht with rfl | rfl <;> decide

theorem randomizeAllocType_script {type : MemType} {anonSlice : Int}
    (hch : Chosen s.typeCnt anonSlice type) (hcnt : s.typeCnt + 1 < 2 ^ 31)
    (hdraw : 0 < anonSlice → script (stage s.cpuReads) = typeDraw type) :
    Ends (randomizeAllocType (scriptWorld ps stage script) anonSlice) s
      (fun v t => v = type ∧ Moved s t (counted s.toLedger) ∧
        t.cpuReads = s.cpuReads + typeReads anonSlice) (fun _ _ => False) := by
  have hcount : ∀ t : St (Option (Fin 3)), Quiet s t →
      t.cpuReads = s.cpuReads + typeReads anonSlice →
      Ends typeCntSucc t (fun _ u => Moved s u (counted s.toLedger) ∧
        u.cpuReads = s.cpuReads + typeReads anonSlice) fun _ _ => False := by
    intro t hq hreads
    have hsame : t.typeCnt = s.typeCnt := congrArg (fun b : Book => b.typeCnt) hq.book
    unfold typeCntSucc defined
    simp only [ends_bind, ends_get, hsame, if_pos hcnt, ends_pure, ends_set]
    refine ⟨⟨?_, hq.memory, hq.calls, hq.reads⟩, hreads⟩
    have hbook := hq.book
    change withLedger t.toBook { t.toLedger with typeCnt := s.typeCnt + 1 } = _
    rw [hbook]
    rfl
  unfold randomizeAllocType
  simp only [ends_bind, ends_get]
  unfold Chosen at hch
  by_cases hneg : anonSlice < 0
  · rw [if_pos hneg] at hch
    have hzero : typeReads anonSlice = 0 := if_neg (by omega)
    simp only [if_pos hneg, ends_pure, ends_bind]
    apply (hcount s (Quiet.refl s) (by rw [hzero]; rfl)).imp
    exact fun _ u hu => ⟨hch.symm, hu⟩
  · rw [if_neg hneg] at hch
    by_cases hz : anonSlice = 0
    · rw [if_pos hz] at hch
      have hzero : typeReads anonSlice = 0 := if_neg (by omega)
      simp only [if_neg hneg, if_neg (not_ne_iff.mpr hz), ends_pure, ends_bind]
      apply (hcount s (Quiet.refl s) (by rw [hzero]; rfl)).imp
      exact fun _ u hu => ⟨hch.symm, hu⟩
    · rw [if_neg hz] at hch
      have hpos : 0 < anonSlice := by omega
      have hone : typeReads anonSlice = 1 := if_pos hpos
      obtain ⟨hlow, htype⟩ := typeDraw_bucket hch
      rw [← hdraw hpos] at hlow htype
      simp only [if_neg hneg, if_pos hz, ends_bind, ends_pure]
      refine ((randLim_script (by decide) (by decide) hlow).and
        (randLim_quiet (by decide) (by decide) s)).mono ?_ fun _ _ h => h.1
      rintro x t ⟨⟨rfl, hreads⟩, hq, _⟩
      apply (hcount t hq (by rw [hone, hreads])).imp
      exact fun _ u hu => ⟨htype, hu⟩

/-- What follows the choice of a type can be seen from the books before it, at the
reading after it. -/
theorem Moved.rebase {s u : St γ} (hu : Moved s u (counted s.toLedger)) :
    ∃ v : St γ, v.toBook = s.toBook ∧ Moved v u (counted v.toLedger) ∧
      ∀ {x : St γ} {l : Ledger}, Moved v x l → Moved s x l ∧ u.cpuReads ≤ x.cpuReads := by
  refine ⟨⟨s.toBook, u.toMemory, u.toEnv⟩, rfl, ?_, ?_⟩
  · exact ⟨hu.book, rfl, fun _ hd => .inl hd, Nat.le_refl _⟩
  · intro x l hx
    refine ⟨⟨hx.book, hx.memory.trans hu.memory, ?_, Nat.le_trans hu.reads hx.reads⟩, hx.reads⟩
    intro d hd
    rcases hx.calls d hd with hold | hsafe
    · exact hu.calls d hold
    · exact .inr hsafe

/-- In a scripted world a request asks for the type and the class of the script. -/
theorem randomAllocatorOne_script {type : MemType} {anonSlice : Int} {i : Nat} {c : FileClass}
    (cnt : Nat) (hr : Ready s.toBook) (hz : c.size ≠ 0)
    (hch : Chosen s.typeCnt anonSlice type) (hcnt : s.typeCnt + 1 < 2 ^ 31)
    (hdraw : 0 < anonSlice → script (stage s.cpuReads) = typeDraw type)
    (hp : Picks stage script s.toBook (s.cpuReads + typeReads anonSlice) i c) :
    Ends (randomAllocatorOne (scriptWorld ps stage script) anonSlice cnt) s
      (fun r u => ∃ l, RequestFor (Pinned type c) ps s.toBook anonSlice cnt r.1 r.2 l ∧
        Moved s u l ∧ ((∀ d, s.fileLst[0]? = some d → d.size < wrap (s.maxLimit * pageSize)) →
          s.cpuReads < u.cpuReads))
      (fun e u => ∃ l, AbortedFor (Pinned type c) (scriptWorld ps stage script) s.toBook
        anonSlice e l ∧
        Moved s u l) := by
  have hpos : 0 < s.fileLst.length := Nat.lt_of_le_of_lt (Nat.zero_le _) hr.speed
  unfold randomAllocatorOne
  rw [ends_bind]
  refine (randomizeAllocType_script hch hcnt hdraw).mono ?_ fun _ _ h => h.elim
  rintro ty t ⟨rfl, ht, hreads⟩
  have hrt : Ready t.toBook := by
    rw [ht.book]
    exact ⟨hr.speed, hr.length⟩
  have hpt : Picks stage script t.toBook t.cpuReads i c := by
    rw [ht.book, hreads]
    exact ⟨hp.asked, hp.found, hp.now, hp.later⟩
  have hlst : t.fileLst = s.fileLst := (congrArg Ledger.fileLst ht.ledger).trans rfl
  have hmax : t.maxLimit = s.maxLimit := (congrArg (fun b : Book => b.maxLimit) ht.book).trans rfl
  rw [ends_bind]
  refine (randomizeAllocLen_script hrt hpt).mono ?_ fun _ _ h => h.elim
  rintro len u ⟨rfl, hq, hless⟩
  rw [hlst, hmax, hreads] at hless
  have hu := ht.quiet hq rfl
  obtain ⟨v, hbook, hfrom, hback⟩ := hu.rebase
  have hchv : Chosen v.typeCnt anonSlice ty := by
    rw [hbook]
    exact hch
  have hcntv : v.typeCnt + 1 < 2 ^ 31 := by
    rw [hbook]
    exact hcnt
  have hposv : 0 < v.fileLst.length := by
    rw [hbook]
    exact hpos
  refine (asked_ends cnt hchv hcntv (Pinned.firstFor hposv hz) ⟨rfl, rfl⟩ hfrom).mono ?_ ?_
  · intro r x hq'
    obtain ⟨l, hreq, hx⟩ := hq'
    rw [hbook] at hreq
    obtain ⟨hmoved, hreads'⟩ := hback hx
    refine ⟨l, hreq, hmoved, fun hbig => ?_⟩
    have hdrawn := hless hbig
    omega
  · intro e x hq'
    obtain ⟨l, hab, hx⟩ := hq'
    rw [hbook] at hab
    exact ⟨l, hab, (hback hx).1⟩

theorem FirstFit.unique {lst : List FileClass} {len i j i' j' : Nat} {c c' : FileClass}
    (h : FirstFit lst len c i j) (h' : FirstFit lst len c' i' j') : c' = c := by
  rcases Nat.lt_trichotomy i i' with hlt | rfl | hlt
  · have hnone := h'.first i c hlt h.found h.fits
    exact absurd (h.avail.symm.trans hnone) (Option.some_ne_none j)
  · exact Option.some.inj (h'.found.symm.trans h.found)
  · have hnone := h.first i' c' hlt h'.found h'.fits
    exact absurd (h'.avail.symm.trans hnone) (Option.some_ne_none j')

theorem FirstFit.not_exhausted {lst : List FileClass} {len i j : Nat} {c : FileClass}
    (h : FirstFit lst len c i j) : ¬Exhausted lst len := by
  intro hex
  have hnone := hex c (List.mem_of_getElem? h.found) h.fits
  exact absurd (h.avail.symm.trans hnone) (Option.some_ne_none j)

/-- The type and the class asked for determine the length of the mapping. -/
theorem GrantedFor.pinned {b : Book} {lst : List FileClass} {type : MemType} {len : Nat}
    {node : Option (Nat × Nat)} (h : Granted b lst type len node) :
    ∃ c, Asked b c ∧ (type = .file → ¬Exhausted b.fileLst c.size) ∧
      ∀ {lst' : List FileClass} {type' : MemType} {len' : Nat} {node' : Option (Nat × Nat)},
        GrantedFor (Pinned type c) b lst' type' len' node' → type' = type ∧ len' = len := by
  cases h with
  | @anon c asked =>
    refine ⟨c, asked, nofun, ?_⟩
    rintro lst' type' len' node' (⟨_, rfl⟩ | ⟨⟨hfile, _⟩, _, _⟩)
    · exact ⟨rfl, rfl⟩
    · cases hfile
  | @file _ i j c d asked pool fit =>
    refine ⟨c, asked, fun _ => fit.not_exhausted, ?_⟩
    rintro lst' type' len' node' (⟨hanon, _⟩ | ⟨⟨_, rfl⟩, _, fit'⟩)
    · cases hanon
    · rw [fit.unique fit']
      exact ⟨rfl, rfl⟩

/-- The books `b`, with nothing drawn and nothing read yet. -/
def unstarted (b : Book) : St (Option (Fin 3)) where
  toBook := b
  mem := fun _ => 0
  fixHead := []
  writes := []
  gen := none
  cpuReads := 0
  wallReads := 0
  mmaps := 0
  calls := []

/-- Whatever a request may be granted is granted in some world: it is served, or
the list of the phase is full. -/
theorem GrantedFor.realised (ps : Nat) {b : Book} {anonSlice : Int} {lst : List FileClass}
    {type : MemType} {len : Nat} {node : Option (Nat × Nat)} (cnt : Nat) (hr : Ready b)
    (hsize : ∀ c ∈ b.fileLst, 0 < c.size) (hin : InTracker b) (hcnt : b.typeCnt + 1 < 2 ^ 31)
    (hch : Chosen b.typeCnt anonSlice type) (h : Granted b lst type len node) :
    ∃ w : World (Option (Fin 3)), w.pageSize = ps ∧
      Ends (randomAllocatorOne w anonSlice cnt) (unstarted b)
        (fun r _ => (current b).length < maxAllocPerSe ∧
          r = (type, countdown b.allocPrecision cnt (len / ps)))
        (fun e u => e = .exit "Failed to add new tracker" ∧
          maxAllocPerSe ≤ (current b).length ∧
          ∃ lst', u.toLedger =
            paged (searched (Proofs.counted b.toLedger) lst') type (len / ps)) := by
  obtain ⟨c, ⟨i, hi, hc⟩, hfull, hpin⟩ := h.pinned
  let stage : Nat → Fin 3 := fun k => if k < typeReads anonSlice then 0 else 1
  let script : Fin 3 → Nat := fun v => if v = 0 then typeDraw type else i
  have hlate : ∀ k, typeReads anonSlice ≤ k → script (stage k) = i := by
    intro k hk
    simp only [script, stage, if_neg (Nat.not_lt_of_le hk)]
    rfl
  have hdraw : 0 < anonSlice → script (stage 0) = typeDraw type := by
    intro hpos
    simp only [script, stage, typeReads, if_pos hpos]
    rfl
  have hpick : Picks stage script b (0 + typeReads anonSlice) i c := by
    rw [Nat.zero_add]
    exact ⟨hi, hc, hlate _ (Nat.le_refl _), fun _ => hlate⟩
  have hz : c.size ≠ 0 := Nat.ne_of_gt (hsize c (List.mem_of_getElem? hc))
  refine ⟨scriptWorld ps stage script, rfl, ?_⟩
  refine (randomAllocatorOne_script (s := unstarted b) cnt hr hz hch hcnt hdraw hpick).mono ?_ ?_
  · intro r u hq
    obtain ⟨typ, cnt'⟩ := r
    obtain ⟨l, hreq, _⟩ := hq
    cases hreq with
    | refused _ asked full _ =>
      obtain ⟨htype, rfl⟩ := asked
      exact absurd full (hfull htype.symm)
    | @served lst' r node' _ granted _ _ room =>
      obtain ⟨rfl, rfl⟩ := hpin granted
      exact ⟨room, rfl⟩
  · intro e u hq
    obtain ⟨l, hab, hu⟩ := hq
    cases hab with
    | early why _ =>
      cases why with
      | forced hf => exact absurd hf scriptWorld_willing.not_forced
      | overflow hover => exact absurd hover (Nat.not_le_of_lt hcnt)
      | track hout => exact absurd hin hout
    | full granted room =>
      obtain ⟨rfl, rfl⟩ := hpin granted
      exact ⟨rfl, room, _, hu.ledger⟩

end Gobbler.Proofs
