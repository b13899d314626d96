import Gobbler.Proofs.Pattern
import Gobbler.Proofs.Runs

namespace Gobbler.Proofs
open Effect

variable {γ : Type} {w : World γ} {len : Nat → Nat} {maps : Set Nat} {addr size : Nat}

/-- The calls of `pattern_fix` on the mappings at the given addresses, one after
the other. -/
def fixCalls (w : World γ) (len : Nat → Nat) : List Nat → M γ PUnit
  | [] => return
  | addr :: calls => do
    patternFix w addr (len addr)
    fixCalls w len calls

/-- Pairwise disjoint mappings, each with its length. -/
structure Mapped (len : Nat → Nat) (maps : Set Nat) : Prop where
  nonnull : ∀ a ∈ maps, a ≠ 0
  long : ∀ a ∈ maps, 10 ≤ len a ∧ len a < 2 ^ 64
  apart : ∀ a ∈ maps, ∀ b ∈ maps, a ≠ b →
    Disjoint (Set.Ico a (a + len a)) (Set.Ico b (b + len b))

/-- What `touch_simple` makes of a byte. -/
def toggled (v : UInt8) : UInt8 := if v ≠ 0xf then 0xf else 0x00

/-- The byte of a mapping after so many calls. -/
def fixByte (calls : Nat) : UInt8 := if calls % 2 = 1 then 0x00 else 0x0f

/-- The list and the memory after the calls of `done`, from `s` on. -/
structure Fixed (len : Nat → Nat) (s : St γ) (done : List Nat) (t : St γ) : Prop where
  once : (t.fixHead.map FixNode.addr).Nodup
  called : ∀ a, a ∈ t.fixHead.map FixNode.addr ↔ a ∈ done
  inside : ∀ node ∈ t.fixHead, node.loc ≤ len node.addr - 10
  byte : ∀ node ∈ t.fixHead, t.mem (node.addr + node.loc) = fixByte (done.count node.addr)
  others : ∀ a, (∀ node ∈ t.fixHead, a ≠ node.addr + node.loc) → t.mem a = s.mem a

/-- A call on a mapping that the list has changes its byte. -/
structure FixAgain (addr : Nat) (node : FixNode) (s t : St γ) : Prop where
  listed : node ∈ s.fixHead
  addr_eq : node.addr = addr
  head : t.fixHead = s.fixHead
  mem : t.mem = Function.update s.mem (addr + node.loc) (toggled (s.mem (addr + node.loc)))

/-- The first call on a mapping chooses its location. -/
structure FixFirst (addr size loc : Nat) (s t : St γ) : Prop where
  fresh : ∀ node ∈ s.fixHead, node.addr ≠ addr
  loc_le : loc ≤ size - 10
  head : t.fixHead = ⟨addr, loc⟩ :: s.fixHead
  mem : t.mem = Function.update s.mem (addr + loc) 0x00

theorem touchSimple_toggles (a : Nat) (s : St γ) :
    Ends (touchSimple a) s
      (fun _ t => t.fixHead = s.fixHead ∧ t.mem = Function.update s.mem a (toggled (s.mem a)))
      fun _ _ => False := by
  unfold touchSimple toggled store
  simp only [ends_bind, ends_get]
  rw [ends_ite]
  refine ⟨fun h => ⟨rfl, ?_⟩, fun h => ⟨rfl, ?_⟩⟩
  · rw [if_pos h]
  · rw [if_neg h]

theorem patternFix_ends (hmal : ∀ n, w.malloc n = true) (hne : addr ≠ 0) (hl : 10 ≤ size)
    (hh : size < 2 ^ 64) (s : St γ) :
    Ends (patternFix w addr size) s
      (fun _ t => (∃ node, FixAgain addr node s t) ∨ ∃ loc, FixFirst addr size loc s t)
      fun _ _ => False := by
  have hguard : ¬(addr = 0 ∨ size = 0) := by omega
  unfold patternFix
  simp only [if_neg hguard, ends_bind, ends_get]
  cases hf : fixExists s.fixHead addr with
  | some node =>
    obtain ⟨hnode, haddr⟩ := fixExists_mem hf
    apply (touchSimple_toggles _ s).imp
    intro _ t hq
    obtain ⟨hhead, hmem⟩ := hq
    rw [haddr] at hmem
    exact .inl ⟨node, hnode, haddr, hhead, hmem⟩
  | none =>
    have hfresh : ∀ node ∈ s.fixHead, node.addr ≠ addr := by
      simpa [fixExists] using hf
    simp only [ends_bind, fixAllocNode, ends_get, hmal, if_true, ends_set, ends_pure]
    apply (fixRandLoc_chooses hl hh s).imp
    intro _ t hq
    obtain ⟨loc, hloc, hpicked⟩ := hq
    exact .inr ⟨loc, hfresh, hloc, hpicked.head, hpicked.mem⟩

/-- Each call changes the byte to its other value. -/
theorem toggled_fixByte (n : Nat) : toggled (fixByte n) = fixByte (n + 1) := by
  unfold fixByte
  rcases Nat.mod_two_eq_zero_or_one n with h | h
  · have hnext : (n + 1) % 2 = 1 := by omega
    rw [h, hnext]
    rfl
  · have hnext : (n + 1) % 2 = 0 := by omega
    rw [h, hnext]
    rfl

section mappings

variable {s t u : St γ} {done : List Nat} {node : FixNode} {loc : Nat}

/-- Locations in two mappings are not the same byte. -/
theorem Mapped.ne {a b i j : Nat} (h : Mapped len maps) (ha : a ∈ maps) (hb : b ∈ maps)
    (hne : a ≠ b) (hi : i ≤ len a - 10) (hj : j ≤ len b - 10) : a + i ≠ b + j := by
  intro heq
  have hla := h.long a ha
  have hlb := h.long b hb
  have hin : a + i ∈ Set.Ico a (a + len a) := ⟨by omega, by omega⟩
  have hin' : a + i ∈ Set.Ico b (b + len b) := ⟨by omega, by omega⟩
  exact Set.disjoint_left.mp (h.apart a ha b hb hne) hin hin'

theorem Fixed.addr_mem (h : Fixed len s done t) (hdone : ∀ a ∈ done, a ∈ maps)
    (hnode : node ∈ t.fixHead) : node.addr ∈ maps :=
  hdone _ ((h.called node.addr).mp (List.mem_map_of_mem hnode))

theorem Fixed.again (hm : Mapped len maps) (h : Fixed len s done t) (hdone : ∀ a ∈ done, a ∈ maps)
    (hc : FixAgain addr node t u) : Fixed len s (done ++ [addr]) u := by
  obtain ⟨hlisted, rfl, hhead, hmem⟩ := hc
  have hold : node.addr ∈ done := (h.called node.addr).mp (List.mem_map_of_mem hlisted)
  refine ⟨hhead ▸ h.once, fun a => ?_, hhead ▸ h.inside, fun node' hnode' => ?_, fun a ha => ?_⟩
  · rw [hhead, h.called, List.mem_append, List.mem_singleton]
    exact ⟨.inl, fun ha => ha.elim id fun heq => heq ▸ hold⟩
  · rw [hhead] at hnode'
    rw [hmem, List.count_append]
    by_cases hsame : node'.addr = node.addr
    · obtain rfl : node' = node := List.inj_on_of_nodup_map h.once hnode' hlisted hsame
      rw [Function.update_self, h.byte node' hnode', toggled_fixByte, List.count_singleton_self]
    · have hne := hm.ne (h.addr_mem hdone hnode') (h.addr_mem hdone hlisted) hsame
        (h.inside _ hnode') (h.inside _ hlisted)
      have hcount : List.count node'.addr [node.addr] = 0 := by
        rw [List.count_eq_zero, List.mem_singleton]
        exact hsame
      rw [Function.update_of_ne hne, hcount, Nat.add_zero]
      exact h.byte node' hnode'
  · rw [hhead] at ha
    rw [hmem, Function.update_of_ne (ha node hlisted)]
    exact h.others a ha

theorem Fixed.first (hm : Mapped len maps) (h : Fixed len s done t) (hdone : ∀ a ∈ done, a ∈ maps)
    (haddr : addr ∈ maps) (hc : FixFirst addr (len addr) loc t u) :
    Fixed len s (done ++ [addr]) u := by
  obtain ⟨hfresh, hloc, hhead, hmem⟩ := hc
  have hnew : addr ∉ t.fixHead.map FixNode.addr := by
    intro hin
    obtain ⟨node, hnode, heq⟩ := List.mem_map.mp hin
    exact hfresh node hnode heq
  refine ⟨?_, fun a => ?_, ?_, ?_, fun a ha => ?_⟩
  · rw [hhead, List.map_cons, List.nodup_cons]
    exact ⟨hnew, h.once⟩
  · rw [hhead, List.map_cons, List.mem_cons, h.called, List.mem_append, List.mem_singleton]
    exact or_comm
  · rw [hhead]
    exact List.forall_mem_cons.mpr ⟨hloc, h.inside⟩
  · rw [hhead, hmem]
    refine List.forall_mem_cons.mpr ⟨?_, fun node hnode => ?_⟩
    · have hcount : done.count addr = 0 := List.count_eq_zero.mpr (mt (h.called addr).mpr hnew)
      rw [Function.update_self, List.count_append, hcount, List.count_singleton_self]
      rfl
    · have hne := hm.ne (h.addr_mem hdone hnode) haddr (hfresh node hnode) (h.inside _ hnode) hloc
      have hcount : List.count node.addr [addr] = 0 := by
        rw [List.count_eq_zero, List.mem_singleton]
        exact hfresh node hnode
      rw [Function.update_of_ne hne, List.count_append, hcount, Nat.add_zero]
      exact h.byte node hnode
  · rw [hhead] at ha
    obtain ⟨hne, hothers⟩ := List.forall_mem_cons.mp ha
    rw [hmem, Function.update_of_ne hne]
    exact h.others a hothers

end mappings

theorem fixed_start {s : St γ} (h : s.fixHead = []) : Fixed len s [] s := by
  refine ⟨?_, fun a => ?_, ?_, ?_, fun _ _ => rfl⟩
  · rw [h]
    exact List.nodup_nil
  · rw [h]
    exact Iff.rfl
  · rw [h]
    exact fun _ hnode => absurd hnode List.not_mem_nil
  · rw [h]
    exact fun _ hnode => absurd hnode List.not_mem_nil

/-- What a call adds to the list goes before what is there. -/
theorem fixCalls_ends (hmal : ∀ n, w.malloc n = true) (hm : Mapped len maps) (calls : List Nat)
    (hcalls : ∀ a ∈ calls, a ∈ maps) {s t : St γ} {done : List Nat} (hdone : ∀ a ∈ done, a ∈ maps)
    (h : Fixed len s done t) :
    Ends (fixCalls w len calls) t
      (fun _ u => Fixed len s (done ++ calls) u ∧ t.fixHead <:+ u.fixHead) fun _ _ => False := by
  induction calls generalizing done t with
  | nil =>
    rw [List.append_nil]
    exact ⟨h, List.suffix_refl _⟩
  | cons addr calls ih =>
    obtain ⟨haddr, hcalls'⟩ := List.forall_mem_cons.mp hcalls
    obtain ⟨hl, hh⟩ := hm.long addr haddr
    unfold fixCalls
    apply (patternFix_ends hmal (hm.nonnull addr haddr) hl hh t).bind
    intro _ v hv
    have hstep : Fixed len s (done ++ [addr]) v ∧ t.fixHead <:+ v.fixHead := by
      rcases hv with ⟨node, hc⟩ | ⟨loc, hc⟩
      · exact ⟨h.again hm hdone hc, hc.head ▸ List.suffix_refl _⟩
      · exact ⟨h.first hm hdone haddr hc, hc.head ▸ List.suffix_cons _ _⟩
    have hdone' : ∀ a ∈ done ++ [addr], a ∈ maps := by
      intro a ha
      rcases List.mem_append.mp ha with ha | ha
      · exact hdone a ha
      · exact List.mem_singleton.mp ha ▸ haddr
    apply (ih hcalls' hdone' hstep.1).imp
    intro _ u hq
    obtain ⟨hu, hsuffix⟩ := hq
    rw [List.append_assoc] at hu
    exact ⟨hu, hstep.2.trans hsuffix⟩

/-- After any calls of the fix pattern each mapping called has one location, the
one chosen first, where its byte tells whether the calls were odd or even in
number; every other byte is as it was. -/
theorem fix_pattern (w : World γ) (hmal : ∀ n, w.malloc n = true) (len : Nat → Nat) (maps : Set Nat)
    (hm : Mapped len maps) (s : St γ) (hs : s.fixHead = []) (before after : List Nat)
    (hbefore : ∀ a ∈ before, a ∈ maps) (hafter : ∀ a ∈ after, a ∈ maps) :
    Ends (fixCalls w len before) s
      (fun _ t => Fixed len s before t ∧
        Ends (fixCalls w len after) t
          (fun _ u => Fixed len s (before ++ after) u ∧ t.fixHead <:+ u.fixHead) fun _ _ => False)
      fun _ _ => False := by
  refine (fixCalls_ends hmal hm before hbefore (fun _ ha => absurd ha List.not_mem_nil)
    (fixed_start hs)).imp ?_
  intro _ t hq
  obtain ⟨ht, _⟩ := hq
  exact ⟨ht, fixCalls_ends hmal hm after hafter hbefore ht⟩

/-- Two mappings of a page, side by side. -/
theorem mapped_pages : Mapped (fun _ => 4096) {4096, 8192} := by
  refine ⟨?_, fun _ _ => ⟨by decide, by decide⟩, ?_⟩
  · rintro a (rfl | rfl) <;> decide
  · rintro a (rfl | rfl) b (rfl | rfl) hne
    · exact absurd rfl hne
    · exact Set.Ico_disjoint_Ico.mpr (by decide)
    · exact Set.Ico_disjoint_Ico.mpr (by decide)
    · exact absurd rfl hne

theorem fix_pattern_pages :
    let s : St Unit := initial smallTable (fun _ => 7) ()
    Ends (fixCalls plainWorld (fun _ => 4096) [4096, 8192, 4096]) s
      (fun _ t => Fixed (fun _ => 4096) s [4096, 8192, 4096] t ∧
        Ends (fixCalls plainWorld (fun _ => 4096) [8192]) t
          (fun _ u => Fixed (fun _ => 4096) s ([4096, 8192, 4096] ++ [8192]) u ∧
            t.fixHead <:+ u.fixHead) fun _ _ => False)
      fun _ _ => False :=
  fix_pattern plainWorld (fun _ => rfl) (fun _ => 4096) {4096, 8192} mapped_pages
    (initial smallTable (fun _ => 7) ()) rfl [4096, 8192, 4096] [8192] (by simp) (by simp)

end Gobbler.Proofs
