import Gobbler.Proofs.FilePool

namespace Gobbler.Proofs

variable {γ : Type} {w : World γ} {b : Book} {ps len : Nat} {anonSlice : Int} {led : Ledger}
  {x : Option Halt}

/-- A class of at least `len` bytes has more free nodes than the list of the
phase has room for records. -/
structure Plenty (len : Nat) (b : Book) : Prop where
  short : (current b).length ≤ maxAllocPerSe
  free : ∃ (i : Nat) (c : FileClass), b.fileLst[i]? = some c ∧ len ≤ c.size ∧
    markedCount c + maxAllocPerSe < c.paths.length + (current b).length

theorem markedCount_full {c : FileClass} (h : findAvailNode c.paths = none) :
    markedCount c = c.paths.length := by
  rw [findAvailNode_eq, Slots.firstFree, List.findIdx?_eq_none_iff] at h
  refine List.countP_eq_length.mpr fun node hn => ?_
  simpa using h node hn

theorem Plenty.not_exhausted (h : Plenty len b) {size : Nat} (hle : size ≤ len) :
    ¬Exhausted b.fileLst size := by
  obtain ⟨i, c, hc, hsize, hfree⟩ := h.free
  intro hex
  have hfull := markedCount_full (hex c (List.mem_of_getElem? hc) (Nat.le_trans hle hsize))
  have hshort := h.short
  omega

/-- A class after one of its nodes was marked, or none. -/
theorem markNode_get {lst : List FileClass} {i j k : Nat} {c d : FileClass} {node : FileNode}
    (hi : lst[i]? = some d) (hj : d.paths[j]? = some node) (hfree : inUse node = false)
    (hk : lst[k]? = some c) :
    ∃ c', (markNode lst i j 1)[k]? = some c' ∧ c'.size = c.size ∧
      c'.paths.length = c.paths.length ∧ markedCount c' ≤ markedCount c + 1 := by
  rw [markNode_one]
  by_cases hki : k = i
  · subst hki
    rw [hi, Option.some.injEq] at hk
    subst hk
    refine ⟨markClass j d, Slots.getElem?_modify_self _ hi, rfl, List.length_modify .., ?_⟩
    exact Nat.le_of_eq (Slots.countP_modify hj hfree fun _ => rfl)
  · exact ⟨c, (Slots.getElem?_modify_ne _ hki).trans hk, rfl, rfl, Nat.le_succ _⟩

/-- A request takes at most one node for each record it adds. -/
theorem Plenty.request {cnt cnt' : Nat} {typ : MemType} (h : Plenty len b)
    (hreq : Request ps b anonSlice cnt typ cnt' led) : Plenty len (withLedger b led) := by
  obtain ⟨i, c, hc, hsize, hfree⟩ := h.free
  cases hreq with
  | @refused lst _ _ _ _ pool =>
    obtain ⟨c', hc', hs⟩ := pool.get hc
    refine ⟨h.short, i, c', hc', hs.size.symm ▸ hsize, ?_⟩
    rw [markedCount, hs.paths]
    exact hfree
  | @served lst r node chosen granted addr track room counter =>
    have hlen : (current (withLedger b (taken ps b.toLedger lst r node))).length =
        (current b).length + 1 := by
      rw [current_taken, List.length_append, List.length_singleton]
    refine ⟨hlen ▸ room, ?_⟩
    rw [hlen]
    generalize htype : r.type = type at granted
    generalize r.len = rlen at granted
    cases granted with
    | anon =>
      exact ⟨i, c, hc, hsize, by omega⟩
    | @file _ i' j _ d _ pool fit =>
      obtain ⟨d', hd', hsd⟩ := pool.get fit.found
      obtain ⟨c', hc', hs⟩ := pool.get hc
      have havail := fit.avail
      rw [findAvailNode_eq] at havail
      obtain ⟨⟨node, hnode, hunused⟩, _⟩ := Slots.firstFree_spec havail
      obtain ⟨e, he, hesize, helen, hemarked⟩ :=
        markNode_get hd' (hsd.paths.symm ▸ hnode) hunused hc'
      refine ⟨i, e, he, ?_, ?_⟩
      · rw [hesize, hs.size]
        exact hsize
      · have hsame : markedCount c' = markedCount c := by rw [markedCount, hs.paths, markedCount]
        rw [helen, hs.paths]
        omega

/-- While there is plenty of nodes for every size, no request is refused. -/
theorem Plenty.refused (h : Plenty len b) (hall : ∀ c ∈ b.fileLst, c.size ≤ len)
    (hm : LedgerMove w b x led) : led.refused = b.refused := by
  cases hm with
  | same => rfl
  | phase => rfl
  | request request =>
    cases request with
    | refused _ asked full => exact absurd full (h.not_exhausted (hall _ asked.mem))
    | @served _ _ node => cases node <;> rfl
  | aborted aborted => cases aborted <;> rfl

end Gobbler.Proofs
