import Mathlib

namespace Regions

variable {α β : Type} {f : α → Set β} {l : List α}

/-- No two entries of a list share a point of their regions. -/
def Apart (f : α → Set β) (l : List α) : Prop := l.Pairwise fun a b => Disjoint (f a) (f b)

/-- A point lies in the region of at most one entry. -/
theorem Apart.unique (h : Apart f l) {a b : α} (ha : a ∈ l) (hb : b ∈ l) {x : β}
    (hx : x ∈ f a) (hy : x ∈ f b) : a = b := by
  by_contra hne
  have hsymm : Std.Symm fun a b => Disjoint (f a) (f b) := ⟨fun _ _ hd => hd.symm⟩
  have hd : Disjoint (f a) (f b) := List.Pairwise.forall h ha hb hne
  exact Set.disjoint_left.mp hd hx hy

/-- Where the list is put together from numbered ones, a point lies in the
region of an entry of at most one of these. -/
theorem Apart.index {n i j : Nat} {t : Nat → List α} (h : Apart f ((List.range n).flatMap t))
    (hi : i < n) (hj : j < n) {a b : α} (ha : a ∈ t i) (hb : b ∈ t j) {x : β}
    (hx : x ∈ f a) (hy : x ∈ f b) : i = j := by
  obtain ⟨_, hp⟩ := List.pairwise_flatMap.mp h
  have hlt : ∀ {k m : Nat} {c d : α}, k < m → m < n → c ∈ t k → d ∈ t m → x ∈ f c → x ∉ f d := by
    intro k m c d hkm hm hc hd hxc
    have hget := List.pairwise_iff_getElem.mp hp k m (by simp; omega) (by simpa using hm) hkm
    simp only [List.getElem_range] at hget
    exact Set.disjoint_left.mp (hget c hc d hd) hxc
  rcases Nat.lt_trichotomy i j with hij | hij | hij
  · exact absurd hy (hlt hij hj ha hb hx)
  · exact hij
  · exact absurd hx (hlt hij hi hb ha hy)

/-- Regions that share no point have, within a finite set, no more points than it. -/
theorem Apart.sum_ncard_le (h : Apart f l) {s : Set β} (hs : s.Finite) (hl : ∀ a ∈ l, f a ⊆ s) :
    (l.map fun a => (f a).ncard).sum ≤ s.ncard := by
  induction l generalizing s with
  | nil => simp
  | cons a l ih =>
    obtain ⟨ha, hrest⟩ := List.pairwise_cons.mp h
    obtain ⟨hsub, hsubs⟩ := List.forall_mem_cons.mp hl
    have hle := ih hrest hs.sdiff fun b hb => Set.subset_sdiff.mpr ⟨hsubs b hb, (ha b hb).symm⟩
    have hsplit := Set.ncard_sdiff_add_ncard_of_subset hsub hs
    rw [List.map_cons, List.sum_cons]
    omega

end Regions
