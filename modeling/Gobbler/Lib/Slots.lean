import Mathlib

namespace Slots

variable {α : Type} {used : α → Bool}

/-- The used slots come before the unused ones. -/
def Initial (used : α → Bool) (slots : List α) : Prop :=
  ∀ (i j : Nat) (a b : α), i < j → slots[i]? = some a → slots[j]? = some b → used b = true →
    used a = true

/-- A slot is used. -/
def Used (used : α → Bool) (slots : List α) (j : Nat) : Prop :=
  ∃ a, slots[j]? = some a ∧ used a = true

/-- The first slot that is not used. -/
def firstFree (used : α → Bool) (slots : List α) : Option Nat := slots.findIdx? fun a => !used a

theorem firstFree_spec {slots : List α} {j : Nat} (h : firstFree used slots = some j) :
    (∃ a, slots[j]? = some a ∧ used a = false) ∧
      ∀ i a, i < j → slots[i]? = some a → used a = true := by
  obtain ⟨hj, hfree, hbefore⟩ := List.findIdx?_eq_some_iff_getElem.mp h
  refine ⟨⟨slots[j], List.getElem?_eq_getElem hj, by simpa using hfree⟩, ?_⟩
  intro i a hi ha
  have hlt : i < slots.length := Nat.lt_trans hi hj
  rw [List.getElem?_eq_getElem hlt, Option.some.injEq] at ha
  have hb := hbefore i hi
  rw [ha] at hb
  simpa using hb

theorem getElem?_modify_self {slots : List α} {j : Nat} {a : α} (f : α → α)
    (h : slots[j]? = some a) : (slots.modify j f)[j]? = some (f a) := by
  simp [h]

theorem getElem?_modify_ne {slots : List α} {i j : Nat} (f : α → α) (h : i ≠ j) :
    (slots.modify j f)[i]? = slots[i]? := by
  rw [List.getElem?_modify]
  cases slots[i]? with
  | none => rfl
  | some a => simp [Ne.symm h]

/-- Using the first free slot keeps the used ones an initial segment. -/
theorem Initial.modify {slots : List α} {j : Nat} {f : α → α} (h : Initial used slots)
    (hj : firstFree used slots = some j) (hf : ∀ a, used (f a) = true) :
    Initial used (slots.modify j f) := by
  obtain ⟨⟨c, hc, _⟩, hbefore⟩ := firstFree_spec hj
  intro i k a b hik ha hb hu
  by_cases hij : i = j
  · rw [hij, getElem?_modify_self f hc, Option.some.injEq] at ha
    exact ha ▸ hf c
  · rw [getElem?_modify_ne f hij] at ha
    by_cases hkj : k = j
    · exact hbefore i a (hkj ▸ hik) ha
    · rw [getElem?_modify_ne f hkj] at hb
      exact h i k a b hik ha hb hu

/-- A change of one element changes the sum by what it does to that element. -/
theorem sum_modify {slots : List α} {i : Nat} {a : α} (g : α → Nat) (f : α → α)
    (h : slots[i]? = some a) (hf : g (f a) = g a + 1) :
    ((slots.modify i f).map g).sum = (slots.map g).sum + 1 := by
  induction slots generalizing i with
  | nil => simp at h
  | cons c cs ih =>
    cases i with
    | zero =>
      simp only [List.getElem?_cons_zero, Option.some.injEq] at h
      simp only [List.modify_zero_cons, List.map_cons, List.sum_cons, h, hf]
      omega
    | succ i =>
      rw [List.getElem?_cons_succ] at h
      simp only [List.modify_succ_cons, List.map_cons, List.sum_cons, ih h]
      omega

/-- Using a free slot raises the number of used ones by one. -/
theorem countP_modify {slots : List α} {j : Nat} {f : α → α} {a : α} (h : slots[j]? = some a)
    (hfree : used a = false) (hf : ∀ a, used (f a) = true) :
    (slots.modify j f).countP used = slots.countP used + 1 := by
  induction slots generalizing j with
  | nil => simp at h
  | cons c cs ih =>
    cases j with
    | zero =>
      simp only [List.getElem?_cons_zero, Option.some.injEq] at h
      simp [List.modify_zero_cons, h, hf, hfree]
    | succ j =>
      rw [List.getElem?_cons_succ] at h
      simp only [List.modify_succ_cons, List.countP_cons, ih h]
      omega

theorem used_modify {slots : List α} {j : Nat} {f : α → α} {a : α} (h : slots[j]? = some a)
    (hf : ∀ a, used (f a) = true) (k : Nat) :
    Used used (slots.modify j f) k ↔ k = j ∨ Used used slots k := by
  by_cases hkj : k = j
  · subst hkj
    exact ⟨fun _ => .inl rfl, fun _ => ⟨f a, getElem?_modify_self f h, hf a⟩⟩
  · simp only [Used, getElem?_modify_ne f hkj, hkj, false_or]

end Slots
