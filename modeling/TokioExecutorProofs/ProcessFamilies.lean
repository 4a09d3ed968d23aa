import Mathlib.Data.Finset.Card
import Mathlib.Data.Finset.Range
import Mathlib.Data.List.Basic
import Mathlib.Data.List.Induction

/-!
Families of processes kept in a list: a process is its position, a step
replaces one entry, and a new process is appended. These are the rules by which
facts about every process, and counts over all of them, follow one entry.
-/

namespace TokioExecutorProofs.ProcessFamilies

variable {α : Type*} {family : List α} {i j : Nat} {x y z : α}

theorem mem_of_getElem? (h : family[i]? = some x) : x ∈ family :=
  List.mem_of_getElem? h

theorem getElem?_set_cases (h : (family.set i y)[j]? = some z) :
    (j = i ∧ z = y) ∨ (j ≠ i ∧ family[j]? = some z) := by
  rw [List.getElem?_set] at h
  split at h
  · rename_i hij
    split at h
    · left
      exact ⟨hij.symm, (Option.some.inj h).symm⟩
    · simp at h
  · rename_i hij
    exact Or.inr ⟨fun hji => hij hji.symm, h⟩

theorem getElem?_append_cases (h : (family ++ [y])[j]? = some z) :
    family[j]? = some z ∨ (j = family.length ∧ z = y) := by
  rw [List.getElem?_append] at h
  split at h
  · exact Or.inl h
  · rename_i hj
    right
    have hzero : j - family.length = 0 := by
      by_contra hpos
      rw [List.getElem?_eq_none (by simp; omega)] at h
      simp at h
    simp only [hzero, List.getElem?_cons_zero, Option.some.injEq] at h
    exact ⟨by omega, h.symm⟩

theorem getElem?_append_of_some (h : family[i]? = some x) :
    (family ++ [y])[i]? = some x := by
  rw [List.getElem?_append_left (List.getElem?_eq_some_iff.mp h).1]
  exact h

theorem getElem?_append_of_ne (hne : j ≠ family.length) :
    (family ++ [y])[j]? = family[j]? := by
  cases hj : family[j]? with
  | some x => exact getElem?_append_of_some hj
  | none =>
      have := List.getElem?_eq_none_iff.mp hj
      exact List.getElem?_eq_none (by simp; omega)

theorem getElem?_set_of_ne (hne : j ≠ i) : (family.set i y)[j]? = family[j]? := by
  rw [List.getElem?_set, if_neg (fun hij => hne hij.symm)]

theorem set_self_of_getElem? (h : family[i]? = some x) : family.set i x = family := by
  obtain ⟨hi, rfl⟩ := List.getElem?_eq_some_iff.mp h
  exact List.set_getElem_self hi

theorem getElem?_set_self_of_some (h : family[i]? = some x) :
    (family.set i y)[i]? = some y := by
  rw [List.getElem?_set_self (List.getElem?_eq_some_iff.mp h).1]

/-- What is read off a position does not change when a process is appended that
reads like a missing one. -/
theorem apply_getElem?_append {β : Type*} (f : Option α → β) (hf : f (some y) = f none)
    (i : Nat) : f (family ++ [y])[i]? = f family[i]? := by
  cases hi : family[i]? with
  | some x => rw [getElem?_append_of_some hi]
  | none =>
      cases hi' : (family ++ [y])[i]? with
      | none => rfl
      | some z =>
          rcases getElem?_append_cases hi' with h | ⟨_, rfl⟩
          · rw [hi] at h
            cases h
          · exact hf

theorem apply_getElem?_set {β : Type*} (f : Option α → β) (h : family[i]? = some x)
    (hf : f (some y) = f (some x)) (j : Nat) : f (family.set i y)[j]? = f family[j]? := by
  by_cases hj : j = i
  · subst j
    rw [getElem?_set_self_of_some h, h, hf]
  · rw [getElem?_set_of_ne hj]

theorem forall_mem_set {P : α → Prop} (hall : ∀ z ∈ family, P z) (hy : P y) :
    ∀ z ∈ family.set i y, P z := by
  intro z hz
  rcases List.mem_or_eq_of_mem_set hz with hz | rfl
  · exact hall z hz
  · exact hy

theorem forall_mem_append {P : α → Prop} (hall : ∀ z ∈ family, P z) (hy : P y) :
    ∀ z ∈ family ++ [y], P z := by
  intro z hz
  rcases List.mem_append.mp hz with hz | hz
  · exact hall z hz
  · rw [List.mem_singleton.mp hz]
    exact hy

/-- A step on a family: a new process, or a step of one process or of all at once. -/
inductive FamilyMove (fresh : α → Prop) (move : α → α → Prop) (family : List α) :
    List α → Prop
  | keep : FamilyMove fresh move family family
  | append {y : α} (hfresh : fresh y) : FamilyMove fresh move family (family ++ [y])
  | set {i : Nat} {x y : α} (hx : family[i]? = some x) (hmove : move x y) :
      FamilyMove fresh move family (family.set i y)
  | map {f : α → α} (hmove : ∀ x ∈ family, move x (f x)) :
      FamilyMove fresh move family (family.map f)

section

variable {fresh : α → Prop} {move : α → α → Prop} {family' : List α}

theorem FamilyMove.mono {fresh' : α → Prop} {move' : α → α → Prop}
    (h : FamilyMove fresh move family family') (hfresh : ∀ y, fresh y → fresh' y)
    (hmove : ∀ x y, x ∈ family → move x y → move' x y) :
    FamilyMove fresh' move' family family' := by
  cases h with
  | keep => exact .keep
  | append hy => exact .append (hfresh _ hy)
  | set hx hxy => exact .set hx (hmove _ _ (mem_of_getElem? hx) hxy)
  | map hf => exact .map fun x hx => hmove x _ hx (hf x hx)

theorem FamilyMove.forall_mem {P : α → Prop} (h : FamilyMove fresh move family family')
    (hfresh : ∀ y, fresh y → P y) (hmove : ∀ x y, x ∈ family → move x y → P x → P y)
    (hall : ∀ x ∈ family, P x) : ∀ y ∈ family', P y := by
  cases h with
  | keep => exact hall
  | append hy => exact forall_mem_append hall (hfresh _ hy)
  | set hx hxy =>
      have hmem := mem_of_getElem? hx
      exact forall_mem_set hall (hmove _ _ hmem hxy (hall _ hmem))
  | map hf =>
      intro y hy
      obtain ⟨x, hx, rfl⟩ := List.mem_map.mp hy
      exact hmove x _ hx (hf x hx) (hall x hx)

theorem FamilyMove.apply_getElem? {β : Type*} (h : FamilyMove fresh move family family')
    (f : Option α → β) (hfresh : ∀ y, fresh y → f (some y) = f none)
    (hmove : ∀ x y, move x y → f (some y) = f (some x)) (i : Nat) :
    f family'[i]? = f family[i]? := by
  cases h with
  | keep => rfl
  | append hy => exact apply_getElem?_append f (hfresh _ hy) i
  | set hx hxy => exact apply_getElem?_set f hx (hmove _ _ hxy) i
  | map hf =>
      rw [List.getElem?_map]
      cases hi : family[i]? with
      | none => rfl
      | some x => exact hmove _ _ (hf x (mem_of_getElem? hi))

end

theorem mem_set_of_getElem? (h : family[i]? = some x) : y ∈ family.set i y :=
  List.mem_set (List.getElem?_eq_some_iff.mp h).1 y

theorem exists_mem_set_of_ne {P : α → Prop} (h : family[i]? = some x)
    (hex : ∃ z ∈ family, P z) (hx : P x → P y) : ∃ z ∈ family.set i y, P z := by
  obtain ⟨z, hz, hPz⟩ := hex
  obtain ⟨j, hj⟩ := List.mem_iff_getElem?.mp hz
  by_cases hji : j = i
  · subst j
    have hzx : z = x := Option.some.inj (hj.symm.trans h)
    subst z
    exact ⟨y, mem_set_of_getElem? h, hx hPz⟩
  · refine ⟨z, ?_, hPz⟩
    apply List.mem_of_getElem? (i := j)
    rw [getElem?_set_of_ne hji]
    exact hj

/-- The weight of one process in a count. -/
def weight (p : α → Bool) (x : α) : Nat := if p x then 1 else 0

@[simp] theorem weight_of_true {p : α → Bool} (h : p x = true) : weight p x = 1 := by
  simp [weight, h]

@[simp] theorem weight_of_false {p : α → Bool} (h : p x = false) : weight p x = 0 := by
  simp [weight, h]

theorem weight_le_one (p : α → Bool) (x : α) : weight p x ≤ 1 := by
  unfold weight
  split <;> omega

theorem countP_set_add (p : α → Bool) (h : family[i]? = some x) :
    (family.set i y).countP p + weight p x = family.countP p + weight p y := by
  obtain ⟨hi, hx⟩ := List.getElem?_eq_some_iff.mp h
  have hpos : p x = true → 0 < family.countP p := fun hpx =>
    List.countP_pos_iff.mpr ⟨x, mem_of_getElem? h, hpx⟩
  rw [List.countP_set hi, hx]
  unfold weight
  split <;> rename_i hpx
  · have := hpos hpx
    omega
  · omega

theorem weight_le_countP (p : α → Bool) (h : family[i]? = some x) :
    weight p x ≤ family.countP p := by
  unfold weight
  split
  · rename_i hpx
    exact List.countP_pos_iff.mpr ⟨x, mem_of_getElem? h, hpx⟩
  · omega

theorem countP_set_of_eq {p : α → Bool} (h : family[i]? = some x) (heq : p y = p x) :
    (family.set i y).countP p = family.countP p := by
  have hadd := countP_set_add (y := y) p h
  rw [weight, weight, heq] at hadd
  omega

theorem countP_set_le {p : α → Bool} (h : family[i]? = some x)
    (himp : p y = true → p x = true) : (family.set i y).countP p ≤ family.countP p := by
  have hadd := countP_set_add (y := y) p h
  have hle : weight p y ≤ weight p x := by
    cases hy : p y with
    | false => simp [weight, hy]
    | true => simp [weight, hy, himp hy]
  omega

theorem countP_append_singleton (p : α → Bool) :
    (family ++ [y]).countP p = family.countP p + weight p y := by
  rw [List.countP_append, List.countP_singleton]
  rfl

theorem countP_map_of_eq {p : α → Bool} {f : α → α} (h : ∀ z ∈ family, p (f z) = p z) :
    (family.map f).countP p = family.countP p := by
  rw [List.countP_map]
  apply List.countP_congr
  intro z hz
  simp [h z hz]

theorem countP_and_add_countP_and_not (p q : α → Bool) :
    family.countP p =
      family.countP (fun z => p z && q z) + family.countP (fun z => p z && !q z) := by
  rw [List.countP_eq_countP_filter_add family p q, List.countP_filter, List.countP_filter]

theorem countP_eq_zero_iff (p : α → Bool) :
    family.countP p = 0 ↔ ∀ z ∈ family, p z = false := by
  rw [List.countP_eq_zero]
  simp

/-- The processes with a property, by their positions. -/
def indices (p : α → Bool) (family : List α) : Finset Nat :=
  (Finset.range family.length).filter fun i => family[i]?.any p

@[simp] theorem mem_indices {p : α → Bool} :
    i ∈ indices p family ↔ ∃ x, family[i]? = some x ∧ p x = true := by
  simp only [indices, Finset.mem_filter, Finset.mem_range, Option.any_eq_true]
  constructor
  · exact fun h => h.2
  · rintro ⟨x, hx, hp⟩
    exact ⟨(List.getElem?_eq_some_iff.mp hx).1, x, hx, hp⟩

theorem indices_congr {p : α → Bool} {family' : List α}
    (h : ∀ i : Nat, family'[i]?.any p = family[i]?.any p) :
    indices p family' = indices p family := by
  ext i
  rw [mem_indices, mem_indices, ← Option.any_eq_true, ← Option.any_eq_true, h]

theorem indices_append_singleton (p : α → Bool) :
    indices p (family ++ [y]) =
      if p y then insert family.length (indices p family) else indices p family := by
  ext i
  have hlast : (family ++ [y])[family.length]? = some y := by simp
  split
  · rename_i hy
    rw [Finset.mem_insert, mem_indices, mem_indices]
    constructor
    · rintro ⟨x, hx, hp⟩
      rcases getElem?_append_cases hx with hx | ⟨hi, _⟩
      · exact .inr ⟨x, hx, hp⟩
      · exact .inl hi
    · rintro (rfl | ⟨x, hx, hp⟩)
      · exact ⟨y, hlast, hy⟩
      · exact ⟨x, getElem?_append_of_some hx, hp⟩
  · rename_i hy
    rw [mem_indices, mem_indices]
    constructor
    · rintro ⟨x, hx, hp⟩
      rcases getElem?_append_cases hx with hx | ⟨_, rfl⟩
      · exact ⟨x, hx, hp⟩
      · exact absurd hp hy
    · rintro ⟨x, hx, hp⟩
      exact ⟨x, getElem?_append_of_some hx, hp⟩

theorem indices_set (p : α → Bool) (h : family[i]? = some x) :
    indices p (family.set i y) =
      if p y then insert i (indices p family) else (indices p family).erase i := by
  ext j
  by_cases hj : j = i
  · subst j
    have hself : (family.set i y)[i]? = some y := getElem?_set_self_of_some h
    rw [mem_indices, hself]
    split <;> simp_all
  · rw [mem_indices, getElem?_set_of_ne hj, ← mem_indices]
    split
    · rw [Finset.mem_insert, or_iff_right hj]
    · rw [Finset.mem_erase, and_iff_right hj]

theorem indices_set_of_eq {p : α → Bool} (h : family[i]? = some x) (heq : p y = p x) :
    indices p (family.set i y) = indices p family := by
  rw [indices_set p h, heq]
  split
  · rename_i hp
    exact Finset.insert_eq_of_mem (mem_indices.mpr ⟨x, h, hp⟩)
  · rename_i hp
    refine Finset.erase_eq_of_notMem fun hmem => ?_
    obtain ⟨x₁, hx₁, hp₁⟩ := mem_indices.mp hmem
    obtain rfl := Option.some.inj (h.symm.trans hx₁)
    exact hp hp₁

theorem card_indices (p : α → Bool) (family : List α) :
    (indices p family).card = family.countP p := by
  induction family using List.reverseRecOn with
  | nil => rfl
  | append_singleton family y ih =>
      have hnew : family.length ∉ indices p family := by
        rw [mem_indices]
        rintro ⟨x, hx, _⟩
        have := (List.getElem?_eq_some_iff.mp hx).1
        omega
      rw [indices_append_singleton, countP_append_singleton, ← ih]
      split
      · rename_i hy
        rw [Finset.card_insert_of_notMem hnew, weight_of_true hy]
      · rename_i hy
        rw [weight_of_false (by simpa using hy)]
        rfl

end TokioExecutorProofs.ProcessFamilies
