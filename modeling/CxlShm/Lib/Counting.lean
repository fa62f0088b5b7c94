import Mathlib.Data.Set.Card

/-!
# Counting under point updates

For a function `f` and a property `p` of its values, `count p f` is the number of arguments at
which `f` has the property.  A step of a machine changes such an `f` at one argument, and the three
rules below (`count_update_gain`, `count_update_lose`, `count_update_of_iff`) say what happens to
the number: it goes up by one, down by one, or stays.
-/

namespace Counting

variable {α β : Type*}

/-- Number of arguments at which `f` has the property `p`. -/
noncomputable def count (p : β → Prop) (f : α → β) : ℕ := {a | p (f a)}.ncard

/-- `f` has the property `p` at finitely many arguments. -/
def FiniteOn (p : β → Prop) (f : α → β) : Prop := {a | p (f a)}.Finite

theorem FiniteOn.mono {p q : β → Prop} {f : α → β} (h : FiniteOn q f) (hpq : ∀ b, p b → q b) :
    FiniteOn p f :=
  Set.Finite.subset h fun a ha => hpq (f a) ha

theorem count_eq_zero {p : β → Prop} {f : α → β} (h : ∀ a, ¬ p (f a)) : count p f = 0 := by
  have empty : {a | p (f a)} = ∅ := Set.eq_empty_of_forall_notMem h
  simp [count, empty]

theorem count_pos {p : β → Prop} {f : α → β} (hf : FiniteOn p f) {a : α} (h : p (f a)) :
    0 < count p f :=
  (Set.ncard_pos hf).2 ⟨a, h⟩

theorem count_congr {γ : Type*} {p : β → Prop} {q : γ → Prop} {f : α → β} {g : α → γ}
    (h : ∀ a, p (f a) ↔ q (g a)) : count p f = count q g := by
  have same : {a | p (f a)} = {a | q (g a)} := Set.ext h
  simp only [count, same]

/-- The arguments of `f` with the property are counted one to one by arguments of `g`. -/
theorem count_le_of_injOn {γ δ : Type*} {p : β → Prop} {f : α → β} {q : δ → Prop} {g : γ → δ}
    (hg : FiniteOn q g) (e : α → γ) (maps : ∀ a, p (f a) → q (g (e a)))
    (inj : ∀ a a', p (f a) → p (f a') → e a = e a' → a = a') : count p f ≤ count q g :=
  Set.ncard_le_ncard_of_injOn e maps (fun a ha a' ha' h => inj a a' ha ha' h) hg

/-- As `count_le_of_injOn`, with one argument of `g` left over. -/
theorem count_lt_of_injOn {γ δ : Type*} {p : β → Prop} {f : α → β} {q : δ → Prop} {g : γ → δ}
    (hg : FiniteOn q g) (e : α → γ) (maps : ∀ a, p (f a) → q (g (e a)))
    (inj : ∀ a a', p (f a) → p (f a') → e a = e a' → a = a')
    {c : γ} (hc : q (g c)) (missed : ∀ a, p (f a) → e a ≠ c) : count p f < count q g := by
  have bound : {a | p (f a)}.ncard ≤ ({x | q (g x)} \ {c}).ncard :=
    Set.ncard_le_ncard_of_injOn e (fun a ha => ⟨maps a ha, missed a ha⟩)
      (fun a ha a' ha' h => inj a a' ha ha' h) (Set.Finite.subset hg Set.sdiff_subset)
  have split := Set.ncard_sdiff_singleton_add_one (s := {x | q (g x)}) hc hg
  simp only [count]
  omega

section Update

variable [DecidableEq α] {p : β → Prop} {f : α → β} {a : α} {b : β}

theorem setOf_update_of_not (h : ¬ p b) :
    {x | p (Function.update f a b x)} = {x | p (f x)} \ {a} := by
  ext x
  by_cases hx : x = a
  · subst hx
    simp [h]
  · simp [hx]

theorem setOf_update_of_pos (h : p b) :
    {x | p (Function.update f a b x)} = insert a {x | p (f x)} := by
  ext x
  by_cases hx : x = a
  · subst hx
    simp [h]
  · simp [hx]

theorem FiniteOn.update (hf : FiniteOn p f) (a : α) (b : β) :
    FiniteOn p (Function.update f a b) := by
  by_cases h : p b
  · simp only [FiniteOn, setOf_update_of_pos h]
    exact Set.Finite.insert a hf
  · simp only [FiniteOn, setOf_update_of_not h]
    exact Set.Finite.subset hf Set.sdiff_subset

theorem count_update_of_iff (h : p b ↔ p (f a)) : count p (Function.update f a b) = count p f := by
  refine count_congr fun x => ?_
  by_cases hx : x = a
  · subst hx
    simpa using h
  · simp [hx]

theorem count_update_gain (hf : FiniteOn p f) (old : ¬ p (f a)) (new : p b) :
    count p (Function.update f a b) = count p f + 1 := by
  simp only [count, setOf_update_of_pos new]
  exact Set.ncard_insert_of_notMem old hf

theorem count_update_lose (hf : FiniteOn p f) (old : p (f a)) (new : ¬ p b) :
    count p (Function.update f a b) + 1 = count p f := by
  simp only [count, setOf_update_of_not new]
  exact Set.ncard_sdiff_singleton_add_one old hf

end Update

/-! ## Counting the arguments of one key -/

section Key

variable {κ : Type*} {key : α → κ} {k : κ} {p : β → Prop} {f : α → β} {a : α} {b : β}

/-- Number of arguments with key `k` at which `f` has the property `p`. -/
noncomputable def countAt (key : α → κ) (k : κ) (p : β → Prop) (f : α → β) : ℕ :=
  count (fun v : κ × β => v.1 = k ∧ p v.2) fun a => (key a, f a)

theorem countAt_eq (key : α → κ) (k : κ) (p : β → Prop) (f : α → β) :
    countAt key k p f = {a | key a = k ∧ p (f a)}.ncard := rfl

theorem countAt_congr {q : β → Prop} {g : α → β} (h : ∀ a, key a = k → (p (f a) ↔ q (g a))) :
    countAt key k p f = countAt key k q g :=
  count_congr fun a => and_congr_right fun here => h a here

theorem countAt_eq_zero (h : ∀ a, key a = k → ¬ p (f a)) : countAt key k p f = 0 :=
  count_eq_zero fun a ha => h a ha.1 ha.2

theorem countAt_pos (fin : {a | key a = k}.Finite) (here : key a = k) (h : p (f a)) :
    0 < countAt key k p f :=
  (Set.ncard_pos (fin.subset fun _ ha => ha.1)).2 ⟨a, here, h⟩

/-- No more than the arguments of the key. -/
theorem countAt_le (fin : {a | key a = k}.Finite) : countAt key k p f ≤ {a | key a = k}.ncard :=
  Set.ncard_le_ncard (fun _ ha => ha.1) fin

variable [DecidableEq α]

theorem key_update : (fun x => (key x, Function.update f a b x)) =
    Function.update (fun x => (key x, f x)) a (key a, b) := by
  funext x
  by_cases hx : x = a
  · subst hx
    simp
  · simp [hx]

theorem countAt_update_of_ne (other : key a ≠ k) :
    countAt key k p (Function.update f a b) = countAt key k p f := by
  apply countAt_congr
  intro x here
  rw [Function.update_of_ne]
  rintro rfl
  exact other here

theorem countAt_update_of_iff (h : p b ↔ p (f a)) :
    countAt key k p (Function.update f a b) = countAt key k p f := by
  rw [countAt, key_update]
  exact count_update_of_iff (and_congr_right fun _ => h)

theorem countAt_update_gain (fin : {a | key a = k}.Finite) (here : key a = k) (old : ¬ p (f a))
    (new : p b) : countAt key k p (Function.update f a b) = countAt key k p f + 1 := by
  rw [countAt, key_update]
  exact count_update_gain (fin.subset fun _ ha => ha.1) (fun h => old h.2) ⟨here, new⟩

theorem countAt_update_lose (fin : {a | key a = k}.Finite) (here : key a = k) (old : p (f a))
    (new : ¬ p b) : countAt key k p (Function.update f a b) + 1 = countAt key k p f := by
  rw [countAt, key_update]
  exact count_update_lose (fin.subset fun _ ha => ha.1) ⟨here, old⟩ fun h => new h.2

end Key

end Counting
