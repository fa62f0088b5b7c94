import Mathlib.Data.Set.Finite.Basic
import Mathlib.Logic.Relation

/-!
# Where the elements of a finite set come from

In a finite set in which every element starts by itself or is led to from another element, going
back from an element one comes to one that starts by itself, or in a circle.
-/

namespace Ancestors

open Relation

variable {α : Type*} {r : α → α → Prop} {starts : α → Prop} {S : Finset α} {x : α}

theorem exists_start_or_cycle (from_one : ∀ y ∈ S, starts y ∨ ∃ z ∈ S, r z y) (hx : x ∈ S) :
    (∃ y ∈ S, starts y ∧ ReflTransGen r y x) ∨
      ∃ y ∈ S, TransGen r y y ∧ ReflTransGen r y x := by
  by_contra neither
  obtain ⟨no_start, no_cycle⟩ := not_or.1 neither
  have finite : Finite {y // y ∈ S ∧ ReflTransGen r y x} :=
    (S.finite_toSet.subset fun _ hy => hy.1).to_subtype
  let before (y z : {y // y ∈ S ∧ ReflTransGen r y x}) : Prop := TransGen r y.1 z.1
  have irrefl : Std.Irrefl before := ⟨fun y cycle => no_cycle ⟨y.1, y.2.1, cycle, y.2.2⟩⟩
  have trans : IsTrans _ before := ⟨fun _ _ _ first second => first.trans second⟩
  have wf : WellFounded before := Finite.wellFounded_of_trans_of_irrefl before
  -- no element above `x` is the first one
  suffices none : ∀ y : {y // y ∈ S ∧ ReflTransGen r y x}, False from none ⟨x, hx, .refl⟩
  intro y
  induction y using wf.induction with
  | _ y ih =>
    rcases from_one y.1 y.2.1 with start | ⟨z, hz, leads⟩
    · exact no_start ⟨y.1, y.2.1, start, y.2.2⟩
    · exact ih ⟨z, hz, .head leads y.2.2⟩ (.single leads)

end Ancestors
