import CxlShm.Reference.Refinement
import CxlShm.Reference.Trial

/-!
# The reference count is exact

The invariant of the reference counting holds in every state of a permitted run, and with it the
equation between the count of an object, the locations that hold it, and the operations that are
between their compare-exchange and their store (`refCnt_accurate`).  Every life of an object ends
with one call of `cxl_free`, by the client whose compare-exchange took the count to zero.
-/

namespace CxlShm

open Counting Reachability
open RefCounting (Life LifeAt Phase)

variable {Loc : Type}

theorem KeepsAlive.init : KeepsAlive (State.init : State Loc) := by
  intro t c hc
  cases hc

theorem Sane.init : Sane (State.init : State Loc) where
  era _ := by simp [State.init]
  ctl _ := trivial
  null := rfl

theorem inv_abs_init : RefCounting.Inv (abs (State.init : State Loc)) where
  expects _ := trivial
  exclusive _ _ _ h := h.elim
  fresh _ _ h := h.elim
  oneCreator _ _ _ h := h.elim
  drops _ _ h := h.elim
  oneDropper _ _ _ h := h.elim
  dropper _ live := by simp [abs, State.init] at live
  finiteLoc _ := by simp [FiniteOn, abs, State.init]
  finitePhase := by simp [FiniteOn, abs, State.init, Control.phase]
  balance _ := by
    rw [RefCounting.weight_of_not_live (by simp [abs, State.init])]
    rw [count_eq_zero fun _ h => h, count_eq_zero, count_eq_zero fun _ h => h]
    simp [abs, State.init]

/-- What every permitted run keeps: the counting's invariant, and the lives seen so far. -/
structure Accounted (s : State Loc) : Prop where
  sane : Sane s
  inv : RefCounting.Inv (abs s)
  alive : KeepsAlive s
  life : ∀ o, ∃ l, (lives s.trace).foldlM (RefCounting.Life.next o) .absent = some l ∧
    RefCounting.LifeAt (abs s) o l

theorem Accounted.init : Accounted (State.init : State Loc) where
  sane := .init
  inv := inv_abs_init
  alive := .init
  life o := ⟨.absent, rfl, by simp [RefCounting.LifeAt, abs, State.init]⟩

/-- The client took the count of `o` to zero and has yet to call `cxl_free`. -/
def FreePending (o : Offset) (k : Control Loc) : Prop :=
  ∃ c, k = .call c ∧ c.last ∧ ¬ c.pc.announced ∧ c.refed = o

theorem drops_phase_iff {s : State Loc} (sane : Sane s) (t : ℕ) (o : Offset) :
    (s.ctl t).phase.Drops o ↔ FreePending o (s.ctl t) := by
  unfold FreePending
  cases hk : s.ctl t with
  | call c =>
    have free := (sane.call hk).2.2
    have func := Call.func_of_last (c := c)
    obtain ⟨f, ref, refed, pc, info, era⟩ := c
    cases f with
    | linkRef =>
      have never : ¬ (⟨.linkRef, ref, refed, pc, info, era⟩ : Call Loc).last = true := fun last => by
        simpa using func last
      cases pc <;> simp [Control.phase, Call.phase, Phase.Drops, never]
    | unlinkRef =>
      cases pc <;> simp only [Control.phase, Call.phase] <;> (try split_ifs) <;>
        simp_all [Phase.Drops, Pc.announced, and_comm]
  | _ => simp [Control.phase, Phase.Drops]

section

variable [DecidableEq Loc]

theorem Accounted.step {s s' : State Loc} {a : Action Loc} (h : Accounted s)
    (hs : s.step a = some s') (ok : Permitted s a s') : Accounted s' := by
  obtain ⟨e, step, trace⟩ := abs_step h.sane h.inv h.alive hs ok
  refine ⟨h.sane.step hs ok.1, ?_, ok.2.1, fun o => ?_⟩
  · rcases step with step | ⟨-, same⟩
    · exact h.inv.step step
    · exact same ▸ h.inv
  · obtain ⟨l, past, now⟩ := h.life o
    rw [trace, List.foldlM_append, past]
    rcases step with step | ⟨rfl, same⟩
    · exact h.inv.life_step step now
    · exact ⟨l, rfl, same ▸ now⟩

theorem accounted_of_reachable {s : State Loc} (h : Reachable State.step Permitted State.init s) :
    Accounted s :=
  h.invariant .init fun _ _ _ before hs ok => before.step hs ok

/-- **The reference count is exact.**  In every state of a permitted run the count of a live object
is the number of locations that hold it, with the links past their compare-exchange that have not
stored and without the unlinks past their compare-exchange that have not cleared; all three numbers
are finite.  The creations, last unlinks and frees of an object alternate: it is freed once a life,
by the client whose compare-exchange took the count from 1 to 0. -/
theorem refCnt_accurate {s : State Loc} (h : Reachable State.step Permitted State.init s) :
    (∀ o, s.allocated o →
      FiniteOn (· = o) s.mem.loc ∧ FiniteOn (LinkPending o) s.ctl ∧
        FiniteOn (UnlinkPending o) s.ctl ∧
        (getRefCntFromInfo (s.mem.refInfo o) : ℤ) =
          count (· = o) s.mem.loc + count (LinkPending o) s.ctl - count (UnlinkPending o) s.ctl) ∧
    ∀ o, ∃ life, (lives s.trace).foldlM (Life.next o) .absent = some life ∧
      (life = .absent ↔ s.allocated o = false) ∧
      ∀ t, life = .dying t ↔ FreePending o (s.ctl t) := by
  have accounted := accounted_of_reachable h
  have inv := accounted.inv
  refine ⟨fun o live => ?_, fun o => ?_⟩
  · have null : o ≠ 0 := by
      rintro rfl
      simp [accounted.sane.null] at live
    have balance := balance_of_inv inv null live
    refine ⟨?_, ?_, ?_, by omega⟩
    · refine Set.Finite.subset (inv.finiteLoc o) fun r hr => ?_
      have holds : s.mem.loc r = o := hr
      simp [abs, holds, null]
    · exact Set.Finite.subset (inv.finiteRaised o) fun t ht => (raised_phase_iff o (s.ctl t)).2 ht
    · exact Set.Finite.subset (inv.finitePinned o) fun t ht =>
        (pinned_phase_iff fun hu => inv.fresh t o hu live).2 ht
  · obtain ⟨life, past, now⟩ := accounted.life o
    refine ⟨life, past, ?_, fun t => ?_⟩
    · rw [now.eq_absent_iff inv]
      exact Bool.not_eq_true _ ▸ Iff.rfl
    · rw [now.eq_dying_iff inv]
      exact drops_phase_iff accounted.sane t o

/-- Two clients: the first creates the object `8`, the second stops in the middle of a link. -/
theorem refCnt_accurate_of_pending_link : ∃ s : State (Fin 2),
    Reachable State.step Permitted State.init s ∧ getRefCntFromInfo (s.mem.refInfo 8) = 2 ∧
      (getRefCntFromInfo (s.mem.refInfo 8) : ℤ) = count (· = 8) s.mem.loc +
        count (LinkPending 8) s.ctl - count (UnlinkPending 8) s.ctl := by
  let actions : List (Action (Fin 2)) :=
    [.run 1 false, .run 2 false, .malloc 1 0 8] ++ List.replicate 4 (.run 1 false) ++
      [.link 2 1 8] ++ List.replicate 6 (.run 2 false)
  have run : (checkedRun State.step (trial {1, 2}) (claimed 2) actions).any
      (fun s => s.allocated 8 ∧ getRefCntFromInfo (s.mem.refInfo 8) = 2) = true := by
    decide +kernel
  obtain ⟨s, hs, two⟩ := exists_reachable_of_trial Permitted (by decide) (fun _ _ _ ok _ => ok.1)
    (fun k _ => permitted_claimed k) run
  simp only [Bool.decide_and, Bool.and_eq_true, decide_eq_true_eq] at two
  exact ⟨s, hs, two.2, ((refCnt_accurate hs).1 8 two.1).2.2.2⟩

end

end CxlShm
