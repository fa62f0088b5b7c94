import CxlShm.Recovery.Machine

/-!
# Redo logs of former lives

Neither the recovery of a slot nor its next registration clears the redo log; the first allocation of
the new life that takes the slow path does.  A client that stops after that is recovered from its own
entries only (`redone_own`).  A client that stops before may have a finished operation of a former
life done again, into a location that has long been somebody else's (`former_life_redone`).
-/

namespace CxlShm.Recovery

open Reachability

variable {Loc : Type}

/-- A client that stops is in the first life of its slot, or has cleared the log, or has found it
empty. -/
def StopsCleared (s : State Loc) (a : Action Loc) : Prop :=
  ∀ t, a = .crash t → s.life t ≤ 1 ∨ s.cleared t ∨ ∀ i < redoCachelineCnt, s.base.mem.redo t i = none

/-- The entry the monitor has selected. -/
def Monitor.picked : Monitor Loc → Option (ℕ × ℕ)
  | .loadCid t i _ | .loadEra t i _ _ | .scan t i _ _ _ | .store t i _ => some (t, i)
  | .idle | .select _ | .collect _ | .unlink _ _ => none

/-- Entry `i` of the log of slot `t` is of the current life, if it is there. -/
def OwnEntry (s : State Loc) (t i : ℕ) : Prop :=
  s.base.mem.redo t i ≠ none → s.writtenIn t i = s.life t

/-- The invariant of the logs. -/
structure LogInv (s : State Loc) : Prop where
  alive : ∀ t, (s.base.ctl t).registered → 1 ≤ s.life t
  unused : ∀ t, s.life t = 0 → ∀ i, s.base.mem.redo t i = none
  clearing : ∀ t j, s.base.ctl t = .clearing j → ∀ i < j, s.base.mem.redo t i = none
  own : ∀ t, s.life t ≤ 1 ∨ s.cleared t → ∀ i < redoCachelineCnt, OwnEntry s t i
  dead : ∀ t, s.dead t → (s.base.ctl t).registered ∧ ∀ i < redoCachelineCnt, OwnEntry s t i
  busy : ∀ t, s.monitor.slot = some t → s.dead t
  picked : ∀ t i, s.monitor.picked = some (t, i) → s.writtenIn t i = s.life t
  redone : ∀ r ∈ s.redone, r.writtenIn = r.life

theorem LogInv.init : LogInv (State.init : State Loc) where
  alive _ h := by cases h
  unused _ _ _ := rfl
  clearing _ _ h := by cases h
  own _ _ _ _ h := absurd rfl h
  dead _ h := by cases h
  busy _ h := by cases h
  picked _ _ h := by cases h
  redone _ h := by cases h

section

variable {s s' : State Loc}

/-- The invariant after a step of the live client `t`, from what the step does to its slot. -/
theorem LogInv.update (h : LogInv s) {t : ℕ} (live : s.dead t = false) (dead : s'.dead = s.dead)
    (monitor : s'.monitor = s.monitor) (redone : s'.redone = s.redone)
    (ctl : ∀ u, u ≠ t → s'.base.ctl u = s.base.ctl u)
    (redo : ∀ u, u ≠ t → s'.base.mem.redo u = s.base.mem.redo u)
    (life : ∀ u, u ≠ t → s'.life u = s.life u)
    (writtenIn : ∀ u, u ≠ t → s'.writtenIn u = s.writtenIn u)
    (cleared : ∀ u, u ≠ t → s'.cleared u = s.cleared u)
    (alive : (s'.base.ctl t).registered → 1 ≤ s'.life t)
    (unused : s'.life t = 0 → ∀ i, s'.base.mem.redo t i = none)
    (clearing : ∀ j, s'.base.ctl t = .clearing j → ∀ i < j, s'.base.mem.redo t i = none)
    (own : s'.life t ≤ 1 ∨ s'.cleared t → ∀ i < redoCachelineCnt, OwnEntry s' t i) :
    LogInv s' := by
  have notDead : ∀ u, s.dead u → u ≠ t := by
    rintro u stopped rfl
    simp [live] at stopped
  refine ⟨fun u => ?_, fun u => ?_, fun u => ?_, fun u => ?_, fun u stopped => ?_, fun u slot => ?_,
    fun u i picked => ?_, redone ▸ h.redone⟩
  · by_cases hu : u = t
    · exact hu ▸ alive
    · rw [ctl u hu, life u hu]
      exact h.alive u
  · by_cases hu : u = t
    · exact hu ▸ unused
    · rw [life u hu, redo u hu]
      exact h.unused u
  · by_cases hu : u = t
    · exact hu ▸ clearing
    · rw [ctl u hu, redo u hu]
      exact h.clearing u
  · by_cases hu : u = t
    · exact hu ▸ own
    · intro clean i hi
      have before := h.own u (by rwa [← life u hu, ← cleared u hu]) i hi
      rwa [OwnEntry, redo u hu, writtenIn u hu, life u hu]
  · rw [dead] at stopped
    have hu := notDead u stopped
    obtain ⟨registered, entries⟩ := h.dead u stopped
    refine ⟨(ctl u hu).symm ▸ registered, fun i hi => ?_⟩
    rw [OwnEntry, redo u hu, writtenIn u hu, life u hu]
    exact entries i hi
  · rw [dead]
    exact h.busy u (monitor ▸ slot)
  · rw [monitor] at picked
    have slot : s.monitor.slot = some u := by
      cases hm : s.monitor <;> simp_all [Monitor.picked, Monitor.slot]
    have hu := notDead u (h.busy u slot)
    rw [writtenIn u hu, life u hu]
    exact h.picked u i picked

/-- The loop over the log ends at one of its entries. -/
theorem foldl_selected_lt {f : ℕ → ℕ → Bool} (l : List ℕ) (r n : ℕ) (hr : r < n)
    (hl : ∀ i ∈ l, i < n) : l.foldl (fun redo i => if f redo i then i else redo) r < n := by
  induction l generalizing r with
  | nil => exact hr
  | cons a l ih =>
    apply ih
    · dsimp only
      split
      · exact hl a List.mem_cons_self
      · exact hr
    · exact fun i hi => hl i (List.mem_cons_of_mem a hi)

theorem selected_lt (s : State Loc) (t : ℕ) : s.selected t < redoCachelineCnt := by
  have bound : ∀ i ∈ List.range' 1 (redoCachelineCnt - 1), i < redoCachelineCnt := by
    intro i hi
    simp only [redoCachelineCnt, List.mem_range'_1] at hi ⊢
    omega
  have := foldl_selected_lt (f := fun redo i =>
    decide (entryEra (s.base.mem.redo t redo) < entryEra (s.base.mem.redo t i))) _ 0 _ (by decide) bound
  simpa [State.selected] using this

/-! ## Steps -/

variable [DecidableEq Loc]

/-- A step that is neither a store nor a clearing of a log entry leaves the logs alone. -/
theorem redo_of_runCall {b : CxlShm.State Loc} {t : ℕ} {c : Call Loc} {weak : Bool}
    (pc : c.pc ≠ .storeRedo) : (b.runCall t c weak).mem.redo = b.mem.redo := by
  unfold CxlShm.State.runCall Call.exec
  cases hc : c.pc with
  | storeRedo => exact absurd hc pc
  | _ =>
    dsimp only
    try split
    all_goals rfl

theorem redo_of_runAlloc {b : CxlShm.State Loc} {t : ℕ} {a : Alloc Loc} :
    (b.runAlloc t a).mem.redo = b.mem.redo := by
  unfold CxlShm.State.runAlloc
  cases a.pc <;> rfl

omit [DecidableEq Loc] in
/-- The client enters a function. -/
theorem LogInv.enter (h : LogInv s) {t : ℕ} {k : Control Loc} {b : CxlShm.State Loc}
    (hb : s.base.enter t k = some b) (live : s.dead t = false)
    (start : ∀ j, k = .clearing j → j = 0) : LogInv { s with base := b } := by
  obtain ⟨idle, rfl⟩ := enter_eq_some hb
  refine h.update live rfl rfl rfl (fun u hu => Function.update_of_ne hu _ _) (fun _ _ => rfl)
    (fun _ _ => rfl) (fun _ _ => rfl) (fun _ _ => rfl) ?_ (h.unused t) ?_ (h.own t)
  · intro _
    exact h.alive t (by simp [idle, Control.registered])
  · intro j hj i hi
    have := start j (by simpa [CxlShm.State.setCtl] using hj)
    omega

theorem LogInv.threadInit (h : LogInv s) {t : ℕ} {b : CxlShm.State Loc}
    (hb : s.base.step (.threadInit t) = some b) : LogInv (s.note (.threadInit t) b) := by
  obtain ⟨absent, -, -, rfl⟩ := threadInit_eq_some hb
  have live : s.dead t = false := by
    by_contra stopped
    have := (h.dead t (by simpa using stopped)).1
    simp [absent, Control.registered] at this
  refine h.update live rfl rfl rfl (fun u hu => Function.update_of_ne hu _ _) (fun _ _ => rfl)
    (fun u hu => Function.update_of_ne hu _ _) (fun _ _ => rfl)
    (fun u hu => Function.update_of_ne hu _ _) ?_ ?_ ?_ ?_
  · intro _
    simp [State.note]
  · intro none
    simp [State.note] at none
  · intro j hj
    simp [State.note, CxlShm.State.setCtl] at hj
  · intro clean i _ some
    simp only [State.note, Function.update_self, Bool.false_eq_true, or_false] at clean
    exact absurd (h.unused t (by omega) i) some

theorem LogInv.run (h : LogInv s) {t : ℕ} {weak : Bool} {b : CxlShm.State Loc}
    (hb : s.base.step (.run t weak) = some b) (live : s.dead t = false) :
    LogInv (s.note (.run t weak) b) := by
  have others : ∀ u, u ≠ t → b.ctl u = s.base.ctl u := fun u hu =>
    ctl_of_other hb fun _ same => by
      cases same
      exact hu
  obtain ⟨hk, rfl⟩ | ⟨c, hc, rfl⟩ | ⟨a, ha, rfl⟩ | ⟨i, hi, less, rfl⟩ | ⟨i, hi, done, rfl⟩ :=
    run_cases (show s.base.run t weak = some b from hb)
  · have alive := h.alive t (by simp [hk, Control.registered])
    refine h.update live rfl rfl rfl others (fun _ _ => rfl) (fun _ _ => rfl) ?_ ?_ (fun _ => alive)
      (h.unused t) ?_ ?_
    · intro u _
      simp [State.note, State.noteWriter, hk]
    · intro u _
      simp [State.note, State.noteCleared, hk]
    · intro j hj
      simp [State.note, CxlShm.State.setCtl] at hj
    · intro clean i small
      have before := h.own t (by simpa [State.note, State.noteCleared, hk] using clean) i small
      simpa [OwnEntry, State.note, State.noteWriter, hk, CxlShm.State.setCtl, Mem.bumpEra,
        Mem.setEra] using before
  · have alive := h.alive t (by simp [hc, Control.registered])
    have noClear : ∀ j, (s.base.runCall t c weak).ctl t ≠ .clearing j := by
      intro j
      simp only [CxlShm.State.runCall, Function.update_self]
      cases (c.exec t s.base.mem weak).2 <;> simp
    by_cases pc : c.pc = .storeRedo
    · have log : (s.base.runCall t c weak).mem.redo = (s.base.mem.setRedo t
          (c.curEra % redoCachelineCnt) (some c.redoLog)).redo := by
        rw [runCall_storeRedo pc]
        rfl
      refine h.update live rfl rfl rfl others ?_ (fun _ _ => rfl) ?_ ?_ (fun _ => alive) ?_
        (fun j hj => absurd hj (noClear j)) ?_
      · intro u hu
        simp [State.note, log, Mem.setRedo, hu]
      · intro u hu
        simp [State.note, State.noteWriter, hc, pc, hu]
      · intro u _
        simp [State.note, State.noteCleared, hc]
      · intro none
        have : s.life t = 0 := none
        omega
      · intro clean i small some
        by_cases same : i = c.curEra % redoCachelineCnt
        · simp [State.note, State.noteWriter, hc, pc, same]
        · have before := h.own t (by simpa [State.note, State.noteCleared, hc] using clean) i small
          have old : s.base.mem.redo t i ≠ none := by
            simpa [State.note, log, Mem.setRedo, same] using some
          simpa [State.note, State.noteWriter, hc, pc, same] using before old
    · have log : (s.base.runCall t c weak).mem.redo = s.base.mem.redo := redo_of_runCall pc
      have writer : (s.note (.run t weak) (s.base.runCall t c weak)).writtenIn = s.writtenIn := by
        simp [State.note, State.noteWriter, hc, pc]
      have clear : (s.note (.run t weak) (s.base.runCall t c weak)).cleared = s.cleared := by
        simp [State.note, State.noteCleared, hc]
      refine h.update live rfl rfl rfl others ?_ (fun _ _ => rfl) (fun _ _ => congrFun writer _)
        (fun _ _ => congrFun clear _) (fun _ => alive) ?_ (fun j hj => absurd hj (noClear j)) ?_
      · intro u _
        exact congrFun log u
      · intro none i
        exact (congrFun (congrFun log t) i).trans (h.unused t none i)
      · intro clean i small
        have before := h.own t (clear ▸ clean) i small
        rw [OwnEntry, writer]
        exact fun some => before (fun none => some ((congrFun (congrFun log t) i).trans none))
  · have alive := h.alive t (by simp [ha, Control.registered])
    have log : (s.base.runAlloc t a).mem.redo = s.base.mem.redo := redo_of_runAlloc
    have noClear : ∀ j, (s.base.runAlloc t a).ctl t ≠ .clearing j := by
      intro j
      unfold CxlShm.State.runAlloc
      cases a.pc <;> simp [CxlShm.State.setCtl]
    have writer : (s.note (.run t weak) (s.base.runAlloc t a)).writtenIn = s.writtenIn := by
      simp [State.note, State.noteWriter, ha]
    have clear : (s.note (.run t weak) (s.base.runAlloc t a)).cleared = s.cleared := by
      simp [State.note, State.noteCleared, ha]
    refine h.update live rfl rfl rfl others ?_ (fun _ _ => rfl) (fun _ _ => congrFun writer _)
      (fun _ _ => congrFun clear _) (fun _ => alive) ?_ (fun j hj => absurd hj (noClear j)) ?_
    · intro u _
      exact congrFun log u
    · intro none i
      exact (congrFun (congrFun log t) i).trans (h.unused t none i)
    · intro clean i small
      have before := h.own t (clear ▸ clean) i small
      rw [OwnEntry, writer]
      exact fun some => before (fun none => some ((congrFun (congrFun log t) i).trans none))
  · have alive := h.alive t (by simp [hi, Control.registered])
    have kept : ∀ k, (s.base.mem.setRedo t i none).redo t k ≠ none → k ≠ i ∧ s.base.mem.redo t k ≠ none := by
      intro k some
      have other : k ≠ i := by
        rintro rfl
        simp [Mem.setRedo] at some
      exact ⟨other, by simpa [Mem.setRedo, other] using some⟩
    refine h.update live rfl rfl rfl others ?_ (fun _ _ => rfl) ?_ ?_ (fun _ => alive) ?_ ?_ ?_
    · intro u hu
      simp [State.note, CxlShm.State.setCtl, Mem.setRedo, hu]
    · intro u _
      simp [State.note, State.noteWriter, hi]
    · intro u _
      simp [State.note, State.noteCleared, hi, less]
    · intro none
      have : s.life t = 0 := none
      omega
    · intro j hj k hk
      obtain rfl : i + 1 = j := by simpa [State.note, CxlShm.State.setCtl] using hj
      by_contra some
      obtain ⟨other, old⟩ := kept k some
      exact old (h.clearing t i hi k (by omega))
    · intro clean k small some
      obtain ⟨-, old⟩ := kept k some
      have before := h.own t (by simpa [State.note, State.noteCleared, hi, less] using clean) k small old
      simpa [State.note, State.noteWriter, hi] using before
  · have alive := h.alive t (by simp [hi, Control.registered])
    have empty := h.clearing t i hi
    refine h.update live rfl rfl rfl others (fun _ _ => rfl) (fun _ _ => rfl) ?_ ?_ (fun _ => alive)
      (h.unused t) ?_ ?_
    · intro u _
      simp [State.note, State.noteWriter, hi]
    · intro u hu
      simp [State.note, State.noteCleared, hi, not_lt.2 done, hu]
    · intro j hj
      simp [State.note, CxlShm.State.setCtl] at hj
    · intro _ k small some
      exact absurd (empty k (by omega)) some

theorem LogInv.client (h : LogInv s) {a : CxlShm.Action Loc} {b : CxlShm.State Loc}
    (hb : s.base.step a = some b) (live : s.mayRun a) : LogInv (s.note a b) := by
  cases a with
  | threadInit t => exact h.threadInit hb
  | run t weak => exact h.run hb (by simpa [State.mayRun, CxlShm.Action.client] using live)
  | link t r o | unlink t r o | malloc t r o =>
    exact h.enter hb (by simpa [State.mayRun, CxlShm.Action.client] using live) (fun _ hk => by cases hk)
  | mallocGeneric t =>
    refine h.enter hb (by simpa [State.mayRun, CxlShm.Action.client] using live) fun j hk => ?_
    cases hk
    rfl
  | reuse o w =>
    obtain ⟨-, rfl⟩ := reuse_eq_some hb
    exact ⟨h.alive, h.unused, h.clearing, h.own, h.dead, h.busy, h.picked, h.redone⟩

omit [DecidableEq Loc] in
/-- The client stops at a moment at which the log holds entries of its own life only. -/
theorem LogInv.crash (h : LogInv s) {t : ℕ} (registered : (s.base.ctl t).registered)
    (careful : StopsCleared s (.crash t)) :
    LogInv { s with dead := Function.update s.dead t true } := by
  have entries : ∀ i < redoCachelineCnt, OwnEntry s t i := by
    intro i hi
    rcases careful t rfl with first | cleared | empty
    · exact h.own t (.inl first) i hi
    · exact h.own t (.inr cleared) i hi
    · exact fun some => absurd (empty i hi) some
  refine ⟨h.alive, h.unused, h.clearing, h.own, fun u stopped => ?_, fun u slot => ?_, h.picked,
    h.redone⟩
  · by_cases hu : u = t
    · subst hu
      exact ⟨registered, entries⟩
    · exact h.dead u (by simpa [hu] using stopped)
  · by_cases hu : u = t
    · simp [hu]
    · simpa [hu] using h.busy u slot

omit [DecidableEq Loc] in
/-- The monitor moves on in its function, on the same slot and about the same entry. -/
theorem LogInv.setMonitor (h : LogInv s) {m : Monitor Loc}
    (busy : ∀ t, m.slot = some t → s.dead t)
    (picked : ∀ t i, m.picked = some (t, i) → s.writtenIn t i = s.life t) :
    LogInv (s.setMonitor m) :=
  ⟨h.alive, h.unused, h.clearing, h.own, h.dead, busy, picked, h.redone⟩

/-- The logs are not written by the monitor. -/
theorem Call.recoveryExec_redo {t : ℕ} {m : Mem Loc} {c : Call Loc} {weak : Bool} :
    (c.recoveryExec t m weak).1.redo = m.redo := by
  unfold Call.recoveryExec
  split
  all_goals (try split) <;> rfl

theorem LogInv.monitor (h : LogInv s) {weak : Bool} (hs : s.monitorStep weak = some s') :
    LogInv s' := by
  unfold State.monitorStep at hs
  cases hm : s.monitor with
  | idle | collect t => simp [hm] at hs
  | select t =>
    have stopped := h.busy t (by rw [hm]; rfl)
    simp only [hm, Option.some.injEq] at hs
    subst hs
    have own := (h.dead t stopped).2 _ (selected_lt s t)
    cases found : s.base.mem.redo t (s.selected t) with
    | none =>
      refine h.setMonitor (fun u slot => ?_) (fun _ _ none => by cases none)
      cases slot
      exact stopped
    | some e =>
      refine h.setMonitor (fun u slot => ?_) (fun u i picked => ?_)
      · cases slot
        exact stopped
      · cases picked
        exact own (by rw [found]; exact Option.some_ne_none e)
  | loadCid t i e =>
    have stopped := h.busy t (by rw [hm]; rfl)
    have own := h.picked t i (by rw [hm]; rfl)
    simp only [hm, Option.some.injEq] at hs
    subst hs
    refine h.setMonitor (fun u slot => ?_) (fun u k picked => ?_)
    · cases slot
      exact stopped
    · cases picked
      exact own
  | loadEra t i e cid =>
    have stopped := h.busy t (by rw [hm]; rfl)
    have own := h.picked t i (by rw [hm]; rfl)
    simp only [hm, Option.some.injEq] at hs
    subst hs
    split
    all_goals
      refine h.setMonitor (fun u slot => ?_) (fun u k picked => ?_)
      · cases slot
        exact stopped
      · cases picked
        exact own
  | scan t i e j maxEra =>
    have stopped := h.busy t (by rw [hm]; rfl)
    have own := h.picked t i (by rw [hm]; rfl)
    simp only [hm] at hs
    split at hs
    · obtain rfl := Option.some.inj hs
      refine h.setMonitor (fun u slot => ?_) (fun u k picked => ?_)
      · cases slot
        exact stopped
      · cases picked
        exact own
    · obtain rfl := Option.some.inj hs
      split
      · refine h.setMonitor (fun u slot => ?_) (fun u k picked => ?_)
        · cases slot
          exact stopped
        · cases picked
          exact own
      · refine h.setMonitor (fun u slot => ?_) (fun u k picked => by cases picked)
        cases slot
        exact stopped
  | store t i e =>
    have stopped := h.busy t (by rw [hm]; rfl)
    have own := h.picked t i (by rw [hm]; rfl)
    simp only [hm, Option.some.injEq] at hs
    subst hs
    refine ⟨h.alive, h.unused, h.clearing, h.own, h.dead, fun u slot => ?_,
      fun _ _ picked => (by cases picked), fun r hr => ?_⟩
    · cases slot
      exact stopped
    · rcases List.mem_append.1 hr with old | new
      · exact h.redone r old
      · obtain rfl := List.mem_singleton.1 new
        exact own
  | unlink t c =>
    have stopped := h.busy t (by rw [hm]; rfl)
    simp only [hm, Option.some.injEq] at hs
    subst hs
    have log : (c.recoveryExec t s.base.mem weak).1.redo = s.base.mem.redo :=
      Call.recoveryExec_redo
    refine ⟨h.alive, fun u none i => ?_, fun u j hj i hi => ?_, fun u clean i hi some => ?_,
      fun u dead => ⟨(h.dead u dead).1, fun i hi some => ?_⟩, fun u slot => ?_,
      fun u i picked => ?_, h.redone⟩
    · exact (congrFun (congrFun log u) i).trans (h.unused u none i)
    · exact (congrFun (congrFun log u) i).trans (h.clearing u j hj i hi)
    · exact h.own u clean i hi (fun none => some ((congrFun (congrFun log u) i).trans none))
    · exact (h.dead u dead).2 i hi
        (fun none => some ((congrFun (congrFun log u) i).trans none))
    · cases rest : (c.recoveryExec t s.base.mem weak).2 <;> rw [rest] at slot <;> cases slot <;>
        exact stopped
    · cases rest : (c.recoveryExec t s.base.mem weak).2 <;> rw [rest] at picked <;> cases picked

/-- One step, of anybody. -/
theorem LogInv.step (h : LogInv s) {a : Action Loc} (hs : s.step a = some s')
    (careful : StopsCleared s a) : LogInv s' := by
  cases a with
  | client a =>
    simp only [State.step] at hs
    split at hs
    · obtain ⟨b, hb, rfl⟩ := Option.map_eq_some_iff.1 hs
      exact h.client hb ‹_›
    · cases hs
  | crash t =>
    simp only [State.step] at hs
    split at hs
    · obtain rfl := Option.some.inj hs
      exact h.crash (And.right ‹_›) careful
    · cases hs
  | check t =>
    simp only [State.step] at hs
    split at hs
    · obtain rfl := Option.some.inj hs
      refine h.setMonitor (fun u slot => ?_) (fun _ _ picked => by cases picked)
      cases slot
      exact And.right ‹_›
    · cases hs
  | monitor weak => exact h.monitor hs
  | dropRef r =>
    simp only [State.step] at hs
    cases hm : s.monitor with
    | collect t =>
      simp only [hm] at hs
      split at hs
      · obtain rfl := Option.some.inj hs
        refine h.setMonitor (fun u slot => ?_) (fun _ _ picked => by cases picked)
        cases slot
        exact h.busy t (by rw [hm]; rfl)
      · cases hs
    | _ => simp [hm] at hs
  | release =>
    simp only [State.step] at hs
    cases hm : s.monitor with
    | collect t =>
      simp only [hm, Option.some.injEq] at hs
      subst hs
      refine ⟨fun u => ?_, h.unused, fun u => ?_, h.own, fun u stopped => ?_,
        fun _ slot => (by cases slot), fun _ _ picked => (by cases picked), h.redone⟩
      · by_cases hu : u = t
        · simp [hu, CxlShm.State.setCtl, Control.registered]
        · simpa [CxlShm.State.setCtl, hu] using h.alive u
      · by_cases hu : u = t
        · simp [hu, CxlShm.State.setCtl]
        · simpa [CxlShm.State.setCtl, hu] using h.clearing u
      · by_cases hu : u = t
        · simp [hu] at stopped
        · have entries := h.dead u (by simpa [hu] using stopped)
          exact ⟨by simpa [CxlShm.State.setCtl, hu] using entries.1, entries.2⟩
    | _ => simp [hm] at hs

/-- While clients stop only after they have cleared the log, no entry of a former life of a slot is
ever redone. -/
theorem redone_own (hs : Reachable State.step (fun s a _ => StopsCleared s a) State.init s) :
    ∀ r ∈ s.redone, r.writtenIn = r.life :=
  (hs.invariant LogInv.init fun _ _ _ inv step careful => inv.step step careful).redone

end

/-- `StopsCleared`, for a run that is computed. -/
def stopsCleared (s : State Loc) : Action Loc → State Loc → Bool
  | .crash t, _ => s.life t ≤ 1 ∨ s.cleared t
  | _, _ => true

theorem stopsCleared_sound {s s' : State Loc} {a : Action Loc} (h : stopsCleared s a s' = true) :
    StopsCleared s a := by
  rintro t rfl
  rcases of_decide_eq_true h with first | cleared
  · exact .inl first
  · exact .inr (.inl cleared)

/-- `n` accesses of client `t`. -/
def runs (t n : ℕ) : List (Action (Fin 3)) := List.replicate n (.client (.run t false))

/-- The monitor finds that client `t` has stopped, and does `redo_ref_cnt` on its slot with `n`
accesses. -/
def redoes (t n : ℕ) : List (Action (Fin 3)) :=
  [.crash t, .check t] ++ List.replicate n (.monitor false)

/-- Slot 1 is registered, recovered and registered again.  Its second client clears the log, links an
object and stops. -/
theorem redone_own_second : ∃ s : State (Fin 3),
    Reachable State.step (fun s a _ => StopsCleared s a) State.init s ∧
      s.redone = [⟨1, 2, 2⟩] ∧ ∀ r ∈ s.redone, r.writtenIn = r.life := by
  let actions : List (Action (Fin 3)) :=
    [.client (.threadInit 1)] ++ runs 1 1 ++ redoes 1 1 ++ [.release] ++
      [.client (.threadInit 1)] ++ runs 1 1 ++
      [.client (.mallocGeneric 1)] ++ runs 1 (redoCachelineCnt + 1) ++
      [.client (.malloc 1 0 8)] ++ runs 1 4 ++
      [.client (.link 1 1 8)] ++ runs 1 6 ++ redoes 1 4
  have run : (checkedRun State.step stopsCleared State.init actions).any
      (fun s => s.redone = [⟨1, 2, 2⟩]) = true := by
    decide +kernel
  have sound : ∀ (s : State (Fin 3)) a s', True → s.step a = some s' → stopsCleared s a s' = true →
      True ∧ StopsCleared s a := fun _ _ _ _ _ passed => ⟨trivial, stopsCleared_sound passed⟩
  obtain ⟨s, hs, last⟩ := exists_reachable_of_checkedRun sound trivial run
  exact ⟨s, hs, of_decide_eq_true last, redone_own hs⟩

/-- Client 1 unlinks location 1, stops and is recovered.  Client 2 makes location 1 one of its
references.  A new client in slot 1 stops right after `thread_init`, and the recovery does the old
unlink again: the reference of client 2 is gone. -/
theorem former_life_redone : ¬ ∀ s : State (Fin 3),
    Reachable State.step (fun _ _ _ => True) State.init s → ∀ r ∈ s.redone, r.writtenIn = r.life := by
  intro claim
  let actions : List (Action (Fin 3)) :=
    [.client (.threadInit 1)] ++ runs 1 1 ++ [.client (.threadInit 2)] ++ runs 2 1 ++
      [.client (.mallocGeneric 2)] ++ runs 2 (redoCachelineCnt + 1) ++
      [.client (.malloc 2 2 8)] ++ runs 2 4 ++
      [.client (.mallocGeneric 1)] ++ runs 1 (redoCachelineCnt + 1) ++
      [.client (.link 1 1 8)] ++ runs 1 8 ++
      [.client (.unlink 1 1 8)] ++ runs 1 7 ++ redoes 1 4 ++ [.release] ++
      [.client (.malloc 2 1 16)] ++ runs 2 4 ++
      [.client (.threadInit 1)] ++ redoes 1 4
  have run : (checkedRun State.step (fun _ _ _ => true) State.init actions).any
      (fun s => s.redone = [⟨1, 1, 1⟩, ⟨1, 2, 1⟩] ∧ s.base.mem.loc 1 = 0) = true := by
    decide +kernel
  have sound : ∀ (s : State (Fin 3)) a s', True → s.step a = some s' → true = true →
      True ∧ True := fun _ _ _ _ _ _ => ⟨trivial, trivial⟩
  obtain ⟨s, hs, last⟩ := exists_reachable_of_checkedRun sound trivial run
  have redone : s.redone = [⟨1, 1, 1⟩, ⟨1, 2, 1⟩] := (of_decide_eq_true last).1
  exact absurd (claim s hs ⟨1, 2, 1⟩ (by simp [redone])) (by decide)

end CxlShm.Recovery
