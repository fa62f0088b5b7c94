import CxlShm.Recovery.Redo
import CxlShm.Reference.Eras

/-!
# Era detection

When a client has stopped, `redo_ref_cnt` decides from the words and the era array whether the
compare-exchange of its last operation took place.  The decision is sound: a positive answer means
that it did (`casOk_of_needRedo`).  It is complete for the operations whose evidence is kept
(`redo_of_committed`): the loop over the era array stops before the row of client `MAX_THREAD`, so
what only that client has recorded does not count.
-/

namespace CxlShm

open Reachability

variable {Loc : Type} [DecidableEq Loc]

/-! ## No phantom redo -/

/-- A client whose row the redo scans has recorded the era `e` of client `t`. -/
def Recorded (m : Mem Loc) (t e : ℕ) : Prop := ∃ j < maxThread, j ≠ t ∧ e ≤ m.era j t

/-- Client `MAX_THREAD` does not replace the word of an operation that has yet to store its
reference, unless another client has recorded the operation. -/
def KeepsEvidence (s : State Loc) (a : Action Loc) : Prop :=
  ∀ k c, a = .run maxThread false → s.ctl maxThread = .call k → k.pc = .cas →
    s.mem.refInfo k.refed = k.refInfo → s.ctl k.sawCid = .call c → c.pc = .storeRef →
    c.refed = k.refed → c.curEra = k.sawEra → Recorded s.mem k.sawCid k.sawEra

/-- What the redo of an operation relies on: its word is in place, or the operation is recorded. -/
structure Evidence (s : State Loc) : Prop where
  stored : ∀ t c, s.ctl t = .call c → c.pc = .storeRef →
    s.allocated c.refed ∧ getLcidFromInfo (s.mem.refInfo c.refed) = t ∧
      getLenumFromInfo (s.mem.refInfo c.refed) = c.curEra ∨ Recorded s.mem t c.curEra
  last : ∀ t c, s.ctl t = .call c → c.last → ¬ c.pc.announced →
    getLcidFromInfo (s.mem.refInfo c.refed) = t

/-- What a step does to the era array. -/
theorem eraArray_step {s s' : State Loc} {a : Action Loc} (hs : s.step a = some s') :
    s'.mem.eraArray = s.mem.eraArray ∨
    (∃ u, (s.ctl u).registered ∧ s'.mem.eraArray = (s.mem.bumpEra u).eraArray) ∨
    ∃ u c, s.ctl u = .call c ∧ c.pc = .storeEle ∧
      s'.mem.eraArray = (s.mem.setEra u c.sawCid c.sawEra).eraArray := by
  cases a with
  | threadInit t =>
    obtain ⟨-, -, -, rfl⟩ := threadInit_eq_some hs
    exact .inl rfl
  | link t r o | unlink t r o | malloc t r b | mallocGeneric t =>
    obtain ⟨-, rfl⟩ := enter_eq_some hs
    exact .inl rfl
  | run t weak =>
    obtain ⟨hk, rfl⟩ | ⟨c, hc, rfl⟩ | ⟨a, ha, rfl⟩ | ⟨i, hi, -, rfl⟩ | ⟨i, hi, -, rfl⟩ := run_cases hs
    · exact .inr (.inl ⟨t, by simp [hk, Control.registered], rfl⟩)
    · cases pc : c.pc with
      | loadInfo => exact .inl (by rw [runCall_loadInfo pc]; rfl)
      | loadEra => exact .inl (by rw [runCall_loadEra pc]; rfl)
      | testEle => exact .inl (by rw [runCall_testEle pc]; rfl)
      | storeEle => exact .inr (.inr ⟨t, c, hc, pc, by rw [runCall_storeEle pc]; rfl⟩)
      | storeRedo => exact .inl (by rw [runCall_storeRedo pc]; rfl)
      | cas =>
        by_cases wins : weak = false ∧ s.mem.refInfo c.refed = c.refInfo
        · obtain ⟨rfl, word⟩ := wins
          exact .inl (by rw [runCall_cas pc word]; rfl)
        · exact .inl (by rw [runCall_cas_fails pc wins]; rfl)
      | storeRef => exact .inl (by rw [runCall_storeRef pc]; rfl)
      | bumpEra =>
        exact .inr (.inl ⟨t, by simp [hc, Control.registered], by rw [runCall_bumpEra pc]; rfl⟩)
      | free => exact .inl (by rw [runCall_free pc]; rfl)
    · unfold State.runAlloc
      cases a.pc with
      | storePptr | loadEra | storeInfo => exact .inl rfl
      | bumpEra => exact .inr (.inl ⟨t, by simp [ha, Control.registered], rfl⟩)
    · exact .inl rfl
    · exact .inl rfl
  | reuse o w =>
    obtain ⟨-, rfl⟩ := reuse_eq_some hs
    exact .inl rfl

/-- Records are kept: a client only raises the eras in its row. -/
theorem Recorded.step {s s' : State Loc} {a : Action Loc} (inv : EraInv s)
    (hs : s.step a = some s') {t e : ℕ} (ht : IsThreadId t) (h : Recorded s.mem t e) :
    Recorded s'.mem t e := by
  obtain ⟨j, hj, other, seen⟩ := h
  refine ⟨j, hj, other, seen.trans ?_⟩
  obtain same | ⟨u, registered, bumped⟩ | ⟨u, c, hc, pc, stored⟩ := eraArray_step hs
  · exact le_of_eq (by rw [Mem.era, Mem.era, same])
  · have other' : ¬ (j = u ∧ t = u) := fun h => other (h.1.trans h.2.symm)
    have new : s'.mem.era j t = (s.mem.bumpEra u).era j t := by rw [Mem.era, bumped]; rfl
    rw [new, Mem.bumpEra, Mem.era_setEra s.mem _ (inv.ids u registered) ht, if_neg other']
  · have issued := (inv.call u c hc).saw (by simp [pc])
    have new : s'.mem.era j t = (s.mem.setEra u c.sawCid c.sawEra).era j t := by
      rw [Mem.era, stored]; rfl
    rw [new, Mem.era_setEra s.mem _ issued.1 ht]
    split
    · rename_i same
      rw [same.1, same.2]
      exact ((inv.call u c hc).test pc).le
    · exact le_rfl

/-- What a step does to the word of a live object: a compare-exchange, a free, or nothing. -/
theorem word_step {s s' : State Loc} {a : Action Loc} (acc : Accounted s)
    (hs : s.step a = some s') {o : Offset} (live : s.allocated o) :
    (s'.allocated o ∧ s'.mem.refInfo o = s.mem.refInfo o) ∨
    (∃ u k, a = .run u false ∧ s.ctl u = .call k ∧ k.pc = .cas ∧ k.refed = o ∧
      s.mem.refInfo o = k.refInfo ∧ s'.allocated o ∧ s'.mem.refInfo o = k.newRefInfo u) ∨
    ∃ u k weak, a = .run u weak ∧ s.ctl u = .call k ∧ k.pc = .free ∧ k.refed = o := by
  cases a with
  | threadInit t =>
    obtain ⟨-, -, -, rfl⟩ := threadInit_eq_some hs
    exact .inl ⟨live, rfl⟩
  | link t r o | unlink t r o | malloc t r b | mallocGeneric t =>
    obtain ⟨-, rfl⟩ := enter_eq_some hs
    exact .inl ⟨live, rfl⟩
  | run t weak =>
    obtain ⟨hk, rfl⟩ | ⟨c, hc, rfl⟩ | ⟨a, ha, rfl⟩ | ⟨i, hi, -, rfl⟩ | ⟨i, hi, -, rfl⟩ := run_cases hs
    · exact .inl ⟨live, rfl⟩
    · cases pc : c.pc with
      | loadInfo => exact .inl (by rw [runCall_loadInfo pc]; exact ⟨live, rfl⟩)
      | loadEra => exact .inl (by rw [runCall_loadEra pc]; exact ⟨live, rfl⟩)
      | testEle => exact .inl (by rw [runCall_testEle pc]; exact ⟨live, rfl⟩)
      | storeEle => exact .inl (by rw [runCall_storeEle pc]; exact ⟨live, rfl⟩)
      | storeRedo => exact .inl (by rw [runCall_storeRedo pc]; exact ⟨live, rfl⟩)
      | cas =>
        by_cases wins : weak = false ∧ s.mem.refInfo c.refed = c.refInfo
        · obtain ⟨rfl, word⟩ := wins
          rw [runCall_cas pc word]
          by_cases ho : c.refed = o
          · subst ho
            exact .inr (.inl ⟨t, c, rfl, hc, pc, rfl, word, live,
              by simp [State.setCtl, Mem.setRefInfo]⟩)
          · exact .inl ⟨live, by simp [State.setCtl, Mem.setRefInfo, Ne.symm ho]⟩
        · exact .inl (by rw [runCall_cas_fails pc wins]; exact ⟨live, rfl⟩)
      | storeRef => exact .inl (by rw [runCall_storeRef pc]; exact ⟨live, rfl⟩)
      | bumpEra => exact .inl (by rw [runCall_bumpEra pc]; exact ⟨live, rfl⟩)
      | free =>
        by_cases ho : c.refed = o
        · exact .inr (.inr ⟨t, c, weak, rfl, hc, pc, ho⟩)
        · rw [runCall_free pc]
          exact .inl ⟨by simpa [State.setCtl, Ne.symm ho] using live,
            by simp [State.setCtl, Mem.setRefInfo, Ne.symm ho]⟩
    · have fresh : a.block ≠ o := by
        rintro rfl
        refine acc.inv.fresh t a.block ?_ live
        change (s.ctl t).phase.Creates _
        rw [ha]
        rfl
      unfold State.runAlloc
      cases a.pc with
      | storePptr | loadEra | bumpEra => exact .inl ⟨live, rfl⟩
      | storeInfo =>
        exact .inl ⟨by simpa [State.setCtl, Ne.symm fresh] using live,
          by simp [State.setCtl, Mem.setRefInfo, Ne.symm fresh]⟩
    · exact .inl ⟨live, rfl⟩
    · exact .inl ⟨live, rfl⟩
  | reuse x w =>
    obtain ⟨dead, rfl⟩ := reuse_eq_some hs
    have other : o ≠ x := by
      rintro rfl
      simp [dead] at live
    exact .inl ⟨live, by simp [Mem.setRefInfo, other]⟩

theorem committed_runCall {s : State Loc} {t : ℕ} {k c : Call Loc} {weak : Bool}
    (hk : s.ctl t = .call k) (hc : (s.runCall t k weak).ctl t = .call c) (pc : ¬ c.pc.announced) :
    (∃ c₀, s.ctl t = .call c₀ ∧ ¬ c₀.pc.announced ∧ c₀.refed = c.refed ∧ c₀.last = c.last ∧
      (c.pc = .storeRef → c₀ = c)) ∨
    ∃ k', Action.run t weak = (.run t false : Action Loc) ∧ s.ctl t = .call k' ∧ k'.pc = .cas ∧
      s.mem.refInfo k'.refed = k'.refInfo ∧ c = { k' with pc := .storeRef } := by
  cases hpc : k.pc with
  | loadInfo | loadEra | testEle | storeEle | storeRedo =>
    exfalso
    first
      | rw [runCall_loadInfo hpc] at hc
      | rw [runCall_loadEra hpc] at hc
      | rw [runCall_testEle hpc] at hc
      | rw [runCall_storeEle hpc] at hc
      | rw [runCall_storeRedo hpc] at hc
    simp only [State.setCtl, Function.update_self, Control.call.injEq] at hc
    rw [← hc] at pc
    refine pc ?_
    rcases k.func_cases with func | func <;> (try split) <;>
      simp [Call.afterInfo, Call.afterEra, Call.afterEle, func, Pc.announced]
  | cas =>
    by_cases wins : weak = false ∧ s.mem.refInfo k.refed = k.refInfo
    · obtain ⟨rfl, word⟩ := wins
      rw [runCall_cas hpc word] at hc
      simp only [State.setCtl, Function.update_self, Control.call.injEq] at hc
      exact .inr ⟨k, rfl, hk, hpc, word, hc.symm⟩
    · rw [runCall_cas_fails hpc wins] at hc
      simp only [State.setCtl, Function.update_self, Control.call.injEq] at hc
      exact absurd (by rw [← hc]; rfl) pc
  | storeRef =>
    rw [runCall_storeRef hpc] at hc
    simp only [State.setCtl, Function.update_self, Control.call.injEq] at hc
    rw [← hc]
    exact .inl ⟨k, hk, by simp [hpc, Pc.announced], rfl, rfl, by simp⟩
  | bumpEra =>
    rw [runCall_bumpEra hpc] at hc
    simp only [State.setCtl, Function.update_self] at hc
    split at hc
    · simp only [Control.call.injEq] at hc
      rw [← hc]
      exact .inl ⟨k, hk, by simp [hpc, Pc.announced], rfl, rfl, by simp⟩
    · cases hc
  | free =>
    rw [runCall_free hpc] at hc
    simp [State.setCtl] at hc

/-- A client that is past its compare-exchange was there before, or has just taken it. -/
theorem committed_step {s s' : State Loc} {a : Action Loc} (hs : s.step a = some s') {t : ℕ}
    {c : Call Loc} (hc : s'.ctl t = .call c) (pc : ¬ c.pc.announced) :
    (∃ c₀, s.ctl t = .call c₀ ∧ ¬ c₀.pc.announced ∧ c₀.refed = c.refed ∧ c₀.last = c.last ∧
      (c.pc = .storeRef → c₀ = c)) ∨
    ∃ k, a = .run t false ∧ s.ctl t = .call k ∧ k.pc = .cas ∧ s.mem.refInfo k.refed = k.refInfo ∧
      c = { k with pc := .storeRef } := by
  by_cases own : a.client = some t
  · cases a with
    | threadInit u =>
      obtain rfl := Option.some.inj own
      obtain ⟨-, -, -, rfl⟩ := threadInit_eq_some hs
      simp [State.setCtl] at hc
    | link u r o | unlink u r o | malloc u r b | mallocGeneric u =>
      obtain rfl := Option.some.inj own
      obtain ⟨-, rfl⟩ := enter_eq_some hs
      simp only [State.setCtl, Function.update_self, Control.call.injEq, reduceCtorEq] at hc
      try exact absurd (by rw [← hc]; rfl) pc
    | run u weak =>
      obtain rfl := Option.some.inj own
      obtain ⟨hk, rfl⟩ | ⟨k, hk, rfl⟩ | ⟨a, ha, rfl⟩ | ⟨i, hi, -, rfl⟩ | ⟨i, hi, -, rfl⟩ := run_cases hs
      · simp [State.setCtl] at hc
      · exact committed_runCall hk hc pc
      · unfold State.runAlloc at hc
        cases hpc : a.pc <;> simp [hpc, State.setCtl] at hc
      · simp [State.setCtl] at hc
      · simp [State.setCtl] at hc
    | reuse o w => simp [Action.client] at own
  · left
    rw [ctl_of_other hs fun u hu => by rintro rfl; exact own hu] at hc
    exact ⟨c, hc, pc, rfl, rfl, fun _ => rfl⟩

/-- The evidence after a step whose compare-exchanges keep it. -/
theorem Evidence.step {s s' : State Loc} {a : Action Loc} (h : Evidence s) (inv : EraInv s)
    (acc : Accounted s) (bound : Bounded s') (hs : s.step a = some s') (keeps : KeepsEvidence s a) :
    Evidence s' where
  stored t c hc pc := by
    obtain ⟨c₀, hc₀, -, -, -, same⟩ | ⟨k, rfl, hk, hpc, word, rfl⟩ :=
      committed_step hs hc (by simp [pc, Pc.announced])
    · obtain rfl := same pc
      obtain ⟨ht, -⟩ := inv.of_call hc₀
      rcases h.stored t c₀ hc₀ pc with ⟨live, lcid, lenum⟩ | recorded
      · obtain ⟨live', word⟩ | ⟨u, k, rfl, hk, hpc, refed, word, live', new⟩ |
            ⟨u, k, weak, rfl, hk, hpc, refed⟩ :=
          word_step acc hs live
        · exact .inl ⟨live', word ▸ lcid, word ▸ lenum⟩
        · -- the word is replaced: the client that does it has read it, so it has recorded it
          right
          have hut : u ≠ t := by
            rintro rfl
            rw [hk] at hc₀
            cases hc₀
            simp [hpc] at pc
          have cid : k.sawCid = t := by rw [Call.sawCid, ← word, lcid]
          have era : k.sawEra = c₀.curEra := by rw [Call.sawEra, ← word, lenum]
          have seen := (inv.call u k hk).seen (by
            rcases k.func_cases with func | func <;> simp [Call.recorded, func, hpc])
          rw [cid, era] at seen
          refine Recorded.step inv hs ht ?_
          by_cases lastRow : u = maxThread
          · subst lastRow
            rw [← refed] at word
            have kept := keeps k c₀ rfl hk hpc word (cid ▸ hc₀) pc refed.symm era.symm
            rwa [cid, era] at kept
          · exact ⟨u, lt_of_le_of_ne (inv.of_call hk).1.2 lastRow, hut, seen⟩
        · -- freed: by the client that took the count to zero, whose stamp is in the word
          have last := (acc.sane.call hk).2.2 hpc
          have mine := h.last u k hk last (by simp [hpc, Pc.announced])
          rw [refed, lcid] at mine
          subst mine
          rw [hk] at hc₀
          cases hc₀
          simp [hpc] at pc
      · exact .inr (recorded.step inv hs ht)
    · have live := allocated_of_announced acc hk (by simp [hpc, Pc.announced])
      have run : s' = s.runCall t k false := by
        simpa [State.step, State.run, hk] using hs.symm
      subst run
      have stamp := stamp_newRefInfo acc hk hpc word bound (inv.of_call hk).1
      left
      rw [runCall_cas hpc word]
      simpa [State.setCtl, Mem.setRefInfo, live] using stamp
  last t c hc last pc := by
    obtain ⟨c₀, hc₀, pc₀, refed, last₀, -⟩ | ⟨k, rfl, hk, hpc, word, rfl⟩ := committed_step hs hc pc
    · have drops : (abs s).phase t |>.Drops c.refed :=
        (drops_phase_iff acc.sane t c.refed).2 ⟨c₀, hc₀, last₀.trans last, pc₀, refed⟩
      have mine := h.last t c₀ hc₀ (last₀.trans last) pc₀
      rw [refed] at mine
      obtain ⟨live, zero⟩ := acc.inv.drops t c.refed drops
      obtain ⟨-, same⟩ | ⟨u, k, rfl, hk, hpc, refed', word, -, -⟩ |
          ⟨u, k, weak, rfl, hk, hpc, refed'⟩ := word_step acc hs live
      · rwa [same]
      · -- nobody changes the count of an object that is at zero
        have pos := count_of_announced acc hk (by simp [hpc, Pc.announced])
        rw [refed', zero] at pos
        exact absurd pos (Nat.lt_irrefl 0)
      · -- only the client itself drops the object, and that ends the call
        have mine' : FreePending c.refed (s.ctl u) :=
          ⟨k, hk, (acc.sane.call hk).2.2 hpc, by simp [hpc, Pc.announced], refed'⟩
        obtain rfl := acc.inv.oneDropper u t c.refed ((drops_phase_iff acc.sane u _).2 mine') drops
        have run : s' = s.runCall u k weak := by
          simpa [State.step, State.run, hk] using hs.symm
        rw [run, runCall_free hpc] at hc
        simp [State.setCtl] at hc
    · have run : s' = s.runCall t k false := by
        simpa [State.step, State.run, hk] using hs.symm
      subst run
      have stamp := stamp_newRefInfo acc hk hpc word bound (inv.of_call hk).1
      rw [runCall_cas hpc word]
      simpa [State.setCtl, Mem.setRefInfo] using stamp.1

omit [DecidableEq Loc] in
theorem Evidence.init : Evidence (State.init : State Loc) where
  stored _ _ h := by cases h
  last _ _ h := by cases h

theorem evidence_of_reachable {s : State Loc} (h : Reachable State.step
    (fun s a s' => Orderly s a s' ∧ KeepsEvidence s a) State.init s) : Evidence s := by
  have orderly : ∀ s, Reachable State.step (fun s a s' => Orderly s a s' ∧ KeepsEvidence s a)
      (State.init : State Loc) s → EraInv s ∧ Accounted s := fun s h =>
    have h' := h.mono fun _ _ _ ok => ok.1
    ⟨eraInv_of_reachable h', accounted_of_orderly h'⟩
  exact h.invariant_of orderly .init fun _ _ _ before _ evidence hs ok =>
    evidence.step before.1 before.2 ok.1.1.2.2 hs ok.2

omit [DecidableEq Loc] in
/-- The entry of an operation past its compare-exchange is the newest of its log. -/
theorem selectRedo_of_committed {s : State Loc} (inv : EraInv s) {t : ℕ} {c : Call Loc}
    (hc : s.ctl t = .call c) (pc : c.pc = .storeRef) :
    selectRedo s.mem t = some c.redoLog ∧ 0 < c.curEra := by
  have ok := inv.call t c hc
  have logged := ok.logged (.inr (.inl pc))
  have cur := ok.cur (by rcases c.func_cases with func | func <;> simp [Call.knowsEra, func, pc])
  have mine := inv.redo t _ _ logged
  refine ⟨?_, mine.pos⟩
  rw [← logged]
  refine selectRedo_eq (Nat.mod_lt _ (by decide)) fun j _ hj => ?_
  rw [logged]
  cases entry : s.mem.redo t j with
  | none => exact mine.pos
  | some e =>
    have other := inv.redo t j e entry
    have older : e.curEra ≠ c.curEra := fun same => hj (by rw [other.slot, same])
    change e.curEra < c.curEra
    rcases other.op with ⟨old, -⟩ | ⟨now, -⟩ <;> omega

/-- **Completeness.**  When a client stops between the compare-exchange of a link or unlink and the
store of the reference, the redo selects the entry of that operation, decides to redo it, and does
the store, provided client `MAX_THREAD` has not replaced the word before another client recorded
the operation. -/
theorem redo_of_committed {s : State Loc} (h : Reachable State.step
    (fun s a s' => Orderly s a s' ∧ KeepsEvidence s a) State.init s) {t : ℕ} {c : Call Loc}
    (hc : s.ctl t = .call c) (pc : c.pc = .storeRef) :
    selectRedo s.mem t = some c.redoLog ∧ needRedo s.mem t c.redoLog = true ∧
      (redoRefCnt s.mem t).1.loc c.ref = c.newRef := by
  have inv := eraInv_of_reachable (h.mono fun _ _ _ ok => ok.1)
  obtain ⟨selected, pos⟩ := selectRedo_of_committed inv hc pc
  have need : needRedo s.mem t c.redoLog = true := by
    simp only [needRedo, decide_eq_true_eq, Bool.or_eq_true, Bool.decide_or, Bool.decide_and,
      Bool.and_eq_true]
    rcases (evidence_of_reachable h).stored t c hc pc with ⟨-, lcid, lenum⟩ | recorded
    · exact .inl ⟨lcid, lenum⟩
    · exact .inr ((le_maxEra_iff pos).2 recorded)
  refine ⟨selected, need, ?_⟩
  simp only [redoRefCnt, selected, need, if_true, Mem.setLoc]
  exact Function.update_self _ _ _

/-- The redo finds the link of client 1 although client 2 has replaced its word. -/
theorem redo_of_committed_recorded : ∃ s : State (Fin 3),
    Reachable State.step (fun s a s' => Orderly s a s' ∧ KeepsEvidence s a) State.init s ∧
      s.mem.loc 1 = 0 ∧ (redoRefCnt s.mem 1).1.loc 1 = 8 := by
  let actions : List (Action (Fin 3)) :=
    [.run 1 false, .run 2 false, .malloc 1 0 8] ++ List.replicate 4 (.run 1 false) ++
      [.link 1 1 8] ++ List.replicate 5 (.run 1 false) ++
      [.link 2 2 8] ++ List.replicate 6 (.run 2 false)
  have run : (checkedRun State.step (trial {1, 2}) (claimed 2) actions).any
      (fun s => s.ctl 1 = .call ⟨.linkRef, 1, 8, .storeRef, packRefInfo 1 1 1, 2⟩ ∧
        s.mem.loc 1 = 0) = true := by
    decide +kernel
  obtain ⟨s, hs, last⟩ := exists_reachable_of_trial
    (fun s a s' => Orderly s a s' ∧ KeepsEvidence s a) (by decide)
    (fun _ _ _ ok mem => ⟨ok, fun _ _ here => by
      have := mem maxThread (by rw [here]; rfl)
      simp [maxThread] at this⟩)
    (fun k hk => ⟨⟨permitted_claimed k, by rintro _ ⟨⟩; simp only [maxThread]; omega, trivial⟩,
      by rintro _ _ ⟨⟩⟩) run
  simp only [Bool.decide_and, Bool.and_eq_true, decide_eq_true_eq] at last
  exact ⟨s, hs, last.2, (redo_of_committed hs last.1 rfl).2.2⟩

/-- The record of client `MAX_THREAD` is not looked at: client 1 stops between the compare-exchange
and the store of a link, client 1024 links the same object, and the redo does nothing. -/
theorem lost_update_of_last_row : ¬ ∀ s : State (Fin 3),
    Reachable State.step Orderly State.init s → ∀ t c, s.ctl t = .call c → c.pc = .storeRef →
      selectRedo s.mem t = some c.redoLog ∧ needRedo s.mem t c.redoLog = true ∧
        (redoRefCnt s.mem t).1.loc c.ref = c.newRef := by
  intro complete
  let actions : List (Action (Fin 3)) :=
    [.run 1 false, .run 1024 false, .malloc 1 0 8] ++ List.replicate 4 (.run 1 false) ++
      [.link 1 1 8] ++ List.replicate 5 (.run 1 false) ++
      [.link 1024 2 8] ++ List.replicate 6 (.run 1024 false)
  have run : (checkedRun State.step (trial {1, 1024}) (claimed 1024) actions).any
      (fun s => s.ctl 1 = .call ⟨.linkRef, 1, 8, .storeRef, packRefInfo 1 1 1, 2⟩ ∧
        needRedo s.mem 1 ⟨.linkRef, 1, 2, 1, 8⟩ = false) = true := by
    decide +kernel
  obtain ⟨s, hs, last⟩ := exists_reachable_of_trial Orderly (by decide) (fun _ _ _ ok _ => ok)
    (fun k hk => ⟨permitted_claimed k, by rintro _ ⟨⟩; simp only [maxThread]; omega, trivial⟩) run
  simp only [Bool.decide_and, Bool.and_eq_true, decide_eq_true_eq] at last
  have need := (complete s hs 1 _ last.1 rfl).2.1
  exact absurd (last.2.symm.trans need) (by decide)

end CxlShm
