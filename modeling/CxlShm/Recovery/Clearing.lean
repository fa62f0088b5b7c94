import CxlShm.Recovery.StaleLog

/-!
# Clients that stop while they clear the log

`cxl_malloc_generic` begins with a `memset` of the client's redo log, entry by entry from the front.
The newest entry may be anywhere, so a client that stops in between may leave older entries behind,
of which `redo_ref_cnt` then takes the newest.  Which entries can be the newest that is left, and what
their redo changes, is said by `Settled`.
-/

namespace CxlShm

open Reachability

variable {Loc : Type}

/-- The entries below `k` of the log of client `t` are zeroed. -/
def Mem.clearRedo (m : Mem Loc) (t k : ℕ) : Mem Loc :=
  { m with redo := Function.update m.redo t fun i => if i < k then none else m.redo t i }

/-- An entry that is at least as new as all entries behind it, and whose compare-exchange seems to
have taken place, has its effect in its location. -/
def Settled (m : Mem Loc) (t : ℕ) : Prop :=
  ∀ i < redoCachelineCnt, ∀ e, m.redo t i = some e → (0 < e.curEra ∨ i = 0) →
    (∀ j, i < j → j < redoCachelineCnt → entryEra (m.redo t j) ≤ e.curEra) →
    needRedo m t e → m.loc e.ref = e.newRef

/-! ## The entry that is selected -/

/-- The selection stays with an entry that no later one exceeds. -/
theorem foldl_select_stays {f : ℕ → Option (RedoLog Loc)} {l : List ℕ} {r : Option (RedoLog Loc)}
    (older : ∀ i ∈ l, entryEra (f i) ≤ entryEra r) :
    l.foldl (fun redo i => if entryEra redo < entryEra (f i) then f i else redo) r = r := by
  induction l with
  | nil => rfl
  | cons a l ih =>
    have first := older a List.mem_cons_self
    rw [List.foldl_cons, if_neg (by omega)]
    exact ih fun i hi => older i (List.mem_cons_of_mem a hi)

/-- The selection leaves the entry it starts with only for a newer one. -/
theorem foldl_select_source (f : ℕ → Option (RedoLog Loc)) (l : List ℕ) (r : Option (RedoLog Loc)) :
    let out := l.foldl (fun redo i => if entryEra redo < entryEra (f i) then f i else redo) r
    out = r ∨ ∃ i ∈ l, out = f i ∧ entryEra r < entryEra out := by
  induction l generalizing r with
  | nil => exact .inl rfl
  | cons a l ih =>
    rw [List.foldl_cons]
    by_cases newer : entryEra r < entryEra (f a)
    · rw [if_pos newer]
      rcases ih (f a) with same | ⟨i, hi, same, less⟩
      · exact .inr ⟨a, List.mem_cons_self, same, by rw [same]; exact newer⟩
      · exact .inr ⟨i, List.mem_cons_of_mem a hi, same, newer.trans less⟩
    · rw [if_neg newer]
      rcases ih r with same | ⟨i, hi, same, less⟩
      · exact .inl same
      · exact .inr ⟨i, List.mem_cons_of_mem a hi, same, less⟩

variable {m : Mem Loc} {t k i : ℕ}

theorem clearRedo_redo : (m.clearRedo t k).redo t i = if i < k then none else m.redo t i := by
  simp [Mem.clearRedo]

theorem needRedo_clearRedo (e : RedoLog Loc) :
    needRedo (m.clearRedo t k) t e = needRedo m t e := rfl

/-- What is selected among the entries that are left is one that no entry behind it exceeds. -/
theorem selectRedo_clearRedo {e : RedoLog Loc} (selected : selectRedo (m.clearRedo t k) t = some e) :
    ∃ i < redoCachelineCnt, m.redo t i = some e ∧ (0 < e.curEra ∨ i = 0) ∧
      ∀ j, i < j → j < redoCachelineCnt → entryEra (m.redo t j) ≤ e.curEra := by
  have newest := (selectRedo_spec (m.clearRedo t k) t).2
  rw [selected] at newest
  -- an index that has been cleared holds no entry
  have left : ∀ i, (m.clearRedo t k).redo t i = some e → k ≤ i ∧ m.redo t i = some e := by
    intro i here
    rw [clearRedo_redo] at here
    split at here
    · cases here
    · next kept => exact ⟨Nat.le_of_not_lt kept, here⟩
  have behind : ∀ i, k ≤ i → ∀ j, i < j → j < redoCachelineCnt →
      entryEra (m.redo t j) ≤ e.curEra := by
    intro i kept j less hj
    have bound := newest j hj
    rw [clearRedo_redo, if_neg (by omega)] at bound
    exact bound
  rcases foldl_select_source ((m.clearRedo t k).redo t) (List.range' 1 (redoCachelineCnt - 1))
    ((m.clearRedo t k).redo t 0) with same | ⟨i, hi, same, newer⟩
  · rw [← selectRedo, selected] at same
    obtain ⟨kept, here⟩ := left 0 same.symm
    exact ⟨0, by decide, here, .inr rfl, behind 0 kept⟩
  · rw [← selectRedo, selected] at same newer
    obtain ⟨kept, here⟩ := left i same.symm
    have hi : i < redoCachelineCnt := by
      simp only [redoCachelineCnt, List.mem_range'_1] at hi ⊢
      omega
    exact ⟨i, hi, here, .inl (Nat.lt_of_le_of_lt (Nat.zero_le _) newer), behind i kept⟩

/-- An entry that no entry behind it exceeds is selected when all before it are cleared. -/
theorem selectRedo_clearRedo_self {e : RedoLog Loc} (hi : i < redoCachelineCnt)
    (here : m.redo t i = some e) (pos : 0 < e.curEra ∨ i = 0)
    (behind : ∀ j, i < j → j < redoCachelineCnt → entryEra (m.redo t j) ≤ e.curEra) :
    selectRedo (m.clearRedo t i) t = some e := by
  have at_i : (m.clearRedo t i).redo t i = some e := by
    rw [clearRedo_redo, if_neg (Nat.lt_irrefl i)]
    exact here
  have before : ∀ j, j < i → (m.clearRedo t i).redo t j = none := by
    intro j less
    rw [clearRedo_redo, if_pos less]
  have after : ∀ j, i < j → j < redoCachelineCnt →
      entryEra ((m.clearRedo t i).redo t j) ≤ entryEra (some e) := by
    intro j less hj
    rw [clearRedo_redo, if_neg (by omega)]
    exact behind j less hj
  by_cases first : i = 0
  · subst first
    rw [selectRedo, at_i]
    apply foldl_select_stays
    intro j hj
    simp only [redoCachelineCnt, List.mem_range'_1] at hj
    exact after j (by omega) (by simp only [redoCachelineCnt]; omega)
  · have pos : 0 < e.curEra := pos.resolve_right first
    have split : List.range' 1 (redoCachelineCnt - 1) =
        List.range' 1 (i - 1) ++ i :: List.range' (i + 1) (redoCachelineCnt - 1 - i) := by
      have tail : i :: List.range' (i + 1) (redoCachelineCnt - 1 - i) =
          List.range' (1 + (i - 1)) (redoCachelineCnt - i) := by
        rw [show redoCachelineCnt - i = (redoCachelineCnt - 1 - i) + 1 by omega,
          List.range'_succ, show 1 + (i - 1) = i by omega]
      rw [tail, List.range'_append_1]
      congr 1
      omega
    rw [selectRedo, split, List.foldl_append, List.foldl_cons]
    have start : (List.range' 1 (i - 1)).foldl (fun redo j =>
        if entryEra redo < entryEra ((m.clearRedo t i).redo t j) then (m.clearRedo t i).redo t j
        else redo) ((m.clearRedo t i).redo t 0) = none := by
      rw [before 0 (by omega)]
      apply foldl_select_stays
      intro j hj
      rw [List.mem_range'_1] at hj
      rw [before j (by omega)]
    rw [start, at_i, if_pos (show entryEra none < entryEra (some e) from pos)]
    apply foldl_select_stays
    intro j hj
    rw [List.mem_range'_1] at hj
    exact after j (by omega) (by omega)

/-! ## Stopping anywhere in the loop -/

variable [DecidableEq Loc]

/-- What `redo_ref_cnt` does to the locations. -/
theorem redoRefCnt_loc {e : RedoLog Loc} (selected : selectRedo m t = some e) :
    (redoRefCnt m t).1.loc =
      if needRedo m t e then Function.update m.loc e.ref e.newRef else m.loc := by
  rw [redoRefCnt_mem selected]
  split <;> rfl

/-- Wherever the clearing stops, the redo of what is left changes no location, if and only if the
entries that can be the newest left are settled. -/
theorem redo_clearRedo_iff (m : Mem Loc) (t : ℕ) :
    (∀ k ≤ redoCachelineCnt, ∀ r, (redoRefCnt (m.clearRedo t k) t).1.loc r = m.loc r) ↔
      Settled m t := by
  constructor
  · intro unchanged i hi e here pos behind evidence
    have same := unchanged i hi.le e.ref
    rw [redoRefCnt_loc (selectRedo_clearRedo_self hi here pos behind), needRedo_clearRedo,
      if_pos evidence, Function.update_self] at same
    exact same.symm
  · intro settled k _ r
    cases selected : selectRedo (m.clearRedo t k) t with
    | none => rw [redoRefCnt_mem_of_none selected]; rfl
    | some e =>
      obtain ⟨i, hi, here, pos, behind⟩ := selectRedo_clearRedo selected
      rw [redoRefCnt_loc selected, needRedo_clearRedo]
      by_cases evidence : needRedo m t e = true
      · have holds := settled i hi e here pos behind evidence
        rw [if_pos evidence]
        by_cases same : r = e.ref
        · rw [same, holds, Function.update_self]
        · rw [Function.update_of_ne same]
          rfl
      · rw [if_neg evidence]
        rfl

/-- The accesses of the loop, from the call on. -/
theorem exists_clearing {s : State Loc} (idle : s.ctl t = .idle) (hk : k ≤ redoCachelineCnt) :
    ∃ s', Reachable State.step (fun _ _ _ => True) s s' ∧ s'.ctl t = .clearing k ∧
      s'.mem = s.mem.clearRedo t k := by
  induction k with
  | zero =>
    refine ⟨s.setCtl t (.clearing 0), Reachable.start.next (a := .mallocGeneric t) ?_ trivial, ?_, ?_⟩
    · simp only [State.step, State.enter, idle]
    · exact Function.update_self _ _ _
    · show s.mem = s.mem.clearRedo t 0
      rw [Mem.clearRedo]
      simp
  | succ k ih =>
    obtain ⟨s', reached, clearing, mem⟩ := ih (by omega)
    refine ⟨{ s' with mem := s'.mem.setRedo t k none }.setCtl t (.clearing (k + 1)),
      reached.next (a := .run t false) ?_ trivial, Function.update_self _ _ _, ?_⟩
    · have more : k < redoCachelineCnt := hk
      simp only [State.step, State.run, clearing, more, if_true]
    · show s'.mem.setRedo t k none = _
      rw [mem]
      simp only [Mem.setRedo, Mem.clearRedo, Function.update_idem, Function.update_self]
      congr 2
      funext i
      by_cases same : i = k
      · simp [same]
      · rw [Function.update_of_ne same]
        simp only [show i < k + 1 ↔ i < k by omega]

/-- `n` accesses of client `t`. -/
def accesses (t n : ℕ) : List (Action (Fin 4)) := List.replicate n (.run t false)

/-- Client 1 links and unlinks location 1 until its newest entry, an unlink, is entry 0 of the log
and the link before it entry 7; client 2 has seen the client's eras.  Then client 1 zeroes entry 0
and stops. -/
def wrapRun : List (Action (Fin 4)) :=
  let linkUnlink := [.link 1 1 8] ++ accesses 1 7 ++ [.unlink 1 1 8] ++ accesses 1 7
  [.threadInit 1] ++ accesses 1 1 ++ [.threadInit 2] ++ accesses 2 1 ++
    [.malloc 1 0 8] ++ accesses 1 4 ++ [.malloc 1 3 16] ++ accesses 1 4 ++
    linkUnlink ++ linkUnlink ++ linkUnlink ++
    [.link 2 2 8] ++ accesses 2 8 ++ [.mallocGeneric 1] ++ accesses 1 1

/-- The link of era 7 is the newest entry left and is done again: location 1, long unlinked, refers to
the object. -/
theorem unlinked_reference_returns : ¬ ∀ s : State (Fin 4),
    Reachable State.step (fun _ _ _ => True) State.init s → ∀ t k, s.ctl t = .clearing k →
      ∀ r, (redoRefCnt s.mem t).1.loc r = s.mem.loc r := by
  intro claim
  have run : (checkedRun State.step (fun _ _ _ => true) State.init wrapRun).any (fun s =>
      s.ctl 1 = .clearing 1 ∧ s.mem.loc 1 = 0 ∧ (redoRefCnt s.mem 1).1.loc 1 = 8) = true := by
    decide +kernel
  have sound : ∀ (s : State (Fin 4)) a s', True → s.step a = some s' → true = true →
      True ∧ True := fun _ _ _ _ _ _ => ⟨trivial, trivial⟩
  obtain ⟨s, reached, last⟩ := exists_reachable_of_checkedRun sound trivial run
  have last : s.ctl 1 = .clearing 1 ∧ s.mem.loc 1 = 0 ∧ (redoRefCnt s.mem 1).1.loc 1 = 8 :=
    of_decide_eq_true last
  obtain ⟨clearing, unlinked, redone⟩ := last
  have same := claim s reached 1 1 clearing 1
  rw [unlinked, redone] at same
  cases same

end CxlShm
