import CxlShm.Reference.Machine
import Mathlib.Data.List.Basic

/-!
# The redo of an interrupted operation

`monitor::redo_ref_cnt` runs on the slot of a client that has stopped.  It picks the newest entry of
the client's redo log, decides from the object's word and from what other clients recorded of the
client's eras whether the compare-exchange of that operation took place (`needRedo`), and then does
the store that the client may have missed.
-/

namespace CxlShm

variable {Loc : Type}

/-- `redo->cur_era`; a zeroed entry has era 0. -/
def entryEra : Option (RedoLog Loc) → ℕ
  | none => 0
  | some e => e.curEra

/-- The loop over the entries: it starts at entry 0 and moves on to a later entry whose era is
larger. -/
def selectRedo (m : Mem Loc) (t : ℕ) : Option (RedoLog Loc) :=
  (List.range' 1 (redoCachelineCnt - 1)).foldl
    (fun redo i => if entryEra redo < entryEra (m.redo t i) then m.redo t i else redo) (m.redo t 0)

/-- `max_era`: the loop over `j < MAX_THREAD` that skips the client itself. -/
def maxEra (m : Mem Loc) (t : ℕ) : ℕ :=
  (List.range maxThread).foldl
    (fun maxEra j => if j = t then maxEra else if maxEra < m.era j t then m.era j t else maxEra) 0

/-- `need_redo` for an entry of client `t`. -/
def needRedo (m : Mem Loc) (t : ℕ) (e : RedoLog Loc) : Bool :=
  (getLcidFromInfo (m.refInfo e.refed) = t ∧ getLenumFromInfo (m.refInfo e.refed) = e.curEra) ∨
    e.curEra ≤ maxEra m t

/-- What the redo of an entry stores into its location. -/
def RedoLog.newRef (e : RedoLog Loc) : Offset :=
  match e.funcId with
  | .linkRef => e.refed
  | .unlinkRef => 0

/-- `redo_ref_cnt` on the slot of client `t`, with the index of the segment whose state it sets to
`POTENTIAL_LEAKING`.  `get_ref_cnt_from_info` is applied to `saved_ref_cnt`, which is a count. -/
def redoRefCnt [DecidableEq Loc] (m : Mem Loc) (t : ℕ) : Mem Loc × Option ℕ :=
  match selectRedo m t with
  | none => (m, none)
  | some e =>
    (if needRedo m t e then m.setLoc e.ref e.newRef else m,
      if e.funcId = .unlinkRef ∧ getRefCntFromInfo e.savedRefCnt = 1 then some (segmentIndex e.refed)
      else none)

/-- What the redo of the selected entry writes. -/
theorem redoRefCnt_mem [DecidableEq Loc] {m : Mem Loc} {t : ℕ} {e : RedoLog Loc}
    (selected : selectRedo m t = some e) :
    (redoRefCnt m t).1 = if needRedo m t e then m.setLoc e.ref e.newRef else m := by
  rw [redoRefCnt, selected]

theorem redoRefCnt_mem_of_none [DecidableEq Loc] {m : Mem Loc} {t : ℕ}
    (selected : selectRedo m t = none) : (redoRefCnt m t).1 = m := by
  rw [redoRefCnt, selected]

/-! ## The two loops -/

/-- The selection over any list of entries: the result is one of them, and none is newer. -/
theorem foldl_select (f : ℕ → Option (RedoLog Loc)) (l : List ℕ) (r : Option (RedoLog Loc)) :
    let out := l.foldl (fun redo i => if entryEra redo < entryEra (f i) then f i else redo) r
    (out = r ∨ ∃ i ∈ l, out = f i) ∧ entryEra r ≤ entryEra out ∧
      ∀ i ∈ l, entryEra (f i) ≤ entryEra out := by
  induction l generalizing r with
  | nil => exact ⟨.inl rfl, le_rfl, by simp⟩
  | cons a l ih =>
    obtain ⟨source, start, rest⟩ := ih (if entryEra r < entryEra (f a) then f a else r)
    simp only [List.foldl_cons]
    refine ⟨?_, ?_, ?_⟩
    · rcases source with same | ⟨i, hi, same⟩
      · rw [same]
        split
        · exact .inr ⟨a, by simp, rfl⟩
        · exact .inl rfl
      · exact .inr ⟨i, by simp [hi], same⟩
    · refine le_trans ?_ start
      split <;> omega
    · intro i hi
      rcases List.mem_cons.1 hi with rfl | hi
      · refine le_trans ?_ start
        split <;> omega
      · exact rest i hi

theorem selectRedo_spec (m : Mem Loc) (t : ℕ) :
    (∃ i < redoCachelineCnt, selectRedo m t = m.redo t i) ∧
      ∀ i < redoCachelineCnt, entryEra (m.redo t i) ≤ entryEra (selectRedo m t) := by
  obtain ⟨source, start, rest⟩ :=
    foldl_select (m.redo t) (List.range' 1 (redoCachelineCnt - 1)) (m.redo t 0)
  constructor
  · rcases source with same | ⟨i, hi, same⟩
    · exact ⟨0, by decide, same⟩
    · exact ⟨i, by simp [redoCachelineCnt] at hi ⊢; omega, same⟩
  · intro i hi
    cases i with
    | zero => exact start
    | succ i =>
      refine rest (i + 1) ?_
      simp only [redoCachelineCnt, List.mem_range'_1] at hi ⊢
      omega

/-- The entry with an era larger than all others is the one selected. -/
theorem selectRedo_eq {m : Mem Loc} {t i : ℕ} (hi : i < redoCachelineCnt)
    (newest : ∀ j < redoCachelineCnt, j ≠ i → entryEra (m.redo t j) < entryEra (m.redo t i)) :
    selectRedo m t = m.redo t i := by
  obtain ⟨⟨j, hj, same⟩, most⟩ := selectRedo_spec m t
  by_cases hji : j = i
  · rw [same, hji]
  · have less := newest j hj hji
    have more := most i hi
    rw [same] at more
    omega

theorem le_foldl_maxEra (m : Mem Loc) (t e : ℕ) (l : List ℕ) (acc : ℕ) :
    e ≤ l.foldl (fun maxEra j =>
        if j = t then maxEra else if maxEra < m.era j t then m.era j t else maxEra) acc ↔
      e ≤ acc ∨ ∃ j ∈ l, j ≠ t ∧ e ≤ m.era j t := by
  induction l generalizing acc with
  | nil => simp
  | cons a l ih =>
    rw [List.foldl_cons, ih]
    by_cases own : a = t
    · simp [own]
    · simp only [own, if_false, List.mem_cons, exists_eq_or_imp, ne_eq, not_false_eq_true, true_and]
      by_cases more : acc < m.era a t
      · simp only [more, if_true]
        constructor
        · rintro (h | h)
          · exact .inr (.inl h)
          · exact .inr (.inr h)
        · rintro (h | h | h)
          · exact .inl (by omega)
          · exact .inl h
          · exact .inr h
      · simp only [more, if_false]
        constructor
        · rintro (h | h)
          · exact .inl h
          · exact .inr (.inr h)
        · rintro (h | h | h)
          · exact .inl h
          · exact .inl (by omega)
          · exact .inr h

/-- An era is covered by `max_era` when one of the scanned clients has recorded it. -/
theorem le_maxEra_iff {m : Mem Loc} {t e : ℕ} (pos : 0 < e) :
    e ≤ maxEra m t ↔ ∃ j < maxThread, j ≠ t ∧ e ≤ m.era j t := by
  rw [maxEra, le_foldl_maxEra]
  simp only [List.mem_range]
  constructor
  · rintro (h | h)
    · omega
    · exact h
  · exact .inr

end CxlShm
