import CxlShm.Reference.Machine

/-!
# Unlinking for a dead client

`monitor::recovery_unlink_reference` drops a reference of a client that has stopped, under the
client's id and era.  It is `unlink_reference` with two differences: the era is read before the
record of the word is tested, and nothing is written to the redo log.
-/

namespace CxlShm

variable {Loc : Type}

/-- An activation of `recovery_unlink_reference` for the location `r`, which holds `o`. -/
def recoveryCall (r : Loc) (o : Offset) : Call Loc := ⟨.unlinkRef, r, o, .loadInfo, 0, 0⟩

/-- One access of `recovery_unlink_reference` on the slot of client `t`, `none` when it returns. -/
def Call.recoveryExec [DecidableEq Loc] (t : ℕ) (m : Mem Loc) (c : Call Loc) (weak : Bool) :
    Mem Loc × Option (Call Loc) :=
  match c.pc with
  | .loadInfo => (m, some { c with refInfo := m.refInfo c.refed, pc := .loadEra })
  | .loadEra => (m, some { c with curEra := m.era t t, pc := .testEle })
  | .testEle =>
    if m.era t c.sawCid < c.sawEra then (m, some { c with pc := .storeEle })
    else (m, some { c with pc := .cas })
  | .storeEle => (m.setEra t c.sawCid c.sawEra, some { c with pc := .cas })
  | .storeRedo => (m, none)
  | .cas =>
    if weak = false ∧ m.refInfo c.refed = c.refInfo then
      (m.setRefInfo c.refed (c.newRefInfo t), some { c with pc := .storeRef })
    else (m, some { c with pc := .loadInfo })
  | .storeRef => (m.setLoc c.ref 0, some { c with pc := .bumpEra })
  | .bumpEra => (m.bumpEra t, if c.last then some { c with pc := .free } else none)
  | .free => (m.setRefInfo c.refed 0, none)

section

variable [DecidableEq Loc] {t : ℕ} {m : Mem Loc} {c : Call Loc} {weak : Bool}

/-- The only location that is written is the one that is unlinked. -/
theorem Call.recoveryExec_loc {r : Loc} (h : r ≠ c.ref) :
    (c.recoveryExec t m weak).1.loc r = m.loc r := by
  unfold Call.recoveryExec
  split
  case h_7 => exact Function.update_of_ne h _ _
  all_goals (try split) <;> rfl

/-- The activation stays about its location. -/
theorem Call.recoveryExec_ref {c' : Call Loc} (h : (c.recoveryExec t m weak).2 = some c') :
    c'.ref = c.ref := by
  unfold Call.recoveryExec at h
  split at h
  all_goals (try split at h) <;> cases h <;> rfl

end

end CxlShm
