import CxlShm.Lib.Reachability
import CxlShm.Recovery.Redo
import CxlShm.Recovery.Unlink

/-!
# Clients that stop and come back

A client may stop at any access.  The monitor then runs `redo_ref_cnt` on its slot, drops references
for it in `recovery_garbage_collection`, and releases the slot, which `thread_init` may hand out
again: the slot lives again, with the redo log and the era counter of its former life.  This file is
the step function of clients and monitor, one access at a time, over the machine of
`Reference.Machine`.  Which references the monitor drops is left open; where it walks the pages and
queues of the client, any of its references may come next.
-/

namespace CxlShm.Recovery

open Reachability

variable {Loc : Type}

/-- What the monitor is doing, for the slot `t`. -/
inductive Monitor (Loc : Type)
  | idle
  /-- the loop of `redo_ref_cnt` over the entries of the log -/
  | select (t : ℕ)
  /-- `lo_cid = get_lcid_from_info(lo->ref_info)`, for the entry in slot `i` of the log -/
  | loadCid (t i : ℕ) (e : RedoLog Loc)
  /-- `lo_era = get_lenum_from_info(lo->ref_info)` -/
  | loadEra (t i : ℕ) (e : RedoLog Loc) (cid : ℕ)
  /-- `*era(j, tls_id) > max_era` -/
  | scan (t i : ℕ) (e : RedoLog Loc) (j maxEra : ℕ)
  /-- the store into `redo->ref` -/
  | store (t i : ℕ) (e : RedoLog Loc)
  /-- in `recovery_garbage_collection` -/
  | collect (t : ℕ)
  /-- inside `recovery_unlink_reference` -/
  | unlink (t : ℕ) (c : Call Loc)
  deriving DecidableEq

/-- The slot the monitor is working on. -/
def Monitor.slot : Monitor Loc → Option ℕ
  | .idle => none
  | .select t | .loadCid t _ _ | .loadEra t _ _ _ | .scan t _ _ _ _ | .store t _ _ | .collect t
  | .unlink t _ => some t

/-- A store of `redo_ref_cnt`: the slot, the life of the slot at that time, and the life in which the
entry was written. -/
structure Redone where
  slot : ℕ
  life : ℕ
  writtenIn : ℕ
  deriving DecidableEq, Repr

/-- The machine below, the monitor, and the slots whose client has stopped.  `life t` counts the
registrations of slot `t`, `writtenIn t i` is the life that wrote entry `i` of its log, `cleared t`
says that the current life has finished clearing the log, and `redone` are the stores of
`redo_ref_cnt` so far. -/
structure State (Loc : Type) where
  base : CxlShm.State Loc
  monitor : Monitor Loc
  dead : ℕ → Bool
  life : ℕ → ℕ
  writtenIn : ℕ → ℕ → ℕ
  cleared : ℕ → Bool
  redone : List Redone

/-- What happens next.  `client` is a step of a client that has not stopped, `check` the monitor's
finding that a client has, `dropRef` its next reference to drop, `monitor` its next access. -/
inductive Action (Loc : Type)
  | client (a : CxlShm.Action Loc)
  | crash (t : ℕ)
  | check (t : ℕ)
  | monitor (weak : Bool)
  | dropRef (r : Loc)
  | release

namespace State

/-- Zeroed memory, nobody registered. -/
def init : State Loc where
  base := CxlShm.State.init
  monitor := .idle
  dead _ := false
  life _ := 0
  writtenIn _ _ := 0
  cleared _ := false
  redone := []

section

variable (s : State Loc)

def setMonitor (m : Monitor Loc) : State Loc := { s with monitor := m }

def setMem (m : Mem Loc) : State Loc := { s with base := { s.base with mem := m } }

/-- The client of the step, if any, has not stopped. -/
def mayRun (a : CxlShm.Action Loc) : Bool :=
  match a.client with
  | some t => !s.dead t
  | none => true

/-- `writtenIn` after the next access of client `t`. -/
def noteWriter (t : ℕ) : ℕ → ℕ → ℕ :=
  match s.base.ctl t with
  | .call c =>
    if c.pc = .storeRedo then
      Function.update s.writtenIn t
        (Function.update (s.writtenIn t) (c.curEra % redoCachelineCnt) (s.life t))
    else s.writtenIn
  | .absent | .starting | .idle | .alloc _ | .clearing _ => s.writtenIn

/-- `cleared` after the next access of client `t`. -/
def noteCleared (t : ℕ) : ℕ → Bool :=
  match s.base.ctl t with
  | .clearing i => if i < redoCachelineCnt then s.cleared else Function.update s.cleared t true
  | .absent | .starting | .idle | .call _ | .alloc _ => s.cleared

/-- Books the step `a` of a client that led to `b`. -/
def note (a : CxlShm.Action Loc) (b : CxlShm.State Loc) : State Loc :=
  match a with
  | .threadInit t =>
    { s with
      base := b
      life := Function.update s.life t (s.life t + 1)
      cleared := Function.update s.cleared t false }
  | .run t _ => { s with base := b, writtenIn := s.noteWriter t, cleared := s.noteCleared t }
  | .link _ _ _ | .unlink _ _ _ | .malloc _ _ _ | .mallocGeneric _ | .reuse _ _ => { s with base := b }

/-- The index of the entry that the loop over the log of slot `t` ends with. -/
def selected (t : ℕ) : ℕ :=
  (List.range' 1 (redoCachelineCnt - 1)).foldl
    (fun redo i =>
      if entryEra (s.base.mem.redo t redo) < entryEra (s.base.mem.redo t i) then i else redo) 0

end

section

variable [DecidableEq Loc] (s : State Loc)

/-- The next access of the monitor. -/
def monitorStep (weak : Bool) : Option (State Loc) :=
  match s.monitor with
  | .idle | .collect _ => none
  | .select t =>
    some (s.setMonitor (match s.base.mem.redo t (s.selected t) with
      | none => .collect t
      | some e => .loadCid t (s.selected t) e))
  | .loadCid t i e =>
    some (s.setMonitor (.loadEra t i e (getLcidFromInfo (s.base.mem.refInfo e.refed))))
  | .loadEra t i e cid =>
    some (s.setMonitor
      (if cid = t ∧ getLenumFromInfo (s.base.mem.refInfo e.refed) = e.curEra then .store t i e
        else .scan t i e 0 0))
  | .scan t i e j maxEra =>
    if j < maxThread then
      some (s.setMonitor (.scan t i e (j + 1)
        (if j = t then maxEra
          else if maxEra < s.base.mem.era j t then s.base.mem.era j t else maxEra)))
    else some (s.setMonitor (if e.curEra ≤ maxEra then .store t i e else .collect t))
  | .store t i e =>
    some { s.setMem (s.base.mem.setLoc e.ref e.newRef) with
      monitor := .collect t
      redone := s.redone ++ [⟨t, s.life t, s.writtenIn t i⟩] }
  | .unlink t c =>
    let (m, rest) := c.recoveryExec t s.base.mem weak
    some { s with
      base := { s.base with
        mem := m
        allocated :=
          if c.pc = .free then Function.update s.base.allocated c.refed false
          else s.base.allocated }
      monitor := rest.elim (.collect t) (.unlink t) }

/-- The step function. -/
def step : Action Loc → Option (State Loc)
  | .client a => if s.mayRun a then (s.base.step a).map (s.note a) else none
  | .crash t =>
    if s.dead t = false ∧ (s.base.ctl t).registered then
      some { s with dead := Function.update s.dead t true }
    else none
  | .check t =>
    if s.monitor = .idle ∧ s.dead t then some (s.setMonitor (.select t)) else none
  | .monitor weak => s.monitorStep weak
  | .dropRef r =>
    match s.monitor with
    | .collect t =>
      if s.base.mem.loc r ≠ 0 then
        some (s.setMonitor (.unlink t (recoveryCall r (s.base.mem.loc r))))
      else none
    | _ => none
  | .release =>
    match s.monitor with
    | .collect t =>
      some { s with
        base := s.base.setCtl t .absent
        monitor := .idle
        dead := Function.update s.dead t false }
    | _ => none

end

end State

/-- A run of the clients in which nobody stops is a run. -/
theorem exists_of_crashFree [DecidableEq Loc]
    {ok : CxlShm.State Loc → CxlShm.Action Loc → CxlShm.State Loc → Prop}
    (ok' : State Loc → Action Loc → State Loc → Prop) {b : CxlShm.State Loc}
    (h : Reachable CxlShm.State.step ok CxlShm.State.init b)
    (lift : ∀ s a b', ok s.base a b' → ok' s (.client a) (s.note a b')) :
    ∃ s, Reachable State.step ok' State.init s ∧ s.base = b ∧ ∀ t, s.dead t = false := by
  induction h with
  | start => exact ⟨State.init, .start, rfl, fun _ => rfl⟩
  | @next b b' a _ hstep permitted ih =>
    obtain ⟨s, hs, rfl, live⟩ := ih
    have runs : s.mayRun a = true := by
      unfold State.mayRun
      split <;> simp [live]
    have step : s.step (.client a) = some (s.note a b') := by
      simp [State.step, runs, hstep]
    refine ⟨_, hs.next step (lift s a b' permitted), ?_, ?_⟩ <;> cases a <;> first | rfl | exact live

end CxlShm.Recovery
