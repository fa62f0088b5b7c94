import CxlShm.Alloc.RemoteFree
import CxlShm.Recovery.StaleLog

/-!
# Marking segments that may leak

A client that stops inside a free of somebody else's block has taken the block's last reference and
not yet pushed it on a chain.  `redo_ref_cnt` ends with a test for this, and is meant to set the
state of the block's segment to `POTENTIAL_LEAKING`.  The test decodes a count as if it were a packed
word, so it never succeeds (`never_marked`).  The machine is the one of `Recovery.Machine` with the
segment allocation states, and everything that writes one.
-/

namespace CxlShm.Leak

open Reachability
open RemoteFree (Push)

variable {Loc : Type}

/-- The end of `redo_ref_cnt`, after the store of the reference. -/
inductive Mark (Loc : Type)
  | idle
  /-- `if(get_ref_cnt_from_info(redo->saved_ref_cnt) == 1)` -/
  | test (e : RedoLog Loc)
  /-- `info = sas->info.load()` before the loop -/
  | load (g : ℕ)
  /-- `info = sas->info.load()` in the loop -/
  | reload (g : ℕ)
  /-- `sas->info.compare_exchange_weak(info, new_info)` -/
  | cas (g : ℕ) (info : StateFreeInfo)
  deriving DecidableEq

/-- Clients and monitor, `sas->thread_id`, `segment->thread_id` and `sas->info` of each segment, and
where the clients are in the remote branch of `cxl_free`, the monitor in that of
`recovery_cxl_free` and at the end of `redo_ref_cnt`. -/
structure State (Loc : Type) where
  run : Recovery.State Loc
  sasThreadId : ℕ → ℕ
  segmentThreadId : ℕ → ℕ
  info : ℕ → StateFreeInfo
  push : ℕ → Push
  recoveryPush : Push
  mark : Mark Loc

/-- What happens next.  A loop around a compare-exchange that nobody but its own words can upset is
one step. -/
inductive Action (Loc : Type)
  | run (a : Recovery.Action Loc)
  | push (t : ℕ) (weak : Bool)
  | recoveryPush (weak : Bool)
  | mark (weak : Bool)
  /-- `cxl_segment_alloc` -/
  | segmentAlloc (t g : ℕ)
  /-- `cxl_segment_free` -/
  | segmentFree (t g : ℕ)
  /-- `cxl_thread_free_collect` -/
  | collect (t g : ℕ)
  /-- the loops of `recovery_garbage_collection` that store `ABANDON` -/
  | abandon (g : ℕ)
  /-- `recovery_cxl_segment_free` -/
  | recoveryFree (g : ℕ)
  /-- `single_recovery_loop` that has found no live block in the segment -/
  | sweep (g : ℕ)

/-- The entry that the monitor is done with when it goes on to `recovery_garbage_collection`. -/
def entry : Recovery.Monitor Loc → Option (RedoLog Loc)
  | .loadCid _ _ e | .loadEra _ _ e _ | .scan _ _ e _ _ | .store _ _ e => some e
  | .idle | .select _ | .collect _ | .unlink _ _ => none

namespace State

/-- Zeroed memory, nobody registered. -/
def init : State Loc where
  run := Recovery.State.init
  sasThreadId _ := 0
  segmentThreadId _ := 0
  info _ := ⟨.normal, 0⟩
  push _ := .idle
  recoveryPush := .idle
  mark := .idle

section

variable (s : State Loc)

/-- A client inside the remote branch makes no other access, and the monitor one after the other. -/
def mayRun [DecidableEq Loc] : Recovery.Action Loc → Bool
  | .client a => (a.client.map s.push).all (· = .idle)
  | .crash _ => true
  | .check _ | .monitor _ | .dropRef _ | .release => s.mark = .idle ∧ s.recoveryPush = .idle

/-- The call of `cxl_free` on another client's block goes on with the push. -/
def pushAfter : Recovery.Action Loc → ℕ → Push
  | .client (.run t _) =>
    match s.run.base.ctl t with
    | .call c =>
      if c.pc = .free ∧ s.segmentThreadId (segmentIndex c.refed) ≠ t then
        Function.update s.push t (.load c.refed)
      else s.push
    | .absent | .starting | .idle | .alloc _ | .clearing _ => s.push
  | .release =>
    match s.run.monitor.slot with
    | some t => Function.update s.push t .idle
    | none => s.push
  | .client _ | .crash _ | .check _ | .monitor _ | .dropRef _ => s.push

/-- The same for `recovery_cxl_free`. -/
def recoveryPushAfter : Recovery.Action Loc → Push
  | .monitor _ =>
    match s.run.monitor with
    | .unlink t c =>
      if c.pc = .free ∧ s.segmentThreadId (segmentIndex c.refed) ≠ t then .load c.refed
      else s.recoveryPush
    | .idle | .select _ | .loadCid _ _ _ | .loadEra _ _ _ _ | .scan _ _ _ _ _ | .store _ _ _
    | .collect _ => s.recoveryPush
  | .client _ | .crash _ | .check _ | .dropRef _ | .release => s.recoveryPush

/-- `redo_ref_cnt` comes to its last test after the store, or after it has decided against it. -/
def markAfter (a : Recovery.Action Loc) (r : Recovery.State Loc) : Mark Loc :=
  match a, entry s.run.monitor, r.monitor with
  | .monitor _, some e, .collect _ => .test e
  | _, _, _ => s.mark

/-- The next access of client `t` in the remote branch of `cxl_free`. -/
def pushStep (t : ℕ) (weak : Bool) : Option (State Loc) :=
  match s.push t with
  | .idle | .memset _ => none
  | .load b => some { s with push := Function.update s.push t (.reload b) }
  | .reload b =>
    let info := s.info (segmentIndex b)
    some { s with
      push := Function.update s.push t
        (if info.state = .potentialLeaking then .idle else .storeNext b info) }
  | .storeNext b info => some { s with push := Function.update s.push t (.cas b info) }
  | .cas b info =>
    if weak = false ∧ s.info (segmentIndex b) = info then
      some { s with
        info := Function.update s.info (segmentIndex b) ⟨info.state, b⟩
        push := Function.update s.push t .idle }
    else some { s with push := Function.update s.push t (.reload b) }

/-- The next access of the monitor in the remote branch of `recovery_cxl_free`. -/
def recoveryPushStep (weak : Bool) : Option (State Loc) :=
  match s.recoveryPush with
  | .idle | .memset _ => none
  | .load b => some { s with recoveryPush := .reload b }
  | .reload b => some { s with recoveryPush := .storeNext b (s.info (segmentIndex b)) }
  | .storeNext b info => some { s with recoveryPush := .cas b info }
  | .cas b info =>
    if weak = false ∧ s.info (segmentIndex b) = info then
      some { s with
        info := Function.update s.info (segmentIndex b) ⟨info.state, b⟩
        recoveryPush := .idle }
    else some { s with recoveryPush := .reload b }

/-- The next access of the monitor at the end of `redo_ref_cnt`. -/
def markStep (weak : Bool) : Option (State Loc) :=
  match s.mark with
  | .idle => none
  | .test e =>
    some { s with
      mark :=
        if e.funcId = .unlinkRef ∧ getRefCntFromInfo e.savedRefCnt = 1 then
          .load (segmentIndex e.refed)
        else .idle }
  | .load g => some { s with mark := .reload g }
  | .reload g => some { s with mark := .cas g (s.info g) }
  | .cas g info =>
    if weak = false ∧ s.info g = info then
      some { s with
        info := Function.update s.info g ⟨.potentialLeaking, info.threadFree⟩
        mark := .idle }
    else some { s with mark := .reload g }

/-- A segment goes back; its header is zeroed. -/
def giveBack (g : ℕ) : State Loc :=
  { s with
    sasThreadId := Function.update s.sasThreadId g 0
    segmentThreadId := Function.update s.segmentThreadId g 0 }

def setInfo (g : ℕ) (info : StateFreeInfo) : State Loc :=
  { s with info := Function.update s.info g info }

end

variable [DecidableEq Loc] (s : State Loc)

/-- The step function. -/
def step : Action Loc → Option (State Loc)
  | .run a =>
    if s.mayRun a then
      (s.run.step a).map fun r =>
        { s with
          run := r
          push := s.pushAfter a
          recoveryPush := s.recoveryPushAfter a
          mark := s.markAfter a r }
    else none
  | .push t weak => if s.run.dead t = false then s.pushStep t weak else none
  | .recoveryPush weak => s.recoveryPushStep weak
  | .mark weak => s.markStep weak
  | .segmentAlloc t g =>
    if s.run.base.ctl t = .idle ∧ s.run.dead t = false ∧ s.sasThreadId g = 0 then
      some ({ s with
        sasThreadId := Function.update s.sasThreadId g t
        segmentThreadId := Function.update s.segmentThreadId g (t % 2 ^ 16) }.setInfo g ⟨.normal, 0⟩)
    else none
  | .segmentFree t g =>
    if s.run.base.ctl t = .idle ∧ s.run.dead t = false ∧ s.sasThreadId g = t then
      some (s.giveBack g)
    else none
  | .collect t g =>
    if s.run.base.ctl t = .idle ∧ s.run.dead t = false ∧ s.sasThreadId g = t then
      some (s.setInfo g ⟨(s.info g).state, 0⟩)
    else none
  | .abandon g =>
    match s.run.monitor with
    | .collect _ => some (s.setInfo g ⟨.abandon, (s.info g).threadFree⟩)
    | _ => none
  | .recoveryFree g =>
    match s.run.monitor with
    | .collect t =>
      if s.sasThreadId g = t ∧ (s.info g).state ≠ .abandon then some (s.giveBack g) else none
    | _ => none
  | .sweep g =>
    if s.run.monitor = .idle ∧ s.sasThreadId g ≠ 0 then
      some ((s.giveBack g).setInfo g ⟨.normal, 0⟩)
    else none

end State

/-! ## What the log and the monitor hold -/

section Entries

variable {P : RedoLog Loc → Prop}

/-- All entries of the log, and the one the monitor has in hand, are of a kind. -/
structure Entries (P : RedoLog Loc → Prop) (r : Recovery.State Loc) : Prop where
  log : ∀ t i e, r.base.mem.redo t i = some e → P e
  picked : ∀ e, entry r.monitor = some e → P e

/-- An entry after a write to the log was there before, or has been written. -/
theorem redo_of_setRedo {m : Mem Loc} {t k u i : ℕ} {v : Option (RedoLog Loc)} {e : RedoLog Loc}
    (here : (m.setRedo t k v).redo u i = some e) : m.redo u i = some e ∨ v = some e := by
  by_cases client : u = t
  · subst client
    by_cases index : i = k
    · subst index
      simp only [Mem.setRedo, Function.update_self] at here
      exact .inr here
    · simp only [Mem.setRedo, Function.update_self, Function.update_of_ne index] at here
      exact .inl here
  · simp only [Mem.setRedo, Function.update_of_ne client] at here
    exact .inl here

variable [DecidableEq Loc]

/-- An entry after a step of a client was there before, or is the one its activation writes. -/
theorem redo_of_step {b b' : CxlShm.State Loc} {a : CxlShm.Action Loc} (hs : b.step a = some b')
    {u i : ℕ} {e : RedoLog Loc} (here : b'.mem.redo u i = some e) :
    b.mem.redo u i = some e ∨ ∃ c : Call Loc, e = c.redoLog := by
  cases a with
  | threadInit t =>
    obtain ⟨-, -, -, rfl⟩ := threadInit_eq_some hs
    exact .inl here
  | link t r o | unlink t r o | malloc t r o | mallocGeneric t =>
    obtain ⟨-, rfl⟩ := enter_eq_some hs
    exact .inl here
  | reuse o w =>
    obtain ⟨-, rfl⟩ := reuse_eq_some hs
    exact .inl here
  | run t weak =>
    obtain ⟨-, rfl⟩ | ⟨c, -, rfl⟩ | ⟨a, -, rfl⟩ | ⟨k, -, -, rfl⟩ | ⟨k, -, -, rfl⟩ := run_cases hs
    · exact .inl here
    · by_cases pc : c.pc = .storeRedo
      · rw [runCall_storeRedo pc] at here
        rcases redo_of_setRedo here with old | new
        · exact .inl old
        · exact .inr ⟨c, (Option.some.inj new).symm⟩
      · rw [Recovery.redo_of_runCall pc] at here
        exact .inl here
    · rw [Recovery.redo_of_runAlloc] at here
      exact .inl here
    · rcases redo_of_setRedo here with old | new
      · exact .inl old
      · cases new
    · exact .inl here

omit [DecidableEq Loc] in
/-- What `note` adds is not in the memory. -/
theorem note_base (r : Recovery.State Loc) (a : CxlShm.Action Loc) (b : CxlShm.State Loc) :
    (r.note a b).base = b := by
  cases a <;> rfl

omit [DecidableEq Loc] in
theorem note_monitor (r : Recovery.State Loc) (a : CxlShm.Action Loc) (b : CxlShm.State Loc) :
    (r.note a b).monitor = r.monitor := by
  cases a <;> rfl

theorem Entries.monitor {r r' : Recovery.State Loc} (h : Entries P r) {weak : Bool}
    (hs : r.monitorStep weak = some r') : Entries P r' := by
  unfold Recovery.State.monitorStep at hs
  cases hm : r.monitor with
  | idle | collect t => simp [hm] at hs
  | select t =>
    simp only [hm, Option.some.injEq] at hs
    subst hs
    refine ⟨h.log, ?_⟩
    intro e picked
    cases found : r.base.mem.redo t (r.selected t) with
    | none => simp [Recovery.State.setMonitor, found, entry] at picked
    | some e' =>
      simp only [Recovery.State.setMonitor, found, entry, Option.some.injEq] at picked
      exact picked ▸ h.log t _ e' found
  | loadCid t i e =>
    simp only [hm, Option.some.injEq] at hs
    subst hs
    exact ⟨h.log, fun e' picked => h.picked e' (by rw [hm]; exact picked)⟩
  | loadEra t i e cid =>
    simp only [hm, Option.some.injEq] at hs
    subst hs
    refine ⟨h.log, fun e' picked => h.picked e' ?_⟩
    rw [hm]
    simp only [Recovery.State.setMonitor] at picked
    split at picked <;> exact picked
  | scan t i e j maxEra =>
    simp only [hm] at hs
    split at hs
    · obtain rfl := Option.some.inj hs
      exact ⟨h.log, fun e' picked => h.picked e' (by rw [hm]; exact picked)⟩
    · obtain rfl := Option.some.inj hs
      refine ⟨h.log, fun e' picked => h.picked e' ?_⟩
      rw [hm]
      simp only [Recovery.State.setMonitor] at picked
      split at picked
      · exact picked
      · cases picked
  | store t i e =>
    simp only [hm, Option.some.injEq] at hs
    subst hs
    exact ⟨h.log, fun _ picked => by cases picked⟩
  | unlink t c =>
    simp only [hm, Option.some.injEq] at hs
    subst hs
    refine ⟨?_, fun _ picked => ?_⟩
    · intro u i e here
      rw [Recovery.Call.recoveryExec_redo] at here
      exact h.log u i e here
    · cases rest : (c.recoveryExec t r.base.mem weak).2 <;> rw [rest] at picked <;> cases picked

theorem Entries.step {r r' : Recovery.State Loc} (h : Entries P r) (calls : ∀ c : Call Loc, P c.redoLog)
    {a : Recovery.Action Loc} (hs : r.step a = some r') : Entries P r' := by
  cases a with
  | client a =>
    simp only [Recovery.State.step] at hs
    split at hs
    · obtain ⟨b, hb, rfl⟩ := Option.map_eq_some_iff.1 hs
      refine ⟨?_, ?_⟩
      · intro t i e here
        rw [note_base] at here
        rcases redo_of_step hb here with old | ⟨c, rfl⟩
        · exact h.log t i e old
        · exact calls c
      · rw [note_monitor]
        exact h.picked
    · cases hs
  | crash t =>
    simp only [Recovery.State.step] at hs
    split at hs
    · obtain rfl := Option.some.inj hs
      exact ⟨h.log, h.picked⟩
    · cases hs
  | check t =>
    simp only [Recovery.State.step] at hs
    split at hs
    · obtain rfl := Option.some.inj hs
      exact ⟨h.log, fun _ picked => by cases picked⟩
    · cases hs
  | monitor weak => exact h.monitor hs
  | dropRef r =>
    simp only [Recovery.State.step] at hs
    split at hs
    · split at hs
      · obtain rfl := Option.some.inj hs
        exact ⟨h.log, fun _ picked => by cases picked⟩
      · cases hs
    · cases hs
  | release =>
    simp only [Recovery.State.step] at hs
    split at hs
    · obtain rfl := Option.some.inj hs
      exact ⟨h.log, fun _ picked => by cases picked⟩
    · cases hs

end Entries

/-! ## No mark -/

/-- Nobody has stored, or has in hand, the state `POTENTIAL_LEAKING`; the counts in the log are
16-bit values. -/
structure Inv (s : State Loc) : Prop where
  entries : Entries (fun e => e.savedRefCnt < 2 ^ 16) s.run
  mark : s.mark = .idle ∨ ∃ e : RedoLog Loc, s.mark = .test e ∧ e.savedRefCnt < 2 ^ 16
  info : ∀ g, (s.info g).state ≠ .potentialLeaking
  push : ∀ t b info, s.push t = .storeNext b info ∨ s.push t = .cas b info →
    info.state ≠ .potentialLeaking
  recoveryPush : ∀ b info, s.recoveryPush = .storeNext b info ∨ s.recoveryPush = .cas b info →
    info.state ≠ .potentialLeaking

/-- The decoded count of a 16-bit value is 0: the field lies above it. -/
theorem getRefCntFromInfo_count {n : ℕ} (small : n < 2 ^ 16) : getRefCntFromInfo n = 0 := by
  rw [getRefCntFromInfo_eq]
  omega

theorem inv_init : Inv (State.init : State Loc) where
  entries := ⟨fun _ _ _ here => (by cases here), fun _ here => (by cases here)⟩
  mark := .inl rfl
  info _ absurd := by cases absurd
  push _ _ _ here := by rcases here with here | here <;> cases here
  recoveryPush _ _ here := by rcases here with here | here <;> cases here

section Step

variable {s s' : State Loc} {t g : ℕ}

theorem Inv.setInfo (h : Inv s) {info : StateFreeInfo} (normal : info.state ≠ .potentialLeaking) :
    ∀ g', (Function.update s.info g info g').state ≠ .potentialLeaking := by
  intro g'
  by_cases same : g' = g
  · rw [same, Function.update_self]
    exact normal
  · rw [Function.update_of_ne same]
    exact h.info g'

/-- A client goes on to a position without a copy of the word, or with a harmless one. -/
theorem Inv.setPush (h : Inv s) {p : Push}
    (harmless : ∀ b info, p = .storeNext b info ∨ p = .cas b info → info.state ≠ .potentialLeaking) :
    ∀ u b info, Function.update s.push t p u = .storeNext b info ∨
      Function.update s.push t p u = .cas b info → info.state ≠ .potentialLeaking := by
  intro u b info
  by_cases same : u = t
  · rw [same, Function.update_self]
    exact harmless b info
  · rw [Function.update_of_ne same]
    exact h.push u b info

theorem Inv.pushStep (h : Inv s) {weak : Bool} (run : s.pushStep t weak = some s') : Inv s' := by
  unfold State.pushStep at run
  cases here : s.push t with
  | idle | memset b => simp [here] at run
  | load b =>
    simp only [here, Option.some.injEq] at run
    subst run
    exact ⟨h.entries, h.mark, h.info, h.setPush (by simp), h.recoveryPush⟩
  | reload b =>
    simp only [here, Option.some.injEq] at run
    subst run
    refine ⟨h.entries, h.mark, h.info, h.setPush ?_, h.recoveryPush⟩
    intro b' info
    split
    · simp
    · rintro (same | same) <;> cases same
      exact h.info _
  | storeNext b info =>
    simp only [here, Option.some.injEq] at run
    subst run
    refine ⟨h.entries, h.mark, h.info, h.setPush ?_, h.recoveryPush⟩
    rintro b' info' (same | same) <;> cases same
    exact h.push t b info (.inl here)
  | cas b info =>
    simp only [here] at run
    split at run
    · obtain rfl := Option.some.inj run
      exact ⟨h.entries, h.mark, h.setInfo (h.push t b info (.inr here)), h.setPush (by simp),
        h.recoveryPush⟩
    · obtain rfl := Option.some.inj run
      exact ⟨h.entries, h.mark, h.info, h.setPush (by simp), h.recoveryPush⟩

theorem Inv.recoveryPushStep (h : Inv s) {weak : Bool}
    (run : s.recoveryPushStep weak = some s') : Inv s' := by
  unfold State.recoveryPushStep at run
  cases here : s.recoveryPush with
  | idle | memset b => simp [here] at run
  | load b =>
    simp only [here, Option.some.injEq] at run
    subst run
    exact ⟨h.entries, h.mark, h.info, h.push, by simp⟩
  | reload b =>
    simp only [here, Option.some.injEq] at run
    subst run
    refine ⟨h.entries, h.mark, h.info, h.push, ?_⟩
    rintro b' info (same | same) <;> cases same
    exact h.info _
  | storeNext b info =>
    simp only [here, Option.some.injEq] at run
    subst run
    refine ⟨h.entries, h.mark, h.info, h.push, ?_⟩
    rintro b' info' (same | same) <;> cases same
    exact h.recoveryPush b info (.inl here)
  | cas b info =>
    simp only [here] at run
    split at run
    · obtain rfl := Option.some.inj run
      exact ⟨h.entries, h.mark, h.setInfo (h.recoveryPush b info (.inr here)), h.push, by simp⟩
    · obtain rfl := Option.some.inj run
      exact ⟨h.entries, h.mark, h.info, h.push, by simp⟩

/-- The test at the end of `redo_ref_cnt` fails. -/
theorem Inv.markStep (h : Inv s) {weak : Bool} (run : s.markStep weak = some s') : Inv s' := by
  unfold State.markStep at run
  rcases h.mark with here | ⟨e, here, small⟩
  · simp [here] at run
  · simp only [here, Option.some.injEq] at run
    subst run
    refine ⟨h.entries, .inl (if_neg ?_), h.info, h.push, h.recoveryPush⟩
    rw [getRefCntFromInfo_count small]
    rintro ⟨-, one⟩
    cases one

variable [DecidableEq Loc]

theorem Inv.run (h : Inv s) {a : Recovery.Action Loc} {r : Recovery.State Loc}
    (hs : s.run.step a = some r) :
    Inv { s with
      run := r
      push := s.pushAfter a
      recoveryPush := s.recoveryPushAfter a
      mark := s.markAfter a r } := by
  have counts : ∀ c : Call Loc, c.redoLog.savedRefCnt < 2 ^ 16 := fun c =>
    getRefCntFromInfo_lt c.refInfo
  refine ⟨h.entries.step counts hs, ?_, h.info, ?_, ?_⟩
  · simp only [State.markAfter]
    split
    · next e _ picked _ => exact .inr ⟨e, rfl, h.entries.picked e picked⟩
    · exact h.mark
  · unfold State.pushAfter
    cases a with
    | client a =>
      cases a with
      | run t weak =>
        cases here : s.run.base.ctl t with
        | call c =>
          simp only [here]
          split
          · exact h.setPush (by simp)
          · exact h.push
        | absent | starting | idle | alloc a | clearing i => simpa only [here] using h.push
      | threadInit t | link t r o | unlink t r o | malloc t r o | mallocGeneric t | reuse o w =>
        exact h.push
    | release =>
      cases slot : s.run.monitor.slot with
      | none => exact h.push
      | some t => exact h.setPush (by simp)
    | crash t | check t | monitor weak | dropRef r => exact h.push
  · unfold State.recoveryPushAfter
    cases a with
    | monitor weak =>
      cases here : s.run.monitor with
      | unlink t c =>
        dsimp only
        split
        · simp
        · exact h.recoveryPush
      | idle | select t | loadCid t i e | loadEra t i e cid | scan t i e j maxEra | store t i e
      | collect t => exact h.recoveryPush
    | client a | release | crash t | check t | dropRef r => exact h.recoveryPush

theorem Inv.step (h : Inv s) {a : Action Loc} (hs : s.step a = some s') : Inv s' := by
  cases a with
  | run a =>
    simp only [State.step] at hs
    split at hs
    · obtain ⟨r, hr, rfl⟩ := Option.map_eq_some_iff.1 hs
      exact h.run hr
    · cases hs
  | push t weak =>
    simp only [State.step] at hs
    split at hs
    · exact h.pushStep hs
    · cases hs
  | recoveryPush weak => exact h.recoveryPushStep hs
  | mark weak => exact h.markStep hs
  | segmentAlloc t g =>
    simp only [State.step] at hs
    split at hs
    · obtain rfl := Option.some.inj hs
      exact ⟨h.entries, h.mark, h.setInfo (by decide), h.push, h.recoveryPush⟩
    · cases hs
  | segmentFree t g =>
    simp only [State.step] at hs
    split at hs
    · obtain rfl := Option.some.inj hs
      exact ⟨h.entries, h.mark, h.info, h.push, h.recoveryPush⟩
    · cases hs
  | collect t g =>
    simp only [State.step] at hs
    split at hs
    · obtain rfl := Option.some.inj hs
      exact ⟨h.entries, h.mark, h.setInfo (h.info g), h.push, h.recoveryPush⟩
    · cases hs
  | abandon g =>
    simp only [State.step] at hs
    split at hs
    · obtain rfl := Option.some.inj hs
      refine ⟨h.entries, h.mark, h.setInfo ?_, h.push, h.recoveryPush⟩
      simp
    · cases hs
  | recoveryFree g =>
    simp only [State.step] at hs
    split at hs
    · split at hs
      · obtain rfl := Option.some.inj hs
        exact ⟨h.entries, h.mark, h.info, h.push, h.recoveryPush⟩
      · cases hs
    · cases hs
  | sweep g =>
    simp only [State.step] at hs
    split at hs
    · obtain rfl := Option.some.inj hs
      exact ⟨h.entries, h.mark, h.setInfo (by decide), h.push, h.recoveryPush⟩
    · cases hs

end Step

/-! ## Clients that stop inside a free -/

/-- Client `t` has stopped after its unlink took the last reference of `o`, which lies in another
client's segment, and before it has pushed the block. -/
def Dying (s : State Loc) (t : ℕ) (o : Offset) : Prop :=
  s.run.dead t = true ∧ s.segmentThreadId (segmentIndex o) ≠ t ∧
    ((∃ c, s.run.base.ctl t = .call c ∧ c.last ∧ c.refed = o ∧
        (c.pc = .storeRef ∨ c.pc = .bumpEra ∨ c.pc = .free)) ∨
      (s.push t).holds o)

/-- `redo_ref_cnt` on the slot has returned. -/
def Redone (s : State Loc) (t : ℕ) : Prop := s.run.monitor = .collect t ∧ s.mark = .idle

/-- Wherever a client stops inside a free of another client's block, and whatever else happens until
its slot has been redone, the segment is not marked. -/
theorem never_marked [DecidableEq Loc] {s : State Loc}
    (reached : Reachable State.step (fun _ _ _ => True) State.init s) :
    ∀ t o, Dying s t o → ∀ s', Reachable State.step (fun _ _ _ => True) s s' → Redone s' t →
      (s'.info (segmentIndex o)).state ≠ .potentialLeaking := by
  intro t o _ s' after _
  have inv : Inv s' := (reached.trans after).invariant inv_init fun _ _ _ h hs _ => h.step hs
  exact inv.info _

/-- `n` accesses of client `t`. -/
def runs (t n : ℕ) : List (Action (Fin 3)) := List.replicate n (.run (.client (.run t false)))

/-- The first block of page 1 of the first segment. -/
def firstBlock : Offset := segmentsAreaStart + pageSize

/-- Client 1 allocates an object and client 2 links it; client 1 drops it, and client 2 stops after
its compare-exchange has taken the last reference. -/
def dyingRun : List (Action (Fin 3)) :=
  [.run (.client (.threadInit 1))] ++ runs 1 1 ++ [.run (.client (.threadInit 2))] ++ runs 2 1 ++
    [.segmentAlloc 1 0, .run (.client (.malloc 1 1 firstBlock))] ++ runs 1 4 ++
    [.run (.client (.link 2 2 firstBlock))] ++ runs 2 8 ++
    [.run (.client (.unlink 1 1 firstBlock))] ++ runs 1 8 ++
    [.run (.client (.unlink 2 2 firstBlock))] ++ runs 2 6 ++ [.run (.crash 2)]

/-- The monitor redoes the slot of client 2. -/
def redoRun : List (Action (Fin 3)) :=
  [.run (.check 2)] ++ List.replicate 4 (.run (.monitor false)) ++ [.mark false]

/-- Client 2 is inside its unlink of the block, right after the compare-exchange. -/
def stopped (s : State (Fin 3)) : Bool :=
  match s.run.base.ctl 2 with
  | .call c =>
    s.run.dead 2 ∧ s.segmentThreadId (segmentIndex firstBlock) ≠ 2 ∧ c.last ∧
      c.refed = firstBlock ∧ c.pc = .storeRef
  | .absent | .starting | .idle | .alloc _ | .clearing _ => false

theorem dying_of_stopped {s : State (Fin 3)} (h : stopped s = true) : Dying s 2 firstBlock := by
  unfold stopped at h
  split at h
  · next c here =>
    obtain ⟨dead, other, last, refed, pc⟩ := of_decide_eq_true h
    exact ⟨dead, other, .inl ⟨c, here, last, refed, .inl pc⟩⟩
  all_goals cases h

theorem exists_dying : ∃ s s' : State (Fin 3),
    Reachable State.step (fun _ _ _ => True) State.init s ∧ Dying s 2 firstBlock ∧
      Reachable State.step (fun _ _ _ => True) s s' ∧ Redone s' 2 := by
  have sound : ∀ (s : State (Fin 3)) a s', True → s.step a = some s' → true = true →
      True ∧ True := fun _ _ _ _ _ _ => ⟨trivial, trivial⟩
  have run : (checkedRun State.step (fun _ _ _ => true) State.init dyingRun).any (fun s =>
      stopped s && (checkedRun State.step (fun _ _ _ => true) s redoRun).any fun s' =>
        s'.run.monitor = .collect 2 ∧ s'.mark = .idle) = true := by
    decide +kernel
  obtain ⟨s, reached, last⟩ := exists_reachable_of_checkedRun sound trivial run
  rw [Bool.and_eq_true] at last
  obtain ⟨s', after, redone⟩ := exists_reachable_of_checkedRun sound trivial last.2
  have redone : s'.run.monitor = .collect 2 ∧ s'.mark = .idle := of_decide_eq_true redone
  exact ⟨s, s', reached, dying_of_stopped last.1, after, redone⟩

/-- Client 2 stops inside its free, and its slot is redone. -/
theorem never_marked_dying : ∃ s s' : State (Fin 3), Dying s 2 firstBlock ∧ Redone s' 2 ∧
    (s'.info (segmentIndex firstBlock)).state ≠ .potentialLeaking := by
  obtain ⟨s, s', reached, dying, after, redone⟩ := exists_dying
  exact ⟨s, s', dying, redone, never_marked reached 2 firstBlock dying s' after redone⟩

/-- So a client that dies inside a free of another client's block is not always flagged. -/
theorem dying_free_unmarked : ¬ ∀ s : State (Fin 3),
    Reachable State.step (fun _ _ _ => True) State.init s →
      ∀ t o, Dying s t o → ∀ s', Reachable State.step (fun _ _ _ => True) s s' → Redone s' t →
        (s'.info (segmentIndex o)).state = .potentialLeaking := by
  intro claim
  obtain ⟨s, s', reached, dying, after, redone⟩ := exists_dying
  have inv : Inv s' := (reached.trans after).invariant inv_init fun _ _ _ h hs _ => h.step hs
  exact inv.info _ (claim s reached 2 firstBlock dying s' after redone)

end CxlShm.Leak
