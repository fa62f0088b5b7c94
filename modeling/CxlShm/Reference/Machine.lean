import CxlShm.Layout
import CxlShm.RefInfo
import Mathlib.Logic.Function.Basic
import Mathlib.Data.Int.Notation

/-!
# The reference-count protocol, one memory access at a time

Clients link and unlink references to objects in the shared memory.  Both functions announce
themselves in the client's redo log, change the packed word `ref_info` of the object with a
compare-exchange, and only then store the reference; the client's era counter advances at the end.
This file is the step function of any number of clients that run `thread_init`, `link_reference`,
`unlink_reference` and the parts of `cxl_malloc` that touch the same memory, where one step is one
access to the shared memory.

A location is a word of the shared memory that may hold a reference: the `pptr` of a `RootRef`, a
slot of a message queue, an embedded reference.  The type `Loc` of locations is a parameter.
-/

namespace CxlShm

/-- `redo_func_id`. -/
inductive RedoFuncId
  | linkRef
  | unlinkRef
  deriving DecidableEq, Repr

/-- `redo_log`. -/
structure RedoLog (Loc : Type) where
  funcId : RedoFuncId
  savedRefCnt : ℕ
  curEra : ℕ
  ref : Loc
  refed : Offset
  deriving DecidableEq, Repr

/-- Index of `era(x, y)` in the era array; thread ids count from 1. -/
def eraIndex (x y : ℕ) : ℤ := ((x : ℤ) - 1) * maxThread + ((y : ℤ) - 1)

/-- The shared memory of the protocol.  `redo t i` is the entry `i` of the redo log of client `t`,
`none` when it is zeroed. -/
structure Mem (Loc : Type) where
  refInfo : Offset → ℕ
  eraArray : ℤ → ℕ
  loc : Loc → Offset
  redo : ℕ → ℕ → Option (RedoLog Loc)

variable {Loc : Type}

namespace Mem

/-- `*era(x, y)`. -/
def era (m : Mem Loc) (x y : ℕ) : ℕ := m.eraArray (eraIndex x y)

/-- `*era(x, y) = v`. -/
def setEra (m : Mem Loc) (x y v : ℕ) : Mem Loc :=
  { m with eraArray := Function.update m.eraArray (eraIndex x y) v }

/-- `*era(t, t) += 1`, in 32 bits. -/
def bumpEra (m : Mem Loc) (t : ℕ) : Mem Loc := m.setEra t t ((m.era t t + 1) % 2 ^ 32)

def setRefInfo (m : Mem Loc) (o : Offset) (w : ℕ) : Mem Loc :=
  { m with refInfo := Function.update m.refInfo o w }

def setLoc [DecidableEq Loc] (m : Mem Loc) (r : Loc) (o : Offset) : Mem Loc :=
  { m with loc := Function.update m.loc r o }

/-- Writes entry `i` of the redo log of client `t`. -/
def setRedo (m : Mem Loc) (t i : ℕ) (e : Option (RedoLog Loc)) : Mem Loc :=
  { m with redo := Function.update m.redo t (Function.update (m.redo t) i e) }

end Mem

/-- The next access of `link_reference` or `unlink_reference`, by the statement it belongs to. -/
inductive Pc
  /-- `ref_info = refed->ref_info` -/
  | loadInfo
  /-- `cur_era = *era(thread_id, thread_id)` -/
  | loadEra
  /-- `if(saw_era > *ele)` -/
  | testEle
  /-- `*ele = saw_era` -/
  | storeEle
  /-- `*((redo_log*) redo) = redo_log{..}` -/
  | storeRedo
  /-- `refed->ref_info.compare_exchange_weak(ref_info, new_ref_info)` -/
  | cas
  /-- `_ref = _refed` or `_ref = 0` -/
  | storeRef
  /-- `*era(thread_id, thread_id) += 1` -/
  | bumpEra
  /-- `cxl_free(false, (cxl_block*) refed)` -/
  | free
  deriving DecidableEq, Repr

/-- An activation of `link_reference` or `unlink_reference` with its local variables. -/
structure Call (Loc : Type) where
  func : RedoFuncId
  ref : Loc
  refed : Offset
  pc : Pc
  refInfo : ℕ
  curEra : ℕ
  deriving DecidableEq, Repr

namespace Call

/-- `ref_info_cnt`. -/
def refInfoCnt (c : Call Loc) : ℕ := getRefCntFromInfo c.refInfo

def sawCid (c : Call Loc) : ℕ := getLcidFromInfo c.refInfo

def sawEra (c : Call Loc) : ℕ := getLenumFromInfo c.refInfo

/-- The entry the activation writes to the redo log. -/
def redoLog (c : Call Loc) : RedoLog Loc where
  funcId := c.func
  savedRefCnt := c.refInfoCnt
  curEra := c.curEra
  ref := c.ref
  refed := c.refed

/-- `new_ref_info`.  `ref_info_cnt-1` is computed as an `int` and widened to 64 bits. -/
def newRefInfo (t : ℕ) (c : Call Loc) : ℕ :=
  match c.func with
  | .linkRef => packRefInfo t (c.refInfoCnt + 1) c.curEra
  | .unlinkRef => packRefInfo t ((c.refInfoCnt + (2 ^ 64 - 1)) % 2 ^ 64) c.curEra

/-- What the final store puts into the location. -/
def newRef (c : Call Loc) : Offset :=
  match c.func with
  | .linkRef => c.refed
  | .unlinkRef => 0

/-- `link_reference` reads its era before the test of `*ele`, `unlink_reference` after it. -/
def afterInfo (c : Call Loc) : Pc :=
  match c.func with
  | .linkRef => .loadEra
  | .unlinkRef => .testEle

def afterEra (c : Call Loc) : Pc :=
  match c.func with
  | .linkRef => .testEle
  | .unlinkRef => .storeRedo

def afterEle (c : Call Loc) : Pc :=
  match c.func with
  | .linkRef => .storeRedo
  | .unlinkRef => .loadEra

/-- `get_ref_cnt_from_info(ref_info)-1 > 0` fails: the unlink took the last reference. -/
def last (c : Call Loc) : Bool := c.func = .unlinkRef ∧ c.refInfoCnt = 1

/-- One access of an activation of client `t`, `none` when the function returns.  `weak` is the
choice of a compare-exchange that fails although the word is as expected.  The call of `cxl_free`
is a step of the machine below. -/
def exec [DecidableEq Loc] (t : ℕ) (m : Mem Loc) (c : Call Loc) (weak : Bool) : Mem Loc × Option (Call Loc) :=
  match c.pc with
  | .loadInfo => (m, some { c with refInfo := m.refInfo c.refed, pc := c.afterInfo })
  | .loadEra => (m, some { c with curEra := m.era t t, pc := c.afterEra })
  | .testEle =>
    if m.era t c.sawCid < c.sawEra then (m, some { c with pc := .storeEle })
    else (m, some { c with pc := c.afterEle })
  | .storeEle => (m.setEra t c.sawCid c.sawEra, some { c with pc := c.afterEle })
  | .storeRedo =>
    (m.setRedo t (c.curEra % redoCachelineCnt) (some c.redoLog), some { c with pc := .cas })
  | .cas =>
    if weak = false ∧ m.refInfo c.refed = c.refInfo then
      (m.setRefInfo c.refed (c.newRefInfo t), some { c with pc := .storeRef })
    else (m, some { c with pc := .loadInfo })
  | .storeRef => (m.setLoc c.ref c.newRef, some { c with pc := .bumpEra })
  | .bumpEra => (m.bumpEra t, if c.last then some { c with pc := .free } else none)
  | .free => (m.setRefInfo c.refed 0, none)

end Call

/-- The accesses of `cxl_ref_alloc` from `link_block_to_tbr` on. -/
inductive AllocPc
  /-- `tbr->pptr = get_offset_for_data(start, (void*) b)` -/
  | storePptr
  /-- `info = pack_ref_info(thread_id, 1, *era(thread_id, thread_id))` -/
  | loadEra
  /-- `*era(thread_id, thread_id) += 1` -/
  | bumpEra
  /-- `cxl_obj->ref_info = info` -/
  | storeInfo
  deriving DecidableEq, Repr

/-- The part of `cxl_malloc` after the allocator has handed out a `RootRef` (whose `pptr` is the
location `ref`) and a block.  `curEra` is the era that has been read for `info`. -/
structure Alloc (Loc : Type) where
  ref : Loc
  block : Offset
  pc : AllocPc
  info : ℕ
  curEra : ℕ
  deriving DecidableEq, Repr

/-- What a client is doing.  `clearing i` is the `memset` of the redo log at the start of
`cxl_malloc_generic`, with the entries below `i` zeroed. -/
inductive Control (Loc : Type)
  | absent
  | starting
  | idle
  | call (c : Call Loc)
  | alloc (a : Alloc Loc)
  | clearing (i : ℕ)
  deriving DecidableEq, Repr

/-- The client has a thread-local state. -/
def Control.registered : Control Loc → Bool
  | .absent => false
  | .starting | .idle | .call _ | .alloc _ | .clearing _ => true

/-- What the run has done so far, for the statements: objects created, with the era of the creation,
and freed, and the log entries of the operations whose compare-exchange succeeded. -/
inductive Event (Loc : Type)
  | created (t : ℕ) (o : Offset) (curEra : ℕ)
  | casOk (t : ℕ) (e : RedoLog Loc)
  | freed (t : ℕ) (o : Offset)
  deriving DecidableEq, Repr

/-- The machine: shared memory, the position of each client, the blocks that are objects (from the
store of their first `ref_info` to the call of `cxl_free`), and the history. -/
structure State (Loc : Type) where
  mem : Mem Loc
  ctl : ℕ → Control Loc
  allocated : Offset → Bool
  trace : List (Event Loc)

/-- What happens next.  `threadInit t` is the compare-exchange of `thread_init` that claims the first
free thread-local state; `run` is the next access of a client; `reuse` is a store of somebody into a
word of a block that is not an object at the time. -/
inductive Action (Loc : Type)
  | threadInit (t : ℕ)
  | link (t : ℕ) (r : Loc) (o : Offset)
  | unlink (t : ℕ) (r : Loc) (o : Offset)
  | malloc (t : ℕ) (r : Loc) (b : Offset)
  | mallocGeneric (t : ℕ)
  | run (t : ℕ) (weak : Bool)
  | reuse (o : Offset) (w : ℕ)

/-- The client that takes the step. -/
def Action.client : Action Loc → Option ℕ
  | .threadInit t | .link t _ _ | .unlink t _ _ | .malloc t _ _ | .mallocGeneric t | .run t _ =>
    some t
  | .reuse _ _ => none

namespace State

def setCtl (s : State Loc) (t : ℕ) (c : Control Loc) : State Loc :=
  { s with ctl := Function.update s.ctl t c }

/-- The state before any client has registered: zeroed memory. -/
def init : State Loc where
  mem := { refInfo := fun _ => 0, eraArray := fun _ => 0, loc := fun _ => 0, redo := fun _ _ => none }
  ctl := fun _ => .absent
  allocated := fun _ => false
  trace := []

/-- Entry of a function by an idle client. -/
def enter (s : State Loc) (t : ℕ) (c : Control Loc) : Option (State Loc) :=
  match s.ctl t with
  | .idle => some (s.setCtl t c)
  | _ => none

section

variable [DecidableEq Loc]

/-- The next access of an activation of `link_reference` or `unlink_reference`. -/
def runCall (s : State Loc) (t : ℕ) (c : Call Loc) (weak : Bool) : State Loc :=
  let (m, next) := c.exec t s.mem weak
  { mem := m
    ctl := Function.update s.ctl t (next.elim .idle .call)
    allocated := if c.pc = .free then Function.update s.allocated c.refed false else s.allocated
    trace := s.trace ++
      match c.pc with
      | .cas => if weak = false ∧ s.mem.refInfo c.refed = c.refInfo then [Event.casOk t c.redoLog] else []
      | .free => [Event.freed t c.refed]
      | _ => [] }

/-- The next access of `cxl_ref_alloc`. -/
def runAlloc (s : State Loc) (t : ℕ) (a : Alloc Loc) : State Loc :=
  match a.pc with
  | .storePptr =>
    { s with mem := s.mem.setLoc a.ref a.block }.setCtl t (.alloc { a with pc := .loadEra })
  | .loadEra =>
    s.setCtl t (.alloc { a with
      info := packRefInfo t 1 (s.mem.era t t)
      curEra := s.mem.era t t
      pc := .bumpEra })
  | .bumpEra => { s with mem := s.mem.bumpEra t }.setCtl t (.alloc { a with pc := .storeInfo })
  | .storeInfo =>
    { s with
      mem := s.mem.setRefInfo a.block a.info
      allocated := Function.update s.allocated a.block true
      trace := s.trace ++ [Event.created t a.block a.curEra] }.setCtl t .idle

/-- The next access of client `t`. -/
def run (s : State Loc) (t : ℕ) (weak : Bool) : Option (State Loc) :=
  match s.ctl t with
  | .absent | .idle => none
  | .starting => some ({ s with mem := s.mem.bumpEra t }.setCtl t .idle)
  | .call c => some (s.runCall t c weak)
  | .alloc a => some (s.runAlloc t a)
  | .clearing i =>
    if i < redoCachelineCnt then
      some ({ s with mem := s.mem.setRedo t i none }.setCtl t (.clearing (i + 1)))
    else some (s.setCtl t .idle)

/-- The step function. -/
def step (s : State Loc) : Action Loc → Option (State Loc)
  | .threadInit t =>
    match s.ctl t with
    | .absent =>
      if 0 < t ∧ ∀ u < t, 0 < u → (s.ctl u).registered then some (s.setCtl t .starting) else none
    | _ => none
  | .link t r o => s.enter t (.call ⟨.linkRef, r, o, .loadInfo, 0, 0⟩)
  | .unlink t r o => s.enter t (.call ⟨.unlinkRef, r, o, .loadInfo, 0, 0⟩)
  | .malloc t r b => s.enter t (.alloc ⟨r, b, .storePptr, 0, 0⟩)
  | .mallocGeneric t => s.enter t (.clearing 0)
  | .run t weak => s.run t weak
  | .reuse o w =>
    if s.allocated o then none else some { s with mem := s.mem.setRefInfo o w }

end

end State

/-! ## What a step can be -/

theorem enter_eq_some {s s' : State Loc} {t : ℕ} {k : Control Loc}
    (hs : s.enter t k = some s') : s.ctl t = .idle ∧ s' = s.setCtl t k := by
  unfold State.enter at hs
  split at hs
  · exact ⟨‹_›, (Option.some.inj hs).symm⟩
  · cases hs

section

variable [DecidableEq Loc] {s s' : State Loc} {t : ℕ}

theorem threadInit_eq_some (hs : s.step (.threadInit t) = some s') :
    s.ctl t = .absent ∧ 0 < t ∧ (∀ u < t, 0 < u → (s.ctl u).registered) ∧
      s' = s.setCtl t .starting := by
  simp only [State.step] at hs
  split at hs
  · split at hs
    · rename_i absent first
      exact ⟨absent, first.1, first.2, (Option.some.inj hs).symm⟩
    · cases hs
  · cases hs

theorem reuse_eq_some {o : Offset} {w : ℕ} (hs : s.step (.reuse o w) = some s') :
    s.allocated o = false ∧ s' = { s with mem := s.mem.setRefInfo o w } := by
  simp only [State.step] at hs
  split at hs
  · cases hs
  · exact ⟨by simpa using ‹¬ s.allocated o = true›, (Option.some.inj hs).symm⟩

/-- The next access of a client, by what the client is doing. -/
theorem run_cases {weak : Bool} (hs : s.run t weak = some s') :
    (s.ctl t = .starting ∧ s' = { s with mem := s.mem.bumpEra t }.setCtl t .idle) ∨
    (∃ c, s.ctl t = .call c ∧ s' = s.runCall t c weak) ∨
    (∃ a, s.ctl t = .alloc a ∧ s' = s.runAlloc t a) ∨
    (∃ i, s.ctl t = .clearing i ∧ i < redoCachelineCnt ∧
      s' = { s with mem := s.mem.setRedo t i none }.setCtl t (.clearing (i + 1))) ∨
    (∃ i, s.ctl t = .clearing i ∧ redoCachelineCnt ≤ i ∧ s' = s.setCtl t .idle) := by
  unfold State.run at hs
  cases hk : s.ctl t with
  | absent | idle => simp [hk] at hs
  | starting =>
    simp only [hk, Option.some.injEq] at hs
    exact .inl ⟨rfl, hs.symm⟩
  | call c =>
    simp only [hk, Option.some.injEq] at hs
    exact .inr (.inl ⟨c, rfl, hs.symm⟩)
  | alloc a =>
    simp only [hk, Option.some.injEq] at hs
    exact .inr (.inr (.inl ⟨a, rfl, hs.symm⟩))
  | clearing i =>
    simp only [hk] at hs
    split at hs
    · exact .inr (.inr (.inr (.inl ⟨i, rfl, ‹_›, (Option.some.inj hs).symm⟩)))
    · exact .inr (.inr (.inr (.inr ⟨i, rfl, not_lt.1 ‹_›, (Option.some.inj hs).symm⟩)))

/-- An access of a client moves that client only. -/
theorem run_ctl {weak : Bool} (hs : s.run t weak = some s') :
    ∃ k, s'.ctl = Function.update s.ctl t k := by
  obtain ⟨-, rfl⟩ | ⟨c, -, rfl⟩ | ⟨a, -, rfl⟩ | ⟨i, -, -, rfl⟩ | ⟨i, -, -, rfl⟩ := run_cases hs
  · exact ⟨_, rfl⟩
  · exact ⟨_, rfl⟩
  · unfold State.runAlloc
    cases a.pc <;> exact ⟨_, rfl⟩
  · exact ⟨_, rfl⟩
  · exact ⟨_, rfl⟩

/-- A step of one client leaves the others where they are. -/
theorem ctl_of_other {a : Action Loc} (hs : s.step a = some s') {u : ℕ}
    (other : ∀ t, a.client = some t → u ≠ t) :
    s'.ctl u = s.ctl u := by
  cases a with
  | threadInit t =>
    obtain ⟨-, -, -, rfl⟩ := threadInit_eq_some hs
    exact Function.update_of_ne (other t rfl) _ _
  | link t r o | unlink t r o | malloc t r b | mallocGeneric t =>
    obtain ⟨-, rfl⟩ := enter_eq_some hs
    exact Function.update_of_ne (other t rfl) _ _
  | run t weak =>
    obtain ⟨k, hk⟩ := run_ctl hs
    rw [hk]
    exact Function.update_of_ne (other t rfl) _ _
  | reuse o w =>
    obtain ⟨-, rfl⟩ := reuse_eq_some hs
    rfl

/-- The access of a client that is in an activation. -/
theorem step_run_call {c : Call Loc} {weak : Bool} (hc : s.ctl t = .call c) :
    s.step (.run t weak) = some (s.runCall t c weak) := by
  simp [State.step, State.run, hc]

/-! ## The accesses of an activation -/

variable {c : Call Loc} {weak : Bool}

theorem runCall_loadInfo (pc : c.pc = .loadInfo) : s.runCall t c weak =
    s.setCtl t (.call { c with refInfo := s.mem.refInfo c.refed, pc := c.afterInfo }) := by
  simp [State.runCall, Call.exec, pc, State.setCtl]

theorem runCall_loadEra (pc : c.pc = .loadEra) : s.runCall t c weak =
    s.setCtl t (.call { c with curEra := s.mem.era t t, pc := c.afterEra }) := by
  simp [State.runCall, Call.exec, pc, State.setCtl]

theorem runCall_testEle (pc : c.pc = .testEle) : s.runCall t c weak =
    s.setCtl t (.call { c with
      pc := if s.mem.era t c.sawCid < c.sawEra then .storeEle else c.afterEle }) := by
  by_cases saw : s.mem.era t c.sawCid < c.sawEra <;>
    simp [State.runCall, Call.exec, pc, State.setCtl, saw]

theorem runCall_storeEle (pc : c.pc = .storeEle) : s.runCall t c weak =
    { s with mem := s.mem.setEra t c.sawCid c.sawEra }.setCtl t
      (.call { c with pc := c.afterEle }) := by
  simp [State.runCall, Call.exec, pc, State.setCtl]

theorem runCall_storeRedo (pc : c.pc = .storeRedo) : s.runCall t c weak =
    { s with mem := s.mem.setRedo t (c.curEra % redoCachelineCnt) (some c.redoLog) }.setCtl t
      (.call { c with pc := .cas }) := by
  simp [State.runCall, Call.exec, pc, State.setCtl]

theorem runCall_cas (pc : c.pc = .cas) (word : s.mem.refInfo c.refed = c.refInfo) :
    s.runCall t c false =
      { s with
        mem := s.mem.setRefInfo c.refed (c.newRefInfo t)
        trace := s.trace ++ [Event.casOk t c.redoLog] }.setCtl t (.call { c with pc := .storeRef }) := by
  simp [State.runCall, Call.exec, pc, State.setCtl, word]

theorem runCall_cas_fails (pc : c.pc = .cas)
    (fails : ¬ (weak = false ∧ s.mem.refInfo c.refed = c.refInfo)) :
    s.runCall t c weak = s.setCtl t (.call { c with pc := .loadInfo }) := by
  simp [State.runCall, Call.exec, pc, State.setCtl, fails]

theorem runCall_storeRef (pc : c.pc = .storeRef) : s.runCall t c weak =
    { s with mem := s.mem.setLoc c.ref c.newRef }.setCtl t (.call { c with pc := .bumpEra }) := by
  simp [State.runCall, Call.exec, pc, State.setCtl]

theorem runCall_bumpEra (pc : c.pc = .bumpEra) : s.runCall t c weak =
    { s with mem := s.mem.bumpEra t }.setCtl t
      (if c.last then .call { c with pc := .free } else .idle) := by
  cases last : c.last <;> simp [State.runCall, Call.exec, pc, State.setCtl, last]

theorem runCall_free (pc : c.pc = .free) : s.runCall t c weak =
    { s with
      mem := s.mem.setRefInfo c.refed 0
      allocated := Function.update s.allocated c.refed false
      trace := s.trace ++ [Event.freed t c.refed] }.setCtl t .idle := by
  simp [State.runCall, Call.exec, pc, State.setCtl]

/-- Only the store of the reference changes a location. -/
theorem runCall_loc : (s.runCall t c weak).mem.loc =
    if c.pc = .storeRef then Function.update s.mem.loc c.ref c.newRef else s.mem.loc := by
  cases pc : c.pc with
  | loadInfo => rw [runCall_loadInfo pc]; rfl
  | loadEra => rw [runCall_loadEra pc]; rfl
  | testEle => rw [runCall_testEle pc]; rfl
  | storeEle => rw [runCall_storeEle pc]; rfl
  | storeRedo => rw [runCall_storeRedo pc]; rfl
  | cas =>
    by_cases wins : weak = false ∧ s.mem.refInfo c.refed = c.refInfo
    · obtain ⟨rfl, word⟩ := wins
      rw [runCall_cas pc word]; rfl
    · rw [runCall_cas_fails pc wins]; rfl
  | storeRef => rw [runCall_storeRef pc]; rfl
  | bumpEra => rw [runCall_bumpEra pc]; rfl
  | free => rw [runCall_free pc]; rfl

/-- An access ends the activation. -/
def Call.ends (c : Call Loc) : Prop := c.pc = .bumpEra ∧ c.last = false ∨ c.pc = .free

theorem runCall_ends (s : State Loc) (t : ℕ) (weak : Bool) (ends : c.ends) : (s.runCall t c weak).ctl t = .idle := by
  rcases ends with ⟨pc, last⟩ | pc
  · rw [runCall_bumpEra pc, last]
    exact Function.update_self _ _ _
  · rw [runCall_free pc]
    exact Function.update_self _ _ _

/-- An access that does not end the activation leads to its next one. -/
theorem runCall_next (s : State Loc) (t : ℕ) (weak : Bool) (goes : ¬ c.ends) :
    ∃ c', (s.runCall t c weak).ctl t = .call c' ∧
    c'.func = c.func ∧ c'.ref = c.ref ∧ c'.refed = c.refed ∧
    (c'.pc = .bumpEra ↔ c.pc = .storeRef) ∧ (c'.pc = .free ↔ c.pc = .bumpEra) := by
  cases pc : c.pc with
  | loadInfo =>
    refine ⟨{ c with refInfo := s.mem.refInfo c.refed, pc := c.afterInfo }, ?_, rfl, rfl, rfl, ?_, ?_⟩
    · rw [runCall_loadInfo pc]
      exact Function.update_self _ _ _
    all_goals cases func : c.func <;> simp [Call.afterInfo, func]
  | loadEra =>
    refine ⟨{ c with curEra := s.mem.era t t, pc := c.afterEra }, ?_, rfl, rfl, rfl, ?_, ?_⟩
    · rw [runCall_loadEra pc]
      exact Function.update_self _ _ _
    all_goals cases func : c.func <;> simp [Call.afterEra, func]
  | testEle =>
    refine ⟨{ c with pc := if s.mem.era t c.sawCid < c.sawEra then .storeEle else c.afterEle },
      ?_, rfl, rfl, rfl, ?_, ?_⟩
    · rw [runCall_testEle pc]
      exact Function.update_self _ _ _
    all_goals
      by_cases saw : s.mem.era t c.sawCid < c.sawEra <;> simp only [saw, if_true, if_false] <;>
        cases func : c.func <;> simp [Call.afterEle, func]
  | storeEle =>
    refine ⟨{ c with pc := c.afterEle }, ?_, rfl, rfl, rfl, ?_, ?_⟩
    · rw [runCall_storeEle pc]
      exact Function.update_self _ _ _
    all_goals cases func : c.func <;> simp [Call.afterEle, func]
  | storeRedo =>
    refine ⟨{ c with pc := .cas }, ?_, rfl, rfl, rfl, ?_, ?_⟩
    · rw [runCall_storeRedo pc]
      exact Function.update_self _ _ _
    all_goals simp
  | cas =>
    by_cases wins : weak = false ∧ s.mem.refInfo c.refed = c.refInfo
    · obtain ⟨rfl, word⟩ := wins
      refine ⟨{ c with pc := .storeRef }, ?_, rfl, rfl, rfl, ?_, ?_⟩
      · rw [runCall_cas pc word]
        exact Function.update_self _ _ _
      all_goals simp
    · refine ⟨{ c with pc := .loadInfo }, ?_, rfl, rfl, rfl, ?_, ?_⟩
      · rw [runCall_cas_fails pc wins]
        exact Function.update_self _ _ _
      all_goals simp
  | storeRef =>
    refine ⟨{ c with pc := .bumpEra }, ?_, rfl, rfl, rfl, ?_, ?_⟩
    · rw [runCall_storeRef pc]
      exact Function.update_self _ _ _
    all_goals simp
  | bumpEra =>
    have last : c.last = true := by
      by_contra more
      exact goes (.inl ⟨pc, Bool.not_eq_true _ ▸ more⟩)
    refine ⟨{ c with pc := .free }, ?_, rfl, rfl, rfl, ?_, ?_⟩
    · rw [runCall_bumpEra pc, last]
      exact Function.update_self _ _ _
    all_goals simp
  | free => exact absurd (.inr pc) goes

end

end CxlShm
