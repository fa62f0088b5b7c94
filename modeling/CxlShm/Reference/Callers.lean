import CxlShm.Lib.RefCounting
import CxlShm.Reference.Machine

/-!
# What callers promise

Callers are held to what `link_reference` and `unlink_reference` expect of them (`Permitted`): a
link goes into an empty location that nobody else is working on and is of an object that stays
alive meanwhile, an unlink is of a location that holds the object, and no object has more than
65535 references at a time.  The promises are about references, so this file also says what a state
of the machine is as a state of the reference counting of `Lib.RefCounting` (`abs`): it forgets the
eras, the redo log and the retries of the compare-exchange.
-/

namespace CxlShm

open Counting
open RefCounting (Phase)

variable {Loc : Type}

/-- The accesses up to the compare-exchange. -/
def Pc.announced : Pc → Bool
  | .loadInfo | .loadEra | .testEle | .storeEle | .storeRedo | .cas => true
  | .storeRef | .bumpEra | .free => false

/-- The phase of an activation in the counting of references. -/
def Call.phase (c : Call Loc) : Phase Loc Offset :=
  match c.func, c.pc with
  | .linkRef, .storeRef => .linked c.ref c.refed
  | .linkRef, .bumpEra | .linkRef, .free => .idle
  | .linkRef, _ => .linking c.ref c.refed
  | .unlinkRef, .storeRef => .unlinked c.ref c.refed c.last
  | .unlinkRef, .bumpEra => if c.last then .dropping c.refed else .idle
  | .unlinkRef, .free => .dropping c.refed
  | .unlinkRef, _ => .unlinking c.ref c.refed

/-- The phase of a client. -/
def Control.phase : Control Loc → Phase Loc Offset
  | .call c => c.phase
  | .alloc a => .creating a.ref a.block (a.pc ≠ .storePptr)
  | .absent | .starting | .idle | .clearing _ => .idle

/-- The state of the reference counting behind a state of the machine. -/
def abs (s : State Loc) : RefCounting.State ℕ Loc Offset where
  count o := if s.allocated o then getRefCntFromInfo (s.mem.refInfo o) else 0
  live o := s.allocated o = true
  loc r := if s.mem.loc r = 0 then none else some (s.mem.loc r)
  phase t := (s.ctl t).phase

/-- What an event says about the life of an object. -/
def Event.life : Event Loc → Option (RefCounting.Event ℕ Offset)
  | .created t o _ => some (.create t o)
  | .casOk t e => if e.funcId = .unlinkRef ∧ e.savedRefCnt = 1 then some (.last t e.refed) else none
  | .freed t o => some (.drop t o)

/-- The creations, last unlinks and frees of a run, in order. -/
def lives (trace : List (Event Loc)) : List (RefCounting.Event ℕ Offset) :=
  trace.filterMap Event.life

/-! ## What the callers promise -/

/-- A link of `o` is past its compare-exchange and before the store of `_ref`. -/
def LinkPending (o : Offset) (k : Control Loc) : Prop :=
  ∃ c, k = .call c ∧ c.func = .linkRef ∧ c.pc = .storeRef ∧ c.refed = o

/-- An unlink of `o` is past its compare-exchange and before the store `_ref = 0`. -/
def UnlinkPending (o : Offset) (k : Control Loc) : Prop :=
  ∃ c, k = .call c ∧ c.func = .unlinkRef ∧ c.pc = .storeRef ∧ c.refed = o

/-- The references to `o`: locations that hold it, with the pending links and without the pending
unlinks. -/
noncomputable def references (s : State Loc) (o : Offset) : ℕ :=
  count (· = o) s.mem.loc + count (LinkPending o) s.ctl - count (UnlinkPending o) s.ctl

/-- No client is working on the location. -/
def Unused (s : State Loc) (r : Loc) : Prop := ∀ t, ¬ (s.ctl t).phase.claims r

/-- The call is one that callers make. -/
def Disciplined (s : State Loc) : Action Loc → Prop
  | .link _ r o => o ≠ 0 ∧ s.mem.loc r = 0 ∧ Unused s r
  | .unlink _ r o => o ≠ 0 ∧ s.mem.loc r = o ∧ Unused s r
  | .malloc _ r b => b ≠ 0 ∧ s.mem.loc r = 0 ∧ Unused s r ∧ s.allocated b = false ∧
      ∀ u, ¬ (s.ctl u).phase.Creates b
  | .threadInit _ | .mallocGeneric _ | .run _ _ | .reuse _ _ => True

/-- Objects that are being linked have a reference. -/
def KeepsAlive (s : State Loc) : Prop :=
  ∀ t c, s.ctl t = .call c → c.func = .linkRef → c.pc.announced →
    s.allocated c.refed ∧ 0 < references s c.refed

/-- No object has more references than its count can say. -/
def Bounded (s : State Loc) : Prop := ∀ o, s.allocated o → references s o ≤ 65535

/-- The steps of the runs considered: disciplined calls, links of objects that are kept alive, and
at most 65535 references to an object at a time. -/
def Permitted (s : State Loc) (a : Action Loc) (s' : State Loc) : Prop :=
  Disciplined s a ∧ KeepsAlive s' ∧ Bounded s'

/-! ## What the eras can say -/

/-- The step registers no client without a row in the era array. -/
def WithinRows (a : Action Loc) : Prop := ∀ t, a = .threadInit t → t ≤ maxThread

/-- The next access of the client increments its era. -/
def Control.bumps : Control Loc → Bool
  | .starting => true
  | .call c => c.pc = .bumpEra
  | .alloc a => a.pc = .bumpEra
  | .absent | .idle | .clearing _ => false

/-- The step does not increment an era counter at its largest value. -/
def NoWrap (s : State Loc) : Action Loc → Prop
  | .run t _ => (s.ctl t).bumps → s.mem.era t t + 1 < 2 ^ 32
  | .threadInit _ | .link _ _ _ | .unlink _ _ _ | .malloc _ _ _ | .mallocGeneric _ | .reuse _ _ => True

/-- The steps of runs in which the eras mean something: permitted, by clients with a row, and
without wrapping. -/
def Orderly (s : State Loc) (a : Action Loc) (s' : State Loc) : Prop :=
  Permitted s a s' ∧ WithinRows a ∧ NoWrap s a

end CxlShm
