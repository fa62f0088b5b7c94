import CxlShm.Reference.Machine
import Mathlib.Data.Finset.Card
import Mathlib.Data.Set.Function

/-!
# Dropping a reference, one memory access at a time

`test_free` is what the destructor of a `CXLRef` calls.  It reads the count of the object first: if
there are other references it only unlinks its own, otherwise it calls itself on every embedded
reference of the object before it unlinks.  This file is the step function of any number of calls,
each by a client of its own, over the machine of `Reference.Machine`; an activation of `test_free`
that is inside another one is a `Frame` on the client's stack.
-/

namespace CxlShm

/-- The locations: `pptr` of a `RootRef`, and the embedded references of an object. -/
inductive ObjLoc
  | root (k : ℕ)
  | embedded (o : Offset) (i : ℕ)
  deriving DecidableEq, Repr

namespace TestFree

/-- The next access of `test_free`. -/
inductive Pc
  /-- `if(_ref == 0)` -/
  | testRef
  /-- `_ref` of `refed = get_data_at_addr(start, _ref)` -/
  | loadRef
  /-- `ref_info = refed->ref_info` -/
  | loadInfo
  /-- `i<refed->embedded_ref_cnt` -/
  | testIndex (i : ℕ)
  /-- inside `test_free(*embedded_ref_offset)` -/
  | embedded (i : ℕ)
  /-- `_ref` of `unlink_reference(_ref, _ref)`, which is passed by value -/
  | loadArg
  /-- inside `unlink_reference` -/
  | unlink
  deriving DecidableEq, Repr

/-- An activation of `test_free` with its local variables. -/
structure Frame where
  ref : ObjLoc
  refed : Offset
  refInfo : ℕ
  pc : Pc
  deriving DecidableEq, Repr

namespace Frame

/-- An activation that has just been entered. -/
def entry (r : ObjLoc) : Frame := ⟨r, 0, 0, .testRef⟩

/-- `get_ref_cnt_from_info(ref_info)-1 > 0`, which is unsigned and fails for the count 1 only. -/
def shared (f : Frame) : Bool := getRefCntFromInfo f.refInfo ≠ 1

/-- The activation goes on with the next embedded reference. -/
def resume (f : Frame) : Frame :=
  match f.pc with
  | .embedded i => { f with pc := .testIndex (i + 1) }
  | _ => f

end Frame

/-- A client's call of `test_free`: not yet made, under way (with the innermost activation first), or
returned. -/
inductive Progress
  | waiting (r : ObjLoc)
  | active (stack : List Frame)
  | returned
  deriving DecidableEq, Repr

/-- The innermost activation returns to the one that called it. -/
def Progress.pop : List Frame → Progress
  | [] => .returned
  | f :: fs => .active (f.resume :: fs)

/-- The memory and the activations of `unlink_reference`, `refed->embedded_ref_cnt` of each object,
and the call of each client. -/
structure State where
  base : CxlShm.State ObjLoc
  embeddedRefCnt : Offset → ℕ
  progress : ℕ → Progress

/-- A client calls `test_free`, or takes its next access. -/
inductive Action
  | call (t : ℕ)
  | run (t : ℕ) (weak : Bool)

namespace State

def setProgress (s : State) (t : ℕ) (p : Progress) : State :=
  { s with progress := Function.update s.progress t p }

/-- What `cxl_free` does to `embedded_ref_cnt`, if it is the next access of `unlink_reference`. -/
def clearedCnt (s : State) (t : ℕ) : Offset → ℕ :=
  match s.base.ctl t with
  | .call c => if c.pc = .free then Function.update s.embeddedRefCnt c.refed 0 else s.embeddedRefCnt
  | _ => s.embeddedRefCnt

/-- The next access of client `t`, whose innermost activation is `f`. -/
def runFrame (s : State) (t : ℕ) (f : Frame) (fs : List Frame) (weak : Bool) : Option State :=
  match f.pc with
  | .testRef =>
    some (s.setProgress t (if s.base.mem.loc f.ref = 0 then Progress.pop fs
      else .active ({ f with pc := .loadRef } :: fs)))
  | .loadRef =>
    some (s.setProgress t (.active ({ f with refed := s.base.mem.loc f.ref, pc := .loadInfo } :: fs)))
  | .loadInfo =>
    let g := { f with refInfo := s.base.mem.refInfo f.refed }
    some (s.setProgress t
      (.active ({ g with pc := if g.shared then .loadArg else .testIndex 0 } :: fs)))
  | .testIndex i =>
    some (s.setProgress t (if i < s.embeddedRefCnt f.refed
      then .active (.entry (.embedded f.refed i) :: { f with pc := .embedded i } :: fs)
      else .active ({ f with pc := .loadArg } :: fs)))
  | .embedded _ => none
  | .loadArg =>
    (s.base.step (.unlink t f.ref (s.base.mem.loc f.ref))).map fun b =>
      { s with base := b }.setProgress t (.active ({ f with pc := .unlink } :: fs))
  | .unlink =>
    (s.base.step (.run t weak)).map fun b =>
      { s with base := b, embeddedRefCnt := s.clearedCnt t }.setProgress t
        (if b.ctl t = Control.idle then Progress.pop fs else .active (f :: fs))

/-- The step function. -/
def step (s : State) : Action → Option State
  | .call t =>
    match s.progress t with
    | .waiting r => some (s.setProgress t (.active [.entry r]))
    | _ => none
  | .run t weak =>
    match s.progress t with
    | .active (f :: fs) => s.runFrame t f fs weak
    | _ => none

end State

/-- The clients `holders` are about to call `test_free` on the references to `o` that they hold in
their `RootRef`s, and there are no other references to `o`.  Nobody else takes steps. -/
structure Held (o : Offset) (holders : Finset ℕ) (root : ℕ → ℕ) (s : State) : Prop where
  object : o ≠ 0
  nonempty : holders.Nonempty
  inj : Set.InjOn root holders
  waiting : ∀ t ∈ holders, s.progress t = .waiting (.root (root t)) ∧ s.base.ctl t = .idle
  others : ∀ t ∉ holders, s.progress t = .returned
  holds : ∀ t ∈ holders, s.base.mem.loc (.root (root t)) = o
  only : ∀ r, s.base.mem.loc r = o → ∃ t ∈ holders, r = .root (root t)
  refCnt : getRefCntFromInfo (s.base.mem.refInfo o) = holders.card
  era : ∀ i, s.base.mem.eraArray i < 2 ^ 32
  trace : s.base.trace = []

/-- A `cxl_free(false, o)`. -/
def frees (o : Offset) : Event ObjLoc → Bool
  | .freed _ x => x = o
  | _ => false

/-- An `unlink_reference` of the location `r` that has decremented the count of `x`. -/
def unlinks (r : ObjLoc) (x : Offset) : Event ObjLoc → Bool
  | .casOk _ e => e.funcId = .unlinkRef ∧ e.ref = r ∧ e.refed = x
  | _ => false

/-- How often `o` has been freed. -/
def freedTimes (s : State) (o : Offset) : ℕ := s.base.trace.countP (frees o)

/-- How often the count of `x` has been decremented for the location `r`. -/
def unlinkedTimes (s : State) (r : ObjLoc) (x : Offset) : ℕ := s.base.trace.countP (unlinks r x)

/-- All calls have returned. -/
def AllReturned (holders : Finset ℕ) (s : State) : Prop := ∀ t ∈ holders, s.progress t = .returned

/-- `o` has been freed once, and each of its embedded references, as they were in `s₀`, has been
unlinked once. -/
def Released (s₀ s : State) (o : Offset) : Prop :=
  freedTimes s o = 1 ∧
    ∀ i < s₀.embeddedRefCnt o, ∀ x ≠ 0, unlinkedTimes s (.embedded o i) x =
      if s₀.base.mem.loc (.embedded o i) = x then 1 else 0

/-- The two decisions of `test_free` agree: a compare-exchange that takes the count of `o` from 1 to 0
is made by a call that had read the count 1 before. -/
def Agrees (o : Offset) (s : State) : Action → Prop
  | .call _ => True
  | .run t weak => ∀ f fs c, s.progress t = .active (f :: fs) → s.base.ctl t = .call c →
      c.refed = o → c.pc = .cas → weak = false → s.base.mem.refInfo o = c.refInfo →
      getRefCntFromInfo c.refInfo = 1 → f.shared = false

end TestFree

end CxlShm
