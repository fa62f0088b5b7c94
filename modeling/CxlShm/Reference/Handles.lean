import CxlShm.Layout
import CxlShm.Lib.Counting

/-!
# Handles

A `CXLRef` is a local handle of one client that designates a `RootRef`, the word of shared memory
that stands for the client's reference to an object.  The `RootRef` counts the handles that
designate it in 16 bits, and the destructor of the handle that takes the count to zero releases the
object.  This file is the special member functions of `CXLRef` as operations on the client's
handles, and the exact condition under which the count is the number of handles
(`counted_iff_careful`): a handle is never moved from, nothing is assigned over a handle that is not
null, and no `RootRef` has more than 65535 handles.
-/

namespace CxlShm.Handles

open Counting

/-- `CXLRef_s`: the offsets of the `RootRef` and of the data, both zero in the null handle. -/
structure CXLRef where
  tbr : Offset
  data : Offset
  whole : tbr = 0 ↔ data = 0
  deriving DecidableEq

/-- `CXLRef(this, 0, 0)`. -/
def CXLRef.null : CXLRef := ⟨0, 0, Iff.rfl⟩

/-- `CXLRef(this, tbr, pptr + sizeof(CXLObj))`. -/
def CXLRef.of (tbr : Offset) (object : Offset) (nonnull : tbr ≠ 0) : CXLRef :=
  ⟨tbr, object + sizeofCXLObj, by simp [nonnull, sizeofCXLObj]⟩

/-- `RootRef_s`. -/
structure RootRef where
  pptr : Offset
  inUse : Bool
  refCnt : BitVec 16
  deriving DecidableEq, Repr

/-- The `RootRef`s of a client by offset, and its live handles by name.  `released k` lists the
objects that `test_free` was called on through the `RootRef` at `k`. -/
structure State where
  root : Offset → RootRef
  handle : ℕ → Option CXLRef
  released : Offset → List Offset

/-- No handle has been made yet. -/
def State.init : State where
  root _ := ⟨0, false, 0⟩
  handle _ := none
  released _ := []

/-- What the program does with its handles.  `k` is the `RootRef` that `thread_base_ref_alloc` hands
out and `o` the object. -/
inductive Op
  | cxlMalloc (h : ℕ) (k o : Offset)
  | getRef (h : ℕ) (k o : Offset)
  /-- `none` when the queue is empty. -/
  | cxlUnwrap (h : ℕ) (message : Option (Offset × Offset))
  /-- `CXLRef_s(const CXLRef_s&)` -/
  | copy (h from_ : ℕ)
  /-- `CXLRef_s(const CXLRef_s&&)` -/
  | move (h from_ : ℕ)
  /-- `operator=(const CXLRef_s&)` -/
  | copyAssign (h from_ : ℕ)
  /-- `operator=(const CXLRef_s&&)` -/
  | moveAssign (h from_ : ℕ)
  /-- `~CXLRef_s()`.  `next` is the head of the free list that `cxl_free` puts the `RootRef` on. -/
  | destroy (h : ℕ) (next : Offset)
  deriving DecidableEq

namespace State

variable (s : State)

def setHandle (h : ℕ) (c : Option CXLRef) : State :=
  { s with handle := Function.update s.handle h c }

def setRoot (k : Offset) (r : RootRef) : State :=
  { s with root := Function.update s.root k r }

/-- `shm->test_free(ref->pptr)` on the `RootRef` at `k`. -/
def testFree (k : Offset) : State :=
  { s with released := Function.update s.released k (s.released k ++ [(s.root k).pptr]) }

@[simp] theorem setHandle_root (h : ℕ) (c : Option CXLRef) : (s.setHandle h c).root = s.root := rfl

@[simp] theorem setHandle_released (h : ℕ) (c : Option CXLRef) :
    (s.setHandle h c).released = s.released := rfl

@[simp] theorem setRoot_handle (k : Offset) (r : RootRef) : (s.setRoot k r).handle = s.handle := rfl

@[simp] theorem setRoot_released (k : Offset) (r : RootRef) :
    (s.setRoot k r).released = s.released := rfl

@[simp] theorem setRoot_root_self (k : Offset) (r : RootRef) : (s.setRoot k r).root k = r := by
  simp [setRoot]

theorem setRoot_root_of_ne {j k : Offset} (h : j ≠ k) (r : RootRef) :
    (s.setRoot k r).root j = s.root j := by
  simp [setRoot, h]

@[simp] theorem testFree_root (k : Offset) : (s.testFree k).root = s.root := rfl

@[simp] theorem testFree_handle (k : Offset) : (s.testFree k).handle = s.handle := rfl

/-- `ref->ref_cnt += 1` for the `RootRef` of a handle, unless the handle is null. -/
def retain (c : CXLRef) : State :=
  if c.tbr = 0 then s
  else s.setRoot c.tbr { s.root c.tbr with refCnt := (s.root c.tbr).refCnt + 1 }

/-- `thread_base_ref_alloc`, the store of `pptr`, `ref_cnt += 1`, and the handle that is returned. -/
def acquire (h : ℕ) (k o : Offset) : Option State :=
  if nonnull : k ≠ 0 then
    if s.handle h = none ∧ (s.root k).inUse = false then
      some ((s.setRoot k ⟨o, true, 1⟩).setHandle h (CXLRef.of k o nonnull))
    else none
  else none

/-- The destructor, on the handle `c`. -/
def destroyHandle (c : CXLRef) (next : Offset) : State :=
  if c.tbr = 0 ∧ c.data = 0 then s
  else
    let refCnt := (s.root c.tbr).refCnt - 1
    if refCnt ≠ 0 then s.setRoot c.tbr { s.root c.tbr with refCnt := refCnt }
    else (s.testFree c.tbr).setRoot c.tbr ⟨next, false, 0⟩

/-- The effect of an operation, `none` when it is not possible: its operands must be live handles,
and a new handle gets a new name. -/
def step : Op → Option State
  | .cxlMalloc h k o | .getRef h k o | .cxlUnwrap h (some (k, o)) => s.acquire h k o
  | .cxlUnwrap h none => if s.handle h = none then some (s.setHandle h (some .null)) else none
  | .copy h from_ =>
    match s.handle h, s.handle from_ with
    | none, some c => some ((s.setHandle h (some c)).retain c)
    | _, _ => none
  | .move h from_ =>
    match s.handle h, s.handle from_ with
    | none, some c => some (s.setHandle h (some c))
    | _, _ => none
  | .copyAssign h from_ =>
    match s.handle h, s.handle from_ with
    | some _, some c => some ((s.setHandle h (some c)).retain c)
    | _, _ => none
  | .moveAssign h from_ =>
    match s.handle h, s.handle from_ with
    | some _, some c => some (s.setHandle h (some c))
    | _, _ => none
  | .destroy h next =>
    match s.handle h with
    | some c => some ((s.destroyHandle c next).setHandle h none)
    | none => none

/-- `P` holds of every step that a sequence of operations takes from `s`. -/
def Along (P : State → Op → State → Prop) : State → List Op → Prop
  | _, [] => True
  | s, op :: ops => ∀ s', s.step op = some s' → P s op s' ∧ Along P s' ops

end State

/-! ## Counts and handles -/

/-- The handle designates the `RootRef` at `k`. -/
def Designates (k : Offset) (c : Option CXLRef) : Prop :=
  ∃ x, c = some x ∧ x.tbr = k

/-- Number of live handles that designate the `RootRef` at `k`. -/
noncomputable def handles (s : State) (k : Offset) : ℕ :=
  count (Designates k) s.handle

/-- Each count is the number of handles, and exactly the `RootRef`s with a handle are in use. -/
def Counted (s : State) : Prop :=
  ∀ k, k ≠ 0 → (s.root k).refCnt.toNat = handles s k ∧ ((s.root k).inUse = true ↔ 0 < handles s k)

/-- A step releases the object of the `RootRef`s that lose their last handle, and no other. -/
def ReleasedWithLast (s s' : State) : Prop :=
  ∀ k, k ≠ 0 →
    (0 < handles s k ∧ handles s' k = 0 → s'.released k = s.released k ++ [(s.root k).pptr]) ∧
    (¬ (0 < handles s k ∧ handles s' k = 0) → s'.released k = s.released k)

/-- One more handle does not wrap the count. -/
def Retainable (s : State) (c : CXLRef) : Prop :=
  c.tbr = 0 ∨ (s.root c.tbr).refCnt.toNat + 1 < 2 ^ 16

/-- What the special member functions of `CXLRef` are right about.  A copy must not wrap the count,
only a null handle may be moved from, only a null handle may be assigned over by a copy, and a move
may be assigned over a handle of the same `RootRef` only. -/
def Careful (s : State) : Op → Prop
  | .copy _ from_ => ∀ c, s.handle from_ = some c → Retainable s c
  | .move _ from_ => ∀ c, s.handle from_ = some c → c.tbr = 0
  | .copyAssign h from_ => ∀ d c, s.handle h = some d → s.handle from_ = some c →
      d.tbr = 0 ∧ Retainable s c
  | .moveAssign h from_ => ∀ d c, s.handle h = some d → s.handle from_ = some c → d.tbr = c.tbr
  | _ => True

/-- Finitely many handles are live. -/
def Finite (s : State) : Prop :=
  FiniteOn (fun c : Option CXLRef => c ≠ none) s.handle

section Handles

variable {s : State} {h : ℕ} {k : Offset}

theorem designates_some {c : CXLRef} : Designates k (some c) ↔ c.tbr = k := by
  simp [Designates]

theorem not_designates_none : ¬ Designates k none := by
  simp [Designates]

theorem Finite.designates (fin : Finite s) (k : Offset) : FiniteOn (Designates k) s.handle := by
  apply FiniteOn.mono fin
  rintro b ⟨x, rfl, -⟩
  simp

theorem Finite.setHandle (fin : Finite s) (h : ℕ) (c : Option CXLRef) :
    Finite (s.setHandle h c) :=
  FiniteOn.update fin h c

theorem handles_setRoot (j : Offset) (r : RootRef) : handles (s.setRoot j r) k = handles s k := rfl

theorem handles_setHandle_of_iff {c : Option CXLRef}
    (same : Designates k c ↔ Designates k (s.handle h)) :
    handles (s.setHandle h c) k = handles s k :=
  count_update_of_iff same

theorem handles_setHandle_gain (fin : Finite s) {c : Option CXLRef}
    (old : ¬ Designates k (s.handle h)) (new : Designates k c) :
    handles (s.setHandle h c) k = handles s k + 1 :=
  count_update_gain (fin.designates k) old new

theorem handles_setHandle_lose (fin : Finite s) {c : Option CXLRef}
    (old : Designates k (s.handle h)) (new : ¬ Designates k c) :
    handles (s.setHandle h c) k + 1 = handles s k :=
  count_update_lose (fin.designates k) old new

theorem handles_pos (fin : Finite s) (old : Designates k (s.handle h)) : 0 < handles s k :=
  count_pos (fin.designates k) old

end Handles

/-! ## One operation -/

section Step

variable {s s' : State} {h h' : ℕ} {k o : Offset} {c d : CXLRef}

theorem toNat_add_one_iff {n : BitVec 16} : (n + 1).toNat = n.toNat + 1 ↔ n.toNat + 1 < 2 ^ 16 := by
  bv_omega

theorem toNat_add_one_ne (n : BitVec 16) : (n + 1).toNat ≠ n.toNat := by
  bv_omega

/-- The counts are right after a step, and its releases are the ones due. -/
def Right (s s' : State) : Prop :=
  Counted s' ∧ ReleasedWithLast s s'

/-- A step that neither loses a last handle nor releases anything. -/
theorem releasedWithLast_of_keeps (released : s'.released = s.released)
    (keeps : ∀ k, k ≠ 0 → 0 < handles s k → 0 < handles s' k) : ReleasedWithLast s s' := by
  intro k hk
  constructor
  · rintro ⟨before, after⟩
    have := keeps k hk before
    omega
  · intro _
    rw [released]

theorem acquire_right (fin : Finite s) (hs : Counted s) (step : s.acquire h k o = some s') :
    Right s s' := by
  unfold State.acquire at step
  split_ifs at step with nonnull free
  obtain ⟨fresh, unused⟩ := free
  injection step with step
  subst step
  have none_yet : handles s k = 0 := by
    have := (hs k nonnull).2
    rw [unused] at this
    simpa using this
  have gain : handles ((s.setRoot k ⟨o, true, 1⟩).setHandle h (CXLRef.of k o nonnull)) k = 1 := by
    rw [handles_setHandle_gain (s := s.setRoot k ⟨o, true, 1⟩) fin, handles_setRoot, none_yet]
    · simp [fresh, not_designates_none]
    · exact designates_some.2 rfl
  have others : ∀ j, j ≠ k →
      handles ((s.setRoot k ⟨o, true, 1⟩).setHandle h (CXLRef.of k o nonnull)) j = handles s j := by
    intro j hj
    apply handles_setHandle_of_iff (s := s.setRoot k ⟨o, true, 1⟩)
    simp [fresh, not_designates_none, designates_some, CXLRef.of, hj.symm]
  constructor
  · intro j hj
    by_cases same : j = k
    · subst same
      rw [gain]
      simp
    · rw [others j same, State.setHandle_root, State.setRoot_root_of_ne _ same]
      exact hs j hj
  · refine releasedWithLast_of_keeps rfl ?_
    intro j _ held
    by_cases same : j = k
    · subst same
      omega
    · rwa [others j same]

/-- A null handle more or less changes nothing. -/
theorem setHandle_right_of_iff (hs : Counted s) {c : Option CXLRef}
    (same : ∀ k, k ≠ 0 → (Designates k c ↔ Designates k (s.handle h))) :
    Right s (s.setHandle h c) := by
  have keep : ∀ k, k ≠ 0 → handles (s.setHandle h c) k = handles s k :=
    fun k hk => handles_setHandle_of_iff (same k hk)
  constructor
  · intro k hk
    rw [keep k hk]
    exact hs k hk
  · refine releasedWithLast_of_keeps rfl ?_
    intro k hk held
    rwa [keep k hk]

/-- The count goes up with the handles, unless it wraps. -/
theorem retain_counted_iff {t : State} (hs : Counted s) (root : t.root = s.root)
    (nonnull : c.tbr ≠ 0) (gain : handles t c.tbr = handles s c.tbr + 1)
    (held : 0 < handles s c.tbr)
    (others : ∀ k, k ≠ 0 → k ≠ c.tbr → handles t k = handles s k) :
    Counted (t.retain c) ↔ Retainable s c := by
  obtain ⟨count, used⟩ := hs c.tbr nonnull
  have retained : t.retain c =
      t.setRoot c.tbr { s.root c.tbr with refCnt := (s.root c.tbr).refCnt + 1 } := by
    rw [State.retain, if_neg nonnull, root]
  rw [retained]
  constructor
  · intro after
    have := (after c.tbr nonnull).1
    rw [handles_setRoot, gain, State.setRoot_root_self, ← count] at this
    right
    exact toNat_add_one_iff.1 this
  · intro small k hk
    replace small := small.resolve_left nonnull
    rw [handles_setRoot]
    by_cases same : k = c.tbr
    · subst same
      rw [gain]
      rw [State.setRoot_root_self, ← count]
      exact ⟨toNat_add_one_iff.2 small, by simp [used.2 held]⟩
    · rw [others k hk same, State.setRoot_root_of_ne _ same, root]
      exact hs k hk

theorem retain_released (t : State) (c : CXLRef) : (t.retain c).released = t.released := by
  unfold State.retain
  split_ifs <;> rfl

theorem handles_retain (t : State) (c : CXLRef) (k : Offset) :
    handles (t.retain c) k = handles t k := by
  unfold State.retain
  split_ifs <;> rfl

theorem finite_retain (fin : Finite s) (c : CXLRef) : Finite (s.retain c) := by
  unfold State.retain
  split_ifs <;> exact fin

/-- A copy over a handle that is null or not yet there. -/
theorem copy_right_iff (fin : Finite s) (hs : Counted s) (source : s.handle h' = some c)
    (old : ∀ k, k ≠ 0 → ¬ Designates k (s.handle h)) :
    Right s ((s.setHandle h (some c)).retain c) ↔ Retainable s c := by
  by_cases null : c.tbr = 0
  · have : Right s (s.setHandle h (some c)) := by
      apply setHandle_right_of_iff hs
      intro k hk
      simp [old k hk, designates_some, null, hk.symm]
    simpa [State.retain, null, Retainable] using this
  · have held : 0 < handles s c.tbr := handles_pos fin (source ▸ designates_some.2 rfl)
    have gain : handles (s.setHandle h (some c)) c.tbr = handles s c.tbr + 1 :=
      handles_setHandle_gain fin (old _ null) (designates_some.2 rfl)
    have others : ∀ k, k ≠ 0 → k ≠ c.tbr → handles (s.setHandle h (some c)) k = handles s k := by
      intro k hk other
      apply handles_setHandle_of_iff
      simp [old k hk, designates_some, other.symm]
    have counted := retain_counted_iff (t := s.setHandle h (some c)) hs rfl null gain held others
    constructor
    · intro right
      exact counted.1 right.1
    · intro small
      refine ⟨counted.2 small, releasedWithLast_of_keeps (retain_released _ c) ?_⟩
      intro k hk held
      rw [handles_retain]
      by_cases same : k = c.tbr
      · subst same
        omega
      · rwa [others k hk same]

/-- A handle that is assigned over is not subtracted from the count of its `RootRef`. -/
theorem not_right_of_copy_over (fin : Finite s) (hs : Counted s) (old : s.handle h = some d)
    (nonnull : d.tbr ≠ 0) : ¬ Right s ((s.setHandle h (some c)).retain c) := by
  rintro ⟨after, -⟩
  have before := (hs d.tbr nonnull).1
  have now := (after d.tbr nonnull).1
  have held : Designates d.tbr (s.handle h) := old ▸ designates_some.2 rfl
  rw [handles_retain] at now
  by_cases same : c.tbr = d.tbr
  · have keep : handles (s.setHandle h c) d.tbr = handles s d.tbr := by
      apply handles_setHandle_of_iff
      simp [old, designates_some, same]
    rw [keep] at now
    simp only [State.retain, same, nonnull, if_false, State.setRoot_root_self] at now
    rw [State.setHandle_root] at now
    have := toNat_add_one_ne (s.root d.tbr).refCnt
    omega
  · have lose := handles_setHandle_lose fin held (c := c) (by simpa [designates_some] using same)
    have root : ((s.setHandle h c).retain c).root d.tbr = s.root d.tbr := by
      unfold State.retain
      split_ifs
      · rfl
      · rw [State.setRoot_root_of_ne _ (Ne.symm same), State.setHandle_root]
    rw [root] at now
    omega

/-- Without a count, a handle may only be replaced by one of the same `RootRef`. -/
theorem setHandle_right_iff (fin : Finite s) (hs : Counted s) {c' : Option CXLRef} :
    Right s (s.setHandle h c') ↔
      ∀ k, k ≠ 0 → (Designates k c' ↔ Designates k (s.handle h)) := by
  constructor
  · rintro ⟨after, -⟩ k hk
    have before := (hs k hk).1
    have now := (after k hk).1
    rw [State.setHandle_root, before] at now
    by_cases old : Designates k (s.handle h) <;> by_cases new : Designates k c'
    · simp [old, new]
    · have := handles_setHandle_lose fin old new
      omega
    · have := handles_setHandle_gain fin old new
      omega
    · simp [old, new]
  · exact setHandle_right_of_iff hs

theorem toNat_sub_one {n : BitVec 16} (h : 0 < n.toNat) : (n - 1).toNat + 1 = n.toNat := by
  bv_omega

/-- The handle goes and its count with it. -/
theorem destroy_right (fin : Finite s) (hs : Counted s) (live : s.handle h = some c)
    (next : Offset) : Right s ((s.destroyHandle c next).setHandle h none) := by
  by_cases null : c.tbr = 0
  · have unchanged : s.destroyHandle c next = s := if_pos ⟨null, c.whole.1 null⟩
    rw [unchanged]
    apply setHandle_right_of_iff hs
    intro k hk
    simp [live, not_designates_none, designates_some, null, hk.symm]
  have held : Designates c.tbr (s.handle h) := live ▸ designates_some.2 rfl
  have lose := handles_setHandle_lose fin held not_designates_none
  have others : ∀ k, k ≠ c.tbr → handles (s.setHandle h none) k = handles s k := by
    intro k other
    apply handles_setHandle_of_iff
    simp [live, not_designates_none, designates_some, other.symm]
  obtain ⟨count, used⟩ := hs c.tbr null
  have pred := toNat_sub_one (n := (s.root c.tbr).refCnt) (by omega)
  by_cases last : (s.root c.tbr).refCnt - 1 = 0
  · have freed : s.destroyHandle c next = (s.testFree c.tbr).setRoot c.tbr ⟨next, false, 0⟩ := by
      rw [State.destroyHandle, if_neg fun both => null both.1]
      exact if_neg fun more => more last
    have zero : handles (s.setHandle h none) c.tbr = 0 := by
      rw [last] at pred
      change 0 + 1 = _ at pred
      omega
    have now : ∀ k, handles ((s.destroyHandle c next).setHandle h none) k =
        handles (s.setHandle h none) k := by
      intro k
      rw [freed]
      rfl
    constructor
    · intro k hk
      rw [now, freed]
      by_cases same : k = c.tbr
      · subst same
        rw [zero, State.setHandle_root, State.setRoot_root_self]
        simp
      · rw [others k same, State.setHandle_root, State.setRoot_root_of_ne _ same]
        exact hs k hk
    · intro k hk
      rw [now, freed]
      by_cases same : k = c.tbr
      · subst same
        constructor
        · intro _
          simp [State.testFree]
        · intro more
          omega
      · rw [others k same]
        constructor
        · intro lost
          omega
        · intro _
          simp [State.testFree, same]
  · have kept : s.destroyHandle c next =
        s.setRoot c.tbr { s.root c.tbr with refCnt := (s.root c.tbr).refCnt - 1 } := by
      rw [State.destroyHandle, if_neg fun both => null both.1]
      exact if_pos last
    have more : ((s.root c.tbr).refCnt - 1).toNat ≠ 0 := by
      intro zero
      exact last (BitVec.eq_of_toNat_eq zero)
    have now : ∀ k, handles ((s.destroyHandle c next).setHandle h none) k =
        handles (s.setHandle h none) k := by
      intro k
      rw [kept]
      rfl
    constructor
    · intro k hk
      rw [now, kept]
      by_cases same : k = c.tbr
      · subst same
        rw [State.setHandle_root, State.setRoot_root_self]
        have positive : 0 < handles s c.tbr := by omega
        exact ⟨by dsimp only; omega, iff_of_true (used.2 positive) (by omega)⟩
      · rw [others k same, State.setHandle_root, State.setRoot_root_of_ne _ same]
        exact hs k hk
    · refine releasedWithLast_of_keeps (by rw [kept]; rfl) ?_
      intro k _ before
      rw [now]
      by_cases same : k = c.tbr
      · subst same
        omega
      · rwa [others k same]

theorem finite_step {op : Op} (fin : Finite s) (step : s.step op = some s') : Finite s' := by
  have acquire : ∀ h k o, s.acquire h k o = some s' → Finite s' := by
    intro h k o step
    unfold State.acquire at step
    split_ifs at step
    injection step with step
    exact step ▸ Finite.setHandle (s := s.setRoot k _) fin h _
  cases op with
  | cxlMalloc h k o => exact acquire h k o step
  | getRef h k o => exact acquire h k o step
  | cxlUnwrap h message =>
    cases message with
    | some m => exact acquire h m.1 m.2 step
    | none =>
      simp only [State.step, Option.ite_none_right_eq_some, Option.some.injEq] at step
      exact step.2 ▸ fin.setHandle h _
  | copy h h' =>
    simp only [State.step] at step
    split at step <;> cases step
    exact finite_retain (fin.setHandle h _) _
  | move h h' =>
    simp only [State.step] at step
    split at step <;> cases step
    exact fin.setHandle h _
  | copyAssign h h' =>
    simp only [State.step] at step
    split at step <;> cases step
    exact finite_retain (fin.setHandle h _) _
  | moveAssign h h' =>
    simp only [State.step] at step
    split at step <;> cases step
    exact fin.setHandle h _
  | destroy h next =>
    simp only [State.step] at step
    split at step <;> cases step
    have kept : (s.destroyHandle ‹CXLRef› next).handle = s.handle := by
      unfold State.destroyHandle
      dsimp only
      split_ifs <;> rfl
    apply Finite.setHandle
    unfold Finite
    rwa [kept]

theorem careful_copyAssign_iff (target : s.handle h = some d) (source : s.handle h' = some c) :
    Careful s (.copyAssign h h') ↔ d.tbr = 0 ∧ Retainable s c := by
  constructor
  · intro careful
    exact careful d c target source
  · rintro careful d' c' target' source'
    cases target.symm.trans target'
    cases source.symm.trans source'
    exact careful

theorem careful_moveAssign_iff (target : s.handle h = some d) (source : s.handle h' = some c) :
    Careful s (.moveAssign h h') ↔ d.tbr = c.tbr := by
  constructor
  · intro careful
    exact careful d c target source
  · rintro careful d' c' target' source'
    cases target.symm.trans target'
    cases source.symm.trans source'
    exact careful

/-- In a state with right counts, an operation keeps them right if and only if it is careful. -/
theorem step_right_iff {op : Op} (fin : Finite s) (hs : Counted s) (step : s.step op = some s') :
    Right s s' ↔ Careful s op := by
  cases op with
  | cxlMalloc h k o => exact iff_of_true (acquire_right fin hs step) trivial
  | getRef h k o => exact iff_of_true (acquire_right fin hs step) trivial
  | cxlUnwrap h message =>
    cases message with
    | some m => exact iff_of_true (acquire_right fin hs step) trivial
    | none =>
      simp only [State.step, Option.ite_none_right_eq_some, Option.some.injEq] at step
      obtain ⟨fresh, rfl⟩ := step
      refine iff_of_true (setHandle_right_of_iff hs fun k hk => ?_) trivial
      simp [fresh, not_designates_none, designates_some, CXLRef.null, hk.symm]
  | copy h h' =>
    simp only [State.step] at step
    split at step <;> cases step
    rename_i c fresh source
    rw [copy_right_iff fin hs source (fun k _ => by simp [fresh, not_designates_none])]
    simp [Careful, source]
  | move h h' =>
    simp only [State.step] at step
    split at step <;> cases step
    rename_i c fresh source
    rw [setHandle_right_iff fin hs]
    simp only [Careful, source, Option.some.injEq, forall_eq', fresh, not_designates_none,
      designates_some, iff_false]
    constructor
    · intro null
      by_contra some
      exact null c.tbr some rfl
    · intro null k hk same
      exact hk (same ▸ null)
  | copyAssign h h' =>
    simp only [State.step] at step
    split at step <;> cases step
    rename_i d c target source
    rw [careful_copyAssign_iff target source]
    by_cases null : d.tbr = 0
    · rw [copy_right_iff fin hs source]
      · simp [null]
      · intro k hk
        simp [target, designates_some, null, hk.symm]
    · exact iff_of_false (not_right_of_copy_over fin hs target null) fun both => null both.1
  | moveAssign h h' =>
    simp only [State.step] at step
    split at step <;> cases step
    rename_i d c target source
    rw [setHandle_right_iff fin hs, careful_moveAssign_iff target source]
    simp only [target, designates_some]
    constructor
    · intro same
      by_cases null : d.tbr = 0
      · by_contra differ
        have some : c.tbr ≠ 0 := fun zero => differ (null.trans zero.symm)
        exact differ ((same c.tbr some).1 rfl)
      · exact ((same d.tbr null).2 rfl).symm
    · intro same k _
      rw [same]
  | destroy h next =>
    simp only [State.step] at step
    split at step <;> cases step
    exact iff_of_true (destroy_right fin hs ‹_› next) trivial

/-! ## A sequence of operations -/

theorem along_right_iff (ops : List Op) (fin : Finite s) (hs : Counted s) :
    State.Along (fun s _ s' => Right s s') s ops ↔ State.Along (fun s op _ => Careful s op) s ops := by
  induction ops generalizing s with
  | nil => exact Iff.rfl
  | cons op ops ih =>
    apply forall_congr'
    intro s'
    apply imp_congr_right
    intro step
    show Right s s' ∧ _ ↔ Careful s op ∧ _
    rw [← step_right_iff fin hs step]
    apply and_congr_right
    intro right
    exact ih (finite_step fin step) right.1

theorem finite_init : Finite State.init := by
  simp [Finite, FiniteOn, State.init]

theorem counted_init : Counted State.init := by
  intro k _
  have none_yet : handles State.init k = 0 := count_eq_zero fun _ => not_designates_none
  rw [none_yet]
  simp [State.init]

/-- Over every sequence of operations, each count is the number of handles and each object is
released with its last handle, if and only if every operation is careful. -/
theorem counted_iff_careful (ops : List Op) :
    State.Along (fun s _ s' => Counted s' ∧ ReleasedWithLast s s') State.init ops ↔
      State.Along (fun s op _ => Careful s op) State.init ops :=
  along_right_iff ops finite_init counted_init

/-- `CXLRef b(std::move(a))` and then the destruction of `a`: the `RootRef` at 8 is freed with the
object at 16, and `b` designates it. -/
theorem moved_handle_dangles :
    ¬ State.Along (fun s _ s' => Counted s' ∧ ReleasedWithLast s s') State.init
      [.cxlMalloc 0 8 16, .move 1 0, .destroy 0 0] := by
  rw [show State.Along (fun s _ s' => Counted s' ∧ ReleasedWithLast s s') State.init _ ↔ _ from
    along_right_iff _ finite_init counted_init]
  simp [State.Along, State.step, State.acquire, State.init, State.setHandle, State.setRoot,
    Careful, CXLRef.of]

end Step

end CxlShm.Handles
