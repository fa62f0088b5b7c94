import CxlShm.Lib.Reachability
import CxlShm.Reference.Refinement
import CxlShm.Release.TestFree

/-!
# The last reference and the embedded ones

The clients that hold an object all call `test_free` on their references.  As long as the two
decisions of `test_free` agree, the embedded references are in one of three phases (`Ledger`): all
untouched while several clients hold the object, being unlinked one after the other by the only
client that is left, and all unlinked once nobody holds the object.  When all calls have returned
the object has been freed once and its embedded references have been unlinked once each
(`released_of_agrees`).  The decisions need not agree: `embedded_leaked` is a run of two clients that
both read the count 2.
-/

namespace CxlShm.TestFree

open Reachability

/-! ## Where a client stands -/

/-- The client is past the compare-exchange of its `unlink_reference`. -/
def past : Control ObjLoc → Bool
  | .call c => !c.pc.announced
  | _ => false

/-- The client took the last reference to `o` and has yet to free it. -/
def freePending (o : Offset) : Control ObjLoc → Bool
  | .call c => c.last && !c.pc.announced && c.refed = o
  | _ => false

/-- The client has given up the reference it called `test_free` on. -/
def committed (s : State) (t : ℕ) : Bool :=
  match s.progress t with
  | .returned => true
  | .active [f] => f.pc = .unlink && past (s.base.ctl t)
  | _ => false

/-- The clients that still hold the object. -/
def holding (holders : Finset ℕ) (s : State) : Finset ℕ :=
  holders.filter fun t => committed s t = false

/-- The clients that are about to free the object. -/
def freeing (o : Offset) (holders : Finset ℕ) (s : State) : Finset ℕ :=
  holders.filter fun t => freePending o (s.base.ctl t) = true

/-- The activation has read its reference. -/
def Frame.loaded (f : Frame) : Bool :=
  match f.pc with
  | .testRef | .loadRef => false
  | .loadInfo | .testIndex _ | .embedded _ | .loadArg | .unlink => true

/-- The stack of a call on `RootRef` number `k`: the outermost activation works on `o`, the others on
the embedded reference their caller has reached. -/
def Nested (o : Offset) (k : ℕ) : List Frame → Prop
  | [] => False
  | [f] => f.ref = .root k ∧ (f.loaded → f.refed = o)
  | f :: g :: fs => (∃ i, g.pc = .embedded i ∧ f.ref = .embedded g.refed i) ∧
      (f.loaded → f.refed ≠ o) ∧ Nested o k (g :: fs)

/-- The object that the innermost activation unlinks. -/
def Target (o : Offset) (s₀ : State) (x : Offset) : List Frame → Prop
  | [] => False
  | [_] => x = o
  | [f, _] => x = s₀.base.mem.loc f.ref
  | _ => x ≠ o

/-- The client is inside the `unlink_reference` of its innermost activation `f`. -/
def Unlinking (o : Offset) (s₀ : State) (k : Control ObjLoc) (f : Frame) (fs : List Frame) : Prop :=
  ∃ c, k = .call c ∧ c.func = .unlinkRef ∧ c.ref = f.ref ∧ c.curEra < 2 ^ 32 ∧
    (c.pc = .free → c.last) ∧ Target o s₀ c.refed (f :: fs)

/-- What is true of a client at each point of its call. -/
def At (o : Offset) (s₀ : State) (k : ℕ) (ctl : Control ObjLoc) : Progress → Prop
  | .waiting r => r = .root k ∧ ctl = .idle
  | .active [] => False
  | .active (f :: fs) => Nested o k (f :: fs) ∧
      (f.pc = .unlink → Unlinking o s₀ ctl f fs) ∧ (f.pc ≠ .unlink → ctl = .idle)
  | .returned => ctl = .idle

/-- The outermost activation has found its reference to be the last one. -/
def lastHolder : List Frame → Bool
  | [] => false
  | [f] =>
    match f.pc with
    | .testIndex _ | .embedded _ => true
    | .loadArg | .unlink => !f.shared
    | .testRef | .loadRef | .loadInfo => false
  | _ :: g :: fs => lastHolder (g :: fs)

/-! ## The embedded references -/

section

variable (o : Offset) (s₀ s : State)

/-- The embedded reference is as it was in `s₀`. -/
def Untouched (i : ℕ) : Prop :=
  s.base.mem.loc (.embedded o i) = s₀.base.mem.loc (.embedded o i) ∧
    ∀ x, unlinkedTimes s (.embedded o i) x = 0

/-- The embedded reference has been unlinked, if it was not null. -/
def Unlinked (i : ℕ) : Prop :=
  ∀ x ≠ 0, unlinkedTimes s (.embedded o i) x = if s₀.base.mem.loc (.embedded o i) = x then 1 else 0

/-- The embedded references when the client that has the last reference is at this point. -/
def SlotsAt (ctl : Control ObjLoc) : List Frame → Prop
  | [] => False
  | [f] =>
    match f.pc with
    | .testIndex i => f.shared = false ∧ (∀ j < i, Unlinked o s₀ s j) ∧ ∀ j ≥ i, Untouched o s₀ s j
    | .loadArg | .unlink => ∀ j < s₀.embeddedRefCnt o, Unlinked o s₀ s j
    | .testRef | .loadRef | .loadInfo | .embedded _ => False
  | [f, g] => g.shared = false ∧ ∃ i, g.pc = .embedded i ∧ (∀ j < i, Unlinked o s₀ s j) ∧
      (∀ j > i, Untouched o s₀ s j) ∧ (f.pc ≠ .testRef → s₀.base.mem.loc (.embedded o i) ≠ 0) ∧
      (f.pc = .unlink ∧ past ctl → Unlinked o s₀ s i) ∧
      (¬ (f.pc = .unlink ∧ past ctl) → Untouched o s₀ s i)
  | _ :: g :: h :: fs => SlotsAt ctl (g :: h :: fs)

/-- The three phases of the embedded references. -/
inductive Ledger (holders : Finset ℕ) : Prop
  | shared (some : (holding holders s).Nonempty)
      (tested : ∀ t ∈ holding holders s, ∀ fs, s.progress t = .active fs → lastHolder fs = false)
      (slots : ∀ j, Untouched o s₀ s j)
  | releasing (t : ℕ) (fs : List Frame) (alone : holding holders s = {t})
      (active : s.progress t = .active fs) (last : lastHolder fs = true)
      (slots : SlotsAt o s₀ s (s.base.ctl t) fs)
  | released (none : holding holders s = ∅)
      (slots : ∀ j < s₀.embeddedRefCnt o, Unlinked o s₀ s j)

end

/-- The invariant of a run in which the two decisions agree. -/
structure Inv (o : Offset) (holders : Finset ℕ) (root : ℕ → ℕ) (s₀ s : State) : Prop where
  others : ∀ t ∉ holders, s.progress t = .returned
  place : ∀ t ∈ holders, At o s₀ (root t) (s.base.ctl t) (s.progress t)
  holds : ∀ t ∈ holding holders s, s.base.mem.loc (.root (root t)) = o
  only : ∀ r, s.base.mem.loc r = o → ∃ t ∈ holders, r = .root (root t)
  refCnt : getRefCntFromInfo (s.base.mem.refInfo o) = (holding holders s).card
  embedded : (holding holders s).Nonempty → s.embeddedRefCnt o = s₀.embeddedRefCnt o
  era : ∀ i, s.base.mem.eraArray i < 2 ^ 32
  frees : freedTimes s o + (freeing o holders s).card +
    (if holding holders s = ∅ then 0 else 1) = 1
  ledger : Ledger o s₀ s holders

section

variable {o : Offset} {s₀ s s' : State} {holders : Finset ℕ} {root : ℕ → ℕ} {t : ℕ} {p : Progress}

/-! ## Frames -/

/-- The embedded references and what has been done to them are the same in both states. -/
def SameSlots (o : Offset) (s s' : State) : Prop :=
  ∀ i, s'.base.mem.loc (.embedded o i) = s.base.mem.loc (.embedded o i) ∧
    ∀ x, unlinkedTimes s' (.embedded o i) x = unlinkedTimes s (.embedded o i) x

theorem Untouched.congr (same : SameSlots o s s') {i : ℕ} (h : Untouched o s₀ s i) :
    Untouched o s₀ s' i :=
  ⟨(same i).1.trans h.1, fun x => ((same i).2 x).trans (h.2 x)⟩

theorem Unlinked.congr (same : SameSlots o s s') {i : ℕ} (h : Unlinked o s₀ s i) :
    Unlinked o s₀ s' i :=
  fun x hx => ((same i).2 x).trans (h x hx)

theorem Untouched.unlinked {i : ℕ} (h : Untouched o s₀ s i)
    (null : s₀.base.mem.loc (.embedded o i) = 0) : Unlinked o s₀ s i := by
  intro x hx
  rw [h.2 x, null, if_neg hx.symm]

theorem SlotsAt.congr (same : SameSlots o s s') {k k' : Control ObjLoc} (ctl : past k' = past k)
    {fs : List Frame} (h : SlotsAt o s₀ s k fs) : SlotsAt o s₀ s' k' fs := by
  induction fs with
  | nil => exact h
  | cons f fs ih =>
    match fs, h, ih with
    | [], h, _ =>
      unfold SlotsAt at h ⊢
      split at h
      · exact ⟨h.1, fun j hj => (h.2.1 j hj).congr same, fun j hj => (h.2.2 j hj).congr same⟩
      · exact fun j hj => (h j hj).congr same
      · exact fun j hj => (h j hj).congr same
      all_goals exact h
    | [g], h, _ =>
      obtain ⟨alone, i, hg, done, rest, null, after, before⟩ := h
      exact ⟨alone, i, hg, fun j hj => (done j hj).congr same, fun j hj => (rest j hj).congr same, null,
        fun now => (after (ctl ▸ now)).congr same, fun now => (before (ctl ▸ now)).congr same⟩
    | g :: h' :: fs, h, ih => exact ih h

/-- The step is one of client `t`, after which its call stands at `p`. -/
structure Moved (t : ℕ) (p : Progress) (s s' : State) : Prop where
  progress : s'.progress = Function.update s.progress t p
  ctl : ∀ u ≠ t, s'.base.ctl u = s.base.ctl u

namespace Moved

theorem progress_self (moved : Moved t p s s') : s'.progress t = p := by
  rw [moved.progress, Function.update_self]

theorem progress_of_ne (moved : Moved t p s s') {u : ℕ} (hu : u ≠ t) :
    s'.progress u = s.progress u := by
  rw [moved.progress, Function.update_of_ne hu]

theorem committed_of_ne (moved : Moved t p s s') {u : ℕ} (hu : u ≠ t) :
    committed s' u = committed s u := by
  unfold committed
  rw [moved.progress_of_ne hu, moved.ctl u hu]

theorem holding_eq (moved : Moved t p s s') (same : committed s' t = committed s t) :
    holding holders s' = holding holders s := by
  refine Finset.filter_congr fun u _ => ?_
  by_cases hu : u = t
  · rw [hu, same]
  · rw [moved.committed_of_ne hu]

theorem holding_erase (moved : Moved t p s s') (now : committed s' t = true) :
    holding holders s' = (holding holders s).erase t := by
  ext u
  by_cases hu : u = t
  · simp [holding, hu, now]
  · simp [holding, hu, moved.committed_of_ne hu]

theorem freeing_eq (moved : Moved t p s s')
    (same : freePending o (s'.base.ctl t) = freePending o (s.base.ctl t)) :
    freeing o holders s' = freeing o holders s := by
  refine Finset.filter_congr fun u _ => ?_
  by_cases hu : u = t
  · rw [hu, same]
  · rw [moved.ctl u hu]

theorem freeing_insert (moved : Moved t p s s') (ht : t ∈ holders)
    (now : freePending o (s'.base.ctl t) = true) :
    freeing o holders s' = insert t (freeing o holders s) := by
  ext u
  by_cases hu : u = t
  · simp [freeing, hu, now, ht]
  · simp [freeing, hu, moved.ctl u hu]

theorem freeing_erase (moved : Moved t p s s') (done : freePending o (s'.base.ctl t) = false) :
    freeing o holders s' = (freeing o holders s).erase t := by
  ext u
  by_cases hu : u = t
  · simp [freeing, hu, done]
  · simp [freeing, hu, moved.ctl u hu]

theorem others (moved : Moved t p s s') (inv : Inv o holders root s₀ s) (ht : t ∈ holders) :
    ∀ u ∉ holders, s'.progress u = .returned := by
  intro u hu
  have other : u ≠ t := by
    rintro rfl
    exact hu ht
  rw [moved.progress_of_ne other]
  exact inv.others u hu

theorem place (moved : Moved t p s s') (inv : Inv o holders root s₀ s)
    (now : At o s₀ (root t) (s'.base.ctl t) p) :
    ∀ u ∈ holders, At o s₀ (root u) (s'.base.ctl u) (s'.progress u) := by
  intro u hu
  by_cases same : u = t
  · rw [same, moved.progress_self]
    exact now
  · rw [moved.progress_of_ne same, moved.ctl u same]
    exact inv.place u hu

end Moved

/-! ## The ledger -/

/-- The step of a client that has given up its reference. -/
theorem Ledger.keepOther (ledger : Ledger o s₀ s holders) (moved : Moved t p s s')
    (before : committed s t = true) (after : committed s' t = true) (same : SameSlots o s s') :
    Ledger o s₀ s' holders := by
  have held : holding holders s' = holding holders s :=
    moved.holding_eq (after.trans before.symm)
  have other : ∀ u ∈ holding holders s, u ≠ t := by
    rintro u hu rfl
    simp [holding, before] at hu
  cases ledger with
  | shared some tested slots =>
    refine .shared (held ▸ some) (fun u hu fs hfs => ?_) fun j => (slots j).congr same
    rw [held] at hu
    exact tested u hu fs (moved.progress_of_ne (other u hu) ▸ hfs)
  | releasing u fs alone active last slots =>
    have hu := other u (alone ▸ Finset.mem_singleton_self u)
    refine .releasing u fs (held.trans alone) (moved.progress_of_ne hu ▸ active) last ?_
    rw [moved.ctl u hu]
    exact slots.congr same rfl
  | released none slots => exact .released (held.trans none) fun j hj => (slots j hj).congr same

/-- The step of a client that holds its reference before and after. -/
theorem Ledger.keepOwn (ledger : Ledger o s₀ s holders) {fs' : List Frame}
    (moved : Moved t (.active fs') s s') (ht : t ∈ holders)
    (before : committed s t = false) (after : committed s' t = false)
    (shared : (∀ fs, s.progress t = .active fs → lastHolder fs = false) →
      (∀ j, Untouched o s₀ s j) → (lastHolder fs' = false ∧ SameSlots o s s') ∨
        (holding holders s = {t} ∧ lastHolder fs' = true ∧ SlotsAt o s₀ s' (s'.base.ctl t) fs'))
    (last : ∀ fs, s.progress t = .active fs → lastHolder fs = true →
      SlotsAt o s₀ s (s.base.ctl t) fs →
        lastHolder fs' = true ∧ SlotsAt o s₀ s' (s'.base.ctl t) fs') :
    Ledger o s₀ s' holders := by
  have held : holding holders s' = holding holders s :=
    moved.holding_eq (after.trans before.symm)
  have mem : t ∈ holding holders s := Finset.mem_filter.2 ⟨ht, before⟩
  cases ledger with
  | shared some tested slots =>
    obtain ⟨quiet, same⟩ | ⟨alone, now, slots'⟩ := shared (tested t mem) slots
    · refine .shared (held ▸ some) (fun u hu fs hfs => ?_) fun j => (slots j).congr same
      by_cases own : u = t
      · rw [own, moved.progress_self] at hfs
        rw [← Progress.active.inj hfs]
        exact quiet
      · rw [held] at hu
        exact tested u hu fs (moved.progress_of_ne own ▸ hfs)
    · exact .releasing t fs' (held.trans alone) moved.progress_self now slots'
  | releasing u fs alone active lastOne slots =>
    obtain rfl : t = u := Finset.mem_singleton.1 (alone ▸ mem)
    obtain ⟨now, slots'⟩ := last fs active lastOne slots
    exact .releasing t fs' (held.trans alone) moved.progress_self now slots'
  | released none slots => simp [none] at mem

/-- A step that changes neither who holds the object nor its word. -/
theorem Inv.keep (inv : Inv o holders root s₀ s) (ht : t ∈ holders) (moved : Moved t p s s')
    (same : committed s' t = committed s t) (now : At o s₀ (root t) (s'.base.ctl t) p)
    (loc : ∀ r, s'.base.mem.loc r = s.base.mem.loc r ∨ s'.base.mem.loc r = 0 ∧
      ∀ u ∈ holding holders s, r ≠ .root (root u))
    (null : o ≠ 0) (word : s'.base.mem.refInfo o = s.base.mem.refInfo o)
    (embedded : s'.embeddedRefCnt o = s.embeddedRefCnt o)
    (era : ∀ i, s'.base.mem.eraArray i < 2 ^ 32)
    (pending : freePending o (s'.base.ctl t) = freePending o (s.base.ctl t))
    (freed : freedTimes s' o = freedTimes s o) (ledger : Ledger o s₀ s' holders) :
    Inv o holders root s₀ s' := by
  have held : holding holders s' = holding holders s := moved.holding_eq same
  refine ⟨moved.others inv ht, moved.place inv now, fun u hu => ?_, fun r hr => ?_, ?_, ?_, era, ?_,
    ledger⟩
  · rw [held] at hu
    obtain kept | ⟨-, other⟩ := loc (.root (root u))
    · rw [kept]
      exact inv.holds u hu
    · exact absurd rfl (other u hu)
  · obtain kept | ⟨zero, -⟩ := loc r
    · exact inv.only r (kept ▸ hr)
    · exact absurd (hr.symm.trans zero) null
  · rw [word, held]
    exact inv.refCnt
  · rw [held, embedded]
    exact inv.embedded
  · rw [freed, moved.freeing_eq pending, held]
    exact inv.frees

/-! ## Stacks -/

theorem Nested.lastHolder {k : ℕ} {f g : Frame} {fs : List Frame}
    (nested : Nested o k (f :: g :: fs)) : lastHolder (f :: g :: fs) = true := by
  induction fs generalizing f g with
  | nil =>
    obtain ⟨⟨i, hg, -⟩, -, -⟩ := nested
    simp [TestFree.lastHolder, hg]
  | cons h fs ih => exact ih nested.2.2

/-- The embedded reference of a nested activation is of an object other than `o`, unless it is the
one that the outermost activation has reached. -/
theorem Nested.ref {k : ℕ} {f g : Frame} {fs : List Frame} (nested : Nested o k (f :: g :: fs)) :
    ∃ x i, f.ref = .embedded x i ∧ g.pc = .embedded i ∧ (fs = [] → x = o) ∧ (fs ≠ [] → x ≠ o) := by
  obtain ⟨⟨i, hg, hf⟩, -, rest⟩ := nested
  refine ⟨g.refed, i, hf, hg, ?_, ?_⟩
  · rintro rfl
    exact rest.2 (by simp [Frame.loaded, hg])
  · intro some
    obtain ⟨h, fs, rfl⟩ := List.exists_cons_of_ne_nil some
    exact rest.2.1 (by simp [Frame.loaded, hg])

/-- The innermost activation moves. -/
theorem Nested.move {k : ℕ} {f f' : Frame} {fs : List Frame} (nested : Nested o k (f :: fs))
    (ref : f'.ref = f.ref) (outer : fs = [] → f'.loaded → f'.refed = o)
    (inner : fs ≠ [] → f'.loaded → f'.refed ≠ o) : Nested o k (f' :: fs) := by
  cases fs with
  | nil => exact ⟨ref.trans nested.1, outer rfl⟩
  | cons g fs => exact ⟨by simpa [ref] using nested.1, inner (by simp), nested.2.2⟩

/-- The activation below goes on. -/
theorem Nested.resume {k : ℕ} {f g : Frame} {fs : List Frame} (nested : Nested o k (f :: g :: fs)) :
    Nested o k (g.resume :: fs) := by
  obtain ⟨⟨i, hg, -⟩, -, rest⟩ := nested
  have loaded : g.loaded := by simp [Frame.loaded, hg]
  refine rest.move (by simp [Frame.resume, hg]) ?_ ?_
  · rintro rfl -
    simpa [Frame.resume, hg] using rest.2 loaded
  · intro some _
    obtain ⟨h, fs, rfl⟩ := List.exists_cons_of_ne_nil some
    simpa [Frame.resume, hg] using rest.2.1 loaded

/-- A nested activation moves and is not past a compare-exchange, before or after. -/
theorem SlotsAt.moveInner {k : ℕ} {f f' g : Frame} {fs : List Frame} {c c' : Control ObjLoc}
    (slots : SlotsAt o s₀ s c (f :: g :: fs)) (nested : Nested o k (f :: g :: fs))
    (same : SameSlots o s s') (pc : ¬ (f.pc = .unlink ∧ past c))
    (pc' : ¬ (f'.pc = .unlink ∧ past c'))
    (null : f.pc = .testRef → f'.pc ≠ .testRef → s.base.mem.loc f.ref ≠ 0) :
    SlotsAt o s₀ s' c' (f' :: g :: fs) := by
  induction fs generalizing f f' g with
  | nil =>
    obtain ⟨alone, i, hg, done, rest, some, -, before⟩ := slots
    have untouched := before pc
    refine ⟨alone, i, hg, fun j hj => (done j hj).congr same, fun j hj => (rest j hj).congr same, ?_,
      fun now => absurd now pc', fun _ => untouched.congr same⟩
    intro tested
    by_cases first : f.pc = .testRef
    · obtain ⟨x, i', ref, hg', hx, -⟩ := nested.ref
      obtain rfl : i = i' := by simpa using hg.symm.trans hg'
      have := null first tested
      rwa [ref, hx rfl, untouched.1] at this
    · exact some first
  | cons h fs ih =>
    obtain ⟨x, i, -, hg, -, -⟩ := nested.ref
    exact ih slots nested.2.2 (by simp [hg]) (by simp [hg]) (by simp [hg])

/-- The innermost activation returns, with its embedded reference dealt with. -/
theorem SlotsAt.resume {k : ℕ} {f g : Frame} {fs : List Frame} {c c' : Control ObjLoc}
    (slots : SlotsAt o s₀ s c (f :: g :: fs)) (nested : Nested o k (f :: g :: fs))
    (same : SameSlots o s s')
    (done : fs = [] → ∀ i, g.pc = .embedded i → Unlinked o s₀ s i) :
    SlotsAt o s₀ s' c' (g.resume :: fs) := by
  obtain ⟨x, i, -, hg, -, -⟩ := nested.ref
  cases fs with
  | nil =>
    obtain ⟨alone, i', hg', before, rest, -⟩ := slots
    obtain rfl : i = i' := by simpa using hg.symm.trans hg'
    simp only [Frame.resume, hg, SlotsAt]
    refine ⟨alone, fun j hj => ?_, fun j hj => (rest j hj).congr same⟩
    rcases Nat.lt_succ_iff_lt_or_eq.1 hj with hj | rfl
    · exact (before j hj).congr same
    · exact (done rfl j hg).congr same
  | cons h fs =>
    refine SlotsAt.moveInner (f := g) slots nested.2.2 same (by simp [hg]) ?_ (by simp [hg])
    simp [Frame.resume, hg]

theorem Nested.lastHolder_resume {k : ℕ} {f g : Frame} {fs : List Frame}
    (nested : Nested o k (f :: g :: fs)) : TestFree.lastHolder (g.resume :: fs) = true := by
  obtain ⟨x, i, -, hg, -, -⟩ := nested.ref
  cases fs with
  | nil => simp [TestFree.lastHolder, Frame.resume, hg]
  | cons h fs => exact nested.2.2.lastHolder

/-! ## Steps outside `unlink_reference` -/

theorem committed_active {f : Frame} {fs : List Frame} (hp : s.progress t = .active (f :: fs))
    (pc : f.pc = .unlink → past (s.base.ctl t) = false) : committed s t = false := by
  unfold committed
  rw [hp]
  cases fs with
  | nil => simpa using pc
  | cons g fs => rfl

theorem mem_holding (ht : t ∈ holders) (h : committed s t = false) : t ∈ holding holders s :=
  Finset.mem_filter.2 ⟨ht, h⟩

theorem Inv.active (inv : Inv o holders root s₀ s) (ht : t ∈ holders) {f : Frame} {fs : List Frame}
    (hp : s.progress t = .active (f :: fs)) : Nested o (root t) (f :: fs) ∧
      (f.pc = .unlink → Unlinking o s₀ (s.base.ctl t) f fs) ∧
      (f.pc ≠ .unlink → s.base.ctl t = .idle) := by
  have place := inv.place t ht
  rwa [hp] at place

/-- A step that only moves the call. -/
theorem Inv.move (inv : Inv o holders root s₀ s) (ht : t ∈ holders) (null : o ≠ 0) {f : Frame}
    {fs : List Frame} (hp : s.progress t = .active (f :: fs)) (pc : f.pc ≠ .unlink)
    {b : CxlShm.State ObjLoc} {fs' : List Frame} (mem : b.mem = s.base.mem)
    (trace : b.trace = s.base.trace) (ctl : ∀ u ≠ t, b.ctl u = s.base.ctl u)
    (after : committed ({ s with base := b }.setProgress t (.active fs')) t = false)
    (pending : freePending o (b.ctl t) = false)
    (now : At o s₀ (root t) (b.ctl t) (.active fs'))
    (shared : lastHolder (f :: fs) = false → (∀ j, Untouched o s₀ s j) →
      lastHolder fs' = false ∨ (holding holders s = {t} ∧ lastHolder fs' = true ∧
        SlotsAt o s₀ s (b.ctl t) fs'))
    (last : lastHolder (f :: fs) = true → SlotsAt o s₀ s (s.base.ctl t) (f :: fs) →
      lastHolder fs' = true ∧ SlotsAt o s₀ s (b.ctl t) fs') :
    Inv o holders root s₀ ({ s with base := b }.setProgress t (.active fs')) := by
  have moved : Moved t (.active fs') s ({ s with base := b }.setProgress t (.active fs')) := ⟨rfl, ctl⟩
  have before : committed s t = false := committed_active hp fun unlink => absurd unlink pc
  have same : SameSlots o s ({ s with base := b }.setProgress t (.active fs')) := fun i =>
    ⟨congrFun (congrArg Mem.loc mem) _, fun x => by simp [unlinkedTimes, State.setProgress, trace]⟩
  refine inv.keep ht moved (after.trans before.symm) now (fun r => .inl ?_) null ?_ rfl ?_ ?_ ?_ ?_
  · exact congrFun (congrArg Mem.loc mem) r
  · exact congrFun (congrArg Mem.refInfo mem) o
  · intro i
    exact (congrFun (congrArg Mem.eraArray mem) i).trans_lt (inv.era i)
  · exact pending.trans (by rw [(inv.active ht hp).2.2 pc]; rfl)
  · simp [freedTimes, State.setProgress, trace]
  · refine inv.ledger.keepOwn moved ht before after (fun tested slots => ?_) fun L hL now slots => ?_
    · obtain quiet | ⟨alone, now, slots'⟩ := shared (tested _ hp) slots
      · exact .inl ⟨quiet, same⟩
      · exact .inr ⟨alone, now, slots'.congr same rfl⟩
    · obtain rfl := Progress.active.inj (hp.symm.trans hL)
      obtain ⟨now', slots'⟩ := last now slots
      exact ⟨now', slots'.congr same rfl⟩

/-- A local step: the memory and the position of `unlink_reference` stay. -/
theorem Inv.local (inv : Inv o holders root s₀ s) (ht : t ∈ holders) (null : o ≠ 0) {f f' : Frame}
    {fs fs' : List Frame} (hp : s.progress t = .active (f :: fs)) (pc : f.pc ≠ .unlink)
    (pc' : f'.pc ≠ .unlink) (nested : Nested o (root t) (f' :: fs'))
    (shared : lastHolder (f :: fs) = false → (∀ j, Untouched o s₀ s j) →
      lastHolder (f' :: fs') = false ∨ (holding holders s = {t} ∧ lastHolder (f' :: fs') = true ∧
        SlotsAt o s₀ s (s.base.ctl t) (f' :: fs')))
    (last : lastHolder (f :: fs) = true → SlotsAt o s₀ s (s.base.ctl t) (f :: fs) →
      lastHolder (f' :: fs') = true ∧ SlotsAt o s₀ s (s.base.ctl t) (f' :: fs')) :
    Inv o holders root s₀ (s.setProgress t (.active (f' :: fs'))) := by
  have idle := (inv.active ht hp).2.2 pc
  refine inv.move ht null hp pc rfl rfl (fun _ _ => rfl) ?_ (by rw [idle]; rfl)
    ⟨nested, fun h => absurd h pc', fun _ => idle⟩ shared last
  exact committed_active (Function.update_self _ _ _) fun unlink => absurd unlink pc'

/-- What is booked while a client is inside an embedded reference. -/
theorem Inv.slotsAt (inv : Inv o holders root s₀ s) (ht : t ∈ holders) {f g : Frame}
    {fs : List Frame} (hp : s.progress t = .active (f :: g :: fs)) :
    SlotsAt o s₀ s (s.base.ctl t) (f :: g :: fs) := by
  have mem : t ∈ holding holders s := by
    refine mem_holding ht ?_
    unfold committed
    rw [hp]
  cases inv.ledger with
  | shared some tested slots =>
    have := tested t mem _ hp
    rw [(inv.active ht hp).1.lastHolder] at this
    cases this
  | releasing u L alone active last slots =>
    obtain rfl : t = u := Finset.mem_singleton.1 (alone ▸ mem)
    obtain rfl := Progress.active.inj (hp.symm.trans active)
    exact slots
  | released none slots => simp [none] at mem

theorem Inv.embedded_ne (inv : Inv o holders root s₀ s) (x : Offset) (i : ℕ) :
    s.base.mem.loc (.embedded x i) ≠ o := by
  intro h
  obtain ⟨u, -, hu⟩ := inv.only _ h
  cases hu

/-- `if(_ref == 0)`. -/
theorem Inv.testRef (inv : Inv o holders root s₀ s) (ht : t ∈ holders) (null : o ≠ 0) {f : Frame}
    {fs : List Frame} (hp : s.progress t = .active (f :: fs)) (pc : f.pc = .testRef) :
    Inv o holders root s₀ (s.setProgress t (if s.base.mem.loc f.ref = 0 then Progress.pop fs
      else .active ({ f with pc := .loadRef } :: fs))) := by
  have nested := (inv.active ht hp).1
  cases fs with
  | nil =>
    have mem := mem_holding ht (committed_active hp (by simp [pc]))
    have held : s.base.mem.loc f.ref ≠ 0 := by
      rw [nested.1, inv.holds t mem]
      exact null
    rw [if_neg held]
    refine inv.local ht null hp (by simp [pc]) (by simp) ?_ (fun _ _ => .inl rfl) ?_
    · exact nested.move rfl (by simp [Frame.loaded]) (by simp)
    · simp [lastHolder, pc]
  | cons g fs =>
    by_cases zero : s.base.mem.loc f.ref = 0
    · rw [if_pos zero]
      obtain ⟨x, i, ref, hg, hx, -⟩ := nested.ref
      refine inv.local ht null hp (by simp [pc]) (by simp [Frame.resume, hg]) nested.resume
        (by simp [nested.lastHolder]) fun _ slots => ⟨nested.lastHolder_resume, ?_⟩
      refine slots.resume nested (fun _ => ⟨rfl, fun _ => rfl⟩) ?_
      rintro rfl j hj
      obtain ⟨-, j', hj', -, -, -, -, before⟩ := slots
      obtain rfl : i = j := by simpa using hg.symm.trans hj
      obtain rfl : i = j' := by simpa using hg.symm.trans hj'
      have untouched := before (by simp [pc])
      rw [ref, hx rfl, untouched.1] at zero
      exact untouched.unlinked zero
    · rw [if_neg zero]
      refine inv.local ht null hp (by simp [pc]) (by simp) ?_ (by simp [nested.lastHolder])
        fun last slots => ⟨last, ?_⟩
      · exact nested.move rfl (by simp) (by simp [Frame.loaded])
      · exact slots.moveInner nested (fun _ => ⟨rfl, fun _ => rfl⟩) (by simp [pc]) (by simp)
          fun _ _ => zero

/-- `refed = get_data_at_addr(start, _ref)`. -/
theorem Inv.loadRef (inv : Inv o holders root s₀ s) (ht : t ∈ holders) (null : o ≠ 0) {f : Frame}
    {fs : List Frame} (hp : s.progress t = .active (f :: fs)) (pc : f.pc = .loadRef) :
    Inv o holders root s₀ (s.setProgress t
      (.active ({ f with refed := s.base.mem.loc f.ref, pc := .loadInfo } :: fs))) := by
  have nested := (inv.active ht hp).1
  cases fs with
  | nil =>
    have mem := mem_holding ht (committed_active hp (by simp [pc]))
    refine inv.local ht null hp (by simp [pc]) (by simp) ?_ (fun _ _ => .inl rfl) ?_
    · refine nested.move rfl (fun _ _ => ?_) (by simp)
      rw [nested.1]
      exact inv.holds t mem
    · simp [lastHolder, pc]
  | cons g fs =>
    obtain ⟨x, i, ref, -⟩ := nested.ref
    refine inv.local ht null hp (by simp [pc]) (by simp) ?_ (by simp [nested.lastHolder])
      fun last slots => ⟨last, ?_⟩
    · refine nested.move rfl (by simp) fun _ _ => ?_
      rw [ref]
      exact inv.embedded_ne x i
    · exact slots.moveInner nested (fun _ => ⟨rfl, fun _ => rfl⟩) (by simp [pc]) (by simp)
        (by simp [pc])

theorem Frame.shared_eq_false_iff (f : Frame) :
    f.shared = false ↔ getRefCntFromInfo f.refInfo = 1 := by
  unfold Frame.shared
  simp

/-- `ref_info = refed->ref_info`, and the first decision. -/
theorem Inv.loadInfo (inv : Inv o holders root s₀ s) (ht : t ∈ holders) (null : o ≠ 0)
    {f g : Frame} {fs : List Frame} (hp : s.progress t = .active (f :: fs)) (pc : f.pc = .loadInfo)
    (hg : g = { f with refInfo := s.base.mem.refInfo f.refed }) :
    Inv o holders root s₀ (s.setProgress t
      (.active ({ g with pc := if g.shared then .loadArg else .testIndex 0 } :: fs))) := by
  have nested := (inv.active ht hp).1
  have pc' : (if g.shared then Pc.loadArg else .testIndex 0) ≠ .unlink := by split <;> simp
  have moved : Nested o (root t)
      ({ g with pc := if g.shared then Pc.loadArg else .testIndex 0 } :: fs) := by
    refine nested.move (by rw [hg]) ?_ ?_
    · rintro rfl -
      rw [hg]
      exact nested.2 (by simp [Frame.loaded, pc])
    · intro some _
      obtain ⟨h, fs, rfl⟩ := List.exists_cons_of_ne_nil some
      rw [hg]
      exact nested.2.1 (by simp [Frame.loaded, pc])
  cases fs with
  | nil =>
    have mem := mem_holding ht (committed_active hp (by simp [pc]))
    refine inv.local ht null hp (by simp [pc]) pc' moved (fun _ slots => ?_) (by simp [lastHolder, pc])
    cases shared : g.shared with
    | true =>
      left
      simp only [if_true, lastHolder]
      simpa [Frame.shared] using shared
    | false =>
      -- the count is that of the holders, so this client is the only one
      right
      have one : (holding holders s).card ≤ 1 := by
        have word := (Frame.shared_eq_false_iff g).1 shared
        rw [hg] at word
        apply le_of_eq
        simpa [nested.2 (by simp [Frame.loaded, pc]), inv.refCnt] using word
      refine ⟨Finset.eq_singleton_iff_unique_mem.2 ⟨mem, fun u hu =>
        Finset.card_le_one.1 one u hu t mem⟩, by simp [lastHolder], ?_⟩
      refine ⟨?_, by simp, fun j _ => slots j⟩
      simpa [Frame.shared] using shared
  | cons h fs =>
    refine inv.local ht null hp (by simp [pc]) pc' moved (by simp [nested.lastHolder])
      fun last slots => ⟨last, ?_⟩
    exact slots.moveInner nested (fun _ => ⟨rfl, fun _ => rfl⟩) (by simp [pc])
      (fun now => pc' now.1) (by simp [pc])

/-- `i<refed->embedded_ref_cnt`. -/
theorem Inv.testIndex (inv : Inv o holders root s₀ s) (ht : t ∈ holders) (null : o ≠ 0) {f : Frame}
    {fs : List Frame} {i : ℕ} (hp : s.progress t = .active (f :: fs)) (pc : f.pc = .testIndex i) :
    Inv o holders root s₀ (s.setProgress t (if i < s.embeddedRefCnt f.refed
      then .active (.entry (.embedded f.refed i) :: { f with pc := .embedded i } :: fs)
      else .active ({ f with pc := .loadArg } :: fs))) := by
  have nested := (inv.active ht hp).1
  have loaded : f.loaded := by simp [Frame.loaded, pc]
  have mem := mem_holding ht (committed_active hp (by simp [pc]))
  by_cases more : i < s.embeddedRefCnt f.refed
  · have inside : Nested o (root t) ({ f with pc := .embedded i } :: fs) := by
      refine nested.move rfl ?_ ?_
      · rintro rfl -
        exact nested.2 loaded
      · intro some _
        obtain ⟨h, fs, rfl⟩ := List.exists_cons_of_ne_nil some
        exact nested.2.1 loaded
    have entered : Nested o (root t)
        (.entry (.embedded f.refed i) :: { f with pc := .embedded i } :: fs) :=
      ⟨⟨i, rfl, rfl⟩, by simp [Frame.entry, Frame.loaded], inside⟩
    rw [if_pos more]
    cases fs with
    | nil =>
      refine inv.local ht null hp (by simp [pc]) (by simp [Frame.entry]) entered
        (by simp [lastHolder, pc]) fun _ slots => ⟨rfl, ?_⟩
      simp only [SlotsAt, pc] at slots
      obtain ⟨alone, done, rest⟩ := slots
      exact ⟨by simpa [Frame.shared] using alone, i, rfl, done, fun j hj => rest j hj.le,
        by simp [Frame.entry], by simp [Frame.entry], fun _ => rest i le_rfl⟩
    | cons h fs =>
      refine inv.local ht null hp (by simp [pc]) (by simp [Frame.entry]) entered
        (by simp [nested.lastHolder]) fun last slots => ⟨last, ?_⟩
      have below : SlotsAt o s₀ s (s.base.ctl t) ({ f with pc := .embedded i } :: h :: fs) :=
        slots.moveInner nested (fun _ => ⟨rfl, fun _ => rfl⟩) (by simp [pc]) (by simp) (by simp [pc])
      exact below
  · rw [if_neg more]
    cases fs with
    | nil =>
      have refed := nested.2 loaded
      refine inv.local ht null hp (by simp [pc]) (by simp)
        (nested.move rfl (fun _ _ => refed) (by simp)) (by simp [lastHolder, pc]) fun _ slots => ?_
      simp only [SlotsAt, pc] at slots
      obtain ⟨alone, done, -⟩ := slots
      refine ⟨by simpa [lastHolder, Frame.shared] using alone, fun j hj => done j ?_⟩
      rw [refed, inv.embedded ⟨t, mem⟩] at more
      omega
    | cons h fs =>
      refine inv.local ht null hp (by simp [pc]) (by simp)
        (nested.move rfl (by simp) fun _ _ => nested.2.1 loaded) (by simp [nested.lastHolder])
        fun last slots => ⟨last, ?_⟩
      exact slots.moveInner nested (fun _ => ⟨rfl, fun _ => rfl⟩) (by simp [pc]) (by simp)
        (by simp [pc])

/-- The call of `unlink_reference`. -/
theorem Inv.loadArg (inv : Inv o holders root s₀ s) (ht : t ∈ holders) (null : o ≠ 0) {f : Frame}
    {fs : List Frame} {b : CxlShm.State ObjLoc} (hp : s.progress t = .active (f :: fs))
    (pc : f.pc = .loadArg)
    (hs : s.base.step (.unlink t f.ref (s.base.mem.loc f.ref)) = some b) :
    Inv o holders root s₀
      ({ s with base := b }.setProgress t (.active ({ f with pc := .unlink } :: fs))) := by
  obtain ⟨idle, rfl⟩ := enter_eq_some hs
  have nested := (inv.active ht hp).1
  have loaded : f.loaded := by simp [Frame.loaded, pc]
  have mem := mem_holding ht (committed_active hp (by simp [pc]))
  have ctl : (s.base.setCtl t (.call ⟨.unlinkRef, f.ref, s.base.mem.loc f.ref, .loadInfo, 0, 0⟩)).ctl t =
      .call ⟨.unlinkRef, f.ref, s.base.mem.loc f.ref, .loadInfo, 0, 0⟩ := Function.update_self _ _ _
  have target : Target o s₀ (s.base.mem.loc f.ref) ({ f with pc := .unlink } :: fs) := by
    match fs, nested with
    | [], nested =>
      exact (congrArg _ nested.1).trans (inv.holds t mem)
    | [g], nested =>
      obtain ⟨x, i, ref, hg, hx, -⟩ := nested.ref
      obtain ⟨-, i', hg', -, -, -, -, before⟩ := inv.slotsAt ht hp
      obtain rfl : i = i' := by simpa using hg.symm.trans hg'
      simpa only [Target, ref, hx rfl] using (before (by simp [pc])).1
    | g :: h :: fs, nested =>
      obtain ⟨x, i, ref, -⟩ := nested.ref
      simpa only [Target, ref] using inv.embedded_ne x i
  have moved : Nested o (root t) ({ f with pc := .unlink } :: fs) := by
    refine nested.move rfl ?_ ?_
    · rintro rfl -
      exact nested.2 loaded
    · intro some _
      obtain ⟨h, fs, rfl⟩ := List.exists_cons_of_ne_nil some
      exact nested.2.1 loaded
  refine inv.move ht null hp (by simp [pc]) rfl rfl (fun u hu => Function.update_of_ne hu _ _) ?_ ?_
    ⟨moved, fun _ => ⟨_, ctl, rfl, rfl, by simp, by simp, target⟩, by simp⟩ ?_ ?_
  · refine committed_active (Function.update_self _ _ _) fun _ => ?_
    exact (congrArg past ctl).trans rfl
  · rw [ctl]
    simp [freePending, Call.last, Call.refInfoCnt]
  · cases fs with
    | nil => exact fun tested _ => .inl (by simpa [lastHolder, pc, Frame.shared] using tested)
    | cons g fs => simp [nested.lastHolder]
  · cases fs with
    | nil =>
      intro last slots
      refine ⟨by simpa [lastHolder, pc, Frame.shared] using last, ?_⟩
      simpa only [SlotsAt, pc] using slots
    | cons g fs =>
      refine fun last slots => ⟨last, ?_⟩
      refine slots.moveInner nested (fun _ => ⟨rfl, fun _ => rfl⟩) (by simp [pc]) ?_ (by simp [pc])
      rw [ctl]
      simp [past, Pc.announced]

/-! ## Steps of `unlink_reference` inside an embedded reference -/

/-- Below two activations the booking does not depend on where the innermost one is. -/
theorem SlotsAt.deep {k : ℕ} {f f' g h : Frame} {fs : List Frame} {c c' : Control ObjLoc}
    (slots : SlotsAt o s₀ s c (f :: g :: h :: fs)) (nested : Nested o k (f :: g :: h :: fs))
    (same : SameSlots o s s') : SlotsAt o s₀ s' c' (f' :: g :: h :: fs) := by
  obtain ⟨x, i, -, hg, -, -⟩ := nested.ref
  have below : SlotsAt o s₀ s' c' (g :: h :: fs) :=
    SlotsAt.moveInner (f := g) slots nested.2.2 same (by simp [hg]) (by simp [hg]) (by simp [hg])
  exact below

/-- A step of a nested activation that leaves the word of `o` and the `RootRef`s alone. -/
theorem Inv.inner (inv : Inv o holders root s₀ s) (ht : t ∈ holders) (null : o ≠ 0) {f g : Frame}
    {fs fs' : List Frame} (hp : s.progress t = .active (f :: g :: fs))
    (moved : Moved t (.active fs') s s') (after : committed s' t = false)
    (now : At o s₀ (root t) (s'.base.ctl t) (.active fs'))
    (loc : ∀ r, s'.base.mem.loc r = s.base.mem.loc r ∨ s'.base.mem.loc r = 0 ∧ ∀ k, r ≠ .root k)
    (word : s'.base.mem.refInfo o = s.base.mem.refInfo o)
    (embedded : s'.embeddedRefCnt o = s.embeddedRefCnt o)
    (era : ∀ i, s'.base.mem.eraArray i < 2 ^ 32)
    (pending : freePending o (s'.base.ctl t) = freePending o (s.base.ctl t))
    (freed : freedTimes s' o = freedTimes s o) (last : lastHolder fs' = true)
    (slots : SlotsAt o s₀ s' (s'.base.ctl t) fs') : Inv o holders root s₀ s' := by
  have before : committed s t = false := by
    unfold committed
    rw [hp]
  refine inv.keep ht moved (after.trans before.symm) now (fun r => ?_) null word embedded era pending
    freed (inv.ledger.keepOwn moved ht before after (fun tested _ => ?_) fun _ _ _ _ => ⟨last, slots⟩)
  · exact (loc r).imp_right fun zero => ⟨zero.1, fun u _ => zero.2 _⟩
  · have := tested _ hp
    rw [(inv.active ht hp).1.lastHolder] at this
    cases this

theorem Target.ne {f g : Frame} {fs : List Frame} {x : Offset}
    (target : Target o s₀ x (f :: g :: fs)) {k : ℕ} (nested : Nested o k (f :: g :: fs))
    (fresh : ∀ y i, s₀.base.mem.loc (.embedded y i) ≠ o) : x ≠ o := by
  cases fs with
  | nil =>
    obtain ⟨y, i, ref, -⟩ := nested.ref
    rw [Target, ref] at target
    exact target ▸ fresh y i
  | cons h fs => exact target

theorem freePending_of_ne {c : Call ObjLoc} (other : c.refed ≠ o) :
    freePending o (.call c) = false := by
  simp [freePending, other]

theorem unlinkedTimes_append {e : Event ObjLoc} (r : ObjLoc) (x : Offset)
    (trace : s'.base.trace = s.base.trace ++ [e]) :
    unlinkedTimes s' r x = unlinkedTimes s r x + if unlinks r x e then 1 else 0 := by
  rw [unlinkedTimes, trace, List.countP_append, List.countP_singleton]
  rfl

theorem freedTimes_append {e : Event ObjLoc} (x : Offset)
    (trace : s'.base.trace = s.base.trace ++ [e]) :
    freedTimes s' x = freedTimes s x + if frees x e then 1 else 0 := by
  rw [freedTimes, trace, List.countP_append, List.countP_singleton]
  rfl

theorem clearedCnt_of_ne {c : Call ObjLoc} (hc : s.base.ctl t = .call c) (other : c.refed ≠ o) :
    s.clearedCnt t o = s.embeddedRefCnt o := by
  unfold State.clearedCnt
  rw [hc]
  dsimp only
  split
  · exact Function.update_of_ne other.symm _ _
  · rfl

theorem past_call {c : Call ObjLoc} : past (.call c) = !c.pc.announced := rfl

/-- The compare-exchange of a nested activation books its embedded reference. -/
theorem SlotsAt.cas {k : ℕ} {f g : Frame} {fs : List Frame} {c : Call ObjLoc} {c' : Control ObjLoc}
    (slots : SlotsAt o s₀ s (.call c) (f :: g :: fs)) (nested : Nested o k (f :: g :: fs))
    (announced : c.pc.announced) (func : c.func = .unlinkRef) (ref : c.ref = f.ref)
    (target : Target o s₀ c.refed (f :: g :: fs)) (pc : f.pc = .unlink) (now : past c' = true)
    (loc : s'.base.mem.loc = s.base.mem.loc)
    (trace : s'.base.trace = s.base.trace ++ [.casOk t c.redoLog]) :
    SlotsAt o s₀ s' c' (f :: g :: fs) := by
  obtain ⟨x, i, href, hg, hx, hx'⟩ := nested.ref
  have same : ∀ j, f.ref ≠ .embedded o j → s'.base.mem.loc (.embedded o j) =
      s.base.mem.loc (.embedded o j) ∧ ∀ x,
        unlinkedTimes s' (.embedded o j) x = unlinkedTimes s (.embedded o j) x := by
    intro j other
    refine ⟨congrFun loc _, fun x => ?_⟩
    rw [unlinkedTimes_append _ _ trace]
    simp [unlinks, Call.redoLog, ref, other]
  cases fs with
  | nil =>
    obtain ⟨alone, i', hg', done, rest, some, -, before⟩ := slots
    obtain rfl : i = i' := by simpa using hg.symm.trans hg'
    have untouched := before (by simp [past, announced])
    rw [hx rfl] at href
    have different : ∀ j, j ≠ i → f.ref ≠ .embedded o j := by
      intro j hj h
      exact hj (by simpa using h.symm.trans href)
    refine ⟨alone, i, hg, fun j hj y hy => ?_, fun j hj => ?_, some, fun _ y hy => ?_,
      fun h => absurd ⟨pc, now⟩ h⟩
    · rw [(same j (different j hj.ne)).2 y]
      exact done j hj y hy
    · have same := same j (different j hj.ne')
      exact ⟨same.1.trans (rest j hj).1, fun y => (same.2 y).trans ((rest j hj).2 y)⟩
    · rw [unlinkedTimes_append _ _ trace, untouched.2 y]
      rw [Target, href] at target
      simp [unlinks, Call.redoLog, func, ref, href, target]
  | cons h fs =>
    refine slots.deep nested fun j => same j ?_
    rw [href]
    simpa using fun eq => absurd eq (hx' (by simp))

/-- The store of a nested activation clears its embedded reference, which is already booked. -/
theorem SlotsAt.storeRef {k : ℕ} {f g : Frame} {fs : List Frame} {c : Call ObjLoc}
    {c' : Control ObjLoc} (slots : SlotsAt o s₀ s (.call c) (f :: g :: fs))
    (nested : Nested o k (f :: g :: fs)) (done : past (.call c) = true) (pc : f.pc = .unlink)
    (now : past c' = true) {v : Offset}
    (loc : s'.base.mem.loc = Function.update s.base.mem.loc f.ref v)
    (trace : s'.base.trace = s.base.trace) : SlotsAt o s₀ s' c' (f :: g :: fs) := by
  obtain ⟨x, i, href, hg, hx, hx'⟩ := nested.ref
  have same : ∀ j, f.ref ≠ .embedded o j → s'.base.mem.loc (.embedded o j) =
      s.base.mem.loc (.embedded o j) := by
    intro j other
    rw [loc, Function.update_of_ne other.symm]
  have times : ∀ r x, unlinkedTimes s' r x = unlinkedTimes s r x := fun r x => by
    rw [unlinkedTimes, trace, unlinkedTimes]
  cases fs with
  | nil =>
    obtain ⟨alone, i', hg', before, rest, some, after, -⟩ := slots
    obtain rfl : i = i' := by simpa using hg.symm.trans hg'
    rw [hx rfl] at href
    refine ⟨alone, i, hg, fun j hj y hy => (times _ _).trans (before j hj y hy), fun j hj => ?_, some,
      fun _ y hy => (times _ _).trans (after ⟨pc, done⟩ y hy), fun h => absurd ⟨pc, now⟩ h⟩
    refine ⟨(same j ?_).trans (rest j hj).1, fun y => (times _ _).trans ((rest j hj).2 y)⟩
    rw [href]
    simpa using hj.ne
  | cons h fs =>
    refine slots.deep nested fun j => ⟨same j ?_, times _⟩
    rw [href]
    simpa using fun eq => absurd eq (hx' (by simp))

/-- The return of a nested activation from its last access. -/
theorem Inv.popInner (inv : Inv o holders root s₀ s) (ht : t ∈ holders) (null : o ≠ 0) {f g : Frame}
    {fs : List Frame} (hp : s.progress t = .active (f :: g :: fs)) (pc : f.pc = .unlink)
    {c : Call ObjLoc} (hc : s.base.ctl t = .call c) (done : ¬ c.pc.announced) (other : c.refed ≠ o)
    (moved : Moved t (.active (g.resume :: fs)) s s') (idle : s'.base.ctl t = .idle)
    (loc : s'.base.mem.loc = s.base.mem.loc) (same : SameSlots o s s')
    (word : s'.base.mem.refInfo o = s.base.mem.refInfo o)
    (embedded : s'.embeddedRefCnt o = s.embeddedRefCnt o)
    (era : ∀ i, s'.base.mem.eraArray i < 2 ^ 32) (freed : freedTimes s' o = freedTimes s o) :
    Inv o holders root s₀ s' := by
  have nested := (inv.active ht hp).1
  obtain ⟨x, i, -, hg, -, -⟩ := nested.ref
  have goes : g.resume.pc ≠ .unlink := by simp [Frame.resume, hg]
  refine inv.inner ht null hp moved (committed_active moved.progress_self fun h => absurd h goes) ?_
    (fun r => .inl (congrFun loc r)) word embedded era ?_ freed nested.lastHolder_resume ?_
  · exact ⟨nested.resume, fun h => absurd h goes, fun _ => idle⟩
  · rw [idle, hc, freePending_of_ne other]
    rfl
  · refine (inv.slotsAt ht hp).resume nested same ?_
    rintro rfl j hj
    obtain ⟨-, j', hj', -, -, -, after, -⟩ := inv.slotsAt ht hp
    obtain rfl : j = j' := by simpa using hj.symm.trans hj'
    exact after ⟨pc, by simpa [hc, past] using done⟩

/-- An access of a nested activation in its `unlink_reference`. -/
theorem Inv.unlinkInner (inv : Inv o holders root s₀ s) (ht : t ∈ holders) (null : o ≠ 0)
    (fresh : ∀ x i, s₀.base.mem.loc (.embedded x i) ≠ o) {f g : Frame} {fs : List Frame}
    (hp : s.progress t = .active (f :: g :: fs)) (pc : f.pc = .unlink) {c : Call ObjLoc}
    (hc : s.base.ctl t = .call c) (weak : Bool) {b : CxlShm.State ObjLoc}
    (hb : b = s.base.runCall t c weak) :
    Inv o holders root s₀ ({ s with base := b, embeddedRefCnt := s.clearedCnt t }.setProgress t
      (if b.ctl t = Control.idle then Progress.pop (g :: fs) else .active (f :: g :: fs))) := by
  obtain ⟨nested, unlinking, -⟩ := inv.active ht hp
  obtain ⟨c', hc', func, ref, cur, free, target⟩ := unlinking pc
  obtain rfl : c = c' := by simpa using hc.symm.trans hc'
  have slots := inv.slotsAt ht hp
  rw [hc] at slots
  have other : c.refed ≠ o := target.ne nested fresh
  have cleared := clearedCnt_of_ne hc other
  have era : ∀ i, b.mem.eraArray i < 2 ^ 32 := hb ▸ Call.exec_era_lt inv.era t c weak
  have pending : freePending o (s.base.ctl t) = false := by rw [hc, freePending_of_ne other]
  have two : ∀ {b : CxlShm.State ObjLoc}, committed
      ({ s with base := b, embeddedRefCnt := s.clearedCnt t }.setProgress t
        (.active (f :: g :: fs))) t = false := by
    simp [committed, State.setProgress]
  obtain ⟨x, i, href, -⟩ := nested.ref
  obtain ⟨m, c', run, before, after, func', ref', refed', cur', word, loc⟩ | ⟨hpc, -, -, run⟩ |
    ⟨hpc, run⟩ | ⟨hpc, run⟩ | ⟨hpc, run⟩ := runCall_cases s.base t c weak
  · -- nothing visible has happened yet
    have ctl : b.ctl t = .call c' := by
      rw [hb, run]
      exact Function.update_self _ _ _
    rw [ctl, if_neg (by simp)]
    have same : SameSlots o s ({ s with base := b, embeddedRefCnt := s.clearedCnt t }.setProgress t
        (.active (f :: g :: fs))) := by
      subst hb
      rw [run]
      exact fun i => ⟨congrFun loc _, fun _ => rfl⟩
    refine inv.inner ht null hp ⟨rfl, fun u hu => ?_⟩ two ?_ ?_ ?_ cleared era ?_ ?_
      nested.lastHolder ?_
    · rw [hb, run]
      exact Function.update_of_ne hu _ _
    · refine ⟨nested, fun _ => ⟨c', ctl, func'.trans func, ref'.trans ref, ?_, ?_, ?_⟩,
        fun h => absurd pc h⟩
      · rcases cur' with cur' | cur'
        · exact cur' ▸ cur
        · exact cur' ▸ inv.era _
      · rintro free
        simp [free, Pc.announced] at after
      · rwa [refed']
    · rw [hb, run]
      exact fun r => .inl (congrFun loc r)
    · rw [hb, run]
      exact congrFun word o
    · refine Eq.trans ?_ pending.symm
      rw [← freePending_of_ne (c := c') (refed' ▸ other), ← ctl]
      rfl
    · rw [hb, run]
      rfl
    · refine slots.moveInner nested same (by simp [past, before]) ?_ fun h => absurd h (by simp [pc])
      exact fun now => by simpa [State.setProgress, ctl, past, after] using now.2
  · subst hb
    rw [run, if_neg (by simp [State.setCtl])]
    refine inv.inner ht null hp ⟨rfl, fun u hu => Function.update_of_ne hu _ _⟩ two ?_
      (fun _ => .inl rfl) (Function.update_of_ne other.symm _ _) cleared ?_ ?_ ?_ nested.lastHolder ?_
    · exact ⟨nested, fun _ => ⟨_, Function.update_self _ _ _, func, ref, cur, by simp, target⟩,
        fun h => absurd pc h⟩
    · rw [← run]
      exact era
    · rw [pending]
      simp [State.setCtl, State.setProgress, freePending_of_ne, other]
    · rw [freedTimes_append (e := .casOk t c.redoLog) o rfl]
      rfl
    · refine slots.cas nested (by simp [hpc, Pc.announced]) func ref target pc ?_ rfl rfl
      simp [State.setCtl, State.setProgress, past, Pc.announced]
  · subst hb
    rw [run, if_neg (by simp [State.setCtl])]
    refine inv.inner ht null hp ⟨rfl, fun u hu => Function.update_of_ne hu _ _⟩ two ?_
      (fun r => ?_) rfl cleared inv.era ?_ rfl nested.lastHolder ?_
    · exact ⟨nested, fun _ => ⟨_, Function.update_self _ _ _, func, ref, cur, by simp, target⟩,
        fun h => absurd pc h⟩
    · by_cases hr : r = c.ref
      · refine .inr ⟨?_, fun k => by simp [hr, ref, href]⟩
        rw [hr]
        exact (Function.update_self _ _ _).trans (by simp [Call.newRef, func])
      · exact .inl (Function.update_of_ne hr _ _)
    · rw [pending]
      simp [State.setCtl, State.setProgress, freePending_of_ne, other]
    · refine slots.storeRef nested (by simp [past, hpc, Pc.announced]) pc ?_ (by rw [← ref]; rfl) rfl
      simp [State.setCtl, State.setProgress, past, Pc.announced]
  · subst hb
    cases last : c.last with
    | true =>
      rw [run, last, if_pos rfl, if_neg (by simp [State.setCtl])]
      refine inv.inner ht null hp ⟨rfl, fun u hu => Function.update_of_ne hu _ _⟩ two ?_
        (fun r => .inl rfl) rfl cleared ?_ ?_ rfl nested.lastHolder ?_
      · exact ⟨nested, fun _ => ⟨_, Function.update_self _ _ _, func, ref, cur, fun _ => last, target⟩,
          fun h => absurd pc h⟩
      · exact Mem.bumpEra_lt inv.era t
      · rw [pending]
        simp [State.setCtl, State.setProgress, freePending_of_ne, other]
      · refine SlotsAt.congr ?_ ?_ slots
        · exact fun i => ⟨rfl, fun x => rfl⟩
        · simp [State.setCtl, State.setProgress, past, hpc, Pc.announced]
    | false =>
      rw [run, last, if_neg (by simp), if_pos (by simp [State.setCtl])]
      exact inv.popInner ht null hp pc hc (by simp [hpc, Pc.announced]) other
        ⟨rfl, fun u hu => Function.update_of_ne hu _ _⟩ (Function.update_self _ _ _) rfl
        (fun _ => ⟨rfl, fun _ => rfl⟩) rfl cleared (Mem.bumpEra_lt inv.era t) rfl
  · subst hb
    rw [run, if_pos (by simp [State.setCtl])]
    refine inv.popInner ht null hp pc hc (by simp [hpc, Pc.announced]) other
      ⟨rfl, fun u hu => Function.update_of_ne hu _ _⟩ (Function.update_self _ _ _) rfl
      (fun i => ⟨rfl, fun x => ?_⟩) (Function.update_of_ne other.symm _ _) cleared inv.era ?_
    · rw [unlinkedTimes_append (e := .freed t c.refed) _ _ rfl]
      rfl
    · rw [freedTimes_append (e := .freed t c.refed) _ rfl]
      simp [TestFree.frees, other]

/-! ## Steps of the outermost `unlink_reference` -/

theorem committed_outer {f : Frame} (hp : s.progress t = .active [f]) (pc : f.pc = .unlink) :
    committed s t = past (s.base.ctl t) := by
  simp [committed, hp, pc]

/-- The compare-exchange that gives up a reference to `o`. -/
theorem Inv.casOuter (inv : Inv o holders root s₀ s) (ht : t ∈ holders) {f : Frame}
    (hp : s.progress t = .active [f]) (pc : f.pc = .unlink) {c : Call ObjLoc}
    (hc : s.base.ctl t = .call c) (hpc : c.pc = .cas) (word : s.base.mem.refInfo o = c.refInfo)
    (refed : c.refed = o) (agrees : getRefCntFromInfo c.refInfo = 1 → f.shared = false)
    (moved : Moved t (.active [f]) s s')
    (ctl : s'.base.ctl t = .call { c with pc := .storeRef })
    (mem : s'.base.mem = s.base.mem.setRefInfo c.refed (c.newRefInfo t))
    (trace : s'.base.trace = s.base.trace ++ [.casOk t c.redoLog])
    (embedded : s'.embeddedRefCnt = s.embeddedRefCnt) : Inv o holders root s₀ s' := by
  obtain ⟨nested, unlinking, -⟩ := inv.active ht hp
  obtain ⟨c', hc', func, ref, cur, free, target⟩ := unlinking pc
  obtain rfl : c = c' := by simpa using hc.symm.trans hc'
  have before : committed s t = false := by
    rw [committed_outer hp pc, hc, past_call, hpc]
    rfl
  have after : committed s' t = true := by
    rw [committed_outer moved.progress_self pc, ctl]
    rfl
  have held : t ∈ holding holders s := mem_holding ht before
  have erased : holding holders s' = (holding holders s).erase t := moved.holding_erase after
  have card : (holding holders s').card + 1 = (holding holders s).card := by
    rw [erased]
    exact Finset.card_erase_add_one held
  have cnt : getRefCntFromInfo c.refInfo = (holding holders s).card := word ▸ inv.refCnt
  have same : SameSlots o s s' := by
    refine fun i => ⟨by rw [mem]; rfl, fun x => ?_⟩
    rw [unlinkedTimes_append _ _ trace]
    simp [unlinks, Call.redoLog, ref, nested.1]
  have freed : freedTimes s' o = freedTimes s o := by
    rw [freedTimes_append _ trace]
    rfl
  refine ⟨moved.others inv ht, moved.place inv ?_, ?_, ?_, ?_, ?_, ?_, ?_, ?_⟩
  · exact ⟨nested, fun _ => ⟨_, ctl, func, ref, cur, by simp, target⟩, fun h => absurd pc h⟩
  · intro u hu
    rw [erased] at hu
    rw [mem]
    exact inv.holds u (Finset.mem_of_mem_erase hu)
  · rw [mem]
    exact inv.only
  · have small := getRefCntFromInfo_lt c.refInfo
    have less : (c.refInfoCnt + (2 ^ 64 - 1)) % 2 ^ 64 = (holding holders s').card := by
      rw [Call.refInfoCnt, cnt]
      rw [cnt] at small
      omega
    rw [mem, refed, Mem.setRefInfo]
    simp only [Function.update_self, Call.newRefInfo, func, less]
    exact getRefCntFromInfo_packRefInfo (by omega) cur
  · rintro ⟨u, hu⟩
    rw [embedded]
    exact inv.embedded ⟨t, held⟩
  · rw [mem]
    exact inv.era
  · have frees := inv.frees
    rw [if_neg (Finset.ne_empty_of_mem held)] at frees
    by_cases one : (holding holders s).card = 1
    · have pending : freePending o (s'.base.ctl t) = true := by
        rw [ctl]
        simp [freePending, Call.last, Call.refInfoCnt, func, cnt, one, refed, Pc.announced]
      have quiet : t ∉ freeing o holders s := by
        intro dying
        have := (Finset.mem_filter.1 dying).2
        rw [hc] at this
        simp [freePending, hpc, Pc.announced] at this
      have empty : holding holders s' = ∅ := Finset.card_eq_zero.1 (by omega)
      rw [freed, moved.freeing_insert ht pending, Finset.card_insert_of_notMem quiet, if_pos empty]
      omega
    · have pending : freePending o (s'.base.ctl t) = freePending o (s.base.ctl t) := by
        rw [ctl, hc]
        simp [freePending, Call.last, Call.refInfoCnt, func, cnt, one, hpc, Pc.announced]
      have some : holding holders s' ≠ ∅ := by
        intro empty
        rw [empty] at card
        exact one card.symm
      rw [freed, moved.freeing_eq pending, if_neg some]
      exact frees
  · cases inv.ledger with
    | shared _ tested slots =>
      -- the call read a larger count, so others hold the object
      have sharing : f.shared = true := by simpa [lastHolder, pc] using tested t held _ hp
      have more : (holding holders s).card ≠ 1 := by
        intro one
        rw [agrees (cnt.trans one)] at sharing
        cases sharing
      refine .shared (Finset.card_pos.1 (by have := Finset.card_pos.2 ⟨t, held⟩; omega)) ?_
        fun j => (slots j).congr same
      intro u hu fs hfs
      rw [erased] at hu
      have other := Finset.ne_of_mem_erase hu
      exact tested u (Finset.mem_of_mem_erase hu) fs (moved.progress_of_ne other ▸ hfs)
    | releasing u fs alone active _ slots =>
      obtain rfl : t = u := Finset.mem_singleton.1 (alone ▸ held)
      obtain rfl := Progress.active.inj (hp.symm.trans active)
      refine .released (by rw [erased, alone]; simp) fun j hj => ?_
      simp only [SlotsAt, pc] at slots
      exact (slots j hj).congr same
    | released none _ => simp [none] at held

/-- The free of the object. -/
theorem Inv.freeOuter (inv : Inv o holders root s₀ s) (ht : t ∈ holders) {f : Frame}
    (hp : s.progress t = .active [f]) (pc : f.pc = .unlink) {c : Call ObjLoc}
    (hc : s.base.ctl t = .call c) (hpc : c.pc = .free) (refed : c.refed = o)
    (moved : Moved t .returned s s') (ctl : s'.base.ctl t = .idle)
    (mem : s'.base.mem = s.base.mem.setRefInfo c.refed 0)
    (trace : s'.base.trace = s.base.trace ++ [.freed t c.refed]) : Inv o holders root s₀ s' := by
  obtain ⟨nested, unlinking, -⟩ := inv.active ht hp
  obtain ⟨c', hc', func, ref, cur, free, target⟩ := unlinking pc
  obtain rfl : c = c' := by simpa using hc.symm.trans hc'
  have before : committed s t = true := by
    rw [committed_outer hp pc, hc, past_call, hpc]
    rfl
  have after : committed s' t = true := by
    unfold committed
    rw [moved.progress_self]
  have held : holding holders s' = holding holders s := moved.holding_eq (after.trans before.symm)
  have dying : t ∈ freeing o holders s := by
    refine Finset.mem_filter.2 ⟨ht, ?_⟩
    rw [hc]
    simp [freePending, hpc, Pc.announced, refed]
    simpa [refed] using free hpc
  have frees := inv.frees
  have one := Finset.card_pos.2 ⟨t, dying⟩
  have empty : holding holders s = ∅ := by
    by_contra some
    rw [if_neg some] at frees
    omega
  rw [if_pos empty] at frees
  have same : SameSlots o s s' := by
    refine fun i => ⟨by rw [mem]; rfl, fun x => ?_⟩
    rw [unlinkedTimes_append _ _ trace]
    rfl
  refine ⟨moved.others inv ht, moved.place inv ctl, ?_, ?_, ?_, ?_, ?_, ?_,
    inv.ledger.keepOther moved before after same⟩
  · intro u hu
    simp [held, empty] at hu
  · rw [mem]
    exact inv.only
  · rw [mem, refed, held, empty]
    simp [Mem.setRefInfo]
  · rintro ⟨u, hu⟩
    simp [held, empty] at hu
  · rw [mem]
    exact inv.era
  · have gone : freePending o (s'.base.ctl t) = false := by
      rw [ctl]
      rfl
    rw [freedTimes_append _ trace, moved.freeing_erase gone, held, if_pos empty]
    have erase := Finset.card_erase_add_one dying
    simp only [TestFree.frees, refed, decide_true, if_true]
    omega

theorem freePending_pc {c : Call ObjLoc} {pc : CxlShm.Pc} (before : c.pc.announced = false)
    (after : pc.announced = false) :
    freePending o (.call { c with pc := pc }) = freePending o (.call c) := by
  simp only [freePending, before, after]
  rfl

/-- An access of the outermost `unlink_reference`. -/
theorem Inv.unlinkOuter (inv : Inv o holders root s₀ s) (ht : t ∈ holders) (null : o ≠ 0)
    (inj : Set.InjOn root holders) {f : Frame} (hp : s.progress t = .active [f])
    (pc : f.pc = .unlink) {c : Call ObjLoc} (hc : s.base.ctl t = .call c) {weak : Bool}
    (agrees : c.refed = o → c.pc = .cas → weak = false → s.base.mem.refInfo o = c.refInfo →
      getRefCntFromInfo c.refInfo = 1 → f.shared = false)
    {b : CxlShm.State ObjLoc} (hb : b = s.base.runCall t c weak) :
    Inv o holders root s₀ ({ s with base := b, embeddedRefCnt := s.clearedCnt t }.setProgress t
      (if b.ctl t = Control.idle then Progress.pop [] else .active [f])) := by
  obtain ⟨nested, unlinking, -⟩ := inv.active ht hp
  obtain ⟨c', hc', func, ref, cur, free, target⟩ := unlinking pc
  obtain rfl : c = c' := by simpa using hc.symm.trans hc'
  have refed : c.refed = o := target
  have cleared : c.pc ≠ .free → s.clearedCnt t = s.embeddedRefCnt := by
    intro h
    simp [State.clearedCnt, hc, h]
  have standing := committed_outer hp pc
  rw [hc, past_call] at standing
  have era : ∀ i, b.mem.eraArray i < 2 ^ 32 := hb ▸ Call.exec_era_lt inv.era t c weak
  obtain ⟨m, c', run, before, after, func', ref', refed', cur', word, loc⟩ |
    ⟨hpc, won, word, run⟩ | ⟨hpc, run⟩ | ⟨hpc, run⟩ | ⟨hpc, run⟩ := runCall_cases s.base t c weak
  · have ctl : b.ctl t = .call c' := by
      rw [hb, run]
      exact Function.update_self _ _ _
    have notFree : c.pc ≠ .free := by
      rintro h
      simp [h, Pc.announced] at before
    rw [ctl, if_neg (by simp)]
    have moved : Moved t (.active [f]) s ({ s with base := b, embeddedRefCnt := s.clearedCnt t }.setProgress
        t (.active [f])) := by
      refine ⟨rfl, fun u hu => ?_⟩
      rw [hb, run]
      exact Function.update_of_ne hu _ _
    have same : SameSlots o s ({ s with base := b, embeddedRefCnt := s.clearedCnt t }.setProgress t
        (.active [f])) := by
      subst hb
      rw [run]
      exact fun i => ⟨congrFun loc _, fun _ => rfl⟩
    have then_ : committed ({ s with base := b, embeddedRefCnt := s.clearedCnt t }.setProgress t
        (.active [f])) t = false := by
      rw [committed_outer moved.progress_self pc]
      exact (congrArg past ctl).trans (by rw [past_call, after]; rfl)
    rw [before] at standing
    refine inv.keep ht moved (then_.trans standing.symm) ?_ (fun r => .inl ?_) null ?_
      (congrFun (cleared notFree) o) era ?_ ?_ ?_
    · refine ⟨nested, fun _ => ⟨c', ctl, func'.trans func, ref'.trans ref, ?_, ?_, ?_⟩,
        fun h => absurd pc h⟩
      · rcases cur' with cur' | cur'
        · exact cur' ▸ cur
        · exact cur' ▸ inv.era _
      · rintro free
        simp [free, Pc.announced] at after
      · rwa [refed']
    · rw [hb, run]
      exact congrFun loc r
    · rw [hb, run]
      exact congrFun word o
    · refine (congrArg (freePending o) ctl).trans ?_
      rw [hc]
      simp [freePending, before, after]
    · rw [hb, run]
      rfl
    · refine inv.ledger.keepOwn moved ht standing then_ (fun tested _ => .inl ⟨tested _ hp, same⟩)
        fun fs hfs last slots => ?_
      obtain rfl := Progress.active.inj (hp.symm.trans hfs)
      refine ⟨last, slots.congr same ?_⟩
      rw [hc]
      exact (congrArg past ctl).trans (by rw [past_call, past_call, after, before])
  · subst hb
    rw [run, if_neg (by simp [State.setCtl])]
    refine inv.casOuter ht hp pc hc hpc (refed ▸ word) refed (agrees refed hpc won (refed ▸ word))
      ⟨rfl, fun u hu => Function.update_of_ne hu _ _⟩ (Function.update_self _ _ _) rfl rfl
      (cleared (by simp [hpc]))
  · have now : committed s t = true := by simp [standing, hpc, Pc.announced]
    have mine : t ∉ holding holders s := by simp [holding, now]
    subst hb
    rw [run, if_neg (by simp [State.setCtl])]
    have moved : Moved t (.active [f]) s (({ s with
        base := { s.base with mem := s.base.mem.setLoc c.ref c.newRef }.setCtl t
          (.call { c with pc := .bumpEra })
        embeddedRefCnt := s.clearedCnt t } : State).setProgress t (.active [f])) :=
      ⟨rfl, fun u hu => Function.update_of_ne hu _ _⟩
    have then_ := committed_outer moved.progress_self pc
    have ctl : (({ s with
        base := { s.base with mem := s.base.mem.setLoc c.ref c.newRef }.setCtl t
          (.call { c with pc := .bumpEra })
        embeddedRefCnt := s.clearedCnt t } : State).setProgress t (.active [f])).base.ctl t =
        .call { c with pc := .bumpEra } := Function.update_self _ _ _
    rw [ctl] at then_
    refine inv.keep ht moved (then_.trans now.symm) ?_ (fun r => ?_) null rfl
      (congrFun (cleared (by simp [hpc])) o) inv.era ?_ rfl
      (inv.ledger.keepOther moved now then_ fun i => ⟨?_, fun _ => rfl⟩)
    · exact ⟨nested, fun _ => ⟨_, ctl, func, ref, cur, by simp, target⟩, fun h => absurd pc h⟩
    · by_cases hr : r = c.ref
      · refine .inr ⟨?_, fun u hu same => ?_⟩
        · rw [hr]
          exact (Function.update_self _ _ _).trans (by simp [Call.newRef, func])
        · have roots : root t = root u := by simpa [hr, ref, nested.1] using same
          exact mine (inj ht (Finset.mem_filter.1 hu).1 roots ▸ hu)
      · exact .inl (Function.update_of_ne hr _ _)
    · rw [ctl, hc]
      exact freePending_pc (by simp [hpc, Pc.announced]) rfl
    · exact Function.update_of_ne (by simp [ref, nested.1]) _ _
  · have now : committed s t = true := by simp [standing, hpc, Pc.announced]
    subst hb
    cases last : c.last with
    | true =>
      rw [run, last, if_pos rfl, if_neg (by simp [State.setCtl])]
      have moved : Moved t (.active [f]) s (({ s with
          base := { s.base with mem := s.base.mem.bumpEra t }.setCtl t (.call { c with pc := .free })
          embeddedRefCnt := s.clearedCnt t } : State).setProgress t (.active [f])) :=
        ⟨rfl, fun u hu => Function.update_of_ne hu _ _⟩
      have then_ := committed_outer moved.progress_self pc
      have ctl : (({ s with
          base := { s.base with mem := s.base.mem.bumpEra t }.setCtl t (.call { c with pc := .free })
          embeddedRefCnt := s.clearedCnt t } : State).setProgress t (.active [f])).base.ctl t =
          .call { c with pc := .free } := Function.update_self _ _ _
      rw [ctl] at then_
      refine inv.keep ht moved (then_.trans now.symm) ?_ (fun r => .inl rfl) null rfl
        (congrFun (cleared (by simp [hpc])) o) (Mem.bumpEra_lt inv.era t) ?_ rfl
        (inv.ledger.keepOther moved now then_ fun i => ⟨rfl, fun _ => rfl⟩)
      · exact ⟨nested, fun _ => ⟨_, ctl, func, ref, cur, fun _ => last, target⟩, fun h => absurd pc h⟩
      · rw [ctl, hc]
        exact freePending_pc (by simp [hpc, Pc.announced]) rfl
    | false =>
      rw [run, last, if_neg (by simp), if_pos (by simp [State.setCtl])]
      have moved : Moved t .returned s (({ s with
          base := { s.base with mem := s.base.mem.bumpEra t }.setCtl t .idle
          embeddedRefCnt := s.clearedCnt t } : State).setProgress t .returned) :=
        ⟨rfl, fun u hu => Function.update_of_ne hu _ _⟩
      have then_ : committed (({ s with
          base := { s.base with mem := s.base.mem.bumpEra t }.setCtl t .idle
          embeddedRefCnt := s.clearedCnt t } : State).setProgress t .returned) t = true := by
        simp [committed, State.setProgress]
      refine inv.keep ht moved (then_.trans now.symm) (Function.update_self _ _ _) (fun r => .inl rfl) null rfl
        (congrFun (cleared (by simp [hpc])) o) (Mem.bumpEra_lt inv.era t) ?_ rfl
        (inv.ledger.keepOther moved now then_ fun i => ⟨rfl, fun _ => rfl⟩)
      rw [hc]
      simp [State.setCtl, State.setProgress, freePending, last]
  · subst hb
    rw [run, if_pos (by simp [State.setCtl])]
    exact inv.freeOuter ht hp pc hc hpc refed ⟨rfl, fun u hu => Function.update_of_ne hu _ _⟩
      (Function.update_self _ _ _) rfl rfl

/-! ## Runs -/

theorem Held.inv (start : Held o holders root s) : Inv o holders root s s := by
  have waiting : ∀ t ∈ holders, committed s t = false := by
    intro t ht
    simp [committed, (start.waiting t ht).1]
  have held : holding holders s = holders := Finset.filter_true_of_mem waiting
  have quiet : freeing o holders s = ∅ := by
    refine Finset.filter_false_of_mem fun t ht => ?_
    rw [(start.waiting t ht).2]
    simp [freePending]
  refine ⟨start.others, fun t ht => ?_, fun t ht => start.holds t (held ▸ ht), start.only,
    by rw [start.refCnt, held], fun _ => rfl, start.era, ?_, ?_⟩
  · obtain ⟨waiting, idle⟩ := start.waiting t ht
    rw [waiting]
    exact ⟨rfl, idle⟩
  · rw [quiet, held, if_neg start.nonempty.ne_empty, freedTimes, start.trace]
    rfl
  · refine .shared (by rw [held]; exact start.nonempty) (fun t ht fs hfs => ?_) fun j => ⟨rfl, fun x => ?_⟩
    · rw [(start.waiting t (held ▸ ht)).1] at hfs
      cases hfs
    · rw [unlinkedTimes, start.trace]
      rfl

theorem Inv.step (inv : Inv o holders root s₀ s) (start : Held o holders root s₀) {a : Action}
    (hs : s.step a = some s') (agrees : Agrees o s a) : Inv o holders root s₀ s' := by
  have fresh : ∀ x i, s₀.base.mem.loc (.embedded x i) ≠ o := start.inv.embedded_ne
  have active : ∀ {t}, s.progress t ≠ .returned → t ∈ holders := fun {t} moving => by
    by_contra other
    exact moving (inv.others t other)
  cases a with
  | call t =>
    simp only [State.step] at hs
    cases hp : s.progress t with
    | waiting r =>
      rw [hp] at hs
      obtain rfl := Option.some.inj hs
      have ht := active (t := t) (by simp [hp])
      have place := inv.place t ht
      rw [hp] at place
      have moved : Moved t (.active [.entry r]) s (s.setProgress t (.active [.entry r])) :=
        ⟨rfl, fun _ _ => rfl⟩
      have before : committed s t = false := by simp [committed, hp]
      have after : committed (s.setProgress t (.active [.entry r])) t = false :=
        committed_active moved.progress_self (by simp [Frame.entry])
      refine inv.keep ht moved (after.trans before.symm) ?_ (fun r => .inl rfl) start.object rfl rfl
        inv.era rfl rfl (inv.ledger.keepOwn moved ht before after
          (fun _ _ => .inl ⟨rfl, fun _ => ⟨rfl, fun _ => rfl⟩⟩) ?_)
      · exact ⟨⟨place.1, by simp [Frame.entry, Frame.loaded]⟩, by simp [Frame.entry],
          fun _ => place.2⟩
      · intro fs hfs
        rw [hp] at hfs
        cases hfs
    | active fs => simp [hp] at hs
    | returned => simp [hp] at hs
  | run t weak =>
    simp only [State.step] at hs
    cases hp : s.progress t with
    | waiting r => simp [hp] at hs
    | returned => simp [hp] at hs
    | active fs =>
      have ht := active (t := t) (by simp [hp])
      cases fs with
      | nil => simp [hp] at hs
      | cons f fs =>
        rw [hp] at hs
        simp only [State.runFrame] at hs
        cases pc : f.pc with
        | testRef =>
          rw [pc] at hs
          obtain rfl := Option.some.inj hs
          exact inv.testRef ht start.object hp pc
        | loadRef =>
          rw [pc] at hs
          obtain rfl := Option.some.inj hs
          exact inv.loadRef ht start.object hp pc
        | loadInfo =>
          rw [pc] at hs
          obtain rfl := Option.some.inj hs
          exact inv.loadInfo ht start.object hp pc rfl
        | testIndex i =>
          rw [pc] at hs
          obtain rfl := Option.some.inj hs
          exact inv.testIndex ht start.object hp pc
        | embedded i =>
          rw [pc] at hs
          cases hs
        | loadArg =>
          rw [pc] at hs
          obtain ⟨b, hb, rfl⟩ := Option.map_eq_some_iff.1 hs
          exact inv.loadArg ht start.object hp pc hb
        | unlink =>
          rw [pc] at hs
          obtain ⟨c, hc, -⟩ := (inv.active ht hp).2.1 pc
          rw [step_run_call hc] at hs
          obtain rfl := Option.some.inj hs
          cases fs with
          | nil => exact inv.unlinkOuter ht start.object start.inj hp pc hc (agrees f [] c hp hc) rfl
          | cons g fs => exact inv.unlinkInner ht start.object fresh hp pc hc weak rfl

/-- **The last drop releases the embedded references.**  Clients that hold all the references to `o`
call `test_free` on them.  If the two decisions of `test_free` agree throughout the run, then in every
state where all calls have returned `o` has been freed once and the object in each of its embedded
references has been unlinked once for it. -/
theorem released_of_agrees (start : Held o holders root s₀)
    (h : Reachable State.step (fun s a _ => Agrees o s a) s₀ s) (returned : AllReturned holders s) :
    Released s₀ s o := by
  have inv : Inv o holders root s₀ s :=
    h.invariant start.inv fun _ _ _ inv hs agrees => inv.step start hs agrees
  have empty : holding holders s = ∅ :=
    Finset.filter_false_of_mem fun t ht => by simp [committed, returned t ht]
  have quiet : freeing o holders s = ∅ := by
    refine Finset.filter_false_of_mem fun t ht => ?_
    have place := inv.place t ht
    rw [returned t ht] at place
    rw [show s.base.ctl t = .idle from place]
    simp [freePending]
  refine ⟨?_, ?_⟩
  · have frees := inv.frees
    rw [quiet, if_pos empty] at frees
    simpa using frees
  · cases inv.ledger with
    | shared some _ _ => simp [empty] at some
    | releasing t _ alone _ _ _ => simp [empty] at alone
    | released _ slots => exact slots

/-- Clients 1 and 2 hold the object `8`, whose only embedded reference is to the object `16`. -/
def twoHolders : State where
  base := { CxlShm.State.init with
    mem :=
      { refInfo := fun x => if x = 8 then packRefInfo 1 2 1 else packRefInfo 1 1 1
        eraArray := fun _ => 1
        loc := fun r =>
          if r = .root 1 ∨ r = .root 2 then 8 else if r = .embedded 8 0 then 16 else 0
        redo := fun _ _ => none }
    ctl := fun t => if t = 1 ∨ t = 2 then .idle else .absent
    allocated := fun x => x = 8 ∨ x = 16 }
  embeddedRefCnt := fun x => if x = 8 then 1 else 0
  progress := fun t => if t = 1 ∨ t = 2 then .waiting (.root t) else .returned

theorem held_twoHolders : Held 8 {1, 2} id twoHolders where
  object := by decide
  nonempty := by decide
  inj := Function.injective_id.injOn
  waiting := by decide
  others t ht := by
    simp only [Finset.mem_insert, Finset.mem_singleton] at ht
    simp [twoHolders, ht]
  holds := by decide
  only r hr := by
    by_cases root : r = .root 1 ∨ r = .root 2
    · rcases root with rfl | rfl
      · exact ⟨1, by decide, rfl⟩
      · exact ⟨2, by decide, rfl⟩
    · by_cases slot : r = .embedded 8 0 <;> simp [twoHolders, root, slot] at hr
  refCnt := by decide
  era _ := by simp [twoHolders]
  trace := rfl

/-- The client is at a compare-exchange that expects the count 1. -/
def lowersLast : Control ObjLoc → Bool
  | .call c => c.pc = .cas ∧ getRefCntFromInfo c.refInfo = 1
  | _ => false

/-- The innermost activation has read a count above 1. -/
def sharedTop : Progress → Bool
  | .active (f :: _) => f.shared
  | _ => false

/-- `Agrees`, checked without looking at the word. -/
def agreesCheck (s : State) : Action → Bool
  | .call _ => true
  | .run t _ => !(lowersLast (s.base.ctl t) && sharedTop (s.progress t))

theorem agrees_of_check {a : Action} (passed : agreesCheck s a = true) : Agrees o s a := by
  cases a with
  | call t => trivial
  | run t weak =>
    intro f fs c hp hc _ pc _ _ one
    simpa [agreesCheck, lowersLast, sharedTop, hp, hc, pc, one] using passed

/-- Client 2 reads the count after client 1 has given up its reference. -/
theorem released_twoHolders : ∃ s, Reachable State.step (fun s a _ => Agrees 8 s a) twoHolders s ∧
    AllReturned {1, 2} s ∧ Released twoHolders s 8 := by
  let actions : List Action := .call 1 :: List.replicate 11 (.run 1 false) ++
    .call 2 :: List.replicate 27 (.run 2 false)
  have run : (checkedRun State.step (fun s a _ => agreesCheck s a) twoHolders actions).any
      (fun s => s.progress 1 = .returned ∧ s.progress 2 = .returned) = true := by
    decide +kernel
  obtain ⟨s, hs, last⟩ := exists_reachable_of_checkedRun (J := fun _ => True)
    (fun _ _ _ _ _ passed => ⟨trivial, agrees_of_check passed⟩) trivial run
  simp only [Bool.decide_and, Bool.and_eq_true, decide_eq_true_eq] at last
  have returned : AllReturned {1, 2} s := by simp [AllReturned, last]
  exact ⟨s, hs, returned, released_of_agrees held_twoHolders hs returned⟩

/-- Both clients read the count 2 and only unlink.  The second one frees the object, and the
reference embedded in it is never released. -/
theorem embedded_leaked : ∃ s, Held 8 {1, 2} id twoHolders ∧
    Reachable State.step (fun _ _ _ => True) twoHolders s ∧ AllReturned {1, 2} s ∧
    freedTimes s 8 = 1 ∧ twoHolders.base.mem.loc (.embedded 8 0) = 16 ∧
    unlinkedTimes s (.embedded 8 0) 16 = 0 ∧ ¬ Released twoHolders s 8 := by
  let actions : List Action := [.call 1, .call 2] ++ List.replicate 3 (.run 1 false) ++
    List.replicate 3 (.run 2 false) ++ List.replicate 8 (.run 1 false) ++
    List.replicate 9 (.run 2 false)
  have run : (checkedRun State.step (fun _ _ _ => true) twoHolders actions).any
      (fun s => s.progress 1 = .returned ∧ s.progress 2 = .returned ∧ freedTimes s 8 = 1 ∧
        unlinkedTimes s (.embedded 8 0) 16 = 0) = true := by
    decide +kernel
  have sound : ∀ s a s', True → State.step s a = some s' → true = true →
      True ∧ (fun _ _ _ => True : State → Action → State → Prop) s a s' :=
    fun _ _ _ _ _ _ => ⟨trivial, trivial⟩
  obtain ⟨s, hs, last⟩ := exists_reachable_of_checkedRun sound trivial run
  simp only [Bool.decide_and, Bool.and_eq_true, decide_eq_true_eq] at last
  obtain ⟨one, two, freed, kept⟩ := last
  refine ⟨s, held_twoHolders, hs, by simp [AllReturned, one, two], freed, rfl, kept, fun h => ?_⟩
  have := h.2 0 (by decide) 16 (by decide)
  rw [kept] at this
  exact absurd this (by decide)

end

end CxlShm.TestFree
