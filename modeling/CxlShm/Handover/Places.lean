import CxlShm.Handover.Machine

/-!
# Where the blocks of the segment are

Each block that the owner's pages have been cut into is in one place: on the list `free` or
`local_free` of its page, on the chain of the segment or on the one that the owner has detached from
it, in the hands of a party that builds or frees it, in use as an object or as a `RootRef`, or lost:
a message queue, which is never freed, or a block that a party that stopped was on.  A block that is
not on a list of its page was handed out by the present owner of the segment; `Places` says this,
and each move of a block keeps it.
-/

namespace CxlShm.Handover

open Linked Function Heap

/-- The lists that blocks are on. -/
inductive Stack
  | free (page : ℕ)
  | localFree (page : ℕ)
  | threadFree
  /-- what `cxl_thread_free_collect` has taken and not yet handed to the pages -/
  | detached
  deriving DecidableEq

/-- Where a block is; `outside` for what is not a block of a page in use, `held` by a client or,
with `none`, by the monitor. -/
inductive Place
  | outside
  | listed (q : Stack)
  | held (o : Option ℕ)
  | object
  | root (t : ℕ)
  | lost

def Place.stack : Place → Option Stack
  | .listed q => some q
  | .outside | .held _ | .object | .root _ | .lost => none

/-- The block has been handed out and has not come back to its page. -/
def Place.Counted : Place → Prop
  | .outside | .listed (.free _) | .listed (.localFree _) => False
  | .listed .threadFree | .listed .detached | .held _ | .object | .root _ | .lost => True

@[simp] theorem stack_outside : Place.outside.stack = none := rfl
@[simp] theorem stack_listed {q : Stack} : (Place.listed q).stack = some q := rfl
@[simp] theorem stack_held {o : Option ℕ} : (Place.held o).stack = none := rfl
@[simp] theorem stack_object : Place.object.stack = none := rfl
@[simp] theorem stack_root {t : ℕ} : (Place.root t).stack = none := rfl
@[simp] theorem stack_lost : Place.lost.stack = none := rfl

@[simp] theorem stack_eq_some {p : Place} {q : Stack} : p.stack = some q ↔ p = .listed q := by
  cases p <;> simp [Place.stack]

/-- A list of a page is for blocks of the page. -/
def Stack.Fits (b : ℕ) : Stack → Prop
  | .free page | .localFree page => cxlPtrPage b = page
  | .threadFree | .detached => True

/-- The block that the client builds or frees. -/
def Pc.held : Pc → Option Offset
  | .storeBlock _ b _ | .memset b _ | .loadThreadId b _ | .load b | .storeNext b _ | .cas b _
  | .freeLocal b _ => some b
  | .idle | .storeInfo | .storeThreadId | .pushFreePages | .pushPage _ _ | .walk _ _ _ | .merge _
  | .loadUsed _ | .abandon | .removePage _ _ | .clearPage _ | .clearSegment | .releaseSegment => none

/-- The block that is to be pushed next, and the one it has been linked to. -/
def Pc.linked : Pc → Option (Offset × Offset)
  | .cas b info => some (b, info.threadFree)
  | _ => none

/-- The chain that the client walks. -/
def Pc.tail : Pc → Offset
  | .walk _ tail _ => tail
  | _ => 0

def Monitor.held : Monitor → Option Offset
  | .memset _ b | .loadThreadId _ b | .load _ b | .storeNext _ b _ | .cas _ b _ => some b
  | .idle | .sweep _ | .page _ _ | .scan _ _ _ _ | .clearPage _ _ _ | .abandon _ _ | .segment _
  | .clearSegment _ | .release _ | .freeTls _ | .loopPage _ | .loopScan _ _ _ | .loopClearPage _ _
  | .loopClearSegment | .loopStoreInfo | .loopRelease => none

def Monitor.linked : Monitor → Option (Offset × Offset)
  | .cas _ b info => some (b, info.threadFree)
  | _ => none

namespace State

variable (s : State)

/-- The block in the hands of a client, or of the monitor. -/
def held : Option ℕ → Option Offset
  | some t => (s.pc t).held
  | none => s.monitor.held

def linked : Option ℕ → Option (Offset × Offset)
  | some t => (s.pc t).linked
  | none => s.monitor.linked

/-- The owner of the segment is a client that is running. -/
def Kept : Prop := s.slot s.segmentThreadId = .running

instance : Decidable s.Kept := inferInstanceAs (Decidable (_ = _))

/-- The chain of the segment.  Before the header names an owner it is what the owner before has
left. -/
def chain : Offset := if s.segmentThreadId = 0 then 0 else s.info.threadFree

/-- The chain that the owner has detached. -/
def tail : Offset := (s.pc s.segmentThreadId).tail

end State

/-- The heads of the lists. -/
def heads (free localFree : ℕ → Offset) (chain tail : Offset) : Stack → Offset
  | .free page => free page
  | .localFree page => localFree page
  | .threadFree => chain
  | .detached => tail

/-- The heads of the lists of the segment.  The page records are for its owner only. -/
def State.heads (s : State) : Stack → Offset :=
  if s.Kept then Handover.heads s.free s.localFree s.chain s.tail
  else Handover.heads (fun _ => 0) (fun _ => 0) s.chain s.tail

/-- Every block is in one place, and the words of the segment say which. -/
structure Places (place : Offset → Place) (s : State) : Prop where
  lists : Stacks s.blockNext 0 s.heads fun b => (place b).stack
  nonzero : ∀ b, place b ≠ .outside → b ≠ 0
  fits : ∀ b q, place b = .listed q → q.Fits b
  object : ∀ b, s.object b = true ↔ place b = .object
  root : ∀ b t, s.rootOf b = some t ↔ place b = .root t
  held : ∀ o b, s.held o = some b ↔ place b = .held o
  live : ∀ b, place b = .object → 0 < getRefCntFromInfo (s.refInfo b)
  ready : ∀ o b x, s.linked o = some (b, x) → s.blockNext b = x
  born : ∀ b, (place b).Counted → s.bornIn b = s.generation
  blank : s.segmentThreadId = 0 → ∀ b, place b = .outside

section Update

variable {place : Offset → Place} {b : Offset} {v : Place}

theorem stack_update : (fun x => (update place b v x).stack) =
    update (fun x => (place x).stack) b v.stack := by
  funext x
  by_cases here : x = b
  · subst here
    simp
  · simp [here]

/-- A correspondence with the places survives the move of one block. -/
theorem iff_update {P P' : Offset → Prop} (Q : Place → Prop) (h : ∀ x, P x ↔ Q (place x))
    (off : ∀ x, x ≠ b → (P' x ↔ P x)) (at_b : P' b ↔ Q v) (x : Offset) :
    P' x ↔ Q (update place b v x) := by
  by_cases here : x = b
  · subst here
    rwa [update_self]
  · rw [update_of_ne here, off x here, h x]

end Update

theorem held_setPc (s : State) (t : ℕ) (p : Pc) :
    (s.setPc t p).held = update s.held (some t) p.held := by
  funext o
  cases o with
  | none => simp [State.held, State.setPc]
  | some u =>
    by_cases same : u = t
    · subst same
      simp [State.held, State.setPc]
    · simp [State.held, State.setPc, same]

theorem held_setMonitor (s : State) (m : Monitor) :
    (s.setMonitor m).held = update s.held none m.held := by
  funext o
  cases o with
  | none => simp [State.held, State.setMonitor]
  | some u => simp [State.held, State.setMonitor]

theorem linked_setPc (s : State) (t : ℕ) (p : Pc) :
    (s.setPc t p).linked = update s.linked (some t) p.linked := by
  funext o
  cases o with
  | none => simp [State.linked, State.setPc]
  | some u =>
    by_cases same : u = t
    · subst same
      simp [State.linked, State.setPc]
    · simp [State.linked, State.setPc, same]

theorem linked_setMonitor (s : State) (m : Monitor) :
    (s.setMonitor m).linked = update s.linked none m.linked := by
  funext o
  cases o with
  | none => simp [State.linked, State.setMonitor]
  | some u => simp [State.linked, State.setMonitor]

section Heads

variable {free localFree : ℕ → Offset} {chain tail x : Offset} {page : ℕ}

theorem heads_free : heads (update free page x) localFree chain tail =
    update (heads free localFree chain tail) (.free page) x := by
  funext q
  cases q <;> simp [heads, update_apply]

theorem heads_localFree : heads free (update localFree page x) chain tail =
    update (heads free localFree chain tail) (.localFree page) x := by
  funext q
  cases q <;> simp [heads, update_apply]

theorem heads_chain : heads free localFree x tail =
    update (heads free localFree chain tail) .threadFree x := by
  funext q
  cases q <;> simp [heads]

theorem heads_tail : heads free localFree chain x =
    update (heads free localFree chain tail) .detached x := by
  funext q
  cases q <;> simp [heads]

end Heads

theorem tail_setPc (s : State) {t : ℕ} {p : Pc} (same : p.tail = (s.pc t).tail) :
    (s.setPc t p).tail = s.tail := by
  show (update s.pc t p s.segmentThreadId).tail = (s.pc s.segmentThreadId).tail
  by_cases here : s.segmentThreadId = t
  · rw [here, update_self, same]
  · rw [update_of_ne here]

theorem heads_setPc (s : State) {t : ℕ} {p : Pc} (same : p.tail = (s.pc t).tail) :
    (s.setPc t p).heads = s.heads := by
  unfold State.heads
  rw [tail_setPc s same]
  rfl

theorem heads_of_kept {s : State} (kept : s.Kept) :
    s.heads = heads s.free s.localFree s.chain s.tail := if_pos kept

theorem heads_of_not_kept {s : State} (gone : ¬ s.Kept) :
    s.heads = heads (fun _ => 0) (fun _ => 0) s.chain s.tail := if_neg gone

theorem held_setPc_same (s : State) {t : ℕ} {p : Pc} (same : p.held = (s.pc t).held) :
    (s.setPc t p).held = s.held := by
  rw [held_setPc, same]
  exact update_eq_self _ _

theorem held_setMonitor_same (s : State) {m : Monitor} (same : m.held = s.monitor.held) :
    (s.setMonitor m).held = s.held := by
  rw [held_setMonitor, same]
  exact update_eq_self _ _

theorem linked_held {p : Pc} {b x : Offset} (h : p.linked = some (b, x)) : p.held = some b := by
  cases p <;> simp [Pc.linked, Pc.held] at h ⊢
  exact h.1

theorem Monitor.linked_held {m : Monitor} {b x : Offset} (h : m.linked = some (b, x)) :
    m.held = some b := by
  cases m <;> simp [Monitor.linked, Monitor.held] at h ⊢
  exact h.1

theorem State.linked_held {s : State} {o : Option ℕ} {b x : Offset} (h : s.linked o = some (b, x)) :
    s.held o = some b := by
  cases o with
  | none => exact Monitor.linked_held h
  | some t => exact Handover.linked_held h

namespace Places

variable {place : Offset → Place} {s s' : State} {b : Offset} {v : Place} {o : Option ℕ}

/-- A block in one hand is in no other. -/
theorem alone (h : Places place s) {o' : Option ℕ} (here : s.held o = some b)
    (there : s.held o' = some b) : o = o' := by
  have at_b := (h.held o b).1 here
  rw [(h.held o' b).1 there] at at_b
  injection at_b with same
  exact same.symm

/-- A step that moves no block. -/
theorem frame (h : Places place s) (heads : s'.heads = s.heads)
    (next : ∀ b q, place b = .listed q → s'.blockNext b = s.blockNext b)
    (object : s'.object = s.object) (rootOf : s'.rootOf = s.rootOf) (held : s'.held = s.held)
    (live : ∀ b, place b = .object → 0 < getRefCntFromInfo (s'.refInfo b))
    (ready : ∀ o b x, s'.linked o = some (b, x) → s'.blockNext b = x)
    (born : s'.bornIn = s.bornIn) (generation : s'.generation = s.generation)
    (blank : s'.segmentThreadId = 0 → s.segmentThreadId = 0) : Places place s' := by
  refine ⟨?_, h.nonzero, h.fits, ?_, ?_, ?_, live, ready, ?_, fun none => h.blank (blank none)⟩
  · rw [heads]
    exact h.lists.congr fun b q listed => next b q (stack_eq_some.1 listed)
  · rw [object]
    exact h.object
  · rw [rootOf]
    exact h.root
  · rw [held]
    exact h.held
  · rw [born, generation]
    exact h.born

/-- A step that moves one block. -/
theorem change (h : Places place s)
    (lists : Stacks s'.blockNext 0 s'.heads (update (fun x => (place x).stack) b v.stack))
    (nonzero : b ≠ 0) (fits : ∀ q, v = .listed q → q.Fits b)
    (object : ∀ x, s'.object x = true ↔ update place b v x = .object)
    (root : ∀ t x, s'.rootOf x = some t ↔ update place b v x = .root t)
    (held : ∀ o x, s'.held o = some x ↔ update place b v x = .held o)
    (live : ∀ x, x ≠ b → place x = .object → s'.refInfo x = s.refInfo x)
    (live_b : v = .object → 0 < getRefCntFromInfo (s'.refInfo b))
    (ready : ∀ o x y, s'.linked o = some (x, y) → s'.blockNext x = y)
    (born : ∀ x, x ≠ b → s'.bornIn x = s.bornIn x) (born_b : v.Counted → s'.bornIn b = s.generation)
    (generation : s'.generation = s.generation) (owned : s'.segmentThreadId ≠ 0) :
    Places (update place b v) s' := by
  refine ⟨?_, ?_, ?_, object, fun x t => root t x, held, ?_, ready, ?_, fun none => absurd none owned⟩
  · rw [stack_update]
    exact lists
  · intro x inside
    by_cases here : x = b
    · rwa [here]
    · rw [update_of_ne here] at inside
      exact h.nonzero x inside
  · intro x q listed
    by_cases here : x = b
    · subst here
      exact fits q (by simpa using listed)
    · exact h.fits x q (by simpa [here] using listed)
  · intro x at_x
    by_cases here : x = b
    · subst here
      exact live_b (by simpa using at_x)
    · rw [update_of_ne here] at at_x
      rw [live x here at_x]
      exact h.live x at_x
  · intro x counted
    rw [generation]
    by_cases here : x = b
    · subst here
      exact born_b (by simpa using counted)
    · rw [update_of_ne here] at counted
      rw [born x here]
      exact h.born x counted

/-- There are blocks only while the header names an owner. -/
theorem owned (h : Places place s) (inside : place b ≠ .outside) : s.segmentThreadId ≠ 0 :=
  fun none => inside (h.blank none b)

/-- What the others have linked stays linked when block `b` is written. -/
theorem ready_of (h : Places place s) {linked : Option (Offset × Offset)}
    (register : s'.linked = update s.linked o linked)
    (mine : ∀ x y, linked = some (x, y) → s'.blockNext x = y)
    (theirs : ∀ o', o' ≠ o → place b ≠ .held o')
    (next : ∀ x, x ≠ b → s'.blockNext x = s.blockNext x) (o' : Option ℕ) (x y : Offset)
    (at_cas : s'.linked o' = some (x, y)) : s'.blockNext x = y := by
  rw [register] at at_cas
  by_cases same : o' = o
  · subst same
    rw [update_self] at at_cas
    exact mine x y at_cas
  · rw [update_of_ne same] at at_cas
    have other : x ≠ b := by
      rintro rfl
      exact theirs o' same ((h.held o' x).1 (State.linked_held at_cas))
    rw [next x other]
    exact h.ready o' x y at_cas

/-- A party writes into the block that it builds or frees, and keeps it. -/
theorem write (h : Places place s) (at_b : place b = .held o) {linked : Option (Offset × Offset)}
    (heads : s'.heads = s.heads) (next : ∀ x, x ≠ b → s'.blockNext x = s.blockNext x)
    (refInfo : ∀ x, x ≠ b → s'.refInfo x = s.refInfo x) (object : s'.object = s.object)
    (rootOf : s'.rootOf = s.rootOf) (held : s'.held = s.held)
    (register : s'.linked = update s.linked o linked)
    (mine : ∀ x y, linked = some (x, y) → s'.blockNext x = y)
    (born : s'.bornIn = s.bornIn) (generation : s'.generation = s.generation)
    (header : s'.segmentThreadId = s.segmentThreadId) : Places place s' := by
  refine h.frame heads ?_ object rootOf held ?_ (h.ready_of register mine ?_ next) born generation
    (fun none => by rwa [header] at none)
  · intro x q listed
    apply next
    rintro rfl
    rw [at_b] at listed
    cases listed
  · intro x at_x
    rw [refInfo]
    · exact h.live x at_x
    · rintro rfl
      rw [at_b] at at_x
      cases at_x
  · intro o' other same
    rw [at_b] at same
    injection same with same
    exact other same.symm

/-- A party gives the block out of its hands. -/
theorem release (h : Places place s) (at_b : place b = .held o) (free : ∀ o', v ≠ .held o')
    (lists : Stacks s'.blockNext 0 s'.heads (update (fun x => (place x).stack) b v.stack))
    (fits : ∀ q, v = .listed q → q.Fits b)
    (object : ∀ x, x ≠ b → s'.object x = s.object x) (object_b : s'.object b = true ↔ v = .object)
    (rootOf : ∀ x, x ≠ b → s'.rootOf x = s.rootOf x)
    (rootOf_b : ∀ t, s'.rootOf b = some t ↔ v = .root t)
    (held : s'.held = update s.held o none) (register : s'.linked = update s.linked o none)
    (next : ∀ x, x ≠ b → s'.blockNext x = s.blockNext x)
    (refInfo : ∀ x, x ≠ b → s'.refInfo x = s.refInfo x)
    (live : v = .object → 0 < getRefCntFromInfo (s'.refInfo b))
    (born : s'.bornIn = s.bornIn) (generation : s'.generation = s.generation)
    (header : s'.segmentThreadId = s.segmentThreadId) : Places (update place b v) s' := by
  have inside : place b ≠ .outside := by simp [at_b]
  refine h.change lists (h.nonzero b inside) fits ?_ ?_ ?_ (fun x other _ => refInfo x other) live
    (h.ready_of register (by simp) ?_ next) (fun x _ => by rw [born]) ?_ generation ?_
  · exact iff_update (· = .object) h.object (fun x other => by rw [object x other]) object_b
  · intro t
    exact iff_update (· = .root t) (fun x => h.root x t) (fun x other => by rw [rootOf x other]) (rootOf_b t)
  · intro o'
    refine iff_update (· = .held o') (h.held o') (fun x other => ?_) ?_
    · rw [held]
      by_cases same : o' = o
      · subst same
        rw [update_self]
        constructor
        · rintro ⟨⟩
        · intro here
          have at_x := (h.held o' x).1 here
          have := ((h.held o' b).2 at_b).symm.trans here
          exact absurd (Option.some.inj this).symm other
      · rw [update_of_ne same]
    · rw [held]
      refine iff_of_false ?_ (free o')
      by_cases same : o' = o
      · subst same
        simp
      · rw [update_of_ne same]
        intro here
        exact same (h.alone here ((h.held o b).2 at_b))
  · intro o' other same
    rw [at_b] at same
    injection same with same
    exact other same.symm
  · intro _
    rw [born]
    exact h.born b (by rw [at_b]; trivial)
  · rw [header]
    exact h.owned inside

/-- A party takes a block into its hands. -/
theorem take (h : Places place s) (none : s.held o = none) (inside : place b ≠ .outside)
    (free : ∀ o', place b ≠ .held o')
    (lists : Stacks s'.blockNext 0 s'.heads (update (fun x => (place x).stack) b Option.none))
    (object : ∀ x, x ≠ b → s'.object x = s.object x) (object_b : s'.object b = false)
    (rootOf : ∀ x, x ≠ b → s'.rootOf x = s.rootOf x) (rootOf_b : s'.rootOf b = Option.none)
    (held : s'.held = update s.held o (some b)) (register : s'.linked = update s.linked o Option.none)
    (next : ∀ x, x ≠ b → s'.blockNext x = s.blockNext x)
    (refInfo : ∀ x, x ≠ b → s'.refInfo x = s.refInfo x)
    (born : ∀ x, x ≠ b → s'.bornIn x = s.bornIn x) (born_b : s'.bornIn b = s.generation)
    (generation : s'.generation = s.generation)
    (header : s'.segmentThreadId = s.segmentThreadId) : Places (update place b (.held o)) s' := by
  refine h.change lists (h.nonzero b inside) (by rintro q ⟨⟩) ?_ ?_ ?_ (fun x other _ => refInfo x other)
    (by rintro ⟨⟩) (h.ready_of register (by simp) (fun o' _ => free o') next) born (fun _ => born_b)
    generation ?_
  · exact iff_update (· = .object) h.object (fun x other => by rw [object x other]) (by simp [object_b])
  · intro t
    exact iff_update (· = .root t) (fun x => h.root x t) (fun x other => by rw [rootOf x other])
      (by simp [rootOf_b])
  · intro o'
    refine iff_update (· = .held o') (h.held o') (fun x other => ?_) ?_
    · rw [held]
      by_cases same : o' = o
      · subst same
        rw [update_self, none]
        simp [Ne.symm other]
      · rw [update_of_ne same]
    · rw [held]
      by_cases same : o' = o
      · subst same
        simp
      · rw [update_of_ne same, h.held]
        refine iff_of_false (free o') ?_
        intro here
        injection here with here
        exact same here.symm
  · rw [header]
    exact h.owned inside

end Places

end CxlShm.Handover
