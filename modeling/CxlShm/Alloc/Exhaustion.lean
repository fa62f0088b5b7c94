import CxlShm.Alloc.Requests

/-!
# Sizes without a bin, and memory that is used up

`cxl_malloc`, `get_ref`, `create_msg_queue` and `put` ask the allocator for one block or two.  None of
them looks at the size it asks for, and none of them gets a null pointer back: without a page
`cxl_page_fresh` goes on with the null pointer, and `cxl_page_init` stores through it.
-/

namespace CxlShm.Heap

open Linked Counting Function Reachability

/-- The functions of the interface that allocate. -/
inductive Entry
  | cxlMalloc (dataSize : ℕ)
  | getRef
  | createMsgQueue
  | put
  deriving DecidableEq, Repr

/-- The blocks that they ask for, one after the other. -/
def Entry.requests : Entry → List Kind
  | .cxlMalloc dataSize => [.rootRef, .obj dataSize]
  | .getRef => [.rootRef]
  | .createMsgQueue => [.msgQueue]
  | .put => [.obj 24]

/-- How a call ends that makes the requests: with a state, or with a store through the null pointer
that `cxl_segment_alloc` has returned, since no segment of the area is free. -/
inductive Outcome (size t : ℕ) : List Kind → State → Option State → Prop
  | done {s : State} : Outcome size t [] s (some s)
  | next {kind : Kind} {kinds : List Kind} {s s' : State} {r : Option State} :
      Answered size t kind s s' → Outcome size t kinds s' r → Outcome size t (kind :: kinds) s r
  | nullStore {kind : Kind} {kinds : List Kind} {s s₁ : State} {n : ℕ} :
      Request size t kind s n s₁ → s₁.call t = .find kind 0 → s₁.first (t, freePage) = 0 →
      (∀ g, ¬ SegmentLeft size s₁ g) → Outcome size t (kind :: kinds) s none

/-- The allocator is as it was. -/
structure Unchanged (s s' : State) : Prop where
  allocated : s'.allocated = s.allocated
  used : s'.used = s.used
  free : s'.free = s.free
  localFree : s'.localFree = s.localFree

/-- The call comes back, has not stored through a null pointer, and leaves the allocator as it was. -/
def ReportsFailure (size t : ℕ) (kinds : List Kind) (s : State) : Prop :=
  (∃ r, Outcome size t kinds s r) ∧
    ∀ r, Outcome size t kinds s r → ∃ s', r = some s' ∧ Unchanged s s'

section

variable {size t : ℕ} {kind kind' : Kind} {s s' : State}

/-! ## Sizes -/

/-- Objects have bins of their own. -/
theorem queueOf_ne {k k' : Kind} (special : k.special = true) (object : k'.special = false) :
    State.queueOf t k' ≠ State.queueOf t k := by
  have two := two_le_queueOf (t := t) object
  intro same
  rw [same] at two
  cases k with
  | rootRef => exact absurd (show 2 ≤ cxlPageQueue true 16 from two) (by decide)
  | msgQueue => exact absurd (show 2 ≤ cxlPageQueue true 192 from two) (by decide)
  | obj dataSize => cases special

/-- The state after an answer is one for the next request. -/
theorem Answered.ready (inv : Inv s) (bounded : Bounded s) (registered : s.registered t = true)
    (small : kind.bytes ≤ 1024) (answered : Answered size t kind s s') :
    Inv s' ∧ Bounded s' ∧ s'.registered t = true ∧ s'.call t = .idle ∧
      ∃ b, Answer size t kind s b s' := by
  obtain ⟨n, run, done⟩ := answered
  obtain ⟨inv', ⟨before, rest, page, searching, -⟩ | ⟨-, b, answer⟩⟩ := request_state inv small run
  · rw [searching.call] at done
    cases done
  · exact ⟨inv', request_bounded bounded run, by rw [answer.registered, registered], done, b, answer⟩

/-- Two requests for different bins are served if there is enough for both. -/
theorem servedAll_pair_iff (inv : Inv s) (bounded : Bounded s) (registered : s.registered t = true)
    (idle : s.call t = .idle) (special : kind.special = true) (object : kind'.special = false)
    (small : kind.bytes ≤ 1024) :
    ServedAll size t [kind, kind'] s ↔ kind'.bytes ≤ 1024 ∧ Supplied size s t [kind, kind'] := by
  have second {s' : State} (answered : Answered size t kind s s') :
      Served size s' t kind' ↔ kind'.bytes ≤ 1024 ∧ Supplied size s t [kind, kind'] := by
    obtain ⟨inv', bounded', registered', idle', b, answer⟩ :=
      answered.ready inv bounded registered small
    rw [served_iff inv' bounded' registered' idle']
    refine and_congr_right fun small' => answer.supplied_iff inv inv' ?_ ?_ le_rfl
    · intro k mem
      obtain rfl := List.mem_singleton.1 mem
      exact small'
    · intro k mem
      obtain rfl := List.mem_singleton.1 mem
      exact queueOf_ne special object
  constructor
  · rintro ⟨first, rest⟩
    obtain ⟨s', answered⟩ := first.exists_answered
    exact (second answered).1 (rest s' answered).1
  · rintro ⟨small', supplied⟩
    refine ⟨(served_iff inv bounded registered idle).2 ⟨small, ?_⟩, fun s' answered => ⟨?_, ?_⟩⟩
    · refine supplied.imp_left fun enough => le_trans ?_ enough
      have more : [kind].Sublist [kind, kind'] := by simp
      exact more.countP_le
    · exact (second answered).2 ⟨small', supplied⟩
    · exact fun _ _ => trivial

/-- `cxl_malloc` is served exactly when the object fits into a block of the last bin and there are
blocks and pages left for it and its `RootRef`. -/
theorem cxlMalloc_served_iff (reached : Reachable (step size) Careful State.init s)
    (registered : s.registered t = true) (idle : s.call t = .idle) (dataSize : ℕ) :
    ServedAll size t (Entry.cxlMalloc dataSize).requests s ↔
      dataSize + sizeofCXLObj ≤ 1024 ∧ Supplied size s t (Entry.cxlMalloc dataSize).requests :=
  servedAll_pair_iff (Inv.of_reachable reached) (.of_reachable reached) registered idle rfl rfl
    (by decide)

/-! ## Memory that is used up -/

/-- A request that needs a page when there is none ends with a store through the null pointer. -/
theorem nullStore_of_unanswered (kinds : List Kind) (inv : Inv s)
    (none : ¬ BlockLeft s (State.queueOf t kind)) (empty : s.first (t, freePage) = 0)
    (taken : ∀ g, ¬ SegmentLeft size s g) :
    (∀ r, Outcome size t (kind :: kinds) s r → r = Option.none) ∧
      (s.registered t = true → s.call t = .idle → (State.queueOf t kind).2 ≤ freePage →
        Outcome size t (kind :: kinds) s Option.none) := by
  constructor
  · intro r outcome
    cases outcome with
    | nullStore => rfl
    | next answered _ =>
      obtain ⟨n, run, done⟩ := answered
      obtain ⟨-, before, rest, page, h⟩ := request_unanswered inv none empty taken run
      rw [h.call] at done
      cases done
  · intro registered idle below
    obtain ⟨s₁, begins⟩ : ∃ s₁, step size s (.alloc t kind) = some s₁ := by
      simp only [step, registered, idle, State.allocStep, if_neg (Nat.not_lt.2 below), and_self,
        if_true]
      split
      · next found => exact exists_blockTo found.2 kind
      · exact ⟨_, rfl⟩
    obtain ⟨inv₁, rest, page, h⟩ := request_searches inv none begins
    obtain ⟨n, s₂, before, run, last⟩ := request_to_end none inv₁ (.begins begins) h
    refine .nullStore run last.call (by rw [last.first, empty]) fun g left => taken g ?_
    rwa [SegmentLeft, last.sasThreadId] at left

theorem first_eq_zero (inv : Inv s) (few : (freePages s t).ncard = 0) : s.first (t, freePage) = 0 := by
  by_contra some
  have pos := (Set.ncard_pos (finite_freePages inv t)).2 ((freePages_nonempty_iff inv).2 some)
  omega

/-- Behind the bins there is no block to be had once the free pages are gone. -/
theorem not_blockLeft_of_large (inv : Inv s) (few : (freePages s t).ncard = 0)
    (large : cxlBinSize ≤ (State.queueOf t kind).2) : ¬ BlockLeft s (State.queueOf t kind) := by
  rintro ⟨page, queued, -⟩
  obtain ⟨home, place, pages, blocks⟩ := id inv
  obtain ⟨-, -, -, last⟩ := pages.owned _ _ _ ((pages.inQueue _ _).1 queued)
  have index : (State.queueOf t kind).2 = freePage := Nat.le_antisymm last large
  have mem : page ∈ freePages s t := by
    have pair : State.queueOf t kind = (t, freePage) := Prod.ext rfl index
    rwa [pair] at queued
  have pos := (Set.ncard_pos (finite_freePages inv t)).2 ⟨page, mem⟩
  omega

/-- What a request leaves for the next one, when no segment is left. -/
theorem Answer.used_up {b : ℕ} (answer : Answer size t kind s b s') (inv : Inv s) (inv' : Inv s')
    (taken : ∀ g, ¬ SegmentLeft size s g) (special : kind.special = true)
    (object : kind'.special = false)
    (needs : (freePages s t).ncard < pagesNeeded s t [kind, kind']) :
    (¬ BlockLeft s' (State.queueOf t kind')) ∧ s'.first (t, freePage) = 0 ∧
      ∀ g, ¬ SegmentLeft size s' g := by
  have single := pagesNeeded_cons s t kind' []
  have pair := pagesNeeded_cons s t kind [kind']
  have nothing : pagesNeeded s t [] = 0 := rfl
  obtain ⟨few, sas, none⟩ : (freePages s' t).ncard = 0 ∧ s'.sasThreadId = s.sasThreadId ∧
      ¬ BlockLeft s (State.queueOf t kind') := by
    rcases answer.origin with ⟨left, free, sas⟩ | ⟨left, ⟨⟨page, mem, free⟩, sas⟩ | ⟨⟨g, segment⟩, -⟩⟩
    · rw [free]
      rcases pair with ⟨-, count⟩ | ⟨absurd, -⟩
      · rcases single with ⟨-, count'⟩ | ⟨none, count'⟩
        · omega
        · exact ⟨by omega, sas, none⟩
      · exact absurd.elim left
    · rw [free, Set.ncard_sdiff_singleton_of_mem mem]
      have pos := (Set.ncard_pos (finite_freePages inv t)).2 ⟨page, mem⟩
      rcases pair with ⟨some, -⟩ | ⟨-, count⟩
      · exact left.elim some
      · rcases single with ⟨-, count'⟩ | ⟨none, count'⟩
        · omega
        · exact ⟨by omega, sas, none⟩
    · exact absurd segment (taken g)
  refine ⟨?_, first_eq_zero inv' few, fun g left => taken g ?_⟩
  · by_cases bin : (State.queueOf t kind').2 < cxlBinSize
    · rwa [answer.blockLeft_iff inv inv' bin (queueOf_ne special object)]
    · exact not_blockLeft_of_large inv' few (Nat.not_lt.1 bin)
  · rwa [SegmentLeft, sas] at left

/-- A call that needs more pages than the client has, when no segment is left, does not report it. -/
theorem unreported_of_used_up (kind' : Kind) {kinds : List Kind}
    (reached : Reachable (step size) Careful State.init s) (registered : s.registered t = true) (idle : s.call t = .idle)
    (taken : ∀ g, ¬ SegmentLeft size s g) (needs : (freePages s t).ncard < pagesNeeded s t kinds)
    (two : kinds = [kind] ∨ kinds = [kind, kind'] ∧ kind.special = true ∧ kind'.special = false) :
    (∀ r, Outcome size t kinds s r → r = none) ∧
      ((∀ k ∈ kinds, k.bytes ≤ 1024) → Outcome size t kinds s none) := by
  have inv := Inv.of_reachable reached
  have bounded := Bounded.of_reachable reached
  have nothing : pagesNeeded s t [] = 0 := rfl
  by_cases first : (freePages s t).ncard = 0 ∧ ¬ BlockLeft s (State.queueOf t kind)
  · have empty := first_eq_zero inv first.1
    obtain ⟨rest, rfl⟩ : ∃ rest, kinds = kind :: rest := by
      rcases two with rfl | ⟨rfl, -⟩
      · exact ⟨_, rfl⟩
      · exact ⟨_, rfl⟩
    obtain ⟨only, goes⟩ := nullStore_of_unanswered rest inv first.2 empty taken
    refine ⟨only, fun small => goes registered idle ?_⟩
    exact Nat.le_of_lt (cxlPageQueue_lt (small kind List.mem_cons_self))
  rcases two with rfl | ⟨rfl, special, object⟩
  · rcases pagesNeeded_cons s t kind [] with ⟨-, count⟩ | ⟨none, count⟩
    · omega
    · exact absurd ⟨by omega, none⟩ first
  have small : kind.bytes ≤ 1024 := by
    cases kind with
    | rootRef => decide
    | msgQueue => decide
    | obj dataSize => cases special
  have second {s' : State} (answered : Answered size t kind s s') :
      (∀ r, Outcome size t [kind'] s' r → r = none) ∧
        (kind'.bytes ≤ 1024 → Outcome size t [kind'] s' none) := by
    obtain ⟨inv', bounded', registered', idle', b, answer⟩ :=
      answered.ready inv bounded registered small
    obtain ⟨none, empty, taken'⟩ := answer.used_up inv inv' taken special object needs
    obtain ⟨only, goes⟩ := nullStore_of_unanswered [] inv' none empty taken'
    exact ⟨only, fun small' => goes registered' idle' (Nat.le_of_lt (cxlPageQueue_lt small'))⟩
  constructor
  · intro r outcome
    cases outcome with
    | nullStore => rfl
    | next answered rest => exact (second answered).1 r rest
  · intro fits
    have supplied : Supplied size s t [kind] := by
      rw [Supplied, PagesLeft]
      rcases pagesNeeded_cons s t kind [] with ⟨-, count⟩ | ⟨none, count⟩
      · exact .inl (by omega)
      · refine .inl ?_
        have some : (freePages s t).ncard ≠ 0 := fun few => first ⟨few, none⟩
        omega
    obtain ⟨s', answered⟩ :=
      ((served_iff inv bounded registered idle).2 ⟨small, supplied⟩).exists_answered
    exact .next answered ((second answered).2 (fits kind' (by simp)))

/-- No call reports that memory is used up: when no segment is left, one that needs more pages than the
client has ends with a store through a null pointer. -/
theorem used_up_not_reported (reached : Reachable (step size) Careful State.init s)
    (registered : s.registered t = true) (idle : s.call t = .idle)
    (taken : ∀ g, ¬ SegmentLeft size s g) (entry : Entry)
    (needs : (freePages s t).ncard < pagesNeeded s t entry.requests) :
    ¬ ReportsFailure size t entry.requests s ∧
      ((∀ kind ∈ entry.requests, kind.bytes ≤ 1024) → Outcome size t entry.requests s none) := by
  obtain ⟨only, goes⟩ : (∀ r, Outcome size t entry.requests s r → r = none) ∧
      ((∀ kind ∈ entry.requests, kind.bytes ≤ 1024) → Outcome size t entry.requests s none) := by
    cases entry with
    | cxlMalloc dataSize =>
      exact unreported_of_used_up (.obj dataSize) reached registered idle taken needs (.inr ⟨rfl, rfl, rfl⟩)
    | getRef =>
      exact unreported_of_used_up .rootRef reached registered idle taken needs (.inl rfl)
    | createMsgQueue =>
      exact unreported_of_used_up .rootRef reached registered idle taken needs (.inl rfl)
    | put =>
      exact unreported_of_used_up .rootRef reached registered idle taken needs (.inl rfl)
  refine ⟨fun reports => ?_, goes⟩
  obtain ⟨⟨r, outcome⟩, all⟩ := reports
  obtain ⟨s', some, -⟩ := all r outcome
  rw [only r outcome] at some
  cases some

end

/-- Client 1 in an empty area with room for a segment. -/
theorem exists_registered : ∃ s, Reachable (step (1 <<< 28)) Careful State.init s ∧
    s.registered 1 = true ∧ s.call 1 = .idle ∧ SegmentLeft (1 <<< 28) s 0 := by
  have run : step (1 <<< 28) State.init (.threadInit 1) = some (State.init.threadInit 1) := rfl
  refine ⟨State.init.threadInit 1, Reachable.start.next run (show 1 ≤ maxThread by decide), ?_, rfl, ?_⟩
  · simp [State.threadInit]
  · exact ⟨by decide, rfl⟩

theorem cxlMalloc_served_1000 : ∃ s, Reachable (step (1 <<< 28)) Careful State.init s ∧
    ServedAll (1 <<< 28) 1 (Entry.cxlMalloc 1000).requests s := by
  obtain ⟨s, reached, registered, idle, left⟩ := exists_registered
  exact ⟨s, reached, (cxlMalloc_served_iff reached registered idle 1000).2
    ⟨by decide, .inr ⟨0, left⟩⟩⟩

/-- With one byte more the request takes `free_page` for a bin. -/
theorem cxlMalloc_free_page : ∃ s, Reachable (step (1 <<< 28)) Careful State.init s ∧
    s.registered 1 = true ∧ s.call 1 = .idle ∧ SegmentLeft (1 <<< 28) s 0 ∧
    (State.queueOf 1 (.obj 1001)).2 = freePage ∧
    ¬ ServedAll (1 <<< 28) 1 (Entry.cxlMalloc 1001).requests s := by
  obtain ⟨s, reached, registered, idle, left⟩ := exists_registered
  refine ⟨s, reached, registered, idle, left, by decide, fun served => ?_⟩
  have fits := (servedAll_pair_iff (Inv.of_reachable reached) (.of_reachable reached) registered idle
    rfl rfl (by decide)).1 served
  exact absurd fits.1 (by decide)

/-- Client 2 registers after client 1 has taken the only segment. -/
theorem exists_used_up : ∃ s, Reachable (step (segmentsAreaStart + segmentSize)) Careful State.init s ∧
    s.registered 2 = true ∧ s.call 2 = .idle ∧
    (∀ g, ¬ SegmentLeft (segmentsAreaStart + segmentSize) s g) ∧
    ∀ i, s.first (2, i) = 0 := by
  obtain ⟨s₁, s₂, s₃, init, alloc, find, sas, -, -, -, -, -, -, -, absent⟩ := exists_first_alloc 1
    (segmentsAreaStart + segmentSize) .rootRef le_rfl le_rfl (by decide)
  have before : Reachable (step (segmentsAreaStart + segmentSize)) Careful State.init s₃ :=
    ((Reachable.start.next init (show 1 ≤ maxThread by decide)).next alloc
      (show Kind.rootRef.bytes ≤ 1024 by decide)).next find trivial
  have second : step (segmentsAreaStart + segmentSize) s₃ (.threadInit 2) =
      some (s₃.threadInit 2) := by
    simp [step, absent 2 (by decide)]
  have reached := before.next second (show 2 ≤ maxThread by decide)
  have registered : (s₃.threadInit 2).registered 2 = true := by simp [State.threadInit]
  refine ⟨s₃.threadInit 2, reached, registered, ?_, ?_, fun i => by simp [State.threadInit]⟩
  · cases calling : (s₃.threadInit 2).call 2 with
    | idle => rfl
    | find kind page =>
      obtain ⟨home, place, pages, -⟩ := Inv.of_reachable before
      have registered' := (pages.call 2 kind page calling).1
      rw [absent 2 (by decide)] at registered'
      cases registered'
  · rintro g ⟨room, free⟩
    cases g with
    | zero =>
      have same : (s₃.threadInit 2).sasThreadId 0 = s₃.sasThreadId 0 := rfl
      rw [same, sas] at free
      cases free
    | succ g =>
      have more : 2 * segmentSize ≤ (g + 1 + 1) * segmentSize := Nat.mul_le_mul_right _ (by omega)
      have pos : 0 < segmentSize := by decide
      omega

theorem needs_of_empty {s : State} {t : ℕ} {kind : Kind} {kinds : List Kind} (inv : Inv s)
    (empty : ∀ i, s.first (t, i) = 0) : (freePages s t).ncard < pagesNeeded s t (kind :: kinds) := by
  have noBlock : ¬ BlockLeft s (State.queueOf t kind) := by
    rintro ⟨page, ⟨l, queued, mem⟩, -⟩
    rw [Queued, State.queueOf, empty, chain_null] at queued
    subst queued
    exact List.not_mem_nil mem
  have noPage : ¬ (freePages s t).Nonempty := by
    rw [freePages_nonempty_iff inv]
    exact not_not.2 (empty freePage)
  rw [Set.not_nonempty_iff_eq_empty.1 noPage, Set.ncard_empty]
  rcases pagesNeeded_cons s t kind kinds with ⟨some, -⟩ | ⟨-, count⟩
  · exact absurd some noBlock
  · omega

/-- `create_msg_queue` of client 2 then. -/
theorem createMsgQueue_not_reported : ∃ s,
    Reachable (step (segmentsAreaStart + segmentSize)) Careful State.init s ∧
    ¬ ReportsFailure (segmentsAreaStart + segmentSize) 2 Entry.createMsgQueue.requests s := by
  obtain ⟨s, reached, registered, idle, taken, empty⟩ := exists_used_up
  exact ⟨s, reached, (used_up_not_reported reached registered idle taken .createMsgQueue
    (needs_of_empty (.of_reachable reached) empty)).1⟩

/-- `get_ref` of client 2 then. -/
theorem getRef_stores_through_null : ∃ s,
    Reachable (step (segmentsAreaStart + segmentSize)) Careful State.init s ∧
    s.registered 2 = true ∧ s.call 2 = .idle ∧
    (∀ g, ¬ SegmentLeft (segmentsAreaStart + segmentSize) s g) ∧
    Outcome (segmentsAreaStart + segmentSize) 2 Entry.getRef.requests s none ∧
    ¬ ReportsFailure (segmentsAreaStart + segmentSize) 2 Entry.getRef.requests s := by
  obtain ⟨s, reached, registered, idle, taken, empty⟩ := exists_used_up
  have needs : (freePages s 2).ncard < pagesNeeded s 2 Entry.getRef.requests :=
    needs_of_empty (.of_reachable reached) empty
  obtain ⟨-, goes⟩ := unreported_of_used_up .rootRef reached registered idle taken needs
    (.inl rfl)
  have outcome := goes (by decide)
  refine ⟨s, reached, registered, idle, taken, outcome, fun reports => ?_⟩
  obtain ⟨s', some, -⟩ := reports.2 none outcome
  cases some

end CxlShm.Heap
