import CxlShm.Alloc.Heap
import CxlShm.Lib.DoublyLinked
import Mathlib.Data.Set.Insert

/-!
# Page queues as lists

What a client does to its page queues is a sequence of `cxl_page_queue_push` and
`cxl_page_queue_remove`.  Every queue is a list that can be walked from both ends, and the two calls
are the two edits of such a list.  They write one word after the other: a client that dies between
two writes leaves the walk over a queue, from its first page on, with the pages it had before the
call or those it has after it.
-/

namespace CxlShm.Heap.State

open Function Linked

/-- A call on a page queue. -/
inductive Edit
  | push (q : ℕ × ℕ) (page : ℕ)
  | remove (q : ℕ × ℕ) (page : ℕ)
  deriving DecidableEq, Repr

namespace Edit

/-- The queue that the call is made on. -/
def queue : Edit → ℕ × ℕ
  | push q _ | remove q _ => q

/-- The call on the memory. -/
def apply (s : State) : Edit → State
  | push q page => s.cxlPageQueuePush q page
  | remove q page => s.cxlPageQueueRemove q page

/-- What the call is for: the pages of its queue, in order, before and after it. -/
def edit (pages : List ℕ) : Edit → List ℕ
  | push _ page => page :: pages
  | remove _ page => pages.erase page

/-- The pages of all queues after the call: those of the other queues stay. -/
def rows (before : ℕ × ℕ → List ℕ) (e : Edit) : ℕ × ℕ → List ℕ :=
  update before e.queue (e.edit (before e.queue))

/-- A page that is in no queue is pushed on one of `Q`; one that is in a queue of `Q` is removed
from it. -/
def Allowed (Q : Set (ℕ × ℕ)) (before : ℕ × ℕ → List ℕ) : Edit → Prop
  | push q page => q ∈ Q ∧ page ≠ 0 ∧ ∀ r ∈ Q, page ∉ before r
  | remove q page => q ∈ Q ∧ page ∈ before q

/-- Each call of a sequence is allowed where it is made. -/
def AllAllowed (Q : Set (ℕ × ℕ)) : (ℕ × ℕ → List ℕ) → List Edit → Prop
  | _, [] => True
  | before, e :: edits => e.Allowed Q before ∧ AllAllowed Q (e.rows before) edits

end Edit

/-- The queues of `Q` have the pages of `rows`: the links from the first page on lead through them
and end, those from the last page on lead through them the other way round and end, and no page is
in two of the queues. -/
structure Represents (Q : Set (ℕ × ℕ)) (s : State) (rows : ℕ × ℕ → List ℕ) : Prop where
  forward : ∀ q ∈ Q, Chain s.next 0 (s.first q) (rows q)
  backward : ∀ q ∈ Q, Chain s.prev 0 (s.last q) (rows q).reverse
  apart : ∀ q ∈ Q, ∀ r ∈ Q, q ≠ r → ∀ page ∈ rows q, page ∉ rows r

variable {Q : Set (ℕ × ℕ)} {s : State} {rows : ℕ × ℕ → List ℕ} {q : ℕ × ℕ} {page : ℕ}
  {l : List ℕ} {e : Edit} {calls : List Edit}

theorem represents_iff :
    Represents Q s rows ↔ Rows Q s.next s.prev 0 s.first s.last rows := by
  constructor
  · intro h
    exact ⟨fun q mem => .of_chains (h.forward q mem) (h.backward q mem), h.apart⟩
  · intro h
    exact ⟨fun q mem => (h.row q mem).1.1, fun q mem => (h.row q mem).backward, h.apart⟩

/-- One call is one edit. -/
theorem Represents.edit (h : Represents Q s rows) (allowed : e.Allowed Q rows) :
    Represents Q (e.apply s) (e.rows rows) := by
  rw [represents_iff] at h ⊢
  cases e with
  | push q page =>
    obtain ⟨mem, cell, out⟩ := allowed
    exact h.push mem cell out
  | remove q page =>
    obtain ⟨mem, here⟩ := allowed
    exact h.remove mem here

/-- A sequence of calls is the sequence of their edits. -/
theorem Represents.edits (h : Represents Q s rows) (allowed : Edit.AllAllowed Q rows calls) :
    Represents Q (calls.foldl Edit.apply s) (calls.foldl Edit.rows rows) := by
  induction calls generalizing s rows with
  | nil => exact h
  | cons e calls ih => exact ih (h.edit allowed.1) allowed.2

/-- Whatever calls are made, the queues are lists without repetition that can be walked both ways,
and they have the pages that the calls give them. -/
theorem page_queues_are_lists (Q : Set (ℕ × ℕ)) (s : State) (rows : ℕ × ℕ → List ℕ)
    (start : Represents Q s rows) (calls : List Edit) (allowed : Edit.AllAllowed Q rows calls) :
    Represents Q (calls.foldl Edit.apply s) (calls.foldl Edit.rows rows) ∧
      ∀ q ∈ Q, (calls.foldl Edit.rows rows q).Nodup := by
  have whole := start.edits allowed
  exact ⟨whole, fun q mem => (whole.forward q mem).nodup⟩

/-- Two queues of one client: three pages go to one of them, the middle one is taken out and put in
the other, and the other two are taken out from the end. -/
theorem page_queues_are_lists_twoQueues :
    Represents {(1, 2), (1, freePage)}
        ([.push (1, 2) 48, .push (1, 2) 96, .push (1, 2) 144, .remove (1, 2) 96,
          .push (1, freePage) 96, .remove (1, 2) 48, .remove (1, 2) 144].foldl Edit.apply .init)
        ([.push (1, 2) 48, .push (1, 2) 96, .push (1, 2) 144, .remove (1, 2) 96,
          .push (1, freePage) 96, .remove (1, 2) 48, .remove (1, 2) 144].foldl Edit.rows
            fun _ => []) ∧
      ∀ q ∈ ({(1, 2), (1, freePage)} : Set (ℕ × ℕ)),
        ([.push (1, 2) 48, .push (1, 2) 96, .push (1, 2) 144, .remove (1, 2) 96,
          .push (1, freePage) 96, .remove (1, 2) 48, .remove (1, 2) 144].foldl Edit.rows
            (fun _ => []) q).Nodup := by
  apply page_queues_are_lists
  · exact ⟨fun _ _ => rfl, fun _ _ => rfl, fun _ _ _ _ _ _ mem => absurd mem List.not_mem_nil⟩
  · simp [Edit.AllAllowed, Edit.Allowed, Edit.rows, Edit.queue, Edit.edit, freePage, cxlBinSize,
      update_apply]

/-! ## The writes of a call -/

/-- A write, as it changes the memory it is made in. -/
abbrev Write := State → State

/-- The writes of `cxl_page_queue_push`, in order.  What it reads before them is read in `s`. -/
def pushWrites (s : State) (q : ℕ × ℕ) (page : ℕ) : List Write :=
  let firstPage := s.first q
  [fun m => { m with next := update m.next page (m.first q) },
    fun m => { m with prev := update m.prev page 0 }] ++
  if firstPage ≠ 0 then
    [fun m => { m with prev := update m.prev firstPage page },
      fun m => { m with first := update m.first q page }]
  else
    [fun m => { m with first := update m.first q page },
      fun m => { m with last := update m.last q page }]

/-- The writes of `cxl_page_queue_remove`, in order. -/
def removeWrites (s : State) (q : ℕ × ℕ) (page : ℕ) : List Write :=
  let prevPage := s.prev page
  let nextPage := s.next page
  (if prevPage ≠ 0 then [fun m => { m with next := update m.next prevPage (m.next page) }]
    else []) ++
  (if nextPage ≠ 0 then [fun m => { m with prev := update m.prev nextPage (m.prev page) }]
    else []) ++
  (if page = s.last q then [fun m => { m with last := update m.last q (m.prev page) }] else []) ++
  (if page = s.first q then [fun m => { m with first := update m.first q (m.next page) }]
    else []) ++
  [fun m => { m with next := update m.next page 0 },
    fun m => { m with prev := update m.prev page 0 }]

/-- The writes of a call. -/
def Edit.writes (s : State) : Edit → List Write
  | .push q page => s.pushWrites q page
  | .remove q page => s.removeWrites q page

/-- The memory after some writes. -/
def afterWrites (writes : List Write) (s : State) : State := writes.foldl (fun m w => w m) s

theorem afterWrites_append (writes writes' : List Write) (s : State) :
    afterWrites (writes ++ writes') s = afterWrites writes' (afterWrites writes s) :=
  List.foldl_append

/-- A write that is made under a condition. -/
theorem afterWrites_one (c : Prop) [Decidable c] (w : Write) (s : State) :
    afterWrites (if c then [w] else []) s = if c then w s else s := by
  split
  · rfl
  · rfl

/-- A property holds before the writes and after each of them. -/
def AtEveryCut (P : State → Prop) : List Write → State → Prop
  | [], s => P s
  | w :: writes, s => P s ∧ AtEveryCut P writes (w s)

theorem AtEveryCut.take {P : State → Prop} {writes : List Write} (h : AtEveryCut P writes s)
    (n : ℕ) : P (afterWrites (writes.take n) s) := by
  induction writes generalizing s n with
  | nil =>
    rw [List.take_nil]
    exact h
  | cons w writes ih =>
    cases n with
    | zero => exact h.1
    | succ n => exact ih h.2 n

theorem AtEveryCut.head {P : State → Prop} {writes : List Write} (h : AtEveryCut P writes s) :
    P s := by
  cases writes with
  | nil => exact h
  | cons w writes => exact h.1

/-- The first write is made under a condition. -/
theorem AtEveryCut.when {P : State → Prop} {c : Prop} [Decidable c] {w : Write}
    {writes : List Write} (made : c → P s ∧ AtEveryCut P writes (w s))
    (spared : ¬c → AtEveryCut P writes s) :
    AtEveryCut P ((if c then [w] else []) ++ writes) s := by
  by_cases here : c
  · rw [if_pos here]
    exact made here
  · rw [if_neg here]
    exact spared here

/-- A word that gets the value of `b` leaves the word `b` as it is. -/
theorem update_read (m : ℕ → ℕ) (a b : ℕ) : update m a (m b) b = m b := by
  by_cases same : b = a
  · rw [same, update_self]
  · exact update_of_ne same _ _

/-- All writes of a call are the call. -/
theorem afterWrites_writes (s : State) (e : Edit) : afterWrites (e.writes s) s = e.apply s := by
  cases e with
  | push q page =>
    by_cases empty : s.first q = 0
    · simp [Edit.writes, Edit.apply, pushWrites, afterWrites, cxlPageQueuePush, empty]
    · simp [Edit.writes, Edit.apply, pushWrites, afterWrites, cxlPageQueuePush, empty]
  | remove q page =>
    simp only [Edit.writes, removeWrites, afterWrites_append, afterWrites_one]
    simp only [Edit.apply, cxlPageQueueRemove, ite_not]
    split_ifs <;> simp only [afterWrites, List.foldl_cons, List.foldl_nil, update_read]


/-! ## Calls that stop between two writes -/

/-- The walk over queue `q` meets the pages of one list or those of the other. -/
def Walks (q : ℕ × ℕ) (before after : List ℕ) (m : State) : Prop :=
  Chain m.next 0 (m.first q) before ∨ Chain m.next 0 (m.first q) after

variable {before after : List ℕ} {m m' : State}

/-- Only the links forward and the first page matter for the walk. -/
theorem Walks.congr (h : Walks q before after m) (next : m'.next = m.next)
    (first : m'.first q = m.first q) : Walks q before after m' := by
  rw [Walks, next, first]
  exact h

/-- The new page is linked to the first one before it becomes the first. -/
theorem pushWrites_cuts (h : Chain s.next 0 (s.first q) l) (cell : page ≠ 0) (out : page ∉ l) :
    AtEveryCut (Walks q l (page :: l)) (s.pushWrites q page) s := by
  have linked : Chain (update s.next page (s.first q)) 0 (s.first q) l := h.update out
  have pushed : Chain (update s.next page (s.first q)) 0 page (page :: l) := h.push out cell
  have first : update s.first q page q = page := update_self q page s.first
  have done : Walks q l (page :: l)
      { s with next := update s.next page (s.first q), first := update s.first q page } := by
    apply Or.inr
    change Chain (update s.next page (s.first q)) 0 (update s.first q page q) (page :: l)
    rw [first]
    exact pushed
  refine ⟨.inl h, .inl linked, ?_⟩
  change AtEveryCut _ (if s.first q ≠ 0 then _ else _) _
  split
  · exact ⟨.inl linked, .inl linked, done.congr rfl rfl⟩
  · exact ⟨.inl linked, done.congr rfl rfl, done.congr rfl rfl⟩

/-- A page that is not met any more loses its links. -/
theorem forget_cuts (h : Chain m.next 0 (m.first q) after) (out : page ∉ after) :
    AtEveryCut (Walks q before after) [fun m => { m with next := update m.next page 0 },
      fun m => { m with prev := update m.prev page 0 }] m :=
  ⟨.inr h, .inr (h.update out), .inr (h.update out)⟩

/-- The writes to `prev` and `last` do not change the walk. -/
theorem backward_cuts {c c' : Prop} [Decidable c] [Decidable c'] {writes : List Write}
    {prev : State → ℕ → ℕ} {last : State → ℕ × ℕ → ℕ}
    (rest : ∀ m' : State, m'.next = m.next → m'.first = m.first →
      AtEveryCut (Walks q before after) writes m') :
    AtEveryCut (Walks q before after)
      ((if c then [fun m => { m with prev := prev m }] else []) ++
        ((if c' then [fun m => { m with last := last m }] else []) ++ writes)) m := by
  have now : Walks q before after m := (rest m rfl rfl).head
  have inner : ∀ m' : State, m'.next = m.next → m'.first = m.first → AtEveryCut
      (Walks q before after) ((if c' then [fun m => { m with last := last m }] else []) ++ writes)
      m' := by
    intro m' next first
    apply AtEveryCut.when
    · exact fun _ => ⟨now.congr next (by rw [first]), rest _ next first⟩
    · exact fun _ => rest m' next first
  apply AtEveryCut.when
  · exact fun _ => ⟨now, inner _ rfl rfl⟩
  · exact fun _ => inner m rfl rfl

/-- A page with one before it leaves the walk when that one is linked past it; the first page leaves
it when the queue begins with the next one.  Only then the page loses its own links. -/
theorem removeWrites_cuts (h : Dll s.next s.prev 0 (s.first q) l) (mem : page ∈ l) :
    AtEveryCut (Walks q l (l.erase page)) (s.removeWrites q page) s := by
  have removed := (h.remove mem).1
  have start := h.prev_eq_null_iff mem
  have out : page ∉ l.erase page := fun again => (h.1.nodup.mem_erase_iff.1 again).1 rfl
  simp only [removeWrites, List.append_assoc]
  by_cases front : page = s.first q
  · have none := start.2 front
    rw [if_pos none, if_pos front] at removed
    apply AtEveryCut.when (absurd none)
    intro _
    apply backward_cuts
    intro m next first
    have whole : Walks q l (l.erase page) m := .inl (by rw [next, first]; exact h.1)
    apply AtEveryCut.when
    · intro _
      refine ⟨whole, forget_cuts ?_ out⟩
      change Chain m.next 0 (update m.first q (m.next page) q) (l.erase page)
      rw [update_self, next]
      exact removed
    · exact fun other => absurd front other
  · have some : s.prev page ≠ 0 := fun none => front (start.1 none)
    rw [if_neg some, if_neg front] at removed
    apply AtEveryCut.when
    · intro _
      refine ⟨.inl h.1, backward_cuts ?_⟩
      intro m next first
      apply AtEveryCut.when (fun same => absurd same front)
      intro _
      apply forget_cuts _ out
      rw [next, first]
      exact removed
    · exact fun none => absurd some none

/-- A client that dies between two writes of a call leaves a queue whose pages are those before the
call or those after it. -/
theorem page_queue_calls_crash_atomic (s : State) (e : Edit) (l : List ℕ)
    (queue : Chain s.next 0 (s.first e.queue) l)
    (back : Chain s.prev 0 (s.last e.queue) l.reverse)
    (allowed : e.Allowed {e.queue} fun _ => l) :
    (∀ n, let m := afterWrites ((e.writes s).take n) s
      Chain m.next 0 (m.first e.queue) l ∨ Chain m.next 0 (m.first e.queue) (e.edit l)) ∧
    afterWrites (e.writes s) s = e.apply s := by
  refine ⟨?_, afterWrites_writes s e⟩
  cases e with
  | push q page => exact (pushWrites_cuts queue allowed.2.1 (allowed.2.2 q rfl)).take
  | remove q page =>
    exact (removeWrites_cuts (Deque.of_chains queue back).1 allowed.2).take

/-- The middle one of three pages is removed. -/
theorem page_queue_calls_crash_atomic_middle :
    let s := [.push (1, 2) 48, .push (1, 2) 96, .push (1, 2) 144].foldl Edit.apply .init
    let e : Edit := .remove (1, 2) 96
    (∀ n, let m := afterWrites ((e.writes s).take n) s
      Chain m.next 0 (m.first e.queue) [144, 96, 48] ∨
        Chain m.next 0 (m.first e.queue) (e.edit [144, 96, 48])) ∧
    afterWrites (e.writes s) s = e.apply s := by
  apply page_queue_calls_crash_atomic
  · exact ⟨rfl, by decide, rfl, by decide, rfl, by decide, rfl⟩
  · exact ⟨rfl, by decide, rfl, by decide, rfl, by decide, rfl⟩
  · exact ⟨rfl, by decide⟩

end CxlShm.Heap.State
