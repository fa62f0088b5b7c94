import CxlShm.Lib.Chain

/-!
# Cells shared by many stacks

One memory of links can hold many stacks: each has a head, and the chain from there are its cells.
`Stacks next null head place` says that every stack `q` is a chain, and that its cells are the ones
that `place` puts on it; so no cell is on two stacks, or twice on one.  The rules below are the
moves of a program that keeps its free cells on such stacks: `pop`, `push`, taking a whole stack
over to an empty one (`move`), forgetting one (`clear`) and threading new cells (`fill`).
-/

namespace Linked

variable {α ι : Type*}

/-- Every stack is a chain of the cells that are placed on it. -/
def Stacks (next : α → α) (null : α) (head : ι → α) (place : α → Option ι) : Prop :=
  ∀ q, ∃ l, Chain next null (head q) l ∧ ∀ x, x ∈ l ↔ place x = some q

namespace Stacks

variable {next next' : α → α} {null x y : α} {head head' : ι → α} {place place' : α → Option ι}
  {q q' : ι}

/-- A stack is empty exactly when its head is `null`. -/
theorem head_eq_null (h : Stacks next null head place) :
    head q = null ↔ ∀ x, place x ≠ some q := by
  obtain ⟨l, chain, mem⟩ := h q
  constructor
  · intro empty x on
    rw [empty, chain_null] at chain
    subst chain
    exact List.not_mem_nil ((mem x).2 on)
  · intro none
    cases l with
    | nil => exact chain
    | cons b l => exact absurd ((mem b).1 List.mem_cons_self) (none b)

/-- The head of a stack that is not empty is on it. -/
theorem place_head (h : Stacks next null head place) (occupied : head q ≠ null) :
    place (head q) = some q := by
  obtain ⟨l, chain, mem⟩ := h q
  obtain ⟨rest, rfl, -⟩ := chain.exists_cons occupied
  exact (mem _).1 List.mem_cons_self

/-- Only the links of placed cells matter. -/
theorem congr (h : Stacks next null head place) (same : ∀ x q, place x = some q → next' x = next x) :
    Stacks next' null head place := by
  intro q
  obtain ⟨l, chain, mem⟩ := h q
  exact ⟨l, (Chain.congr fun x hx => same x q ((mem x).1 hx)).2 chain, mem⟩

variable [DecidableEq α] [DecidableEq ι]

omit [DecidableEq ι] in
/-- A write to a cell that is on no stack. -/
theorem write (h : Stacks next null head place) (free : place x = none) :
    Stacks (Function.update next x y) null head place := by
  apply h.congr
  intro z q on
  apply Function.update_of_ne
  rintro rfl
  simp [free] at on

/-- The head is taken off its stack. -/
theorem pop (h : Stacks next null head place) (occupied : head q ≠ null) :
    Stacks next null (Function.update head q (next (head q)))
      (Function.update place (head q) none) := by
  have on := h.place_head occupied
  intro r
  obtain ⟨l, chain, mem⟩ := h r
  by_cases same : r = q
  · subst same
    obtain ⟨rest, rfl, tail⟩ := chain.exists_cons occupied
    obtain ⟨once, -⟩ := List.nodup_cons.1 chain.nodup
    refine ⟨rest, by simpa using tail, fun x => ?_⟩
    by_cases hx : x = head r
    · subst hx
      simp [once]
    · rw [Function.update_of_ne hx, ← mem x, List.mem_cons, or_iff_right hx]
  · refine ⟨l, by simpa [same] using chain, fun x => ?_⟩
    by_cases hx : x = head q
    · subst hx
      simp only [mem, on, Function.update_self]
      simp [Ne.symm same]
    · rw [Function.update_of_ne hx, mem x]

/-- A cell that is on no stack is linked in front of one. -/
theorem push (h : Stacks next null head place) (cell : x ≠ null) (free : place x = none) :
    Stacks (Function.update next x (head q)) null (Function.update head q x)
      (Function.update place x (some q)) := by
  intro r
  obtain ⟨l, chain, mem⟩ := h r
  have out : x ∉ l := by
    rw [mem x, free]
    exact Option.some_ne_none r ∘ Eq.symm
  by_cases same : r = q
  · subst same
    refine ⟨x :: l, by simpa using chain.push out cell, fun z => ?_⟩
    by_cases hz : z = x
    · subst hz
      simp
    · rw [Function.update_of_ne hz, ← mem z, List.mem_cons, or_iff_right hz]
  · refine ⟨l, by simpa [same] using chain.update out, fun z => ?_⟩
    by_cases hz : z = x
    · subst hz
      simp [out, Ne.symm same]
    · rw [Function.update_of_ne hz, mem z]

/-- A cell that is on no stack, but links to the head of one already, is put in front of it. -/
theorem link (h : Stacks next null head place) (cell : x ≠ null) (free : place x = none)
    (linked : next x = head q) :
    Stacks next null (Function.update head q x) (Function.update place x (some q)) := by
  have pushed := h.push (q := q) cell free
  rwa [← linked, Function.update_eq_self] at pushed

omit [DecidableEq α] in
/-- An empty stack takes all the cells of another one. -/
theorem move (h : Stacks next null head place) (different : q ≠ q') (empty : head q' = null) :
    Stacks next null (Function.update (Function.update head q' (head q)) q null)
      fun x => if place x = some q then some q' else place x := by
  have none := h.head_eq_null.1 empty
  intro r
  obtain ⟨l, chain, mem⟩ := h r
  by_cases from_q : r = q
  · subst from_q
    refine ⟨[], by simp, fun x => ?_⟩
    by_cases on : place x = some r <;> simp [on, Ne.symm different]
  · by_cases to_q : r = q'
    · subst to_q
      obtain ⟨m, moved, mem_m⟩ := h q
      refine ⟨m, by simpa [from_q] using moved, fun x => ?_⟩
      by_cases on : place x = some q <;> simp [mem_m, on, none x]
    · refine ⟨l, by simpa [from_q, to_q] using chain, fun x => ?_⟩
      by_cases on : place x = some q
      · simp [mem, on, Ne.symm from_q, Ne.symm to_q]
      · simp [mem, on]

omit [DecidableEq α] in
/-- The cells of a stack are forgotten. -/
theorem clear (h : Stacks next null head place) :
    Stacks next null (Function.update head q null)
      fun x => if place x = some q then none else place x := by
  intro r
  obtain ⟨l, chain, mem⟩ := h r
  by_cases same : r = q
  · subst same
    refine ⟨[], by simp, fun x => ?_⟩
    by_cases on : place x = some r <;> simp [on]
  · refine ⟨l, by simpa [same] using chain, fun x => ?_⟩
    by_cases on : place x = some q
    · simp [mem, on, Ne.symm same]
    · simp [mem, on]

/-- Cells that are on no stack are threaded into a chain for an empty one. -/
theorem fill {l : List α} {a : α} (h : Stacks next null head place) (empty : head q = null)
    (chain : Chain next' null a l) (free : ∀ x ∈ l, place x = none)
    (same : ∀ x r, place x = some r → next' x = next x) :
    Stacks next' null (Function.update head q a) fun x => if x ∈ l then some q else place x := by
  have none := h.head_eq_null.1 empty
  intro r
  by_cases here : r = q
  · subst here
    refine ⟨l, by simpa using chain, fun x => ?_⟩
    by_cases mem : x ∈ l <;> simp [mem, none x]
  · obtain ⟨m, old, mem_m⟩ := h.congr same r
    refine ⟨m, by simpa [here] using old, fun x => ?_⟩
    by_cases mem : x ∈ l
    · simp [mem_m, mem, free x mem, Ne.symm here]
    · simp [mem_m, mem]

end Stacks

end Linked
