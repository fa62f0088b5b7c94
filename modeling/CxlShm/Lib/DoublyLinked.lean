import CxlShm.Lib.Chain
import Mathlib.Data.List.Induction

/-!
# Cells shared by many doubly linked lists

A cell of a doubly linked list knows the cell after it and the cell before it; `null` stands for
none.  `Dll next prev null first l` says that the list that starts at `first` has the cells `l`.
`Lists next prev null first home` says this of many lists in one memory, where `home` gives each
cell the list it is in.  `Lists.push` and `Lists.remove` are the two edits of a program that keeps
its cells in such lists: at the front, and anywhere.

`Deque` adds the last cell, from which the links back lead to the front, and `Rows` says of several
lists in one memory which cells they have, in order.
-/

namespace Linked

variable {α : Type*}

/-- Each cell of the list points back to the one before it, and the first one to `b`. -/
def Back (prev : α → α) : α → List α → Prop
  | _, [] => True
  | b, x :: l => prev x = b ∧ Back prev x l

/-- A doubly linked list. -/
def Dll (next prev : α → α) (null first : α) (l : List α) : Prop :=
  Chain next null first l ∧ Back prev null l

variable {next prev next' prev' : α → α} {null a b x y : α} {l u v : List α}

@[simp] theorem back_nil : Back prev b [] := trivial

@[simp] theorem back_cons : Back prev b (x :: l) ↔ prev x = b ∧ Back prev x l := Iff.rfl

theorem Back.congr (same : ∀ x ∈ l, prev' x = prev x) : Back prev' b l ↔ Back prev b l := by
  induction l generalizing b with
  | nil => exact Iff.rfl
  | cons x l ih =>
    rw [back_cons, back_cons, same x List.mem_cons_self]
    rw [ih fun y mem => same y (List.mem_cons_of_mem x mem)]

/-- The cell before the first one of a second part is the last one of the first part. -/
theorem Back.prev_eq (h : Back prev b (u ++ x :: v)) : prev x = u.getLastD b := by
  induction u generalizing b with
  | nil => exact h.1
  | cons c u ih =>
    rw [List.getLastD_cons]
    exact ih h.2

theorem Chain.next_eq (h : Chain next null a (u ++ x :: v)) : next x = v.headD null := by
  induction u generalizing a with
  | nil =>
    obtain ⟨rfl, -, rest⟩ := h
    cases v with
    | nil => exact rest
    | cons c v => exact rest.1
  | cons c u ih => exact ih h.2.2

theorem Dll.congr (h : Dll next prev null a l) (same : ∀ x ∈ l, next' x = next x)
    (same' : ∀ x ∈ l, prev' x = prev x) : Dll next' prev' null a l :=
  ⟨(Chain.congr same).2 h.1, (Back.congr same').2 h.2⟩

section Update

variable [DecidableEq α]

/-- A new cell in front; the old first cell points back to it. -/
theorem Dll.push (h : Dll next prev null a l) (cell : x ≠ null) (out : x ∉ l) :
    Dll (Function.update next x a)
      (if a = null then Function.update prev x null
        else Function.update (Function.update prev x null) a x) null x (x :: l) := by
  refine ⟨h.1.push out cell, ?_⟩
  cases l with
  | nil =>
    obtain rfl := h.1
    simp
  | cons c l =>
    obtain ⟨rfl, some, -⟩ := h.1
    have once := (List.nodup_cons.1 h.1.nodup).1
    have different : x ≠ a := by
      rintro rfl
      exact out List.mem_cons_self
    rw [if_neg some]
    refine ⟨by simp [different], by simp, (Back.congr fun y mem => ?_).2 h.2.2⟩
    have later : y ≠ a := by
      rintro rfl
      exact once mem
    have other : y ≠ x := by
      rintro rfl
      exact out (List.mem_cons_of_mem a mem)
    simp [later, other]

/-- The cell before `x` is linked past it. -/
theorem Chain.skip (h : Chain next null a (u ++ b :: x :: v)) :
    Chain (Function.update next b (next x)) null a (u ++ b :: v) := by
  induction u generalizing a with
  | nil =>
    have once := (List.nodup_cons.1 h.nodup).1
    obtain ⟨rfl, some, -, -, rest⟩ := h
    refine ⟨rfl, some, ?_⟩
    rw [Function.update_self]
    exact rest.update fun again => once (List.mem_cons_of_mem x again)
  | cons c u ih =>
    have once := (List.nodup_cons.1 h.nodup).1
    obtain ⟨rfl, some, rest⟩ := h
    refine ⟨rfl, some, ?_⟩
    rw [Function.update_of_ne]
    · exact ih rest
    · rintro rfl
      exact once (by simp)

/-- The cell after `x` is linked back past it. -/
theorem Back.skip (h : Back prev b (u ++ x :: y :: v)) (nodup : (u ++ x :: y :: v).Nodup) :
    Back (Function.update prev y (prev x)) b (u ++ y :: v) := by
  induction u generalizing b with
  | nil =>
    obtain ⟨here, -, rest⟩ := h
    refine ⟨by simp [here], (Back.congr fun z mem => ?_).2 rest⟩
    apply Function.update_of_ne
    rintro rfl
    exact (List.nodup_cons.1 (List.nodup_cons.1 nodup).2).1 mem
  | cons c u ih =>
    obtain ⟨out, nodup'⟩ := List.nodup_cons.1 nodup
    refine ⟨?_, ih h.2 nodup'⟩
    rw [Function.update_of_ne]
    · exact h.1
    · rintro rfl
      exact out (by simp)

omit [DecidableEq α] in
theorem Back.drop (h : Back prev b (u ++ [x])) : Back prev b u := by
  induction u generalizing b with
  | nil => trivial
  | cons c u ih => exact ⟨h.1, ih h.2⟩

/-- A cell is taken out of the list. -/
theorem Dll.remove (h : Dll next prev null a l) (mem : x ∈ l) :
    Dll (if prev x = null then next else Function.update next (prev x) (next x))
      (if next x = null then prev else Function.update prev (next x) (prev x)) null
      (if x = a then next x else a) (l.erase x) := by
  obtain ⟨u, v, rfl⟩ := List.append_of_mem mem
  obtain ⟨chain, back⟩ := h
  have nodup := chain.nodup
  have first_part : x ∉ u := fun again =>
    (List.nodup_append.1 nodup).2.2 x again x List.mem_cons_self rfl
  rw [List.erase_append_right _ first_part, List.erase_cons_head]
  have before := back.prev_eq
  have after := chain.next_eq
  constructor
  · -- the links forward, by the cell before `x`
    rcases List.eq_nil_or_concat u with rfl | ⟨w, b, rfl⟩
    · obtain ⟨rfl, -, rest⟩ := chain
      rw [if_pos (by simpa using before), if_pos rfl]
      exact rest
    · have here : prev x = b := by simpa using before
      have some : b ≠ null := chain.ne_null (by simp)
      have not_first : x ≠ a := by
        rintro rfl
        cases w with
        | nil => exact first_part (by simp [show x = b from chain.1])
        | cons c w => exact first_part (by simp [show x = c from chain.1])
      rw [here, if_neg some, if_neg not_first]
      simp only [List.concat_eq_append, List.append_assoc, List.cons_append, List.nil_append]
        at chain ⊢
      exact chain.skip
  · -- the links back, by the cell after it
    cases v with
    | nil =>
      rw [if_pos (by simpa using after), List.append_nil]
      exact back.drop
    | cons y v =>
      have here : next x = y := by simpa using after
      have some : y ≠ null := chain.ne_null (by simp)
      rw [here, if_neg some]
      exact back.skip nodup

/-- A cell is taken out of the list and forgets its neighbours. -/
theorem Dll.remove_forget (h : Dll next prev null a l) (mem : x ∈ l) :
    Dll (Function.update
        (if prev x = null then next else Function.update next (prev x) (next x)) x null)
      (Function.update
        (if next x = null then prev else Function.update prev (next x) (prev x)) x null) null
      (if x = a then next x else a) (l.erase x) := by
  have apart : ∀ z ∈ l.erase x, z ≠ x := fun z hz => (h.1.nodup.mem_erase_iff.1 hz).1
  apply (h.remove mem).congr
  · intro z hz
    exact Function.update_of_ne (apart z hz) _ _
  · intro z hz
    exact Function.update_of_ne (apart z hz) _ _

omit [DecidableEq α] in
/-- Only the two neighbours of a removed cell are written. -/
theorem Dll.neighbours (h : Dll next prev null a l) (mem : x ∈ l) :
    (prev x ≠ null → prev x ∈ l) ∧ (next x ≠ null → next x ∈ l) := by
  obtain ⟨u, v, rfl⟩ := List.append_of_mem mem
  have before := h.2.prev_eq
  have after := h.1.next_eq
  constructor
  · intro some
    rcases List.eq_nil_or_concat u with rfl | ⟨w, b, rfl⟩
    · exact absurd before some
    · have here : prev x = b := by simpa using before
      simp [here]
  · intro some
    cases v with
    | nil => exact absurd after some
    | cons y v =>
      have here : next x = y := by simpa using after
      simp [here]

omit [DecidableEq α] in
/-- It is the first cell that has none before it. -/
theorem Dll.prev_eq_null_iff (h : Dll next prev null a l) (mem : x ∈ l) :
    prev x = null ↔ x = a := by
  obtain ⟨u, v, rfl⟩ := List.append_of_mem mem
  have nodup := h.1.nodup
  have before := h.2.prev_eq
  cases u with
  | nil => exact ⟨fun _ => h.1.1.symm, fun _ => before⟩
  | cons c u =>
    have start : a = c := h.1.1
    obtain ⟨w, b, ends⟩ := (List.eq_nil_or_concat (c :: u)).resolve_left (List.cons_ne_nil c u)
    constructor
    · intro none
      rw [ends] at before
      have here : prev x = b := by simpa using before
      exact absurd (here.symm.trans none) (h.1.ne_null (by simp [ends]))
    · rintro rfl
      rw [start] at nodup
      simp at nodup

/-- A list that has nothing of another one is not changed by a new cell in front of that. -/
theorem Dll.push_apart {first : α} (h : Dll next prev null a l) (out : x ∉ l)
    (other : first ≠ null → first ∉ l) :
    Dll (Function.update next x first)
      (if first = null then Function.update prev x null
        else Function.update (Function.update prev x null) first x) null a l := by
  have apart : ∀ z ∈ l, z ≠ x := by
    rintro z hz rfl
    exact out hz
  apply h.congr
  · intro z hz
    exact Function.update_of_ne (apart z hz) _ _
  · intro z hz
    by_cases empty : first = null
    · rw [if_pos empty, Function.update_of_ne (apart z hz)]
    · have away : z ≠ first := by
        rintro rfl
        exact other empty hz
      rw [if_neg empty, Function.update_of_ne away, Function.update_of_ne (apart z hz)]

/-- A list that has nothing of another one is not changed when a cell of that is taken out. -/
theorem Dll.remove_apart {m : List α} (h : Dll next prev null a l) (h' : Dll next prev null b m)
    (mem : x ∈ m) (apart : ∀ z ∈ l, z ∉ m) :
    Dll (Function.update
        (if prev x = null then next else Function.update next (prev x) (next x)) x null)
      (Function.update
        (if next x = null then prev else Function.update prev (next x) (prev x)) x null) null a l := by
  obtain ⟨before, after⟩ := h'.neighbours mem
  have away : ∀ z ∈ l, ∀ y ∈ m, z ≠ y := by
    rintro z hz y hy rfl
    exact apart z hz hy
  apply h.congr
  · intro z hz
    rw [Function.update_of_ne (away z hz x mem)]
    split
    · rfl
    · next some => exact Function.update_of_ne (away z hz _ (before some)) _ _
  · intro z hz
    rw [Function.update_of_ne (away z hz x mem)]
    split
    · rfl
    · next some => exact Function.update_of_ne (away z hz _ (after some)) _ _

end Update

/-! ## Lists with both ends -/

/-- A doubly linked list whose last cell is known too. -/
def Deque (next prev : α → α) (null first last : α) (l : List α) : Prop :=
  Dll next prev null first l ∧ last = l.getLastD null

/-- Cells that point back, with one more behind them. -/
theorem back_concat : Back prev b (l ++ [x]) ↔ Back prev b l ∧ prev x = l.getLastD b := by
  induction l generalizing b with
  | nil => simp
  | cons c l ih =>
    rw [List.cons_append, back_cons, back_cons, ih, List.getLastD_cons]
    exact and_assoc.symm

/-- The links back, from the last cell on, visit the cells the other way round. -/
theorem chain_reverse_iff : Chain prev null b l.reverse ↔
    Back prev null l ∧ (∀ x ∈ l, x ≠ null) ∧ b = l.getLastD null := by
  induction l using List.reverseRecOn generalizing b with
  | nil => simp
  | append_singleton u x ih =>
    rw [List.reverse_append, List.reverse_singleton, List.singleton_append, chain_cons, ih,
      back_concat]
    have last : (u ++ [x]).getLastD null = x := by simp
    have cells : (∀ y ∈ u ++ [x], y ≠ null) ↔ (∀ y ∈ u, y ≠ null) ∧ x ≠ null := by
      simp only [List.forall_mem_append, List.forall_mem_singleton]
    rw [last, cells]
    constructor
    · rintro ⟨first, cell, back, others, here⟩
      exact ⟨⟨back, here⟩, ⟨others, cell⟩, first⟩
    · rintro ⟨⟨back, here⟩, ⟨others, cell⟩, first⟩
      exact ⟨first, cell, back, others, here⟩

namespace Deque

variable {first last : α}

/-- From the last cell back one meets the same cells. -/
theorem backward (h : Deque next prev null first last l) : Chain prev null last l.reverse :=
  chain_reverse_iff.2 ⟨h.1.2, fun _ mem => h.1.1.ne_null mem, h.2⟩

/-- A list that can be walked both ways. -/
theorem of_chains (forward : Chain next null first l) (backward : Chain prev null last l.reverse) :
    Deque next prev null first last l := by
  obtain ⟨back, -, here⟩ := chain_reverse_iff.1 backward
  exact ⟨⟨forward, back⟩, here⟩

variable [DecidableEq α]

/-- A new cell in front; in an empty list it is the last one too. -/
theorem push (h : Deque next prev null first last l) (cell : x ≠ null) (out : x ∉ l) :
    Deque (Function.update next x first)
      (if first = null then Function.update prev x null
        else Function.update (Function.update prev x null) first x) null x
      (if first = null then x else last) (x :: l) := by
  obtain ⟨dll, here⟩ := h
  refine ⟨dll.push cell out, ?_⟩
  rw [List.getLastD_cons]
  cases l with
  | nil =>
    have empty : first = null := dll.1
    rw [if_pos empty, List.getLastD_nil]
  | cons c l =>
    have some : first ≠ null := by
      rw [dll.1.1]
      exact dll.1.2.1
    rw [if_neg some, here, List.getLastD_cons, List.getLastD_cons]

/-- A cell is taken out and forgets its neighbours; the one before it may now be the last. -/
theorem remove (h : Deque next prev null first last l) (mem : x ∈ l) :
    Deque (Function.update
        (if prev x = null then next else Function.update next (prev x) (next x)) x null)
      (Function.update
        (if next x = null then prev else Function.update prev (next x) (prev x)) x null) null
      (if x = first then next x else first) (if x = last then prev x else last) (l.erase x) := by
  obtain ⟨dll, here⟩ := h
  refine ⟨dll.remove_forget mem, ?_⟩
  have nodup := dll.1.nodup
  obtain ⟨u, v, rfl⟩ := List.append_of_mem mem
  have first_part : x ∉ u := fun again =>
    (List.nodup_append.1 nodup).2.2 x again x List.mem_cons_self rfl
  rw [List.erase_append_right _ first_part, List.erase_cons_head]
  rcases List.eq_nil_or_concat v with rfl | ⟨w, y, rfl⟩
  · have here : last = x := by simpa using here
    rw [if_pos here.symm, dll.2.prev_eq, List.append_nil]
  · have ends : u ++ x :: w.concat y = (u ++ x :: w) ++ [y] := by simp
    have here : last = y := by
      rw [here, ends, List.getLastD_concat]
    have different : x ≠ last := by
      rintro rfl
      rw [ends, here] at nodup
      exact (List.nodup_append.1 nodup).2.2 y (by simp) y (by simp) rfl
    rw [if_neg different, here]
    simp

end Deque

/-! ## The cells of several lists -/

section Rows

variable {ι : Type*}

/-- The lists of `Q` have the cells that `rows` gives them, and no cell is in two of them. -/
structure Rows (Q : Set ι) (next prev : α → α) (null : α) (first last : ι → α)
    (rows : ι → List α) : Prop where
  row : ∀ q ∈ Q, Deque next prev null (first q) (last q) (rows q)
  apart : ∀ q ∈ Q, ∀ r ∈ Q, q ≠ r → ∀ x ∈ rows q, x ∉ rows r

namespace Rows

variable {Q : Set ι} {first last : ι → α} {rows : ι → List α} {q : ι}

theorem first_mem (h : Rows Q next prev null first last rows) (mem : q ∈ Q)
    (some : first q ≠ null) : first q ∈ rows q := by
  obtain ⟨rest, here, -⟩ := (h.row q mem).1.1.exists_cons some
  rw [here]
  exact List.mem_cons_self

variable [DecidableEq α] [DecidableEq ι]

/-- A cell of no list goes to the front of one; the others keep what they have. -/
theorem push (h : Rows Q next prev null first last rows) (mem : q ∈ Q) (cell : x ≠ null)
    (out : ∀ r ∈ Q, x ∉ rows r) :
    Rows Q (Function.update next x (first q))
      (if first q = null then Function.update prev x null
        else Function.update (Function.update prev x null) (first q) x) null
      (Function.update first q x)
      (if first q = null then Function.update last q x else last)
      (Function.update rows q (x :: rows q)) := by
  constructor
  · intro r hr
    by_cases same : r = q
    · subst same
      have pushed := (h.row r hr).push cell (out r hr)
      by_cases empty : first r = null
      · simpa [empty] using pushed
      · simpa [empty] using pushed
    · obtain ⟨dll, here⟩ := h.row r hr
      rw [Function.update_of_ne same, Function.update_of_ne same]
      refine ⟨dll.push_apart (out r hr) fun some again => ?_, ?_⟩
      · exact h.apart q mem r hr (Ne.symm same) _ (h.first_mem mem some) again
      · split
        · rw [Function.update_of_ne same, here]
        · exact here
  · have gains : ∀ r ∈ Q, r ≠ q → ∀ z, z ∈ x :: rows q → z ∉ rows r := by
      intro r hr other z hz again
      rcases List.mem_cons.1 hz with rfl | old
      · exact out r hr again
      · exact h.apart q mem r hr (Ne.symm other) z old again
    intro r hr r' hr' different z hz
    by_cases same : r = q
    · subst same
      rw [Function.update_self] at hz
      rw [Function.update_of_ne (Ne.symm different)]
      exact gains r' hr' (Ne.symm different) z hz
    · rw [Function.update_of_ne same] at hz
      by_cases same' : r' = q
      · subst same'
        rw [Function.update_self]
        exact fun again => gains r hr same z again hz
      · rw [Function.update_of_ne same']
        exact h.apart r hr r' hr' different z hz

/-- A cell of a list is taken out of it; the others keep what they have. -/
theorem remove (h : Rows Q next prev null first last rows) (mem : q ∈ Q) (on : x ∈ rows q) :
    Rows Q (Function.update
        (if prev x = null then next else Function.update next (prev x) (next x)) x null)
      (Function.update
        (if next x = null then prev else Function.update prev (next x) (prev x)) x null) null
      (if x = first q then Function.update first q (next x) else first)
      (if x = last q then Function.update last q (prev x) else last)
      (Function.update rows q ((rows q).erase x)) := by
  constructor
  · intro r hr
    by_cases same : r = q
    · subst same
      have start : (if x = first r then Function.update first r (next x) else first) r =
          if x = first r then next x else first r := by
        split <;> simp
      have stop : (if x = last r then Function.update last r (prev x) else last) r =
          if x = last r then prev x else last r := by
        split <;> simp
      rw [start, stop, Function.update_self]
      exact (h.row r hr).remove on
    · obtain ⟨dll, here⟩ := h.row r hr
      have start : (if x = first q then Function.update first q (next x) else first) r = first r := by
        split <;> simp [same]
      have stop : (if x = last q then Function.update last q (prev x) else last) r = last r := by
        split <;> simp [same]
      rw [start, stop, Function.update_of_ne same]
      exact ⟨dll.remove_apart (h.row q mem).1 on (h.apart r hr q mem same), here⟩
  · intro r hr r' hr' different z hz again
    have fewer : ∀ p, ∀ y ∈ Function.update rows q ((rows q).erase x) p, y ∈ rows p := by
      intro p y hy
      by_cases same : p = q
      · subst same
        rw [Function.update_self] at hy
        exact List.mem_of_mem_erase hy
      · rwa [Function.update_of_ne same] at hy
    exact h.apart r hr r' hr' different z (fewer r z hz) (fewer r' z again)

end Rows

end Rows

/-! ## Many lists in one memory -/

variable {ι : Type*}

/-- Every list is a doubly linked list of the cells that have it as their home. -/
def Lists (next prev : α → α) (null : α) (first : ι → α) (home : α → Option ι) : Prop :=
  ∀ q, ∃ l, Dll next prev null (first q) l ∧ ∀ x, x ∈ l ↔ home x = some q

namespace Lists

variable {first : ι → α} {home : α → Option ι} {q : ι}

theorem home_first (h : Lists next prev null first home) (some : first q ≠ null) :
    home (first q) = Option.some q := by
  obtain ⟨l, dll, mem⟩ := h q
  obtain ⟨rest, rfl, -⟩ := dll.1.exists_cons some
  exact (mem _).1 List.mem_cons_self

/-- A list with a cell is not empty. -/
theorem first_ne_null (h : Lists next prev null first home) (at_home : home x = some q) :
    first q ≠ null := by
  obtain ⟨l, dll, mem⟩ := h q
  intro empty
  rw [Dll, empty, chain_null] at dll
  obtain ⟨rfl, -⟩ := dll
  exact List.not_mem_nil ((mem x).2 at_home)

/-- The cell after one of a list is on the same list. -/
theorem home_next (h : Lists next prev null first home) (at_home : home x = some q)
    (some : next x ≠ null) : home (next x) = Option.some q := by
  obtain ⟨l, dll, mem⟩ := h q
  have on := (mem x).2 at_home
  obtain ⟨u, v, rfl⟩ := List.append_of_mem on
  have after := dll.1.next_eq
  cases v with
  | nil => exact absurd after some
  | cons y v =>
    have here : next x = y := by simpa using after
    exact (mem _).1 (by simp [here])

/-- Only the links of cells that are in a list matter. -/
theorem congr (h : Lists next prev null first home)
    (same : ∀ x q, home x = some q → next' x = next x)
    (same' : ∀ x q, home x = some q → prev' x = prev x) : Lists next' prev' null first home := by
  intro q
  obtain ⟨l, dll, mem⟩ := h q
  exact ⟨l, dll.congr (fun x hx => same x q ((mem x).1 hx)) fun x hx => same' x q ((mem x).1 hx),
    mem⟩

/-- A chain of a list has the cells that are at home there. -/
theorem mem_iff (h : Lists next prev null first home) (chain : Chain next null (first q) l) :
    x ∈ l ↔ home x = some q := by
  obtain ⟨m, dll, mem⟩ := h q
  rw [chain.unique dll.1]
  exact mem x

variable [DecidableEq α] [DecidableEq ι]

/-- A cell that is in no list goes to the front of one. -/
theorem push (h : Lists next prev null first home) (cell : x ≠ null) (homeless : home x = none) :
    Lists (Function.update next x (first q))
      (if first q = null then Function.update prev x null
        else Function.update (Function.update prev x null) (first q) x) null
      (Function.update first q x) (Function.update home x (some q)) := by
  intro r
  obtain ⟨l, dll, mem⟩ := h r
  have out : x ∉ l := by
    rw [mem x, homeless]
    exact Option.some_ne_none r ∘ Eq.symm
  by_cases same : r = q
  · subst same
    refine ⟨x :: l, by simpa using dll.push cell out, fun z => ?_⟩
    by_cases hz : z = x
    · subst hz
      simp
    · rw [Function.update_of_ne hz, ← mem z, List.mem_cons, or_iff_right hz]
  · refine ⟨l, ?_, fun z => ?_⟩
    · rw [Function.update_of_ne same]
      apply dll.push_apart out
      intro some on
      have here := (mem _).1 on
      rw [h.home_first some] at here
      exact same (Option.some.inj here).symm
    · by_cases hz : z = x
      · subst hz
        simp [out, Ne.symm same]
      · rw [Function.update_of_ne hz, mem z]

/-- The lists that a removed cell is not in stay as they are. -/
theorem remove_other {r : ι} (h : Lists next prev null first home) (at_home : home x = some q)
    (other : r ≠ q) (dll : Dll next prev null (first r) l) :
    Dll (Function.update
        (if prev x = null then next else Function.update next (prev x) (next x)) x null)
      (Function.update
        (if next x = null then prev else Function.update prev (next x) (prev x)) x null) null
      ((if x = first q then Function.update first q (next x) else first) r) l := by
  obtain ⟨m, dll_q, mem_q⟩ := h q
  have start : (if x = first q then Function.update first q (next x) else first) r = first r := by
    split <;> simp [other]
  rw [start]
  apply dll.remove_apart dll_q ((mem_q x).2 at_home)
  intro z hz hy
  have one := (h.mem_iff dll.1).1 hz
  rw [(mem_q z).1 hy] at one
  exact other (Option.some.inj one).symm

/-- A cell is taken out of its list and forgets its neighbours. -/
theorem remove (h : Lists next prev null first home) (at_home : home x = some q) :
    Lists (Function.update
        (if prev x = null then next else Function.update next (prev x) (next x)) x null)
      (Function.update
        (if next x = null then prev else Function.update prev (next x) (prev x)) x null) null
      (if x = first q then Function.update first q (next x) else first)
      (Function.update home x none) := by
  intro r
  obtain ⟨l, dll, mem⟩ := h r
  by_cases same : r = q
  · subst same
    have here := (mem x).2 at_home
    refine ⟨l.erase x, ?_, fun z => ?_⟩
    · have start : (if x = first r then Function.update first r (next x) else first) r =
          if x = first r then next x else first r := by
        split <;> simp
      rw [start]
      exact dll.remove_forget here
    · rw [dll.1.nodup.mem_erase_iff, mem z]
      by_cases hz : z = x
      · subst hz
        simp
      · rw [Function.update_of_ne hz]
        simp [hz]
  · refine ⟨l, h.remove_other at_home same dll, fun z => ?_⟩
    by_cases hz : z = x
    · subst hz
      rw [mem, at_home]
      simp [Ne.symm same]
    · rw [Function.update_of_ne hz, mem z]

end Lists

end Linked
