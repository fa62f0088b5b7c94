import Mathlib.Data.List.Nodup
import Mathlib.Logic.Function.Basic

/-!
# Chains through a link function

A memory gives each cell the next one; a special value `null` ends a chain.  `Chain next null a l`
says that following `next` from `a` visits exactly the cells of `l` and then ends.  The list is
determined by the start, so it has no repetition, and a write to a cell outside the list does not
change it.
-/

namespace Linked

variable {α : Type*}

/-- From `a` on, the links visit the cells of the list, in order, and then end. -/
def Chain (next : α → α) (null : α) : α → List α → Prop
  | a, [] => a = null
  | a, b :: l => a = b ∧ b ≠ null ∧ Chain next null (next b) l

variable {next : α → α} {null a b x y : α} {l l' : List α}

@[simp] theorem chain_nil : Chain next null a [] ↔ a = null := Iff.rfl

@[simp] theorem chain_cons :
    Chain next null a (b :: l) ↔ a = b ∧ b ≠ null ∧ Chain next null (next b) l := Iff.rfl

theorem chain_null : Chain next null null l ↔ l = [] := by
  cases l with
  | nil => simp
  | cons b l =>
    simp only [chain_cons, List.cons_ne_nil, iff_false]
    rintro ⟨rfl, different, -⟩
    exact different rfl

/-- A chain that starts at a cell has it as its head. -/
theorem Chain.exists_cons (h : Chain next null a l) (some : a ≠ null) :
    ∃ rest, l = a :: rest ∧ Chain next null (next a) rest := by
  cases l with
  | nil => exact absurd h some
  | cons b rest =>
    obtain ⟨rfl, -, rest_chain⟩ := h
    exact ⟨rest, rfl, rest_chain⟩

theorem Chain.ne_null (h : Chain next null a l) (mem : x ∈ l) : x ≠ null := by
  induction l generalizing a with
  | nil => cases mem
  | cons b l ih =>
    obtain ⟨-, different, rest⟩ := h
    rcases List.mem_cons.1 mem with rfl | mem
    · exact different
    · exact ih rest mem

/-- The start determines the chain. -/
theorem Chain.unique (h : Chain next null a l) (h' : Chain next null a l') : l = l' := by
  induction l generalizing a l' with
  | nil =>
    obtain rfl := h
    exact (chain_null.1 h').symm
  | cons b l ih =>
    obtain ⟨rfl, different, rest⟩ := h
    obtain ⟨rest', rfl, rest_chain⟩ := h'.exists_cons different
    rw [ih rest rest_chain]

/-- Only what the links are at the cells of the list matters. -/
theorem Chain.congr {next' : α → α} (same : ∀ x ∈ l, next' x = next x) :
    Chain next' null a l ↔ Chain next null a l := by
  induction l generalizing a with
  | nil => exact Iff.rfl
  | cons b l ih =>
    simp only [chain_cons, same b List.mem_cons_self]
    rw [ih fun x mem => same x (List.mem_cons_of_mem b mem)]

/-- A chain from a cell inside a chain is a tail of it. -/
theorem Chain.split {u v : List α} (h : Chain next null a (u ++ x :: v)) :
    Chain next null x (x :: v) := by
  induction u generalizing a with
  | nil =>
    obtain ⟨rfl, rest⟩ := h
    exact ⟨rfl, rest⟩
  | cons b u ih => exact ih h.2.2

theorem Chain.nodup (h : Chain next null a l) : l.Nodup := by
  induction l generalizing a with
  | nil => exact List.nodup_nil
  | cons b l ih =>
    refine List.nodup_cons.2 ⟨fun again => ?_, ih h.2.2⟩
    -- a second visit to `b` would repeat the whole chain inside itself
    obtain ⟨u, v, rfl⟩ := List.append_of_mem again
    have tail : Chain next null b (b :: v) := Chain.split h.2.2
    have whole : Chain next null b (b :: (u ++ b :: v)) := ⟨rfl, h.2⟩
    have same := congrArg List.length (tail.unique whole)
    simp only [List.length_cons, List.length_append] at same
    omega

section Update

variable [DecidableEq α]

/-- A write outside the chain leaves it alone. -/
theorem Chain.update (h : Chain next null a l) (out : x ∉ l) :
    Chain (Function.update next x y) null a l := by
  have same : ∀ z ∈ l, Function.update next x y z = next z := by
    intro z mem
    apply Function.update_of_ne
    rintro rfl
    exact out mem
  exact (Chain.congr same).2 h

/-- A cell that links to the start of a chain goes in front of it. -/
theorem Chain.push (h : Chain next null a l) (out : x ∉ l) (some : x ≠ null) :
    Chain (Function.update next x a) null x (x :: l) := by
  refine ⟨rfl, some, ?_⟩
  rw [Function.update_self]
  exact h.update out

end Update

/-! ## Chains that are entered by a cell

A program that appends at the end of a chain walks the cells that hold the links: the cell it starts
from, and then the link cell of each node. -/

section Path

variable {mem : α → α} {link : α → α} {c : α}

/-- From the cell `c` on, the cells hold the nodes of the list, in order, and then `null`. -/
def Path (mem link : α → α) (null : α) (c : α) (l : List α) : Prop :=
  Chain (fun b => mem (link b)) null (mem c) l

@[simp] theorem path_nil : Path mem link null c [] ↔ mem c = null := Iff.rfl

@[simp] theorem path_cons :
    Path mem link null c (b :: l) ↔ mem c = b ∧ b ≠ null ∧ Path mem link null (link b) l := Iff.rfl

/-- The cell that ends the chain. -/
def lastCell (link : α → α) : α → List α → α
  | c, [] => c
  | _, b :: l => lastCell link (link b) l

theorem lastCell_eq (c : α) (l : List α) : lastCell link c l = c ∨ ∃ b ∈ l, lastCell link c l = link b := by
  induction l generalizing c with
  | nil => exact .inl rfl
  | cons b l ih =>
    right
    rcases ih (link b) with same | ⟨x, mem, same⟩
    · exact ⟨b, List.mem_cons_self, same⟩
    · exact ⟨x, List.mem_cons_of_mem b mem, same⟩

/-- Only what the cells of the path hold matters. -/
theorem Path.congr {mem' : α → α} (h : Path mem link null c l) (start : mem' c = mem c)
    (same : ∀ b ∈ l, mem' (link b) = mem (link b)) : Path mem' link null c l := by
  rw [Path, start]
  exact (Chain.congr same).2 h

variable [DecidableEq α]

/-- A node stored into the last cell goes to the end. -/
theorem Path.append (h : Path mem link null c l) (some : x ≠ null) (fresh : mem (link x) = null)
    (start : ∀ b ∈ x :: l, c ≠ link b) (inj : ∀ b ∈ x :: l, ∀ b' ∈ x :: l, link b = link b' → b = b')
    (out : x ∉ l) : Path (Function.update mem (lastCell link c l) x) link null c (l ++ [x]) := by
  have nodup := Chain.nodup h
  induction l generalizing c with
  | nil =>
    refine ⟨Function.update_self _ _ _, some, ?_⟩
    show Function.update mem c x (link x) = null
    rw [Function.update_of_ne (start x List.mem_cons_self).symm]
    exact fresh
  | cons b l ih =>
    obtain ⟨here, different, rest⟩ := path_cons.1 h
    obtain ⟨once, nodup'⟩ := List.nodup_cons.1 nodup
    have sub : ∀ y ∈ x :: l, y ∈ x :: b :: l := by
      intro y hy
      rcases List.mem_cons.1 hy with rfl | hy
      · exact List.mem_cons_self
      · exact List.mem_cons_of_mem _ (List.mem_cons_of_mem _ hy)
    have mem_b : b ∈ x :: b :: l := List.mem_cons_of_mem _ List.mem_cons_self
    have apart : ∀ y ∈ x :: l, link b ≠ link y := by
      intro y hy same
      obtain rfl := inj b mem_b y (sub y hy) same
      rcases List.mem_cons.1 hy with rfl | hy
      · exact out List.mem_cons_self
      · exact once hy
    refine path_cons.2 ⟨?_, different, ih rest apart (fun y hy z hz => inj y (sub y hy) z (sub z hz))
      (fun again => out (List.mem_cons_of_mem b again)) nodup'⟩
    show Function.update mem (lastCell link (link b) l) x c = b
    rw [Function.update_of_ne, here]
    rcases lastCell_eq (link b) l with same | ⟨y, hy, same⟩
    · rw [same]
      exact start b mem_b
    · rw [same]
      exact start y (sub y (List.mem_cons_of_mem x hy))

end Path

end Linked
