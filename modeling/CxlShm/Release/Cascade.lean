import CxlShm.Release.TestFree
import CxlShm.Reference.Refinement
import Mathlib.Data.Set.Card

/-!
# Dropping a reference, and all that hangs on it

`test_free` of a location whose object has no other reference drops the object's embedded references
first, by itself, and then the object.  This file is the function as it runs when nobody interferes,
over a heap of objects that may refer to each other in any way; `cascade_exact` says what it leaves.

An object that is being taken apart is no longer counted among the objects below: its embedded
references are roots until they are dropped.  With this the nested calls are calls on a smaller heap.
-/

namespace CxlShm.Cascade

/-- The memory of the protocol, `embedded_ref_cnt` of each object, and the objects that have been
passed to `cxl_free`, the last one at the end. -/
structure Heap where
  mem : Mem ObjLoc
  embeddedRefCnt : Offset → ℕ
  freed : List Offset

/-- The accesses of an activation up to its return or its call of `cxl_free`, with a bound. -/
def runAlone (t : ℕ) : ℕ → Mem ObjLoc → Call ObjLoc → Option (Mem ObjLoc)
  | 0, _, _ => none
  | fuel + 1, m, c =>
    match c.exec t m false with
    | (m', none) => some m'
    | (m', some c') => if c'.pc = .free then some m' else runAlone t fuel m' c'

/-- What an activation of `unlink_reference(r, o)` has read when it comes to its compare-exchange. -/
def unlinkCall (t : ℕ) (m : Mem ObjLoc) (r : ObjLoc) (o : Offset) : Call ObjLoc :=
  ⟨.unlinkRef, r, o, .cas, m.refInfo o, m.era t t⟩

namespace Heap

variable (t : ℕ) (h : Heap)

/-- `if(saw_era > *ele) *ele = saw_era` -/
def recordEra (m : Mem ObjLoc) (o : Offset) : Mem ObjLoc :=
  let lcid := getLcidFromInfo (m.refInfo o)
  let lenum := getLenumFromInfo (m.refInfo o)
  if m.era t lcid < lenum then m.setEra t lcid lenum else m

/-- The part of `unlink_reference` before the call of `cxl_free`. -/
def unlinkMem (r : ObjLoc) (o : Offset) : Mem ObjLoc :=
  let m := recordEra t h.mem o
  let c := unlinkCall t m r o
  ((((m.setRedo t (c.curEra % redoCachelineCnt) (some c.redoLog)).setRefInfo o
    (c.newRefInfo t)).setLoc r 0).bumpEra t)

/-- `cxl_free(false, o)`: the first words of the block are zeroed. -/
def cxlFree (o : Offset) : Heap where
  mem := h.mem.setRefInfo o 0
  embeddedRefCnt := Function.update h.embeddedRefCnt o 0
  freed := h.freed ++ [o]

/-- `unlink_reference` -/
def unlinkReference (r : ObjLoc) (o : Offset) : Heap :=
  let h' := { h with mem := h.unlinkMem t r o }
  if getRefCntFromInfo (h.mem.refInfo o) = 1 then h'.cxlFree o else h'

/-- The loop of `test_free` over the embedded references of `o` from number `i` on, with a bound on
its rounds. -/
def freeEmbedded (testFree : Heap → ObjLoc → Option Heap) (o : Offset) :
    ℕ → ℕ → Heap → Option Heap
  | 0, _, _ => none
  | n + 1, i, h =>
    if i < h.embeddedRefCnt o then
      (testFree h (.embedded o i)).bind (freeEmbedded testFree o n (i + 1))
    else some h

/-- `test_free`, with a bound on the depth of the recursion and the rounds of its loops. -/
def testFree : ℕ → Heap → ObjLoc → Option Heap
  | 0, _, _ => none
  | fuel + 1, h, r =>
    let refed := h.mem.loc r
    if refed = 0 then some h
    else if getRefCntFromInfo (h.mem.refInfo refed) ≠ 1 then some (h.unlinkReference t r refed)
    else
      (freeEmbedded (testFree fuel) refed fuel 0 h).map fun h =>
        h.unlinkReference t r (h.mem.loc r)

end Heap

/-- `unlinkMem` is what the accesses of the activation do, one after the other. -/
theorem runAlone_unlink (t : ℕ) (h : Heap) (r : ObjLoc) (o : Offset) :
    runAlone t 9 h.mem ⟨.unlinkRef, r, o, .loadInfo, 0, 0⟩ = some (h.unlinkMem t r o) := by
  by_cases last : getRefCntFromInfo (h.mem.refInfo o) = 1
  · by_cases saw : h.mem.era t (getLcidFromInfo (h.mem.refInfo o)) <
      getLenumFromInfo (h.mem.refInfo o)
    · simp [runAlone, Call.exec, Call.afterInfo, Call.afterEra, Call.afterEle, Call.sawCid,
        Call.sawEra, Call.last, Call.refInfoCnt, Call.newRef, Call.newRefInfo, Heap.unlinkMem, Call.redoLog,
        Heap.recordEra, unlinkCall, Mem.setRedo, Mem.setRefInfo, Mem.setEra, Mem.setLoc, saw, last]
    · simp [runAlone, Call.exec, Call.afterInfo, Call.afterEra, Call.afterEle, Call.sawCid,
        Call.sawEra, Call.last, Call.refInfoCnt, Call.newRef, Call.newRefInfo, Heap.unlinkMem, Call.redoLog,
        Heap.recordEra, unlinkCall, Mem.setRedo, Mem.setRefInfo, Mem.setLoc, saw, last]
  · by_cases saw : h.mem.era t (getLcidFromInfo (h.mem.refInfo o)) <
      getLenumFromInfo (h.mem.refInfo o)
    · simp [runAlone, Call.exec, Call.afterInfo, Call.afterEra, Call.afterEle, Call.sawCid,
        Call.sawEra, Call.last, Call.refInfoCnt, Call.newRef, Call.newRefInfo, Heap.unlinkMem, Call.redoLog,
        Heap.recordEra, unlinkCall, Mem.setRedo, Mem.setRefInfo, Mem.setEra, Mem.setLoc, saw, last]
    · simp [runAlone, Call.exec, Call.afterInfo, Call.afterEra, Call.afterEle, Call.sawCid,
        Call.sawEra, Call.last, Call.refInfoCnt, Call.newRef, Call.newRefInfo, Heap.unlinkMem, Call.redoLog,
        Heap.recordEra, unlinkCall, Mem.setRedo, Mem.setRefInfo, Mem.setLoc, saw, last]

/-! ## The heap that is counted -/

/-- The locations that count: the roots, and the embedded references of the objects. -/
def Refs (h : Heap) (live : Finset Offset) (roots : Set ObjLoc) : Set ObjLoc :=
  {q | q ∈ roots ∨ ∃ o ∈ live, ∃ i < h.embeddedRefCnt o, q = .embedded o i}

/-- The references to an object. -/
def refsTo (h : Heap) (live : Finset Offset) (roots : Set ObjLoc) (o : Offset) : Set ObjLoc :=
  {q | q ∈ Refs h live roots ∧ h.mem.loc q = o}

/-- The count of every object is the number of the references to it, which is at least 1; there are
no dangling references, and the roots are not embedded references. -/
structure Exact (h : Heap) (live : Finset Offset) (roots : Set ObjLoc) : Prop where
  null : 0 ∉ live
  apart : ∀ o ∈ live, ∀ i, .embedded o i ∉ roots
  target : ∀ q ∈ Refs h live roots, h.mem.loc q = 0 ∨ h.mem.loc q ∈ live
  finite : ∀ o ∈ live, (refsTo h live roots o).Finite
  refCnt : ∀ o ∈ live, getRefCntFromInfo (h.mem.refInfo o) = (refsTo h live roots o).ncard
  held : ∀ o ∈ live, (refsTo h live roots o).Nonempty
  era : ∀ i, h.mem.eraArray i < 2 ^ 32

/-- The objects reached from a set of locations. -/
inductive Reach (h : Heap) (locs : Set ObjLoc) : Offset → Prop
  | start {q : ObjLoc} : q ∈ locs → h.mem.loc q ≠ 0 → Reach h locs (h.mem.loc q)
  | next {o : Offset} {i : ℕ} : Reach h locs o → i < h.embeddedRefCnt o →
      h.mem.loc (.embedded o i) ≠ 0 → Reach h locs (h.mem.loc (.embedded o i))

/-- What dropping the references in `dropped` does: the objects `live` become `live'`. -/
structure Drops (h h' : Heap) (live live' : Finset Offset) (dropped : Set ObjLoc) : Prop where
  shrinks : live' ⊆ live
  cleared : ∀ q ∈ dropped, h'.mem.loc q = 0
  slots : ∀ o ∈ live, o ∉ live' → ∀ i < h.embeddedRefCnt o, h'.mem.loc (.embedded o i) = 0
  kept : ∀ q, q ∉ dropped →
    (∀ o ∈ live, o ∉ live' → ∀ i < h.embeddedRefCnt o, q ≠ .embedded o i) →
    h'.mem.loc q = h.mem.loc q
  cnt : ∀ o, o ∉ live ∨ o ∈ live' → h'.embeddedRefCnt o = h.embeddedRefCnt o
  gone : ∀ o ∈ live, o ∉ live' → h'.embeddedRefCnt o = 0 ∧ Reach h dropped o
  changed : ∀ o, h'.mem.refInfo o ≠ h.mem.refInfo o → Reach h dropped o
  freed : ∃ l, h'.freed = h.freed ++ l ∧ l.Nodup ∧ ∀ o, o ∈ l ↔ o ∈ live ∧ o ∉ live'

section

variable {h h' h₁ h₂ : Heap} {live live' live₁ live₂ : Finset Offset} {roots dropped dropped' : Set ObjLoc}
  {r q : ObjLoc} {o : Offset} {t i : ℕ}

theorem Exact.ne_zero (exact : Exact h live roots) (ho : o ∈ live) : o ≠ 0 := by
  rintro rfl
  exact exact.null ho

theorem Exact.root_live (exact : Exact h live roots) (hr : r ∈ roots) (some : h.mem.loc r ≠ 0) :
    h.mem.loc r ∈ live :=
  (exact.target r (.inl hr)).resolve_left some

/-- What is reached from references is an object. -/
theorem Exact.reach_live (exact : Exact h live roots) (inside : dropped ⊆ Refs h live roots)
    (reached : Reach h dropped o) : o ∈ live := by
  induction reached with
  | start hq some => exact (exact.target _ (inside hq)).resolve_left some
  | next _ below some ih => exact (exact.target _ (.inr ⟨_, ih, _, below, rfl⟩)).resolve_left some

/-- Reachability in a heap with fewer references, from locations that only hold what is reached. -/
theorem Reach.of_fewer (fewer : ∀ q, h₁.mem.loc q = h.mem.loc q ∨ h₁.mem.loc q = 0)
    (cnt : ∀ x, h₁.embeddedRefCnt x ≤ h.embeddedRefCnt x)
    (inside : ∀ q ∈ dropped', h.mem.loc q ≠ 0 → Reach h dropped (h.mem.loc q))
    (reached : Reach h₁ dropped' o) : Reach h dropped o := by
  induction reached with
  | @start q hq some =>
    rcases fewer q with same | null
    · rw [same] at some ⊢
      exact inside q hq some
    · exact absurd null some
  | @next x i _ below some ih =>
    rcases fewer (.embedded x i) with same | null
    · rw [same] at some ⊢
      exact .next ih (below.trans_le (cnt x)) some
    · exact absurd null some

theorem Drops.refl (h : Heap) (live : Finset Offset) : Drops h h live live ∅ where
  shrinks := subset_rfl
  cleared := by simp
  slots o ho gone := absurd ho gone
  kept _ _ _ := rfl
  cnt _ _ := rfl
  gone o ho gone := absurd ho gone
  changed o changed := absurd rfl changed
  freed := ⟨[], by simp⟩

/-- A location is left alone or cleared. -/
theorem Drops.loc (d : Drops h h₁ live live₁ dropped) (q : ObjLoc) :
    h₁.mem.loc q = h.mem.loc q ∨ h₁.mem.loc q = 0 := by
  by_cases drop : q ∈ dropped
  · exact .inr (d.cleared q drop)
  · by_cases part : ∃ o ∈ live, o ∉ live₁ ∧ ∃ i < h.embeddedRefCnt o, q = .embedded o i
    · obtain ⟨o, ho, gone, i, hi, rfl⟩ := part
      exact .inr (d.slots o ho gone i hi)
    · refine .inl (d.kept q drop fun o ho gone i hi eq => part ⟨o, ho, gone, i, hi, eq⟩)

theorem Drops.cnt_le (d : Drops h h₁ live live₁ dropped) (o : Offset) :
    h₁.embeddedRefCnt o ≤ h.embeddedRefCnt o := by
  by_cases gone : o ∈ live ∧ o ∉ live₁
  · rw [(d.gone o gone.1 gone.2).1]
    exact Nat.zero_le _
  · exact (d.cnt o (by tauto)).le

/-- Dropping some references and then others, of the objects that are left. -/
theorem Drops.trans (d : Drops h h₁ live live₁ dropped) (d' : Drops h₁ h₂ live₁ live₂ dropped') :
    Drops h h₂ live live₂ (dropped ∪ dropped') where
  shrinks := d'.shrinks.trans d.shrinks
  cleared q hq := by
    rcases hq with hq | hq
    · rcases d'.loc q with same | null
      · rw [same, d.cleared q hq]
      · exact null
    · exact d'.cleared q hq
  slots o ho gone i hi := by
    by_cases first : o ∈ live₁
    · exact d'.slots o first gone i (by rwa [d.cnt o (.inr first)])
    · rcases d'.loc (.embedded o i) with same | null
      · rw [same, d.slots o ho first i hi]
      · exact null
  kept q out other := by
    have out₁ : q ∉ dropped := fun hq => out (.inl hq)
    have out₂ : q ∉ dropped' := fun hq => out (.inr hq)
    calc h₂.mem.loc q = h₁.mem.loc q := by
          apply d'.kept q out₂
          intro o ho gone i hi
          rw [d.cnt o (.inr ho)] at hi
          exact other o (d.shrinks ho) gone i hi
      _ = h.mem.loc q := by
          apply d.kept q out₁
          intro o ho gone i hi
          exact other o ho (fun ho' => gone (d'.shrinks ho')) i hi
  cnt o ho := by
    rcases ho with ho | ho
    · rw [d'.cnt o (.inl fun ho' => ho (d.shrinks ho')), d.cnt o (.inl ho)]
    · rw [d'.cnt o (.inr ho), d.cnt o (.inr (d'.shrinks ho))]
  gone o ho gone := by
    by_cases first : o ∈ live₁
    · obtain ⟨null, reached⟩ := d'.gone o first gone
      refine ⟨null, reached.of_fewer d.loc d.cnt_le fun _ hq some => .start (.inr hq) some⟩
    · obtain ⟨null, reached⟩ := d.gone o ho first
      refine ⟨by rw [d'.cnt o (.inl first), null], ?_⟩
      exact reached.of_fewer (fun _ => .inl rfl) (fun _ => le_rfl)
        fun _ hq some => .start (.inl hq) some
  changed o changed := by
    by_cases first : h₁.mem.refInfo o = h.mem.refInfo o
    · rw [← first] at changed
      exact (d'.changed o changed).of_fewer d.loc d.cnt_le fun _ hq some => .start (.inr hq) some
    · exact (d.changed o first).of_fewer (fun _ => .inl rfl) (fun _ => le_rfl)
        fun _ hq some => .start (.inl hq) some
  freed := by
    obtain ⟨l, freed, nodup, mem⟩ := d.freed
    obtain ⟨l', freed', nodup', mem'⟩ := d'.freed
    refine ⟨l ++ l', by rw [freed', freed, List.append_assoc], ?_, fun o => ?_⟩
    · refine nodup.append nodup' fun o ho ho' => ?_
      exact ((mem o).1 ho).2 ((mem' o).1 ho').1
    · rw [List.mem_append, mem, mem']
      have sub : o ∈ live₁ → o ∈ live := fun ho => d.shrinks ho
      have sub' : o ∈ live₂ → o ∈ live₁ := fun ho => d'.shrinks ho
      tauto

/-! ## One `unlink_reference` -/

theorem unlinkMem_loc (t : ℕ) (h : Heap) (r : ObjLoc) (o : Offset) :
    (h.unlinkMem t r o).loc = Function.update h.mem.loc r 0 := by
  simp only [Heap.unlinkMem, Heap.recordEra, Mem.bumpEra, Mem.setLoc, Mem.setRefInfo, Mem.setRedo,
    Mem.setEra]
  split <;> rfl

theorem recordEra_lt (era : ∀ i, h.mem.eraArray i < 2 ^ 32) (o : Offset) (i : ℤ) :
    (Heap.recordEra t h.mem o).eraArray i < 2 ^ 32 := by
  simp only [Heap.recordEra]
  split
  · exact Mem.setEra_lt era (getLenumFromInfo_lt _) i
  · exact era i

theorem unlinkMem_era_lt (era : ∀ i, h.mem.eraArray i < 2 ^ 32) (r : ObjLoc) (o : Offset) (i : ℤ) :
    (h.unlinkMem t r o).eraArray i < 2 ^ 32 :=
  Mem.bumpEra_lt (recordEra_lt era o) t i

theorem unlinkMem_refInfo_ne (h : Heap) (r : ObjLoc) {x : Offset} (other : x ≠ o) :
    (h.unlinkMem t r o).refInfo x = h.mem.refInfo x := by
  simp only [Heap.unlinkMem, Heap.recordEra, Mem.bumpEra, Mem.setLoc, Mem.setRefInfo, Mem.setRedo,
    Mem.setEra, Function.update_of_ne other]
  split <;> rfl

theorem unlinkMem_refCnt (era : ∀ i, h.mem.eraArray i < 2 ^ 32) (r : ObjLoc) (o : Offset)
    (some : 1 ≤ getRefCntFromInfo (h.mem.refInfo o)) :
    getRefCntFromInfo ((h.unlinkMem t r o).refInfo o) = getRefCntFromInfo (h.mem.refInfo o) - 1 := by
  have word : (h.unlinkMem t r o).refInfo o =
      (unlinkCall t (Heap.recordEra t h.mem o) r o).newRefInfo t := by
    simp only [Heap.unlinkMem, Mem.bumpEra, Mem.setLoc, Mem.setRefInfo, Mem.setEra,
      Function.update_self]
  have same : (Heap.recordEra t h.mem o).refInfo o = h.mem.refInfo o := by
    simp only [Heap.recordEra, Mem.setEra]
    split <;> rfl
  have small := getRefCntFromInfo_lt (h.mem.refInfo o)
  have lower : (getRefCntFromInfo (h.mem.refInfo o) + (2 ^ 64 - 1)) % 2 ^ 64 =
      getRefCntFromInfo (h.mem.refInfo o) - 1 := by omega
  rw [word]
  simp only [Call.newRefInfo, unlinkCall, Call.refInfoCnt, same, lower]
  exact getRefCntFromInfo_packRefInfo (by omega) (recordEra_lt era o _)

theorem mem_refsTo : q ∈ refsTo h live roots o ↔ q ∈ Refs h live roots ∧ h.mem.loc q = o := .rfl

/-- `test_free` of a reference to an object that has others only unlinks it. -/
theorem unlink_shared (exact : Exact h live roots) (hr : r ∈ roots) (some : h.mem.loc r ≠ 0)
    (shared : getRefCntFromInfo (h.mem.refInfo (h.mem.loc r)) ≠ 1) :
    Exact (h.unlinkReference t r (h.mem.loc r)) live roots ∧
      Drops h (h.unlinkReference t r (h.mem.loc r)) live live {r} := by
  have ho := exact.root_live hr some
  have after : h.unlinkReference t r (h.mem.loc r) = { h with mem := h.unlinkMem t r (h.mem.loc r) } := by
    simp [Heap.unlinkReference, shared]
  generalize target : h.mem.loc r = o at *
  rw [after]
  have mine : r ∈ refsTo h live roots o := ⟨.inl hr, target⟩
  have others (x : Offset) (hx : x ∈ live) :
      refsTo { h with mem := h.unlinkMem t r o } live roots x = refsTo h live roots x \ {r} := by
    ext q
    simp only [mem_refsTo, Set.mem_sdiff, Set.mem_singleton_iff, unlinkMem_loc]
    by_cases hq : q = r
    · subst hq
      simp [(exact.ne_zero hx).symm]
    · simp only [Function.update_of_ne hq, hq, not_false_eq_true, and_true]
      rfl
  have unchanged (x : Offset) (other : x ≠ o) : refsTo h live roots x \ {r} = refsTo h live roots x := by
    apply Set.sdiff_singleton_eq_self
    intro hr
    exact other (hr.2.symm.trans target)
  have many : 1 < (refsTo h live roots o).ncard := by
    have one := (Set.ncard_pos (exact.finite o ho)).2 (exact.held o ho)
    rw [exact.refCnt o ho] at shared
    omega
  constructor
  · refine ⟨exact.null, exact.apart, ?target, ?finite, ?refCnt, ?held, unlinkMem_era_lt exact.era r o⟩
    case target =>
      intro q hq
      simp only [unlinkMem_loc]
      by_cases hqr : q = r
      · subst hqr
        simp
      · simpa only [Function.update_of_ne hqr] using exact.target q hq
    case finite =>
      intro x hx
      rw [others x hx]
      exact (exact.finite x hx).subset Set.sdiff_subset
    case refCnt =>
      intro x hx
      rw [others x hx]
      by_cases hxo : x = o
      · subst hxo
        rw [Set.ncard_sdiff_singleton_of_mem mine, ← exact.refCnt x ho]
        apply unlinkMem_refCnt exact.era
        rw [exact.refCnt x ho]
        omega
      · rw [unchanged x hxo, ← exact.refCnt x hx]
        simp only [unlinkMem_refInfo_ne h r hxo]
    case held =>
      intro x hx
      rw [others x hx]
      by_cases hxo : x = o
      · subst hxo
        apply Set.nonempty_of_ncard_ne_zero
        rw [Set.ncard_sdiff_singleton_of_mem mine]
        omega
      · rw [unchanged x hxo]
        exact exact.held x hx
  · refine ⟨subset_rfl, ?cleared, fun x hx gone => absurd hx gone, ?kept, fun _ _ => rfl,
      fun x hx gone => absurd hx gone, ?changed, ⟨[], by simp⟩⟩
    case cleared =>
      rintro q rfl
      simp [unlinkMem_loc]
    case kept =>
      intro q hq _
      simp only [unlinkMem_loc]
      exact Function.update_of_ne hq _ _
    case changed =>
      intro x changed
      by_cases hxo : x = o
      · subst hxo
        exact target ▸ .start rfl (target ▸ some)
      · exact absurd (unlinkMem_refInfo_ne h r hxo) changed

/-! ## Taking an object apart -/

/-- The embedded references of an object. -/
def embeddedRefs (h : Heap) (o : Offset) : Set ObjLoc := {q | ∃ i < h.embeddedRefCnt o, q = .embedded o i}

/-- The roots while the object `o`, whose only reference is `r`, is taken apart. -/
def openRoots (h : Heap) (roots : Set ObjLoc) (r : ObjLoc) (o : Offset) : Set ObjLoc :=
  roots \ {r} ∪ embeddedRefs h o

/-- Without the object and the reference to it, the heap is counted with its embedded references as
roots. -/
theorem Exact.dismantle (exact : Exact h live roots) (hr : r ∈ roots) (target : h.mem.loc r = o)
    (ho : o ∈ live) (last : getRefCntFromInfo (h.mem.refInfo o) = 1) :
    Exact h (live.erase o) (openRoots h roots r o) := by
  have free (x : Offset) (hx : x ∈ live) (i : ℕ) : r ≠ .embedded x i := by
    rintro rfl
    exact exact.apart x hx i hr
  have refs : Refs h (live.erase o) (openRoots h roots r o) = Refs h live roots \ {r} := by
    ext q
    simp only [Refs, openRoots, embeddedRefs, Set.mem_ofPred_eq, Set.mem_sdiff, Set.mem_union,
      Set.mem_singleton_iff, Finset.mem_erase]
    constructor
    · rintro ((⟨hq, other⟩ | ⟨i, hi, rfl⟩) | ⟨x, ⟨-, hx⟩, i, hi, rfl⟩)
      · exact ⟨.inl hq, other⟩
      · exact ⟨.inr ⟨o, ho, i, hi, rfl⟩, (free o ho i).symm⟩
      · exact ⟨.inr ⟨x, hx, i, hi, rfl⟩, (free x hx i).symm⟩
    · rintro ⟨hq | ⟨x, hx, i, hi, rfl⟩, other⟩
      · exact .inl (.inl ⟨hq, other⟩)
      · by_cases hxo : x = o
        · subst hxo
          exact .inl (.inr ⟨i, hi, rfl⟩)
        · exact .inr ⟨x, ⟨hxo, hx⟩, i, hi, rfl⟩
  have only : ∀ q ∈ Refs h live roots, h.mem.loc q = o → q = r := by
    have one : (refsTo h live roots o).ncard = 1 := by rw [← exact.refCnt o ho, last]
    obtain ⟨q₀, all⟩ := Set.ncard_eq_one.1 one
    have mine : r ∈ refsTo h live roots o := ⟨.inl hr, target⟩
    intro q hq hqo
    have other : q ∈ refsTo h live roots o := ⟨hq, hqo⟩
    rw [all] at mine other
    exact other.trans mine.symm
  have same (x : Offset) (other : x ≠ o) :
      refsTo h (live.erase o) (openRoots h roots r o) x = refsTo h live roots x := by
    ext q
    simp only [mem_refsTo, refs, Set.mem_sdiff, Set.mem_singleton_iff]
    constructor
    · rintro ⟨⟨hq, -⟩, hqx⟩
      exact ⟨hq, hqx⟩
    · rintro ⟨hq, hqx⟩
      refine ⟨⟨hq, ?_⟩, hqx⟩
      rintro rfl
      exact other (hqx.symm.trans target)
  refine ⟨fun h0 => exact.null (Finset.mem_of_mem_erase h0), ?apart, ?target, ?finite, ?refCnt, ?held,
    exact.era⟩
  case apart =>
    intro x hx i
    obtain ⟨other, hx⟩ := Finset.mem_erase.1 hx
    rintro (⟨hq, -⟩ | ⟨j, -, eq⟩)
    · exact exact.apart x hx i hq
    · cases eq
      exact other rfl
  case target =>
    intro q hq
    rw [refs] at hq
    rcases exact.target q hq.1 with null | inside
    · exact .inl null
    · refine .inr (Finset.mem_erase.2 ⟨fun hqo => hq.2 (only q hq.1 hqo), inside⟩)
  all_goals
    intro x hx
    obtain ⟨other, hx⟩ := Finset.mem_erase.1 hx
    rw [same x other]
  case finite => exact exact.finite x hx
  case refCnt => exact exact.refCnt x hx
  case held => exact exact.held x hx

/-- The unlinking of the last reference, once the embedded references have been dropped. -/
theorem unlink_last (exact : Exact h live roots) (hr : r ∈ roots) (target : h.mem.loc r = o)
    (ho : o ∈ live) (last : getRefCntFromInfo (h.mem.refInfo o) = 1)
    (d : Drops h h₁ (live.erase o) live₁ (embeddedRefs h o))
    (exact₁ : Exact h₁ live₁ (openRoots h roots r o)) :
    h₁.mem.loc r = o ∧ h₁.mem.refInfo o = h.mem.refInfo o ∧
      Exact (h₁.unlinkReference t r o) live₁ roots ∧
      Drops h (h₁.unlinkReference t r o) live live₁ {r} := by
  have opened := exact.dismantle hr target ho last
  have free (x : Offset) (hx : x ∈ live) (i : ℕ) : r ≠ .embedded x i := by
    rintro rfl
    exact exact.apart x hx i hr
  have sub : live₁ ⊆ live := d.shrinks.trans (Finset.erase_subset o live)
  have out : o ∉ live₁ := fun inside => (Finset.mem_erase.1 (d.shrinks inside)).1 rfl
  have still : h₁.mem.loc r = o := by
    rw [← target]
    apply d.kept
    · rintro ⟨i, -, eq⟩
      exact free o ho i eq
    · intro x hx _ i _ eq
      exact free x (Finset.mem_of_mem_erase hx) i eq
  have word : h₁.mem.refInfo o = h.mem.refInfo o := by
    by_contra changed
    have inside := opened.reach_live (fun q hq => .inl (.inr hq)) (d.changed o changed)
    exact (Finset.mem_erase.1 inside).1 rfl
  have after : h₁.unlinkReference t r o =
      { mem := (h₁.unlinkMem t r o).setRefInfo o 0
        embeddedRefCnt := Function.update h₁.embeddedRefCnt o 0
        freed := h₁.freed ++ [o] } := by
    simp [Heap.unlinkReference, word, last, Heap.cxlFree]
  have loc : (h₁.unlinkReference t r o).mem.loc = Function.update h₁.mem.loc r 0 := by
    rw [after]
    exact unlinkMem_loc t h₁ r o
  have cnt : (h₁.unlinkReference t r o).embeddedRefCnt = Function.update h₁.embeddedRefCnt o 0 := by
    rw [after]
  have info (x : Offset) (other : x ≠ o) :
      (h₁.unlinkReference t r o).mem.refInfo x = h₁.mem.refInfo x := by
    rw [after]
    simp only [Mem.setRefInfo, Function.update_of_ne other]
    exact unlinkMem_refInfo_ne h₁ r other
  have era (i : ℤ) : (h₁.unlinkReference t r o).mem.eraArray i < 2 ^ 32 := by
    rw [after]
    exact unlinkMem_era_lt exact₁.era r o i
  have freed : (h₁.unlinkReference t r o).freed = h₁.freed ++ [o] := by rw [after]
  generalize h₁.unlinkReference t r o = h₂ at *
  have ne (x : Offset) (hx : x ∈ live₁) : x ≠ o := by
    rintro rfl
    exact out hx
  have old {q : ObjLoc} (hq : q ∈ Refs h₂ live₁ roots) (other : q ≠ r) :
      q ∈ Refs h₁ live₁ (openRoots h roots r o) := by
    rcases hq with hq | ⟨x, hx, i, hi, rfl⟩
    · exact .inl (.inl ⟨hq, other⟩)
    · rw [cnt, Function.update_of_ne (ne x hx)] at hi
      exact .inr ⟨x, hx, i, hi, rfl⟩
  have same (x : Offset) (hx : x ∈ live₁) :
      refsTo h₂ live₁ roots x = refsTo h₁ live₁ (openRoots h roots r o) x := by
    have null := (exact₁.ne_zero hx).symm
    ext q
    simp only [mem_refsTo, loc]
    constructor
    · rintro ⟨hq, hqx⟩
      have other : q ≠ r := by
        rintro rfl
        rw [Function.update_self] at hqx
        exact null hqx
      rw [Function.update_of_ne other] at hqx
      exact ⟨old hq other, hqx⟩
    · rintro ⟨hq, hqx⟩
      have other : q ≠ r := by
        rintro rfl
        exact ne x hx (hqx.symm.trans still)
      refine ⟨?_, by rwa [Function.update_of_ne other]⟩
      rcases hq with (⟨hq, -⟩ | hq) | ⟨y, hy, i, hi, rfl⟩
      · exact .inl hq
      · rw [d.cleared q hq] at hqx
        exact absurd hqx null
      · refine .inr ⟨y, hy, i, ?_, rfl⟩
        rwa [cnt, Function.update_of_ne (ne y hy)]
  have part (x : Offset) (hx : x ∈ live) (gone : x ∉ live₁) (other : x ≠ o) :
      x ∈ live.erase o := Finset.mem_erase.2 ⟨other, hx⟩
  have start : Reach h {r} o := by
    have some := exact.ne_zero ho
    rw [← target] at some ⊢
    exact .start rfl some
  have through {x : Offset} (reached : Reach h (embeddedRefs h o) x) : Reach h {r} x := by
    apply reached.of_fewer (fun _ => .inl rfl) fun _ => le_rfl
    rintro q ⟨i, hi, rfl⟩ some
    exact .next start hi some
  refine ⟨still, word, ⟨exact₁.null, ?apart, ?target, ?finite, ?refCnt, ?held, era⟩,
    ⟨sub, ?cleared, ?slots, ?kept, ?cnt, ?gone, ?changed, ?freed⟩⟩
  case apart => exact fun x hx => exact.apart x (sub hx)
  case target =>
    intro q hq
    rw [loc]
    by_cases hqr : q = r
    · subst hqr
      simp
    · rw [Function.update_of_ne hqr]
      exact exact₁.target q (old hq hqr)
  case finite =>
    intro x hx
    rw [same x hx]
    exact exact₁.finite x hx
  case refCnt =>
    intro x hx
    rw [same x hx, info x (ne x hx)]
    exact exact₁.refCnt x hx
  case held =>
    intro x hx
    rw [same x hx]
    exact exact₁.held x hx
  case cleared =>
    rintro q rfl
    rw [loc, Function.update_self]
  case slots =>
    intro x hx gone i hi
    rw [loc, Function.update_of_ne (free x hx i).symm]
    by_cases other : x = o
    · subst other
      exact d.cleared _ ⟨i, hi, rfl⟩
    · exact d.slots x (part x hx gone other) gone i hi
  case kept =>
    intro q hq other
    rw [loc, Function.update_of_ne hq]
    apply d.kept q
    · rintro ⟨i, hi, rfl⟩
      exact other o ho out i hi rfl
    · intro x hx gone i hi
      exact other x (Finset.mem_of_mem_erase hx) gone i hi
  case cnt =>
    intro x hx
    have other : x ≠ o := by
      rintro rfl
      exact hx.elim (fun h => h ho) out
    rw [cnt, Function.update_of_ne other]
    exact d.cnt x (hx.imp_left fun hx inside => hx (Finset.mem_of_mem_erase inside))
  case gone =>
    intro x hx gone
    rw [cnt]
    by_cases other : x = o
    · subst other
      exact ⟨Function.update_self .., start⟩
    · obtain ⟨null, reached⟩ := d.gone x (part x hx gone other) gone
      exact ⟨by rw [Function.update_of_ne other, null], through reached⟩
  case changed =>
    intro x changed
    by_cases other : x = o
    · exact other ▸ start
    · rw [info x other] at changed
      exact through (d.changed x changed)
  case freed =>
    obtain ⟨l, before, nodup, mem⟩ := d.freed
    refine ⟨l ++ [o], by rw [freed, before, List.append_assoc], ?_, fun x => ?_⟩
    · refine nodup.append (List.nodup_singleton o) fun x hx hxo => ?_
      obtain rfl := List.mem_singleton.1 hxo
      exact (Finset.mem_erase.1 ((mem x).1 hx).1).1 rfl
    · rw [List.mem_append, mem, List.mem_singleton, Finset.mem_erase]
      constructor
      · rintro (⟨⟨-, hx⟩, gone⟩ | rfl)
        · exact ⟨hx, gone⟩
        · exact ⟨ho, out⟩
      · rintro ⟨hx, gone⟩
        by_cases other : x = o
        · exact .inr other
        · exact .inl ⟨⟨other, hx⟩, gone⟩

/-! ## The recursion -/

/-- `unlink_reference`, if the object has references. -/
def Heap.unlinkCounted (t : ℕ) (h : Heap) (r : ObjLoc) (o : Offset) : Option Heap :=
  if getRefCntFromInfo (h.mem.refInfo o) = 0 then none else some (h.unlinkReference t r o)

/-- `test_free`, if it unlinks no reference to an object without references. -/
def Heap.testFreeCounted (t : ℕ) : ℕ → Heap → ObjLoc → Option Heap
  | 0, _, _ => none
  | fuel + 1, h, r =>
    let refed := h.mem.loc r
    if refed = 0 then some h
    else if getRefCntFromInfo (h.mem.refInfo refed) ≠ 1 then h.unlinkCounted t r refed
    else
      (freeEmbedded (testFreeCounted t fuel) refed fuel 0 h).bind fun h =>
        h.unlinkCounted t r (h.mem.loc r)

/-- `test_free(r)` ends, whatever larger bound it is given, and does what dropping `r` should. -/
def Drop (t : ℕ) (h : Heap) (live : Finset Offset) (roots : Set ObjLoc) (r : ObjLoc) : Prop :=
  ∃ h' live', (∃ k, ∀ fuel ≥ k, h.testFree t fuel r = some h') ∧ Exact h' live' roots ∧
    Drops h h' live live' {r}

/-- As `Drop`, and no reference is unlinked to an object without references. -/
def DropCounted (t : ℕ) (h : Heap) (live : Finset Offset) (roots : Set ObjLoc) (r : ObjLoc) : Prop :=
  ∃ h' live', (∃ k, ∀ fuel ≥ k, h.testFreeCounted t fuel r = some h') ∧ Exact h' live' roots ∧
    Drops h h' live live' {r}

theorem unlinkReference_of_counted (run : h.unlinkCounted t r o = some h') :
    h.unlinkReference t r o = h' := by
  unfold Heap.unlinkCounted at run
  split at run
  · cases run
  · exact Option.some.inj run

theorem freeEmbedded_mono {f g : Heap → ObjLoc → Option Heap} {n : ℕ}
    (le : ∀ h r h', f h r = some h' → g h r = some h')
    (run : Heap.freeEmbedded f o n i h = some h') : Heap.freeEmbedded g o n i h = some h' := by
  induction n generalizing i h with
  | zero => cases run
  | succ n ih =>
    simp only [Heap.freeEmbedded] at run ⊢
    by_cases more : i < h.embeddedRefCnt o
    · rw [if_pos more] at run ⊢
      obtain ⟨h₁, call, rest⟩ := Option.bind_eq_some_iff.1 run
      rw [le h _ h₁ call, Option.bind_some]
      exact ih rest
    · rw [if_neg more] at run ⊢
      exact run

theorem testFree_of_counted {fuel : ℕ} (run : h.testFreeCounted t fuel r = some h') :
    h.testFree t fuel r = some h' := by
  induction fuel generalizing h r h' with
  | zero => cases run
  | succ fuel ih =>
    simp only [Heap.testFreeCounted, Heap.testFree] at run ⊢
    by_cases null : h.mem.loc r = 0
    · rw [if_pos null] at run ⊢
      exact run
    rw [if_neg null] at run ⊢
    by_cases shared : getRefCntFromInfo (h.mem.refInfo (h.mem.loc r)) ≠ 1
    · rw [if_pos shared] at run ⊢
      rw [unlinkReference_of_counted run]
    · rw [if_neg shared] at run ⊢
      obtain ⟨h₁, loop, last⟩ := Option.bind_eq_some_iff.1 run
      rw [freeEmbedded_mono (fun _ _ _ call => ih call) loop, Option.map_some,
        unlinkReference_of_counted last]

/-- The embedded references of `o` from number `i` on, for an object `o` that is being taken apart. -/
def remaining (h : Heap) (o : Offset) (i : ℕ) : Set ObjLoc :=
  {q | ∃ j, i ≤ j ∧ j < h.embeddedRefCnt o ∧ q = .embedded o j}

theorem remaining_step (below : i < h.embeddedRefCnt o)
    (cnt : h₁.embeddedRefCnt o = h.embeddedRefCnt o) :
    remaining h o i = {.embedded o i} ∪ remaining h₁ o (i + 1) := by
  ext q
  simp only [remaining, Set.mem_ofPred_eq, Set.mem_union, Set.mem_singleton_iff, cnt]
  constructor
  · rintro ⟨j, hij, hj, rfl⟩
    rcases hij.eq_or_lt with rfl | hij
    · exact .inl rfl
    · exact .inr ⟨j, hij, hj, rfl⟩
  · rintro (rfl | ⟨j, hij, hj, rfl⟩)
    · exact ⟨i, le_rfl, below, rfl⟩
    · exact ⟨j, by omega, hj, rfl⟩

/-- The loop, if the recursive calls do what they should. -/
theorem freeEmbedded_drops
    (calls : ∀ h₁ live₁, live₁ ⊆ live → Exact h₁ live₁ roots →
      ∀ q ∈ roots, DropCounted t h₁ live₁ roots q)
    (out : o ∉ live) (n : ℕ) : ∀ h live₁ i, live₁ ⊆ live → i + n = h.embeddedRefCnt o →
      remaining h o i ⊆ roots → Exact h live₁ roots →
      ∃ h' live', (∃ k, ∀ fuel ≥ k, ∀ rounds ≥ k,
          Heap.freeEmbedded (Heap.testFreeCounted t fuel) o rounds i h = some h') ∧
        Exact h' live' roots ∧ Drops h h' live₁ live' (remaining h o i) := by
  induction n with
  | zero =>
    intro h live₁ i _ done _ exact
    have none : remaining h o i = ∅ := by
      ext q
      simp only [remaining, Set.mem_ofPred_eq, Set.mem_empty_iff_false, iff_false]
      rintro ⟨j, hij, hj, -⟩
      omega
    refine ⟨h, live₁, ⟨1, fun fuel _ rounds enough => ?_⟩, exact, none ▸ Drops.refl h live₁⟩
    obtain ⟨m, rfl⟩ := Nat.exists_eq_add_of_le' enough
    have stop : ¬ i < h.embeddedRefCnt o := by omega
    simp only [Heap.freeEmbedded, stop, if_false]
  | succ n ih =>
    intro h live₁ i sub more inside exact
    have below : i < h.embeddedRefCnt o := by omega
    have slot : .embedded o i ∈ roots := inside ⟨i, le_rfl, below, rfl⟩
    obtain ⟨h₁, live₂, ⟨k, call⟩, exact₁, d⟩ := calls h live₁ sub exact _ slot
    have cnt : h₁.embeddedRefCnt o = h.embeddedRefCnt o := d.cnt o (.inl fun ho => out (sub ho))
    have split := remaining_step below cnt
    obtain ⟨h₂, live₃, ⟨k', rest⟩, exact₂, d'⟩ := ih h₁ live₂ (i + 1) (d.shrinks.trans sub) (by omega)
      (fun q hq => inside (split ▸ .inr hq)) exact₁
    refine ⟨h₂, live₃, ⟨k + k' + 1, fun fuel enough rounds enough' => ?_⟩, exact₂,
      split ▸ d.trans d'⟩
    obtain ⟨m, rfl⟩ := Nat.exists_eq_add_of_le' (show 1 ≤ rounds by omega)
    simp only [Heap.freeEmbedded, below, if_true, call fuel (by omega), Option.bind_some]
    exact rest fuel (by omega) m (by omega)

theorem dropCounted_null (null : h.mem.loc r = 0) (exact : Exact h live roots) :
    DropCounted t h live roots r := by
  refine ⟨h, live, ⟨1, fun fuel enough => ?_⟩, exact, ?_⟩
  · obtain ⟨m, rfl⟩ := Nat.exists_eq_add_of_le' enough
    simp [Heap.testFreeCounted, null]
  · have nothing := Drops.refl h live
    exact { nothing with
      cleared := by
        rintro q rfl
        exact null
      kept := fun _ _ _ => rfl
      gone := fun x hx gone => absurd hx gone
      changed := fun x changed => absurd rfl changed }

theorem Exact.refCnt_ne_zero (exact : Exact h live roots) (ho : o ∈ live) :
    getRefCntFromInfo (h.mem.refInfo o) ≠ 0 := by
  have some := (Set.ncard_pos (exact.finite o ho)).2 (exact.held o ho)
  rw [exact.refCnt o ho]
  omega

/-- The induction is on the number of objects: an object that is being taken apart is not among them
any more. -/
theorem testFree_dropCounted (t : ℕ) (n : ℕ) : ∀ h live roots r, live.card = n → Exact h live roots →
    r ∈ roots → DropCounted t h live roots r := by
  induction n using Nat.strong_induction_on with
  | _ n ih =>
    intro h live roots r card exact hr
    by_cases null : h.mem.loc r = 0
    · exact dropCounted_null null exact
    have ho := exact.root_live hr null
    have counted := exact.refCnt_ne_zero ho
    by_cases last : getRefCntFromInfo (h.mem.refInfo (h.mem.loc r)) = 1
    case neg =>
      obtain ⟨exact', d⟩ := unlink_shared (t := t) exact hr null last
      refine ⟨_, live, ⟨1, fun fuel enough => ?_⟩, exact', d⟩
      obtain ⟨m, rfl⟩ := Nat.exists_eq_add_of_le' enough
      simp [Heap.testFreeCounted, Heap.unlinkCounted, null, last, counted]
    case pos =>
      have opened := exact.dismantle hr rfl ho last
      have fewer : (live.erase (h.mem.loc r)).card < n := by
        rw [← card]
        exact Finset.card_erase_lt_of_mem ho
      have calls : ∀ h₁ live₁, live₁ ⊆ live.erase (h.mem.loc r) →
          Exact h₁ live₁ (openRoots h roots r (h.mem.loc r)) →
          ∀ q ∈ openRoots h roots r (h.mem.loc r),
            DropCounted t h₁ live₁ (openRoots h roots r (h.mem.loc r)) q := by
        intro h₁ live₁ sub exact₁ q hq
        exact ih _ ((Finset.card_le_card sub).trans_lt fewer) h₁ live₁ _ q rfl exact₁ hq
      have all : remaining h (h.mem.loc r) 0 = embeddedRefs h (h.mem.loc r) := by
        ext q
        simp [remaining, embeddedRefs]
      obtain ⟨h₁, live₁, ⟨k, loop⟩, exact₁, d⟩ := freeEmbedded_drops calls
        (Finset.notMem_erase _ _) (h.embeddedRefCnt (h.mem.loc r)) h _ 0 subset_rfl (zero_add _)
        (fun q hq => .inr (all ▸ hq)) opened
      rw [all] at d
      obtain ⟨still, word, exact', d'⟩ := unlink_last (t := t) exact hr rfl ho last d exact₁
      refine ⟨_, live₁, ⟨k + 1, fun fuel enough => ?_⟩, exact', d'⟩
      obtain ⟨m, rfl⟩ := Nat.exists_eq_add_of_le' (show 1 ≤ fuel by omega)
      simp [Heap.testFreeCounted, Heap.unlinkCounted, null, last, loop m (by omega) m (by omega), still,
        word]

theorem testFree_drop (exact : Exact h live roots) (hr : r ∈ roots) : Drop t h live roots r := by
  obtain ⟨h', live', ⟨k, runs⟩, exact', d⟩ :=
    testFree_dropCounted t live.card h live roots r rfl exact hr
  exact ⟨h', live', ⟨k, fun fuel enough => testFree_of_counted (runs fuel enough)⟩, exact', d⟩

/-- The objects without references are those that are no longer counted. -/
theorem Exact.unreferenced_iff (exact : Exact h live roots) (some : o ≠ 0) :
    refsTo h live roots o = ∅ ↔ o ∉ live := by
  constructor
  · intro none inside
    exact (exact.held o inside).ne_empty none
  · intro gone
    apply Set.eq_empty_of_forall_notMem
    rintro q ⟨hq, rfl⟩
    exact gone ((exact.target q hq).resolve_left some)

/-- `test_free(r)` ends, clears `r`, and leaves counts that are exact again; each object that has no
references any more has been freed once, with its embedded references cleared, the others have not, and
what was not reached from `r` is as it was. -/
theorem cascade_exact (t : ℕ) (exact : Exact h live roots) (hr : r ∈ roots) :
    ∃ h' live', (∃ k, ∀ fuel ≥ k, h.testFree t fuel r = some h') ∧
      h'.mem.loc r = 0 ∧ live' ⊆ live ∧ Exact h' live' roots ∧
      (∃ l, h'.freed = h.freed ++ l ∧ l.Nodup ∧
        ∀ o, o ∈ l ↔ o ∈ live ∧ refsTo h' live' roots o = ∅) ∧
      (∀ o ∈ live, refsTo h' live' roots o = ∅ →
        ∀ i < h.embeddedRefCnt o, h'.mem.loc (.embedded o i) = 0) ∧
      (∀ q ∈ roots, q ≠ r → h'.mem.loc q = h.mem.loc q) ∧
      ∀ o ∈ live, ¬ Reach h {r} o → o ∈ live' ∧ h'.mem.refInfo o = h.mem.refInfo o ∧
        h'.embeddedRefCnt o = h.embeddedRefCnt o ∧
        ∀ i, h'.mem.loc (.embedded o i) = h.mem.loc (.embedded o i) := by
  obtain ⟨h', live', ends, exact', d⟩ := testFree_drop (t := t) exact hr
  have unreferenced {o : Offset} (ho : o ∈ live) : refsTo h' live' roots o = ∅ ↔ o ∉ live' :=
    exact'.unreferenced_iff (exact.ne_zero ho)
  have other_root {q : ObjLoc} (hq : q ∈ roots) (o : Offset) (ho : o ∈ live) (i : ℕ) :
      q ≠ .embedded o i := by
    rintro rfl
    exact exact.apart o ho i hq
  refine ⟨h', live', ends, d.cleared r rfl, d.shrinks, exact', ?freed, ?slots, ?roots, ?rest⟩
  case freed =>
    obtain ⟨l, freed, nodup, mem⟩ := d.freed
    refine ⟨l, freed, nodup, fun o => ?_⟩
    rw [mem]
    exact and_congr_right fun ho => (unreferenced ho).symm
  case slots =>
    intro o ho none
    exact d.slots o ho ((unreferenced ho).1 none)
  case roots =>
    intro q hq other
    exact d.kept q other fun o ho _ i _ => other_root hq o ho i
  case rest =>
    intro o ho apart
    have inside : o ∈ live' := by
      by_contra gone
      exact apart (d.gone o ho gone).2
    refine ⟨inside, ?_, d.cnt o (.inr inside), fun i => ?_⟩
    · by_contra changed
      exact apart (d.changed o changed)
    · apply d.kept
      · exact fun eq => other_root hr o ho i eq.symm
      · rintro x hx gone j - eq
        cases eq
        exact gone inside

/-- A `RootRef` refers to an object whose two embedded references are to one other object. -/
def twice : Heap where
  mem :=
    { refInfo := fun o => if o = 8 then packRefInfo 1 1 1 else packRefInfo 1 2 2
      eraArray := fun _ => 3
      loc := fun q => match q with
        | .root _ => 8
        | .embedded _ _ => 16
      redo := fun _ _ => none }
  embeddedRefCnt := fun o => if o = 8 then 2 else 0
  freed := []

theorem exact_twice : Exact twice {8, 16} {.root 1} := by
  have first : refsTo twice {8, 16} {.root 1} 8 = {.root 1} := by
    ext q
    cases q <;> simp [refsTo, Refs, twice]
  have second : refsTo twice {8, 16} {.root 1} 16 = {.embedded 8 0, .embedded 8 1} := by
    ext q
    cases q with
    | root k => simp [refsTo, Refs, twice]
    | embedded o i =>
      have two : i ≤ 1 ↔ i = 0 ∨ i = 1 := by omega
      simp only [refsTo, Refs, twice, Set.mem_ofPred_eq, Set.mem_insert_iff, Set.mem_singleton_iff]
      simp
      tauto
  refine ⟨by decide, by simp, ?_, ?_, ?_, ?_, by simp [twice]⟩
  · intro q _
    cases q <;> simp [twice]
  · simp [first, second]
  · intro o ho
    rcases Finset.mem_insert.1 ho with rfl | ho
    · rw [first, Set.ncard_singleton]
      decide
    · obtain rfl := Finset.mem_singleton.1 ho
      rw [second, Set.ncard_pair (by decide)]
      decide
  · simp [first, second]


/-- Both references to the inner object are dropped, and both objects are freed. -/
theorem cascade_exact_twice : ∃ h' live', (∃ k, ∀ fuel ≥ k, twice.testFree 1 fuel (.root 1) = some h') ∧
    h'.mem.loc (.root 1) = 0 ∧ Exact h' live' {.root 1} := by
  obtain ⟨h', live', ends, cleared, -, exact', -⟩ := cascade_exact 1 exact_twice rfl
  exact ⟨h', live', ends, cleared, exact'⟩

example : (twice.testFree 1 5 (.root 1)).map Heap.freed = some [16, 8] := by decide

end

end CxlShm.Cascade
