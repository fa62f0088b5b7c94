import CxlShm.Alloc.FreshObjects
import CxlShm.Alloc.RecoveryFree
import CxlShm.Recovery.Unlink
import CxlShm.Release.Cascade

/-!
# The monitor drops references as the client would

`monitor::recovery_test_free` is a second `test_free`, which the monitor runs on the slot of a client
that has stopped.  It differs in its guards, in what it logs, in when it reads the era, and in its
`recovery_cxl_free`.  Where the counts are right this leads to the same references, the same counts,
the same objects freed, and the same pushes on the chains of the other clients' segments.

The two recursions are followed along the run of `test_free` on the heap of objects, which leaves a
list of objects to free; what the two `cxl_free`s make of such a list is a matter of the allocator.
-/

namespace CxlShm.Cascade

/-- The allocator, and the pushes on the chains of segments so far: a segment and a block each. -/
structure Area where
  alloc : CxlShm.Heap.State
  pushed : List (ℕ × Offset)

/-- The objects, and the memory that they lie in as far as the allocator reads it. -/
structure World where
  heap : Heap
  area : Area

/-- `cxl_free(false, o)` by client `t` -/
def Area.cxlFree (t : ℕ) (a : Area) (o : Offset) : Option Area :=
  (a.alloc.cxlFree t false o).map fun alloc => ⟨alloc, a.pushed ++ a.alloc.cxlFreePush t o⟩

/-- `recovery_cxl_free(false, o)` for the slot of client `t` -/
def Area.recoveryCxlFree (t : ℕ) (a : Area) (o : Offset) : Area :=
  ⟨a.alloc.recoveryCxlFree t false o, a.pushed ++ a.alloc.recoveryCxlFreePush t o⟩

/-- The part of `recovery_unlink_reference` before the call of `recovery_cxl_free`. -/
def Heap.recoveryUnlinkMem (t : ℕ) (h : Heap) (r : ObjLoc) (o : Offset) : Mem ObjLoc :=
  let c := unlinkCall t h.mem r o
  (((Heap.recordEra t h.mem o).setRefInfo o (c.newRefInfo t)).setLoc r 0).bumpEra t

namespace World

variable (t : ℕ) (w : World)

/-- `unlink_reference` -/
def unlinkReference (r : ObjLoc) (o : Offset) : Option World :=
  let heap := { w.heap with mem := w.heap.unlinkMem t r o }
  if getRefCntFromInfo (w.heap.mem.refInfo o) = 1 then
    (w.area.cxlFree t o).map fun area => ⟨heap.cxlFree o, area⟩
  else some { w with heap := heap }

/-- `recovery_unlink_reference` -/
def recoveryUnlinkReference (r : ObjLoc) (o : Offset) : World :=
  let heap := { w.heap with mem := w.heap.recoveryUnlinkMem t r o }
  if getRefCntFromInfo (w.heap.mem.refInfo o) = 1 then ⟨heap.cxlFree o, w.area.recoveryCxlFree t o⟩
  else { w with heap := heap }

/-- The loop of both functions over the embedded references of `o` from number `i` on, with a bound
on its rounds. -/
def freeEmbedded (testFree : World → ObjLoc → Option World) (o : Offset) :
    ℕ → ℕ → World → Option World
  | 0, _, _ => none
  | n + 1, i, w =>
    if i < w.heap.embeddedRefCnt o then
      (testFree w (.embedded o i)).bind (freeEmbedded testFree o n (i + 1))
    else some w

/-- `test_free`, with a bound on the depth of the recursion and the rounds of its loops. -/
def testFree : ℕ → World → ObjLoc → Option World
  | 0, _, _ => none
  | fuel + 1, w, r =>
    let refed := w.heap.mem.loc r
    if refed = 0 then some w
    else if getRefCntFromInfo (w.heap.mem.refInfo refed) ≠ 1 then w.unlinkReference t r refed
    else
      (freeEmbedded (testFree fuel) refed fuel 0 w).bind fun w =>
        w.unlinkReference t r (w.heap.mem.loc r)

/-- `recovery_test_free`, with the same bound. -/
def recoveryTestFree : ℕ → World → ObjLoc → Option World
  | 0, _, _ => none
  | fuel + 1, w, r =>
    let refed := w.heap.mem.loc r
    let refCnt := getRefCntFromInfo (w.heap.mem.refInfo refed)
    if refed = 0 then some w
    else if refCnt = 0 then some w
    else if refCnt ≠ 1 then some (w.recoveryUnlinkReference t r refed)
    else
      (freeEmbedded (recoveryTestFree fuel) refed fuel 0 w).map fun w =>
        w.recoveryUnlinkReference t r (w.heap.mem.loc r)

end World

/-- The accesses of an activation of `recovery_unlink_reference` up to its return or its call of
`recovery_cxl_free`, with a bound. -/
def recoveryRunAlone (t : ℕ) : ℕ → Mem ObjLoc → Call ObjLoc → Option (Mem ObjLoc)
  | 0, _, _ => none
  | fuel + 1, m, c =>
    match c.recoveryExec t m false with
    | (m', none) => some m'
    | (m', some c') => if c'.pc = .free then some m' else recoveryRunAlone t fuel m' c'

/-- `recoveryUnlinkMem` is what the accesses of the activation do, one after the other. -/
theorem recoveryRunAlone_unlink (t : ℕ) (h : Heap) (r : ObjLoc) (o : Offset) :
    recoveryRunAlone t 9 h.mem (recoveryCall r o) = some (h.recoveryUnlinkMem t r o) := by
  by_cases last : getRefCntFromInfo (h.mem.refInfo o) = 1 <;>
    by_cases saw : h.mem.era t (getLcidFromInfo (h.mem.refInfo o)) <
      getLenumFromInfo (h.mem.refInfo o) <;>
    simp [recoveryRunAlone, recoveryCall, Call.recoveryExec, Call.sawCid, Call.sawEra, Call.last,
      Call.refInfoCnt, Call.newRefInfo, Heap.recoveryUnlinkMem, Heap.recordEra, unlinkCall,
      Mem.setRefInfo, Mem.setEra, Mem.setLoc, saw, last]

section

variable {h h' h₁ h₂ h₃ : Heap} {live live' : Finset Offset} {roots : Set ObjLoc} {r q : ObjLoc}
  {o : Offset} {t i : ℕ}

/-! ## Heaps with the same counts -/

theorem recoveryUnlinkMem_loc (t : ℕ) (h : Heap) (r : ObjLoc) (o : Offset) :
    (h.recoveryUnlinkMem t r o).loc = Function.update h.mem.loc r 0 := by
  simp only [Heap.recoveryUnlinkMem, Heap.recordEra, Mem.bumpEra, Mem.setLoc, Mem.setRefInfo, Mem.setEra]
  split <;> rfl

theorem recoveryUnlinkMem_refInfo (h : Heap) (r : ObjLoc) (x : Offset) :
    (h.recoveryUnlinkMem t r o).refInfo x =
      Function.update h.mem.refInfo o ((unlinkCall t h.mem r o).newRefInfo t) x := by
  simp only [Heap.recoveryUnlinkMem, Heap.recordEra, Mem.bumpEra, Mem.setLoc, Mem.setRefInfo, Mem.setEra]
  split <;> rfl

theorem recoveryUnlinkMem_era_lt (era : ∀ i, h.mem.eraArray i < 2 ^ 32) (r : ObjLoc) (o : Offset)
    (i : ℤ) : (h.recoveryUnlinkMem t r o).eraArray i < 2 ^ 32 :=
  Mem.bumpEra_lt (recordEra_lt era o) t i

theorem recoveryUnlinkMem_refCnt (era : ∀ i, h.mem.eraArray i < 2 ^ 32) (r : ObjLoc) (o : Offset)
    (some : 1 ≤ getRefCntFromInfo (h.mem.refInfo o)) :
    getRefCntFromInfo ((h.recoveryUnlinkMem t r o).refInfo o) =
      getRefCntFromInfo (h.mem.refInfo o) - 1 := by
  have small := getRefCntFromInfo_lt (h.mem.refInfo o)
  have lower : (getRefCntFromInfo (h.mem.refInfo o) + (2 ^ 64 - 1)) % 2 ^ 64 =
      getRefCntFromInfo (h.mem.refInfo o) - 1 := by omega
  rw [recoveryUnlinkMem_refInfo, Function.update_self]
  simp only [Call.newRefInfo, unlinkCall, Call.refInfoCnt, lower]
  exact getRefCntFromInfo_packRefInfo (by omega) (era _)

/-- The two heaps have the same references and counts; who wrote `ref_info` last and in which era may
differ. -/
structure Same (h h₂ : Heap) : Prop where
  loc : h₂.mem.loc = h.mem.loc
  refCnt : ∀ o, getRefCntFromInfo (h₂.mem.refInfo o) = getRefCntFromInfo (h.mem.refInfo o)
  cnt : h₂.embeddedRefCnt = h.embeddedRefCnt
  freed : h₂.freed = h.freed
  era : ∀ i, h.mem.eraArray i < 2 ^ 32
  era' : ∀ i, h₂.mem.eraArray i < 2 ^ 32

theorem Same.unlink (same : Same h h₂) (r : ObjLoc) (o : Offset)
    (some : getRefCntFromInfo (h.mem.refInfo o) ≠ 0) :
    Same { h with mem := h.unlinkMem t r o } { h₂ with mem := h₂.recoveryUnlinkMem t r o } where
  loc := by
    simp only [unlinkMem_loc, recoveryUnlinkMem_loc, same.loc]
  refCnt x := by
    by_cases hx : x = o
    · subst hx
      have some' : getRefCntFromInfo (h₂.mem.refInfo x) ≠ 0 := by rwa [same.refCnt]
      simp only [unlinkMem_refCnt same.era r x (Nat.pos_of_ne_zero some),
        recoveryUnlinkMem_refCnt same.era' r x (Nat.pos_of_ne_zero some'), same.refCnt]
    · simp only [unlinkMem_refInfo_ne h r hx, recoveryUnlinkMem_refInfo, Function.update_of_ne hx,
        same.refCnt]
  cnt := same.cnt
  freed := same.freed
  era := unlinkMem_era_lt same.era r o
  era' := recoveryUnlinkMem_era_lt same.era' r o

theorem Same.cxlFree (same : Same h h₂) (o : Offset) : Same (h.cxlFree o) (h₂.cxlFree o) where
  loc := same.loc
  refCnt x := by
    by_cases hx : x = o
    · subst hx
      simp [Heap.cxlFree, Mem.setRefInfo]
    · simp [Heap.cxlFree, Mem.setRefInfo, hx, same.refCnt]
  cnt := by
    simp only [Heap.cxlFree, same.cnt]
  freed := by
    simp only [Heap.cxlFree, same.freed]
  era := same.era
  era' := same.era'

/-! ## Following the run on the objects -/

/-- `run` brings a heap that agrees with `h'`, and what `free` makes of the area for the objects that
have been freed on the way from `h` to `h'`. -/
def Does (free : Area → Offset → Option Area) (Agrees : Heap → Heap → Prop) (h h' : Heap)
    (run : Area → Option World) : Prop :=
  ∃ l h₂, h'.freed = h.freed ++ l ∧ Agrees h' h₂ ∧
    ∀ a a', l.foldlM free a = some a' → run a = some ⟨h₂, a'⟩

theorem Does.nothing {free : Area → Offset → Option Area} {Agrees : Heap → Heap → Prop}
    (agrees : Agrees h h₂) : Does free Agrees h h fun a => some ⟨h₂, a⟩ := by
  refine ⟨[], h₂, (List.append_nil _).symm, agrees, fun a a' frees => ?_⟩
  obtain rfl := Option.some.inj frees
  rfl

theorem Does.bind {free : Area → Offset → Option Area} {Agrees : Heap → Heap → Prop}
    {run : Area → Option World} {next : World → Option World} (first : Does free Agrees h h₁ run)
    (rest : ∀ h₂, Agrees h₁ h₂ → Does free Agrees h₁ h' fun a => next ⟨h₂, a⟩) :
    Does free Agrees h h' fun a => (run a).bind next := by
  obtain ⟨l, h₂, freed, agrees, runs⟩ := first
  obtain ⟨l', h₃, freed', agrees', runs'⟩ := rest h₂ agrees
  refine ⟨l ++ l', h₃, by rw [freed', freed, List.append_assoc], agrees', fun a a' frees => ?_⟩
  rw [List.foldlM_append] at frees
  obtain ⟨a₁, frees₁, frees₂⟩ := Option.bind_eq_some_iff.1 frees
  show (run a).bind next = _
  rw [runs a a₁ frees₁]
  exact runs' a₁ a' frees₂

/-- The function `run` takes the turns that `test_free` takes where all counts are positive, with
`unlink` for `unlink_reference` and `free` for `cxl_free`. -/
structure Follows (t : ℕ) (run : ℕ → World → ObjLoc → Option World)
    (unlink : World → ObjLoc → Offset → Option World) (free : Area → Offset → Option Area)
    (Agrees : Heap → Heap → Prop) : Prop where
  loc : ∀ {h h₂}, Agrees h h₂ → h₂.mem.loc = h.mem.loc
  refCnt : ∀ {h h₂}, Agrees h h₂ → ∀ o,
    getRefCntFromInfo (h₂.mem.refInfo o) = getRefCntFromInfo (h.mem.refInfo o)
  cnt : ∀ {h h₂}, Agrees h h₂ → h₂.embeddedRefCnt = h.embeddedRefCnt
  null : ∀ fuel w r, w.heap.mem.loc r = 0 → run (fuel + 1) w r = some w
  shared : ∀ fuel w r, w.heap.mem.loc r ≠ 0 →
    getRefCntFromInfo (w.heap.mem.refInfo (w.heap.mem.loc r)) ≠ 0 →
    getRefCntFromInfo (w.heap.mem.refInfo (w.heap.mem.loc r)) ≠ 1 →
    run (fuel + 1) w r = unlink w r (w.heap.mem.loc r)
  last : ∀ fuel w r, w.heap.mem.loc r ≠ 0 →
    getRefCntFromInfo (w.heap.mem.refInfo (w.heap.mem.loc r)) = 1 →
    run (fuel + 1) w r = (World.freeEmbedded (run fuel) (w.heap.mem.loc r) fuel 0 w).bind fun w =>
      unlink w r (w.heap.mem.loc r)
  keeps : ∀ {h h₂} r o, Agrees h h₂ → getRefCntFromInfo (h.mem.refInfo o) ≠ 0 →
    getRefCntFromInfo (h.mem.refInfo o) ≠ 1 →
    ∃ h₃, Agrees (h.unlinkReference t r o) h₃ ∧ ∀ a, unlink ⟨h₂, a⟩ r o = some ⟨h₃, a⟩
  frees : ∀ {h h₂} r o, Agrees h h₂ → getRefCntFromInfo (h.mem.refInfo o) = 1 →
    ∃ h₃, Agrees (h.unlinkReference t r o) h₃ ∧
      ∀ a, unlink ⟨h₂, a⟩ r o = (free a o).map fun a' => ⟨h₃, a'⟩

variable {run : ℕ → World → ObjLoc → Option World} {unlink : World → ObjLoc → Offset → Option World}
  {free : Area → Offset → Option Area} {Agrees : Heap → Heap → Prop}

theorem Follows.unlinkCounted (f : Follows t run unlink free Agrees) (agrees : Agrees h h₂)
    (counted : h.unlinkCounted t r o = some h') :
    Does free Agrees h h' fun a => unlink ⟨h₂, a⟩ r o := by
  have some : getRefCntFromInfo (h.mem.refInfo o) ≠ 0 := by
    intro none
    rw [Heap.unlinkCounted, if_pos none] at counted
    cases counted
  obtain rfl := unlinkReference_of_counted counted
  by_cases last : getRefCntFromInfo (h.mem.refInfo o) = 1
  · obtain ⟨h₃, agrees', runs⟩ := f.frees r o agrees last
    refine ⟨[o], h₃, ?_, agrees', fun a a' frees => ?_⟩
    · simp only [Heap.unlinkReference, if_pos last, Heap.cxlFree]
    · rw [List.foldlM_cons] at frees
      obtain ⟨a₁, freed, none⟩ := Option.bind_eq_some_iff.1 frees
      obtain rfl := Option.some.inj none
      show unlink ⟨h₂, a⟩ r o = _
      rw [runs, freed, Option.map_some]
  · obtain ⟨h₃, agrees', runs⟩ := f.keeps r o agrees some last
    refine ⟨[], h₃, ?_, agrees', fun a a' frees => ?_⟩
    · simp only [Heap.unlinkReference, if_neg last, List.append_nil]
    · obtain rfl := Option.some.inj frees
      exact runs a

/-- The loop, if the recursive calls follow. -/
theorem Follows.freeEmbedded (f : Follows t run unlink free Agrees) {fuel : ℕ}
    (calls : ∀ {h h' h₂ r}, Agrees h h₂ → h.testFreeCounted t fuel r = some h' →
      Does free Agrees h h' fun a => run fuel ⟨h₂, a⟩ r) (n : ℕ) :
    ∀ {h h' h₂ i}, Agrees h h₂ →
      Heap.freeEmbedded (Heap.testFreeCounted t fuel) o n i h = some h' →
      Does free Agrees h h' fun a => World.freeEmbedded (run fuel) o n i ⟨h₂, a⟩ := by
  induction n with
  | zero =>
    intro h h' h₂ i _ loop
    cases loop
  | succ n ih =>
    intro h h' h₂ i agrees loop
    simp only [Heap.freeEmbedded, World.freeEmbedded, f.cnt agrees] at loop ⊢
    by_cases more : i < h.embeddedRefCnt o
    · simp only [if_pos more] at loop ⊢
      obtain ⟨h₁, call, rest⟩ := Option.bind_eq_some_iff.1 loop
      exact (calls agrees call).bind fun h₃ agrees' => ih agrees' rest
    · simp only [if_neg more] at loop ⊢
      obtain rfl := Option.some.inj loop
      exact .nothing agrees

theorem Follows.testFree (f : Follows t run unlink free Agrees) (fuel : ℕ) :
    ∀ {h h' h₂ r}, Agrees h h₂ → h.testFreeCounted t fuel r = some h' →
      Does free Agrees h h' fun a => run fuel ⟨h₂, a⟩ r := by
  induction fuel with
  | zero =>
    intro h h' h₂ r _ counted
    cases counted
  | succ fuel ih =>
    intro h h' h₂ r agrees counted
    have loc : h₂.mem.loc r = h.mem.loc r := by rw [f.loc agrees]
    have refCnt := f.refCnt agrees (h.mem.loc r)
    simp only [Heap.testFreeCounted] at counted
    by_cases null : h.mem.loc r = 0
    · rw [if_pos null] at counted
      obtain rfl := Option.some.inj counted
      have ends (a : Area) : run (fuel + 1) ⟨h₂, a⟩ r = some ⟨h₂, a⟩ :=
        f.null fuel ⟨h₂, a⟩ r (loc.trans null)
      simp only [ends]
      exact .nothing agrees
    rw [if_neg null] at counted
    have held (a : Area) : (World.mk h₂ a).heap.mem.loc r ≠ 0 := loc.trans_ne null
    by_cases last : getRefCntFromInfo (h.mem.refInfo (h.mem.loc r)) = 1
    · rw [if_neg (not_not.2 last)] at counted
      obtain ⟨h₁, loop, dropped⟩ := Option.bind_eq_some_iff.1 counted
      have turns (a : Area) : run (fuel + 1) ⟨h₂, a⟩ r =
          (World.freeEmbedded (run fuel) (h.mem.loc r) fuel 0 ⟨h₂, a⟩).bind fun w =>
            unlink w r (w.heap.mem.loc r) := by
        rw [f.last fuel ⟨h₂, a⟩ r (held a) (by rw [loc, refCnt, last]), loc]
      simp only [turns]
      refine (f.freeEmbedded ih fuel agrees loop).bind fun h₃ agrees' => ?_
      have loc' : h₃.mem.loc r = h₁.mem.loc r := by rw [f.loc agrees']
      simp only [loc']
      exact f.unlinkCounted agrees' dropped
    · rw [if_pos last] at counted
      have some : getRefCntFromInfo (h.mem.refInfo (h.mem.loc r)) ≠ 0 := by
        intro none
        rw [Heap.unlinkCounted, if_pos none] at counted
        cases counted
      have turns (a : Area) : run (fuel + 1) ⟨h₂, a⟩ r = unlink ⟨h₂, a⟩ r (h.mem.loc r) := by
        rw [f.shared fuel ⟨h₂, a⟩ r (held a) (by rw [loc, refCnt]; exact some)
          (by rw [loc, refCnt]; exact last), loc]
      simp only [turns]
      exact f.unlinkCounted agrees counted

/-- The client follows the run on its own objects. -/
theorem follows_testFree (t : ℕ) : Follows t (World.testFree t) (World.unlinkReference t)
    (Area.cxlFree t) fun h h₂ => h₂ = h where
  loc := by
    rintro h h₂ rfl
    rfl
  refCnt := by
    rintro h h₂ rfl o
    rfl
  cnt := by
    rintro h h₂ rfl
    rfl
  null fuel w r null := by
    simp only [World.testFree, if_pos null]
  shared fuel w r some _ shared := by
    simp only [World.testFree, if_neg some, if_pos shared]
  last fuel w r some last := by
    simp only [World.testFree, if_neg some, if_neg (not_not.2 last)]
  keeps := by
    rintro h h₂ r o rfl - shared
    refine ⟨_, rfl, fun a => ?_⟩
    simp only [World.unlinkReference, Heap.unlinkReference, if_neg shared]
  frees := by
    rintro h h₂ r o rfl last
    refine ⟨_, rfl, fun a => ?_⟩
    simp only [World.unlinkReference, Heap.unlinkReference, if_pos last]

/-- The monitor follows it on a heap with the same counts: its guard against objects without
references does not apply. -/
theorem follows_recoveryTestFree (t : ℕ) : Follows t (World.recoveryTestFree t)
    (fun w r o => some (w.recoveryUnlinkReference t r o)) (fun a o => some (a.recoveryCxlFree t o))
    Same where
  loc same := same.loc
  refCnt same := same.refCnt
  cnt same := same.cnt
  null fuel w r null := by
    simp only [World.recoveryTestFree, if_pos null]
  shared fuel w r some counted shared := by
    simp only [World.recoveryTestFree, if_neg some, if_neg counted, if_pos shared]
  last fuel w r some last := by
    have counted : getRefCntFromInfo (w.heap.mem.refInfo (w.heap.mem.loc r)) ≠ 0 := by
      rw [last]
      exact one_ne_zero
    simp only [World.recoveryTestFree, if_neg some, if_neg counted, if_neg (not_not.2 last)]
    rw [Option.map_eq_bind]
    rfl
  keeps := by
    intro h h₂ r o same counted shared
    have unlinked := same.unlink (t := t) r o counted
    rw [← same.refCnt] at shared
    refine ⟨{ h₂ with mem := h₂.recoveryUnlinkMem t r o }, ?_, fun a => ?_⟩
    · rw [same.refCnt] at shared
      simpa only [Heap.unlinkReference, if_neg shared] using unlinked
    · simp only [World.recoveryUnlinkReference, if_neg shared]
  frees := by
    intro h h₂ r o same last
    have counted : getRefCntFromInfo (h.mem.refInfo o) ≠ 0 := by
      rw [last]
      exact one_ne_zero
    have freed := (same.unlink (t := t) r o counted).cxlFree o
    have last' : getRefCntFromInfo (h₂.mem.refInfo o) = 1 := by rw [same.refCnt, last]
    refine ⟨Heap.cxlFree { h₂ with mem := h₂.recoveryUnlinkMem t r o } o, ?_, fun a => ?_⟩
    · simpa only [Heap.unlinkReference, if_pos last] using freed
    · simp only [World.recoveryUnlinkReference, if_pos last', Option.map_some]

/-! ## Freeing the objects -/

/-- The two `cxl_free`s of the same objects. -/
theorem area_frees {s : CxlShm.Heap.State}
    (normal : ∀ g, s.sasThreadId g ≠ t → (s.info g).state ≠ .potentialLeaking) (l : List Offset) :
    ∀ a a₂ : Area, CxlShm.Heap.FreesAlike t s a.alloc a₂.alloc → a₂.pushed = a.pushed → l.Nodup →
      (∀ o ∈ l, a.alloc.allocated o = some false) →
      ∃ a' a₂', l.foldlM (Area.cxlFree t) a = some a' ∧
        l.foldlM (fun a o => some (a.recoveryCxlFree t o)) a₂ = some a₂' ∧
        CxlShm.Heap.FreesAlike t s a'.alloc a₂'.alloc ∧ a₂'.pushed = a'.pushed := by
  induction l with
  | nil =>
    intro a a₂ alike pushed _ _
    exact ⟨a, a₂, rfl, rfl, alike, pushed⟩
  | cons o l ih =>
    intro a a₂ alike pushed nodup live
    obtain ⟨out, nodup⟩ := List.nodup_cons.1 nodup
    obtain ⟨alloc, run, allocated, alike', push⟩ :=
      alike.free (live o List.mem_cons_self) normal
    have live' : ∀ x ∈ l, alloc.allocated x = some false := by
      intro x hx
      rw [allocated, Function.update_of_ne (fun same : x = o => out (same ▸ hx))]
      exact live x (List.mem_cons_of_mem _ hx)
    obtain ⟨a', a₂', runs, runs', alike'', pushed'⟩ :=
      ih ⟨alloc, a.pushed ++ a.alloc.cxlFreePush t o⟩ (a₂.recoveryCxlFree t o) alike'
        (by simp only [Area.recoveryCxlFree, pushed, push]) nodup live'
    refine ⟨a', a₂', ?_, runs', alike'', pushed'⟩
    rw [List.foldlM_cons, Area.cxlFree, run]
    exact runs

/-! ## A larger bound changes nothing -/

theorem World.freeEmbedded_mono {f g : World → ObjLoc → Option World} {n m i : ℕ} {w w' : World}
    (le : ∀ w r w', f w r = some w' → g w r = some w') (enough : n ≤ m)
    (run : World.freeEmbedded f o n i w = some w') : World.freeEmbedded g o m i w = some w' := by
  induction n generalizing i w m with
  | zero => cases run
  | succ n ih =>
    obtain ⟨m, rfl⟩ := Nat.exists_eq_add_of_le' (Nat.one_le_of_lt enough)
    simp only [World.freeEmbedded] at run ⊢
    by_cases more : i < w.heap.embeddedRefCnt o
    · rw [if_pos more] at run ⊢
      obtain ⟨w₁, call, rest⟩ := Option.bind_eq_some_iff.1 run
      rw [le w _ w₁ call, Option.bind_some]
      exact ih (Nat.le_of_succ_le_succ enough) rest
    · rw [if_neg more] at run ⊢
      exact run

theorem recoveryTestFree_mono {n m : ℕ} {w w' : World} (enough : n ≤ m)
    (run : w.recoveryTestFree t n r = some w') : w.recoveryTestFree t m r = some w' := by
  induction n generalizing m w r w' with
  | zero => cases run
  | succ n ih =>
    obtain ⟨m, rfl⟩ := Nat.exists_eq_add_of_le' (Nat.one_le_of_lt enough)
    have enough := Nat.le_of_succ_le_succ enough
    simp only [World.recoveryTestFree] at run ⊢
    by_cases null : w.heap.mem.loc r = 0
    · rw [if_pos null] at run ⊢
      exact run
    rw [if_neg null] at run ⊢
    by_cases none : getRefCntFromInfo (w.heap.mem.refInfo (w.heap.mem.loc r)) = 0
    · rw [if_pos none] at run ⊢
      exact run
    rw [if_neg none] at run ⊢
    by_cases shared : getRefCntFromInfo (w.heap.mem.refInfo (w.heap.mem.loc r)) ≠ 1
    · rw [if_pos shared] at run ⊢
      exact run
    · rw [if_neg shared] at run ⊢
      obtain ⟨w₁, loop, dropped⟩ := Option.map_eq_some_iff.1 run
      rw [World.freeEmbedded_mono (fun _ _ _ call => ih enough call) enough loop, Option.map_some,
        dropped]

/-! ## Heaps with objects that nothing refers to -/

/-- The count of every object is the number of the references to it, which may be 0. -/
structure Counted (h : Heap) (live : Finset Offset) (roots : Set ObjLoc) : Prop where
  null : 0 ∉ live
  apart : ∀ o ∈ live, ∀ i, .embedded o i ∉ roots
  target : ∀ q ∈ Refs h live roots, h.mem.loc q = 0 ∨ h.mem.loc q ∈ live
  finite : ∀ o ∈ live, (refsTo h live roots o).Finite
  refCnt : ∀ o ∈ live, getRefCntFromInfo (h.mem.refInfo o) = (refsTo h live roots o).ncard
  era : ∀ i, h.mem.eraArray i < 2 ^ 32

open Classical in
/-- The objects that something refers to. -/
noncomputable def referred (h : Heap) (live : Finset Offset) (roots : Set ObjLoc) : Finset Offset :=
  live.filter fun o => (refsTo h live roots o).Nonempty

/-- The roots, with the embedded references of the objects that nothing refers to. -/
def widened (h : Heap) (live : Finset Offset) (roots : Set ObjLoc) : Set ObjLoc :=
  roots ∪ {q | ∃ o ∈ live, refsTo h live roots o = ∅ ∧ ∃ i < h.embeddedRefCnt o, q = .embedded o i}

theorem mem_referred : o ∈ referred h live roots ↔ o ∈ live ∧ (refsTo h live roots o).Nonempty := by
  classical
  exact Finset.mem_filter

theorem refs_referred : Refs h (referred h live roots) (widened h live roots) = Refs h live roots := by
  ext q
  constructor
  · rintro ((hq | ⟨o, ho, -, slot⟩) | ⟨o, ho, slot⟩)
    · exact .inl hq
    · exact .inr ⟨o, ho, slot⟩
    · exact .inr ⟨o, (mem_referred.1 ho).1, slot⟩
  · rintro (hq | ⟨o, ho, slot⟩)
    · exact .inl (.inl hq)
    · rcases (refsTo h live roots o).eq_empty_or_nonempty with none | some
      · exact .inl (.inr ⟨o, ho, none, slot⟩)
      · exact .inr ⟨o, mem_referred.2 ⟨ho, some⟩, slot⟩

/-- Only the objects that something refers to can be reached. -/
theorem Counted.exact (counted : Counted h live roots) :
    Exact h (referred h live roots) (widened h live roots) := by
  have same (o : Offset) : refsTo h (referred h live roots) (widened h live roots) o =
      refsTo h live roots o := by
    rw [refsTo, refs_referred]
    rfl
  refine ⟨?null, ?apart, ?target, ?finite, ?refCnt, ?held, counted.era⟩
  case null => exact fun inside => counted.null (mem_referred.1 inside).1
  case apart =>
    intro o ho i
    obtain ⟨ho, some⟩ := mem_referred.1 ho
    rintro (hq | ⟨x, -, none, j, -, eq⟩)
    · exact counted.apart o ho i hq
    · cases eq
      exact some.ne_empty none
  case target =>
    intro q hq
    rw [refs_referred] at hq
    rcases counted.target q hq with null | inside
    · exact .inl null
    · exact .inr (mem_referred.2 ⟨inside, q, hq, rfl⟩)
  all_goals
    intro o ho
    obtain ⟨ho, some⟩ := mem_referred.1 ho
    rw [same]
  case finite => exact counted.finite o ho
  case refCnt => exact counted.refCnt o ho
  case held => exact some

/-! ## Agreement -/

/-- The worlds `w₁` and `w₂`, which come from `w`, agree in the references, the counts, the objects
that have been freed, and the pushes on the chains of the segments that `t` does not own, and on what
these chains and their blocks hold. -/
structure Agree (t : ℕ) (w w₁ w₂ : World) : Prop where
  loc : w₂.heap.mem.loc = w₁.heap.mem.loc
  refCnt : ∀ o,
    getRefCntFromInfo (w₂.heap.mem.refInfo o) = getRefCntFromInfo (w₁.heap.mem.refInfo o)
  embeddedRefCnt : w₂.heap.embeddedRefCnt = w₁.heap.embeddedRefCnt
  freed : w₂.heap.freed = w₁.heap.freed
  pushed : w₂.area.pushed = w₁.area.pushed
  info : ∀ g, w.area.alloc.sasThreadId g ≠ t → w₂.area.alloc.info g = w₁.area.alloc.info g
  blockNext : ∀ a, w.area.alloc.sasThreadId (CxlShm.segmentIndex a) ≠ t →
    w₂.area.alloc.blockNext a = w₁.area.alloc.blockNext a

/-- In every heap whose counts are right, over an allocator in order, `test_free` by the client and
`recovery_test_free` for it end and agree. -/
theorem recoveryTestFree_agrees {w : World} (counted : Counted w.heap live roots) (hr : r ∈ roots)
    (inv : CxlShm.Heap.Inv w.area.alloc.unmarked) (idle : w.area.alloc.call t = .idle)
    (objects : ∀ o ∈ live, w.area.alloc.allocated o = some false)
    (normal : ∀ g, w.area.alloc.sasThreadId g ≠ t →
      (w.area.alloc.info g).state ≠ .potentialLeaking) :
    ∃ w₁ w₂, (∃ k, ∀ fuel ≥ k,
      w.testFree t fuel r = some w₁ ∧ w.recoveryTestFree t fuel r = some w₂) ∧ Agree t w w₁ w₂ := by
  obtain ⟨h', rest, ⟨k, counts⟩, -, d⟩ :=
    testFree_dropCounted t _ w.heap _ _ r rfl counted.exact (.inl hr)
  obtain ⟨l, freed, nodup, mem⟩ := d.freed
  have same : Same w.heap w.heap := ⟨rfl, fun _ => rfl, rfl, rfl, counted.era, counted.era⟩
  obtain ⟨a₁, a₂, frees, frees', alike, pushed⟩ :=
    area_frees normal l w.area w.area (.refl inv idle) rfl nodup fun o ho =>
      objects o (mem_referred.1 ((mem o).1 ho).1).1
  have client (fuel : ℕ) (enough : fuel ≥ k) : w.testFree t fuel r = some ⟨h', a₁⟩ := by
    obtain ⟨l', h₂, freed', rfl, runs⟩ := (follows_testFree t).testFree fuel rfl (counts fuel enough)
    rw [freed] at freed'
    obtain rfl := List.append_cancel_left freed'
    exact runs w.area a₁ frees
  obtain ⟨l', h₂, freed', same', runs⟩ :=
    (follows_recoveryTestFree t).testFree k same (counts k le_rfl)
  rw [freed] at freed'
  obtain rfl := List.append_cancel_left freed'
  have monitor : w.recoveryTestFree t k r = some ⟨h₂, a₂⟩ := runs w.area a₂ frees'
  refine ⟨⟨h', a₁⟩, ⟨h₂, a₂⟩, ⟨k, fun fuel enough =>
    ⟨client fuel enough, recoveryTestFree_mono enough monitor⟩⟩, ?_⟩
  exact ⟨same'.loc, same'.refCnt, same'.cnt, same'.freed, pushed, fun g _ => by rw [alike.info],
    alike.blockNext⟩

end

/-- A `RootRef` refers to `o`, and the embedded reference of `o` to `p`. -/
def pair (o p : Offset) : Heap where
  mem :=
    { refInfo := fun x => if x = o ∨ x = p then packRefInfo 1 1 1 else 0
      eraArray := fun _ => 3
      loc := fun q => match q with
        | .root _ => o
        | .embedded x _ => if x = o then p else 0
      redo := fun _ _ => none }
  embeddedRefCnt := fun x => if x = o then 1 else 0
  freed := []

theorem counted_pair {o p : Offset} (some : o ≠ 0) (some' : p ≠ 0) (apart : p ≠ o) :
    Counted (pair o p) {o, p} {.root 1} := by
  have one : getRefCntFromInfo (packRefInfo 1 1 1) = 1 := by decide
  have refs : Refs (pair o p) {o, p} {.root 1} = {.root 1, .embedded o 0} := by
    ext q
    constructor
    · rintro (hq | ⟨x, hx, i, hi, rfl⟩)
      · exact .inl hq
      · rcases Finset.mem_insert.1 hx with rfl | hx
        · obtain rfl : i = 0 := by simpa [pair] using hi
          exact .inr rfl
        · obtain rfl := Finset.mem_singleton.1 hx
          simp [pair, apart] at hi
    · rintro (rfl | rfl)
      · exact .inl rfl
      · exact .inr ⟨o, by simp, 0, by simp [pair], rfl⟩
  have first : refsTo (pair o p) {o, p} {.root 1} o = {.root 1} := by
    ext q
    rw [mem_refsTo, refs]
    constructor
    · rintro ⟨rfl | rfl, target⟩
      · rfl
      · simp [pair, apart] at target
    · rintro rfl
      exact ⟨.inl rfl, rfl⟩
  have second : refsTo (pair o p) {o, p} {.root 1} p = {.embedded o 0} := by
    ext q
    rw [mem_refsTo, refs]
    constructor
    · rintro ⟨rfl | rfl, target⟩
      · exact absurd target.symm apart
      · rfl
    · rintro rfl
      exact ⟨.inr rfl, by simp [pair]⟩
  refine ⟨?null, by simp, ?target, ?finite, ?refCnt, by simp [pair]⟩
  case null =>
    intro inside
    rcases Finset.mem_insert.1 inside with h | h
    · exact some h.symm
    · exact some' (Finset.mem_singleton.1 h).symm
  case target =>
    intro q hq
    rw [refs] at hq
    rcases hq with rfl | rfl
    · exact .inr (Finset.mem_insert_self _ _)
    · exact .inr (by simp [pair])
  all_goals
    intro x hx
    rcases Finset.mem_insert.1 hx with rfl | hx
  case finite.inl => rw [first]; exact Set.finite_singleton _
  case finite.inr =>
    obtain rfl := Finset.mem_singleton.1 hx
    rw [second]
    exact Set.finite_singleton _
  case refCnt.inl =>
    rw [first, Set.ncard_singleton]
    simp [pair, one]
  case refCnt.inr =>
    obtain rfl := Finset.mem_singleton.1 hx
    rw [second, Set.ncard_singleton]
    simp [pair, one]

/-- Clients 1 and 2 have allocated an object each, in segments of their own. -/
def twoObjects (s : CxlShm.Heap.State) : Bool :=
  decide (s.call 1 = .idle) && decide (s.allocated 134283264 = some false) &&
    decide (s.allocated 201392128 = some false) && decide (s.sasThreadId 1 = 2)

/-- The object of client 1 refers to that of client 2, and the only reference to it is dropped. -/
theorem recoveryTestFree_agrees_pair : ∃ w w₁ w₂ : World,
    w.heap = pair 134283264 201392128 ∧ w.area.alloc.sasThreadId 1 = 2 ∧
      (∃ k, ∀ fuel ≥ k, w.testFree 1 fuel (.root 1) = some w₁ ∧
        w.recoveryTestFree 1 fuel (.root 1) = some w₂) ∧ Agree 1 w w₁ w₂ := by
  have run : (Reachability.checkedRun (CxlShm.Heap.step (1 <<< 28)) CxlShm.Heap.carefulCheck
      CxlShm.Heap.State.init [.threadInit 1, .threadInit 2, .alloc 1 (.obj 24), .find 1 0 0,
        .alloc 2 (.obj 24), .find 2 1 0]).any twoObjects = true := by
    decide +kernel
  obtain ⟨s, reached, found⟩ := Reachability.exists_reachable_of_checkedRun (J := fun _ => True)
    (fun _ _ _ _ _ passed => ⟨trivial, CxlShm.Heap.careful_of_check passed⟩) trivial run
  simp only [twoObjects, Bool.and_eq_true, decide_eq_true_eq] at found
  obtain ⟨⟨⟨idle, live⟩, live'⟩, owner⟩ := found
  have inv : CxlShm.Heap.Inv s := .of_reachable reached
  have counted : Counted (pair 134283264 201392128) {134283264, 201392128} {.root 1} :=
    counted_pair (by decide) (by decide) (by decide)
  obtain ⟨w₁, w₂, ends, agree⟩ :=
    recoveryTestFree_agrees (w := ⟨pair 134283264 201392128, s, []⟩) counted rfl
      (inv.unmarked_eq ▸ inv) idle
      (by
        intro o ho
        rcases Finset.mem_insert.1 ho with rfl | ho
        · exact live
        · obtain rfl := Finset.mem_singleton.1 ho
          exact live')
      (by
        obtain ⟨home, place, -, blocks⟩ := inv
        intro g _ leaking
        rw [blocks.normal g] at leaking
        cases leaking)
  exact ⟨_, w₁, w₂, rfl, owner, ends, agree⟩

end CxlShm.Cascade
