import CxlShm.Layout
import CxlShm.Lib.Chain
import CxlShm.Lib.Reachability

/-!
# Frees from other clients, one memory access at a time

A block that is freed by a client other than the owner of its segment is pushed on the chain
`thread_free` of the segment, which shares a word with the segment's state and is changed by
compare-exchange only.  The owner takes the whole chain and hands each block to the `local_free`
list of its page.  No block is lost or duplicated on the way (`partition_of_reachable`).
-/

namespace CxlShm.RemoteFree

open Linked Reachability

/-- The next access of a `cxl_free` of the block `b` by a client that does not own the segment. -/
inductive Push
  | idle
  /-- `memset(b, 0, ..)` -/
  | memset (b : Offset)
  /-- `info = sas->info.load()` before the loop -/
  | load (b : Offset)
  /-- `info = sas->info.load()` in the loop -/
  | reload (b : Offset)
  /-- `b->next = info.thread_free` -/
  | storeNext (b : Offset) (info : StateFreeInfo)
  /-- `sas->info.compare_exchange_weak(info, new_info)` -/
  | cas (b : Offset) (info : StateFreeInfo)
  deriving DecidableEq, Repr

/-- The client is freeing the block. -/
def Push.holds : Push → Offset → Prop
  | .idle, _ => False
  | .memset b, x | .load b, x | .reload b, x | .storeNext b _, x | .cas b _, x => x = b

/-- The next access of `cxl_thread_free_collect`. -/
inductive Collect
  | idle
  /-- `info = sas->info.load()` before the loop -/
  | load
  /-- `info = sas->info.load()` in the loop -/
  | reload
  /-- `sas->info.compare_exchange_weak(info, new_info)` -/
  | cas (info : StateFreeInfo)
  /-- `next = tail->next` -/
  | loadNext (tail : Offset)
  /-- `p->local_free` of `tail->next = p->local_free` -/
  | loadLocalFree (tail next : Offset)
  /-- the store of `tail->next` -/
  | storeNext (tail next localFree : Offset)
  /-- `p->local_free = tail` -/
  | storeLocalFree (tail next : Offset)
  /-- `p->used -= 1` -/
  | decUsed (tail next : Offset)
  deriving DecidableEq, Repr

/-- A segment: `segment->thread_id`, `sas->info`, the first word of each block, and `local_free` and
`used` of each page; the clients that free its blocks and the owner.  `allocated` are the blocks
whose free has not begun, `pushed` those that have got onto a free list. -/
structure State where
  threadId : ℕ
  info : StateFreeInfo
  next : Offset → Offset
  localFree : ℕ → Offset
  used : ℕ → BitVec 32
  push : ℕ → Push
  collect : Collect
  allocated : Offset → Bool
  pushed : Offset → Bool

/-- What happens next.  `free` and `collect` are calls, `push` and `walk` the next access of a
client that frees and of the owner. -/
inductive Action
  | free (t : ℕ) (b : Offset)
  | push (t : ℕ) (weak : Bool)
  | collect
  | walk (weak : Bool)
  deriving DecidableEq, Repr

namespace State

variable (s : State)

def setPush (t : ℕ) (p : Push) : State := { s with push := Function.update s.push t p }

def setNext (b x : Offset) : State := { s with next := Function.update s.next b x }

def setCollect (c : Collect) : State := { s with collect := c }

/-- The next access of client `t`. -/
def pushStep (t : ℕ) (weak : Bool) : Option State :=
  match s.push t with
  | .idle => none
  | .memset b => some ((s.setNext b 0).setPush t (.load b))
  | .load b => some (s.setPush t (.reload b))
  | .reload b =>
    some (s.setPush t (if s.info.state = .potentialLeaking then .idle else .storeNext b s.info))
  | .storeNext b info => some ((s.setNext b info.threadFree).setPush t (.cas b info))
  | .cas b info =>
    if weak = false ∧ s.info = info then
      some ({ s with
        info := ⟨info.state, b⟩, pushed := Function.update s.pushed b true }.setPush t .idle)
    else some (s.setPush t (.reload b))

/-- `tail = next; while(tail != NULL)` -/
def loop (tail : Offset) : Collect := if tail = 0 then .idle else .loadNext tail

/-- The next access of the owner. -/
def walkStep (weak : Bool) : Option State :=
  match s.collect with
  | .idle => none
  | .load => some (s.setCollect (if s.info.threadFree = 0 then .idle else .reload))
  | .reload => some (s.setCollect (.cas s.info))
  | .cas info =>
    if weak = false ∧ s.info = info then
      some ({ s with info := ⟨info.state, 0⟩ }.setCollect (loop info.threadFree))
    else some (s.setCollect .reload)
  | .loadNext tail => some (s.setCollect (.loadLocalFree tail (s.next tail)))
  | .loadLocalFree tail next =>
    some (s.setCollect (.storeNext tail next (s.localFree (pageIndex tail))))
  | .storeNext tail next localFree =>
    some ((s.setNext tail localFree).setCollect (.storeLocalFree tail next))
  | .storeLocalFree tail next =>
    some ({ s with localFree := Function.update s.localFree (pageIndex tail) tail }.setCollect
      (.decUsed tail next))
  | .decUsed tail next =>
    some ({ s with
      used := Function.update s.used (pageIndex tail) (s.used (pageIndex tail) - 1) }.setCollect
        (loop next))

/-- The step function. -/
def step : Action → Option State
  | .free t b =>
    if t ≠ s.threadId ∧ s.push t = .idle ∧ b ≠ 0 ∧ s.allocated b then
      some ({ s with allocated := Function.update s.allocated b false }.setPush t (.memset b))
    else none
  | .push t weak => s.pushStep t weak
  | .collect => if s.collect = .idle then some (s.setCollect .load) else none
  | .walk weak => s.walkStep weak

end State

/-- Before any of the calls: the chain of the segment and the lists `localFree p` of the pages hold
each block on a free list once, in its page. -/
structure Start (s : State) (localFree : ℕ → List Offset) : Prop where
  normal : s.info.state = .normal
  push : ∀ t, s.push t = .idle
  collect : s.collect = .idle
  live : ∀ b, s.allocated b → s.pushed b = false
  shared : ∃ shared, Chain s.next 0 s.info.threadFree shared ∧
    ∀ b, shared.count b + (localFree (pageIndex b)).count b = (s.pushed b).toNat
  chain : ∀ p, Chain s.next 0 (s.localFree p) (localFree p)
  home : ∀ p, ∀ b ∈ localFree p, pageIndex b = p

/-- The blocks that the owner has detached and not yet handed to their pages. -/
def Walking (s : State) (detached : List Offset) : Prop :=
  match s.collect with
  | .idle | .load | .reload | .cas _ => detached = []
  | .loadNext tail => tail ≠ 0 ∧ Chain s.next 0 tail detached
  | .loadLocalFree tail next | .storeNext tail next _ | .storeLocalFree tail next =>
    ∃ rest, detached = tail :: rest ∧ tail ≠ 0 ∧ Chain s.next 0 next rest
  | .decUsed _ next => Chain s.next 0 next detached

/-- The decrement for the block that has just been put on `local_free` is the owner's next access. -/
def owed (s : State) (p : ℕ) : ℕ :=
  match s.collect with
  | .decUsed tail _ => if pageIndex tail = p then 1 else 0
  | _ => 0

/-- Since `s₀`, whose `local_free` lists were `localFree`, the blocks `arrived p` have come to page
`p`.  Each block on a free list is on one of the chains, once; each block that was allocated in `s₀`
still is, or is being freed, or is on a chain; and `used` counts the arrivals up to `owed`. -/
structure Partition (s₀ s : State) (localFree : ℕ → List Offset) (owed : ℕ → ℕ)
    (shared detached : List Offset) (arrived : ℕ → List Offset) : Prop where
  sharedChain : Chain s.next 0 s.info.threadFree shared
  walking : Walking s detached
  localChain : ∀ p, Chain s.next 0 (s.localFree p) (arrived p ++ localFree p)
  home : ∀ p, ∀ b ∈ arrived p ++ localFree p, pageIndex b = p
  once : ∀ b, shared.count b + detached.count b +
    (arrived (pageIndex b) ++ localFree (pageIndex b)).count b = (s.pushed b).toNat
  kept : ∀ b, s₀.allocated b → s.allocated b ∨ (∃ t, (s.push t).holds b) ∨ s.pushed b
  used : ∀ p, s.used p + BitVec.ofNat 32 (arrived p).length =
    s₀.used p + BitVec.ofNat 32 (owed p)
  state : s.info.state = .normal

/-! ## The invariant -/

/-- What the owner's registers say. -/
def Collect.Ok (s : State) : Collect → Prop
  | .storeNext tail _ localFree => localFree = s.localFree (pageIndex tail)
  | .storeLocalFree tail _ => s.next tail = s.localFree (pageIndex tail)
  | .idle | .load | .reload | .cas _ | .loadNext _ | .loadLocalFree _ _ | .decUsed _ _ => True

/-- The blocks in hand and the registers of the clients. -/
structure Inv (s₀ s : State) (localFree : ℕ → List Offset) (shared detached : List Offset)
    (arrived : ℕ → List Offset) : Prop where
  part : Partition s₀ s localFree (owed s) shared detached arrived
  live : ∀ b, s.allocated b → s.pushed b = false ∧ ∀ t, ¬ (s.push t).holds b
  held : ∀ t b, (s.push t).holds b → s.pushed b = false ∧ b ≠ 0
  alone : ∀ t u b, (s.push t).holds b → (s.push u).holds b → t = u
  ready : ∀ t b info, s.push t = .cas b info → s.next b = info.threadFree
  register : s.collect.Ok s

section Step

variable {s₀ s s' : State} {localFree arrived : ℕ → List Offset} {shared detached : List Offset}

/-- A block that is not on a free list is on none of the chains. -/
theorem Partition.out {owed : ℕ → ℕ} (h : Partition s₀ s localFree owed shared detached arrived)
    {b : Offset} (hb : s.pushed b = false) :
    b ∉ shared ∧ b ∉ detached ∧ ∀ p, b ∉ arrived p ++ localFree p := by
  have none := h.once b
  rw [hb, Bool.toNat_false] at none
  refine ⟨List.count_eq_zero.1 (by omega), List.count_eq_zero.1 (by omega), fun p mem => ?_⟩
  obtain rfl := h.home p b mem
  exact List.count_eq_zero.1 (show (arrived (pageIndex b) ++ localFree (pageIndex b)).count b = 0 by
    omega) mem

theorem Partition.pushed_of_mem {owed : ℕ → ℕ}
    (h : Partition s₀ s localFree owed shared detached arrived) {b : Offset}
    (mem : b ∈ shared ∨ b ∈ detached ∨ ∃ p, b ∈ arrived p ++ localFree p) : s.pushed b := by
  by_contra not
  obtain ⟨outShared, outDetached, outLocal⟩ := h.out (Bool.eq_false_iff.2 not)
  rcases mem with mem | mem | ⟨p, mem⟩
  · exact outShared mem
  · exact outDetached mem
  · exact outLocal p mem

/-- The walk sees the links of its own blocks only. -/
theorem Walking.congr (h : Walking s detached) (collect : s'.collect = s.collect)
    (next : ∀ b ∈ detached, s'.next b = s.next b) : Walking s' detached := by
  unfold Walking at h ⊢
  rw [collect]
  cases hc : s.collect with
  | idle | load | reload | cas => simpa only [hc] using h
  | loadNext tail =>
    rw [hc] at h
    exact ⟨h.1, (Chain.congr next).2 h.2⟩
  | loadLocalFree tail n | storeNext tail n _ | storeLocalFree tail n =>
    rw [hc] at h
    obtain ⟨rest, rfl, some, chain⟩ := h
    exact ⟨rest, rfl, some, (Chain.congr fun b mem => next b (List.mem_cons_of_mem _ mem)).2 chain⟩
  | decUsed tail n =>
    rw [hc] at h
    exact (Chain.congr next).2 h

/-- A step that leaves the lists and the links of their blocks alone. -/
theorem Inv.frame (h : Inv s₀ s localFree shared detached arrived) (info : s'.info = s.info)
    (heads : s'.localFree = s.localFree) (used : s'.used = s.used) (pushed : s'.pushed = s.pushed)
    (collect : s'.collect = s.collect) (next : ∀ b, s.pushed b → s'.next b = s.next b)
    (live : ∀ b, s'.allocated b → s.allocated b ∧ ∀ t, ¬ (s'.push t).holds b)
    (held : ∀ t b, (s'.push t).holds b → s.pushed b = false ∧ b ≠ 0)
    (alone : ∀ t u b, (s'.push t).holds b → (s'.push u).holds b → t = u)
    (ready : ∀ t b info, s'.push t = .cas b info → s'.next b = info.threadFree)
    (kept : ∀ b, s.allocated b ∨ (∃ t, (s.push t).holds b) →
      s'.allocated b ∨ ∃ t, (s'.push t).holds b) :
    Inv s₀ s' localFree shared detached arrived := by
  have part := h.part
  have same : ∀ {b}, (b ∈ shared ∨ b ∈ detached ∨ ∃ p, b ∈ arrived p ++ localFree p) →
      s'.next b = s.next b := fun mem => next _ (part.pushed_of_mem mem)
  refine ⟨⟨?_, ?_, ?_, part.home, ?_, ?_, ?_, info ▸ part.state⟩, ?_, ?_, alone, ready, ?_⟩
  · rw [info]
    exact (Chain.congr fun b mem => same (.inl mem)).2 part.sharedChain
  · exact part.walking.congr collect fun b mem => same (.inr (.inl mem))
  · intro p
    rw [heads]
    exact (Chain.congr fun b mem => same (.inr (.inr ⟨p, mem⟩))).2 (part.localChain p)
  · rw [pushed]
    exact part.once
  · intro b hb
    rw [pushed]
    rcases part.kept b hb with live | held | done
    · exact (kept b (.inl live)).imp_right .inl
    · exact (kept b (.inr held)).imp_right .inl
    · exact .inr (.inr done)
  · intro p
    have sameOwed : owed s' p = owed s p := by simp only [owed, collect]
    rw [used, sameOwed]
    exact part.used p
  · intro b hb
    rw [pushed]
    exact ⟨(h.live b (live b hb).1).1, (live b hb).2⟩
  · rw [pushed]
    exact held
  · have register := h.register
    rw [collect]
    cases hc : s.collect with
    | idle | load | reload | cas | loadNext | loadLocalFree | decUsed => trivial
    | storeNext tail n lf =>
      rw [hc] at register
      exact register.trans (congrFun heads.symm _)
    | storeLocalFree tail n =>
      rw [hc] at register
      have inHand : s'.next tail = s.next tail := by
        apply same
        right
        left
        have walking := part.walking
        unfold Walking at walking
        rw [hc] at walking
        obtain ⟨rest, rfl, -⟩ := walking
        exact List.mem_cons_self
      exact inHand.trans (register.trans (congrFun heads.symm _))

/-! ### The clients -/

theorem Push.holds_unique {p : Push} {b x : Offset} (h : p.holds b) (h' : p.holds x) : x = b := by
  cases p with
  | idle => exact h.elim
  | memset | load | reload | storeNext | cas => exact Eq.trans h' (Eq.symm h)

/-- A client writes into the block that it is freeing and goes on. -/
theorem Inv.hold (h : Inv s₀ s localFree shared detached arrived) {t : ℕ} {p : Push} {b : Offset}
    (had : (s.push t).holds b) (has : ∀ x, p.holds x ↔ x = b) {next : Offset → Offset}
    (frame : ∀ x, x ≠ b → next x = s.next x)
    (ready : ∀ b' info, p = .cas b' info → next b' = info.threadFree) :
    Inv s₀ ({ s with next := next }.setPush t p) localFree shared detached arrived := by
  have others : ∀ u, u ≠ t → ({ s with next := next }.setPush t p).push u = s.push u :=
    fun u hu => Function.update_of_ne hu _ _
  have here : ({ s with next := next }.setPush t p).push t = p := Function.update_self _ _ _
  have back : ∀ u x, (({ s with next := next }.setPush t p).push u).holds x ↔ (s.push u).holds x := by
    intro u x
    by_cases hu : u = t
    · subst hu
      rw [here, has]
      constructor
      · rintro rfl
        exact had
      · exact Push.holds_unique had
    · rw [others u hu]
  refine h.frame rfl rfl rfl rfl rfl ?_ ?_ ?_ ?_ ?_ ?_
  · intro x done
    apply frame
    rintro rfl
    rw [(h.held t x had).1] at done
    cases done
  · intro x live
    exact ⟨live, fun u holds => (h.live x live).2 u ((back u x).1 holds)⟩
  · intro u x holds
    exact h.held u x ((back u x).1 holds)
  · intro u v x hu hv
    exact h.alone u v x ((back u x).1 hu) ((back v x).1 hv)
  · intro u x info hc
    by_cases hu : u = t
    · subst hu
      exact ready x info (here ▸ hc)
    · rw [others u hu] at hc
      have other : x ≠ b := by
        rintro rfl
        exact hu (h.alone u t x (by rw [hc]; rfl) had)
      exact (frame x other).trans (h.ready u x info hc)
  · rintro x (live | ⟨u, holds⟩)
    · exact .inl live
    · exact .inr ⟨u, (back u x).2 holds⟩

/-- The compare-exchange of a push succeeds. -/
theorem Inv.pushed (h : Inv s₀ s localFree shared detached arrived) {t : ℕ} {b : Offset}
    (hc : s.push t = .cas b s.info) :
    Inv s₀ ({ s with
      info := ⟨s.info.state, b⟩, pushed := Function.update s.pushed b true }.setPush t .idle)
      localFree (b :: shared) detached arrived := by
  have part := h.part
  have holds : (s.push t).holds b := by
    rw [hc]
    rfl
  obtain ⟨notPushed, some⟩ := h.held t b holds
  have others : ∀ u x, (({ s with
      info := ⟨s.info.state, b⟩, pushed := Function.update s.pushed b true }.setPush t .idle).push
        u).holds x → u ≠ t ∧ (s.push u).holds x := by
    intro u x hx
    by_cases hu : u = t
    · subst hu
      simp [State.setPush, Push.holds] at hx
    · exact ⟨hu, by simpa [State.setPush, hu] using hx⟩
  have different : ∀ u x, u ≠ t → (s.push u).holds x → x ≠ b := by
    rintro u x hu hx rfl
    exact hu (h.alone u t x hx holds)
  refine ⟨⟨⟨rfl, some, ?_⟩, part.walking, part.localChain, part.home, ?_, ?_, part.used, part.state⟩,
    ?_, ?_, ?_, ?_, h.register⟩
  · show Chain s.next 0 (s.next b) shared
    rw [h.ready t b s.info hc]
    exact part.sharedChain
  · intro x
    have once := part.once x
    by_cases hx : x = b
    · subst hx
      rw [notPushed, Bool.toNat_false] at once
      simp only [State.setPush, Function.update_self, List.count_cons_self, Bool.toNat_true]
      omega
    · simp only [State.setPush, Function.update_of_ne hx, List.count_cons_of_ne (Ne.symm hx)]
      exact once
  · intro x hx
    rcases part.kept x hx with live | ⟨u, held⟩ | done
    · exact .inl live
    · by_cases hu : u = t
      · subst hu
        obtain rfl := Push.holds_unique holds held
        exact .inr (.inr (Function.update_self _ _ _))
      · exact .inr (.inl ⟨u, by simpa [State.setPush, hu] using held⟩)
    · right
      right
      by_cases hx : x = b
      · simp [State.setPush, hx]
      · simpa [State.setPush, hx] using done
  · intro x live
    obtain ⟨notYet, free⟩ := h.live x live
    have hx : x ≠ b := by
      rintro rfl
      exact free t holds
    exact ⟨by simpa [State.setPush, hx] using notYet, fun u held => free u (others u x held).2⟩
  · intro u x held
    obtain ⟨hu, held⟩ := others u x held
    obtain ⟨notYet, null⟩ := h.held u x held
    exact ⟨by simpa [State.setPush, different u x hu held] using notYet, null⟩
  · intro u v x hu hv
    exact h.alone u v x (others u x hu).2 (others v x hv).2
  · intro u x info hx
    have hu : u ≠ t := by
      rintro rfl
      simp [State.setPush] at hx
    exact h.ready u x info (by simpa [State.setPush, hu] using hx)

theorem Inv.pushStep (h : Inv s₀ s localFree shared detached arrived) {t : ℕ} {weak : Bool}
    (hs : s.pushStep t weak = some s') : ∃ shared, Inv s₀ s' localFree shared detached arrived := by
  unfold State.pushStep at hs
  cases hc : s.push t with
  | idle => simp [hc] at hs
  | memset b =>
    simp only [hc, Option.some.injEq] at hs
    subst hs
    refine ⟨shared, h.hold (b := b) (by rw [hc]; rfl) (fun _ => Iff.rfl) ?_ (by simp)⟩
    exact fun x hx => Function.update_of_ne hx _ _
  | load b =>
    simp only [hc, Option.some.injEq] at hs
    subst hs
    exact ⟨shared, h.hold (b := b) (by rw [hc]; rfl) (fun _ => Iff.rfl) (fun _ _ => rfl) (by simp)⟩
  | reload b =>
    simp only [hc, h.part.state, reduceCtorEq, if_false, Option.some.injEq] at hs
    subst hs
    exact ⟨shared, h.hold (b := b) (by rw [hc]; rfl) (fun _ => Iff.rfl) (fun _ _ => rfl) (by simp)⟩
  | storeNext b info =>
    simp only [hc, Option.some.injEq] at hs
    subst hs
    refine ⟨shared, h.hold (b := b) (by rw [hc]; rfl) (fun _ => Iff.rfl) ?_ ?_⟩
    · exact fun x hx => Function.update_of_ne hx _ _
    · rintro _ _ ⟨⟩
      exact Function.update_self _ _ _
  | cas b info =>
    simp only [hc] at hs
    split_ifs at hs with wins
    · obtain ⟨-, rfl⟩ := wins
      cases hs
      exact ⟨b :: shared, h.pushed hc⟩
    · cases hs
      exact ⟨shared,
        h.hold (b := b) (by rw [hc]; rfl) (fun _ => Iff.rfl) (fun _ _ => rfl) (by simp)⟩

/-- A call of `cxl_free` on a block that is allocated. -/
theorem Inv.free (h : Inv s₀ s localFree shared detached arrived) {t : ℕ} {b : Offset}
    (idle : s.push t = .idle) (some : b ≠ 0) (live : s.allocated b) :
    Inv s₀ ({ s with allocated := Function.update s.allocated b false }.setPush t (.memset b))
      localFree shared detached arrived := by
  obtain ⟨notPushed, free⟩ := h.live b live
  have cases_holds : ∀ u x, (({ s with
      allocated := Function.update s.allocated b false }.setPush t (.memset b)).push u).holds x →
      u = t ∧ x = b ∨ u ≠ t ∧ (s.push u).holds x := by
    intro u x hx
    by_cases hu : u = t
    · subst hu
      left
      exact ⟨rfl, by simpa [State.setPush, Push.holds] using hx⟩
    · exact .inr ⟨hu, by simpa [State.setPush, hu] using hx⟩
  refine h.frame rfl rfl rfl rfl rfl (fun _ _ => rfl) ?_ ?_ ?_ ?_ ?_
  · intro x hx
    have other : x ≠ b := by
      rintro rfl
      simp [State.setPush] at hx
    have before : s.allocated x := by simpa [State.setPush, other] using hx
    refine ⟨before, fun u held => ?_⟩
    rcases cases_holds u x held with ⟨-, same⟩ | ⟨-, held⟩
    · exact other same
    · exact (h.live x before).2 u held
  · intro u x held
    rcases cases_holds u x held with ⟨-, rfl⟩ | ⟨-, held⟩
    · exact ⟨notPushed, some⟩
    · exact h.held u x held
  · intro u v x hu hv
    rcases cases_holds u x hu with ⟨rfl, rfl⟩ | ⟨-, held⟩ <;>
      rcases cases_holds v _ hv with ⟨rfl, same⟩ | ⟨-, held'⟩
    · rfl
    · exact absurd held' (free v)
    · exact absurd (same ▸ held) (free u)
    · exact h.alone u v x held held'
  · intro u x info hc
    have hu : u ≠ t := by
      rintro rfl
      simp [State.setPush] at hc
    exact h.ready u x info (by simpa [State.setPush, hu] using hc)
  · rintro x (before | ⟨u, held⟩)
    · by_cases hx : x = b
      · subst hx
        exact .inr ⟨t, by simp [State.setPush, Push.holds]⟩
      · exact .inl (by simpa [State.setPush, hx] using before)
    · have hu : u ≠ t := by
        rintro rfl
        simp [idle, Push.holds] at held
      exact .inr ⟨u, by simpa [State.setPush, hu] using held⟩

/-! ### The owner -/

/-- The owner moves on without a write. -/
theorem Inv.setCollect (h : Inv s₀ s localFree shared detached arrived) {c : Collect}
    (walking : Walking (s.setCollect c) detached) (register : c.Ok s)
    (owes : ∀ p, owed (s.setCollect c) p = owed s p) :
    Inv s₀ (s.setCollect c) localFree shared detached arrived := by
  have part := h.part
  refine ⟨⟨part.sharedChain, walking, part.localChain, part.home, part.once, part.kept, ?_, part.state⟩,
    h.live, h.held, h.alone, h.ready, ?_⟩
  · intro p
    rw [owes]
    exact part.used p
  · cases c <;> exact register

theorem Walking.loop {tail : Offset} (h : Chain s.next 0 tail detached)
    (collect : s.collect = State.loop tail) : Walking s detached := by
  unfold Walking
  rw [collect, State.loop]
  by_cases null : tail = 0
  · rw [if_pos null]
    exact chain_null.1 (null ▸ h)
  · rw [if_neg null]
    exact ⟨null, h⟩

theorem ok_loop (tail : Offset) : (State.loop tail).Ok s := by
  unfold State.loop
  split <;> trivial

theorem owed_loop {tail : Offset} (collect : s.collect = State.loop tail) (p : ℕ) :
    owed s p = 0 := by
  unfold owed
  rw [collect, State.loop]
  by_cases null : tail = 0 <;> simp [null]

/-- The owner takes the chain of the segment. -/
theorem Inv.takeAll (h : Inv s₀ s localFree shared [] arrived) (hc : s.collect = .cas s.info) :
    Inv s₀ ({ s with info := ⟨s.info.state, 0⟩ }.setCollect (State.loop s.info.threadFree))
      localFree [] shared arrived := by
  have part := h.part
  refine ⟨⟨rfl, Walking.loop part.sharedChain rfl, part.localChain, part.home, ?_, part.kept, ?_,
    part.state⟩, h.live, h.held, h.alone, h.ready, ok_loop _⟩
  · intro b
    have once := part.once b
    simp only [State.setCollect, List.count_nil] at once ⊢
    omega
  · intro p
    have used := part.used p
    have before : owed s p = 0 := by simp [owed, hc]
    rw [before] at used
    rw [owed_loop rfl]
    exact used

/-- `tail->next = p->local_free` -/
theorem Inv.storeNext {rest : List Offset} {tail n : Offset}
    (h : Inv s₀ s localFree shared (tail :: rest) arrived) (chain : Chain s.next 0 n rest)
    (some : tail ≠ 0) (hc : s.collect = .storeNext tail n (s.localFree (pageIndex tail))) :
    Inv s₀ ((s.setNext tail (s.localFree (pageIndex tail))).setCollect (.storeLocalFree tail n))
      localFree shared (tail :: rest) arrived := by
  have part := h.part
  have pushed : s.pushed tail := part.pushed_of_mem (.inr (.inl List.mem_cons_self))
  have once := part.once tail
  rw [List.count_cons_self, pushed, Bool.toNat_true] at once
  have outShared : tail ∉ shared := List.count_eq_zero.1 (by omega)
  have outRest : tail ∉ rest := List.count_eq_zero.1 (by omega)
  have outLocal : ∀ p, tail ∉ arrived p ++ localFree p := by
    intro p mem
    obtain rfl := part.home p tail mem
    exact List.count_eq_zero.1 (show
      (arrived (pageIndex tail) ++ localFree (pageIndex tail)).count tail = 0 by omega) mem
  refine ⟨⟨part.sharedChain.update outShared, ⟨rest, rfl, some, chain.update outRest⟩,
    fun p => (part.localChain p).update (outLocal p), part.home, part.once, part.kept, ?_, part.state⟩,
    h.live, h.held, h.alone, ?_, Function.update_self _ _ _⟩
  · intro p
    have before : owed s p = 0 := by simp [owed, hc]
    have used := part.used p
    rw [before] at used
    exact used
  · intro t b info ready
    have other : b ≠ tail := by
      rintro rfl
      have := (h.held t b (by rw [show s.push t = _ from ready]; rfl)).1
      simp [pushed] at this
    exact (Function.update_of_ne other _ _).trans (h.ready t b info ready)

/-- `p->local_free = tail` -/
theorem Inv.storeLocalFree {rest : List Offset} {tail n : Offset}
    (h : Inv s₀ s localFree shared (tail :: rest) arrived) (chain : Chain s.next 0 n rest)
    (some : tail ≠ 0) (hc : s.collect = .storeLocalFree tail n) :
    Inv s₀ ({ s with localFree := Function.update s.localFree (pageIndex tail) tail }.setCollect
        (.decUsed tail n)) localFree shared rest
      (Function.update arrived (pageIndex tail) (tail :: arrived (pageIndex tail))) := by
  have part := h.part
  have linked : s.next tail = s.localFree (pageIndex tail) := by
    have register := h.register
    rwa [hc] at register
  refine ⟨⟨part.sharedChain, chain, ?_, ?_, ?_, part.kept, ?_, part.state⟩, h.live, h.held, h.alone,
    h.ready, trivial⟩
  · intro p
    by_cases hp : p = pageIndex tail
    · subst hp
      simp only [State.setCollect, Function.update_self, List.cons_append]
      refine ⟨rfl, some, ?_⟩
      rw [linked]
      exact part.localChain _
    · simp only [State.setCollect, Function.update_of_ne hp]
      exact part.localChain p
  · intro p b mem
    by_cases hp : p = pageIndex tail
    · subst hp
      rw [Function.update_self, List.cons_append] at mem
      rcases List.mem_cons.1 mem with rfl | mem
      · rfl
      · exact part.home _ b mem
    · rw [Function.update_of_ne hp] at mem
      exact part.home p b mem
  · intro b
    have once := part.once b
    by_cases hb : pageIndex b = pageIndex tail
    · rw [hb] at once ⊢
      rw [Function.update_self, List.cons_append, List.count_cons]
      rw [List.count_cons] at once
      show _ = (s.pushed b).toNat
      omega
    · have other : b ≠ tail := by
        rintro rfl
        exact hb rfl
      rw [Function.update_of_ne hb]
      rw [List.count_cons_of_ne (Ne.symm other)] at once
      exact once
  · intro p
    have used := part.used p
    have before : owed s p = 0 := by simp [owed, hc]
    rw [before] at used
    by_cases hp : p = pageIndex tail
    · subst hp
      have now : owed ({ s with
          localFree := Function.update s.localFree (pageIndex tail) tail }.setCollect
            (.decUsed tail n)) (pageIndex tail) = 1 := by simp [owed, State.setCollect]
      rw [now, Function.update_self, List.length_cons, BitVec.ofNat_add, ← BitVec.add_assoc]
      show s.used (pageIndex tail) + _ + _ = _
      rw [used]
      simp
    · have now : owed ({ s with
          localFree := Function.update s.localFree (pageIndex tail) tail }.setCollect
            (.decUsed tail n)) p = 0 := by simp [owed, State.setCollect, Ne.symm hp]
      rw [now, Function.update_of_ne hp]
      exact used

/-- `p->used -= 1` -/
theorem Inv.decUsed {tail n : Offset} (h : Inv s₀ s localFree shared detached arrived)
    (chain : Chain s.next 0 n detached) (hc : s.collect = .decUsed tail n) :
    Inv s₀ ({ s with
      used := Function.update s.used (pageIndex tail) (s.used (pageIndex tail) - 1) }.setCollect
        (State.loop n)) localFree shared detached arrived := by
  have part := h.part
  refine ⟨⟨part.sharedChain, Walking.loop chain rfl, part.localChain, part.home, part.once, part.kept,
    ?_, part.state⟩, h.live, h.held, h.alone, h.ready, ok_loop _⟩
  intro p
  have used := part.used p
  rw [owed_loop rfl]
  by_cases hp : p = pageIndex tail
  · subst hp
    have before : owed s (pageIndex tail) = 1 := by simp [owed, hc]
    rw [before] at used
    simp only [State.setCollect, Function.update_self]
    bv_omega
  · have before : owed s p = 0 := by simp [owed, hc, Ne.symm hp]
    rw [before] at used
    simpa only [State.setCollect, Function.update_of_ne hp] using used

theorem Inv.walkStep (h : Inv s₀ s localFree shared detached arrived) {weak : Bool}
    (hs : s.walkStep weak = some s') :
    ∃ shared detached arrived, Inv s₀ s' localFree shared detached arrived := by
  have walking := h.part.walking
  have register := h.register
  unfold State.walkStep at hs
  unfold Walking at walking
  cases hc : s.collect with
  | idle => simp [hc] at hs
  | load =>
    rw [hc] at walking
    simp only [hc, Option.some.injEq] at hs
    subst hs
    refine ⟨_, _, _, h.setCollect ?_ ?_ ?_⟩
    · unfold Walking State.setCollect
      split_ifs <;> exact walking
    · split_ifs <;> trivial
    · intro p
      unfold owed State.setCollect
      split_ifs <;> simp [hc]
  | reload =>
    rw [hc] at walking
    simp only [hc, Option.some.injEq] at hs
    subst hs
    exact ⟨_, _, _, h.setCollect walking trivial fun p => by simp [owed, hc, State.setCollect]⟩
  | cas info =>
    rw [hc] at walking
    subst walking
    simp only [hc] at hs
    split_ifs at hs with wins
    · obtain ⟨-, rfl⟩ := wins
      cases hs
      exact ⟨_, _, _, h.takeAll hc⟩
    · cases hs
      exact ⟨_, _, _, h.setCollect rfl trivial fun p => by simp [owed, hc, State.setCollect]⟩
  | loadNext tail =>
    rw [hc] at walking
    obtain ⟨some, chain⟩ := walking
    obtain ⟨rest, rfl, rest_chain⟩ := chain.exists_cons some
    simp only [hc, Option.some.injEq] at hs
    subst hs
    exact ⟨_, _, _, h.setCollect ⟨rest, rfl, some, rest_chain⟩ trivial fun p => by
      simp [owed, hc, State.setCollect]⟩
  | loadLocalFree tail n =>
    rw [hc] at walking
    simp only [hc, Option.some.injEq] at hs
    subst hs
    exact ⟨_, _, _, h.setCollect walking rfl fun p => by simp [owed, hc, State.setCollect]⟩
  | storeNext tail n lf =>
    rw [hc] at walking register
    obtain ⟨rest, rfl, some, chain⟩ := walking
    obtain rfl : lf = s.localFree (pageIndex tail) := register
    simp only [hc, Option.some.injEq] at hs
    subst hs
    exact ⟨_, _, _, h.storeNext chain some hc⟩
  | storeLocalFree tail n =>
    rw [hc] at walking
    obtain ⟨rest, rfl, some, chain⟩ := walking
    simp only [hc, Option.some.injEq] at hs
    subst hs
    exact ⟨_, _, _, h.storeLocalFree chain some hc⟩
  | decUsed tail n =>
    rw [hc] at walking
    simp only [hc, Option.some.injEq] at hs
    subst hs
    exact ⟨_, _, _, h.decUsed walking hc⟩

theorem Inv.step (h : Inv s₀ s localFree shared detached arrived) {a : Action}
    (hs : s.step a = some s') :
    ∃ shared detached arrived, Inv s₀ s' localFree shared detached arrived := by
  cases a with
  | free t b =>
    simp only [State.step, Option.ite_none_right_eq_some, Option.some.injEq] at hs
    obtain ⟨⟨-, idle, some, live⟩, rfl⟩ := hs
    exact ⟨_, _, _, h.free idle some live⟩
  | push t weak =>
    obtain ⟨shared, inv⟩ := h.pushStep hs
    exact ⟨_, _, _, inv⟩
  | collect =>
    simp only [State.step, Option.ite_none_right_eq_some, Option.some.injEq] at hs
    obtain ⟨idle, rfl⟩ := hs
    have walking := h.part.walking
    unfold Walking at walking
    rw [idle] at walking
    exact ⟨_, _, _, h.setCollect walking trivial fun p => by simp [owed, idle, State.setCollect]⟩
  | walk weak => exact h.walkStep hs

end Step

/-! ## Runs -/

theorem Start.inv {s : State} {localFree : ℕ → List Offset} (start : Start s localFree) :
    ∃ shared, Inv s s localFree shared [] fun _ => [] := by
  obtain ⟨shared, chain, once⟩ := start.shared
  refine ⟨shared, ⟨chain, ?_, start.chain, start.home, ?_, fun b live => .inl live, ?_, start.normal⟩,
    ?_, ?_, ?_, ?_, ?_⟩
  · unfold Walking
    rw [start.collect]
  · simpa using once
  · intro p
    simp [owed, start.collect]
  · intro b live
    exact ⟨start.live b live, fun t held => by simp [start.push t, Push.holds] at held⟩
  · intro t b held
    simp [start.push t, Push.holds] at held
  · intro t u b held
    simp [start.push t, Push.holds] at held
  · intro t b info hc
    simp [start.push t] at hc
  · rw [start.collect]
    trivial

/-- **Remote frees are neither lost nor duplicated.**  In every interleaving of the frees of other
clients with the collections of the owner, each block that has been pushed is on exactly one of the
chain of the segment, the chain being walked and the `local_free` list of its page; no block that was
allocated has got lost; `used` counts the blocks that came to the page, up to the decrement that is
the owner's next access; and the segment's state stays. -/
theorem partition_of_reachable {s₀ s : State} {localFree : ℕ → List Offset}
    (start : Start s₀ localFree) (h : Reachable State.step (fun _ _ _ => True) s₀ s) :
    ∃ shared detached arrived,
      Partition s₀ s localFree (owed s) shared detached arrived := by
  have inv : ∃ shared detached arrived, Inv s₀ s localFree shared detached arrived := by
    refine h.invariant
      (I := fun s => ∃ shared detached arrived, Inv s₀ s localFree shared detached arrived) ?_ ?_
    · obtain ⟨shared, inv⟩ := start.inv
      exact ⟨_, _, _, inv⟩
    · rintro s a s' ⟨shared, detached, arrived, inv⟩ hs -
      exact inv.step hs
  obtain ⟨shared, detached, arrived, inv⟩ := inv
  exact ⟨shared, detached, arrived, inv.part⟩

/-- The segment of client 1 with two allocated blocks, in page 1. -/
def started : State where
  threadId := 1
  info := ⟨.normal, 0⟩
  next _ := 0
  localFree _ := 0
  used p := if p = 1 then 2 else 0
  push _ := .idle
  collect := .idle
  allocated b := b = 134283264 ∨ b = 134283312
  pushed _ := false

theorem start_started : Start started fun _ => [] where
  normal := rfl
  push _ := rfl
  collect := rfl
  live _ _ := rfl
  shared := ⟨[], rfl, fun _ => rfl⟩
  chain _ := rfl
  home _ _ mem := by cases mem

/-- Clients 2 and 3 free a block each, side by side, and 3 has to try again; the owner, which has
detached both, is about to decrement `used` for the first. -/
theorem collected : ∃ s, Reachable State.step (fun _ _ _ => True) started s ∧
    s.collect = .decUsed 134283312 134283264 ∧ s.used 1 = 2 ∧ s.localFree 1 = 134283312 ∧
    s.next 134283312 = 0 := by
  have run : (checkedRun State.step (fun _ _ _ => true) started
      (.free 2 134283264 :: .free 3 134283312 :: List.replicate 4 (.push 2 false) ++
        List.replicate 4 (.push 3 false) ++ .push 2 false :: List.replicate 4 (.push 3 false) ++
        .collect :: List.replicate 7 (.walk false))).any
      (fun s => s.collect = .decUsed 134283312 134283264 ∧ s.used 1 = 2 ∧
        s.localFree 1 = 134283312 ∧ s.next 134283312 = 0) = true := by
    decide
  have sound : ∀ s a s', True → State.step s a = some s' → true = true → True ∧ True :=
    fun _ _ _ _ _ _ => ⟨trivial, trivial⟩
  obtain ⟨s, hs, last⟩ := exists_reachable_of_checkedRun sound trivial run
  exact ⟨s, hs, by simpa using last⟩

theorem partition_of_collected : ∃ s shared detached arrived,
    Partition started s (fun _ => []) (owed s) shared detached arrived ∧
      s.collect = .decUsed 134283312 134283264 ∧ s.localFree 1 = 134283312 := by
  obtain ⟨s, hs, here, -, head, -⟩ := collected
  obtain ⟨shared, detached, arrived, part⟩ := partition_of_reachable start_started hs
  exact ⟨s, shared, detached, arrived, part, here, head⟩

/-- Between the two stores the block is on `local_free` and not yet subtracted from `used`. -/
theorem used_lags_behind : ¬ ∀ s, Reachable State.step (fun _ _ _ => True) started s →
    ∃ shared detached arrived,
      Partition started s (fun _ => []) (fun _ => 0) shared detached arrived := by
  intro exact_
  obtain ⟨s, hs, -, count, head, last⟩ := collected
  obtain ⟨shared, detached, arrived, part⟩ := exact_ s hs
  have chain := part.localChain 1
  rw [head, List.append_nil] at chain
  have one : Chain s.next 0 134283312 [134283312] := ⟨rfl, by decide, last⟩
  have used := part.used 1
  rw [chain.unique one, count] at used
  exact absurd used (by decide)

end CxlShm.RemoteFree
