import CxlShm.Reference.Callers

/-!
# The machine refines the reference counting

Every access of `link_reference`, `unlink_reference` and `cxl_ref_alloc` is either invisible to the
reference counting of `Lib.RefCounting` or one of its steps (`abs_step`).  The compare-exchange is
where the count changes; the accesses before it only announce the operation, and a failed
compare-exchange starts over.
-/

namespace CxlShm

open Counting
open RefCounting (Phase)

variable {Loc : Type}

/-- The registers of a client stay in their widths, and the offsets it works on are not null. -/
def Control.Sane : Control Loc → Prop
  | .call c => c.curEra < 2 ^ 32 ∧ c.refed ≠ 0 ∧ (c.pc = .free → c.last)
  | .alloc a => a.block ≠ 0 ∧
      (a.pc = .bumpEra ∨ a.pc = .storeInfo → getRefCntFromInfo a.info = 1)
  | .absent | .starting | .idle | .clearing _ => True

/-- Registers and era counters stay in their widths. -/
structure Sane (s : State Loc) : Prop where
  era : ∀ i, s.mem.eraArray i < 2 ^ 32
  ctl : ∀ t, (s.ctl t).Sane
  null : s.allocated 0 = false

theorem Sane.call {s : State Loc} (h : Sane s) {t : ℕ} {c : Call Loc} (hc : s.ctl t = .call c) :
    c.curEra < 2 ^ 32 ∧ c.refed ≠ 0 ∧ (c.pc = .free → c.last) := by
  have sane := h.ctl t
  rwa [hc] at sane

theorem Sane.alloc {s : State Loc} (h : Sane s) {t : ℕ} {a : Alloc Loc} (ha : s.ctl t = .alloc a) :
    a.block ≠ 0 ∧ (a.pc = .bumpEra ∨ a.pc = .storeInfo → getRefCntFromInfo a.info = 1) := by
  have sane := h.ctl t
  rwa [ha] at sane

theorem Sane.update {s s' : State Loc} (h : Sane s) {t : ℕ} {k : Control Loc}
    (era : ∀ i, s'.mem.eraArray i < 2 ^ 32) (ctl : s'.ctl = Function.update s.ctl t k)
    (sane : k.Sane) (null : s'.allocated 0 = false) : Sane s' where
  era := era
  null := null
  ctl u := by
    rw [ctl]
    by_cases hu : u = t
    · subst hu
      simpa using sane
    · simpa [hu] using h.ctl u

theorem Call.sawEra_lt (c : Call Loc) : c.sawEra < 2 ^ 32 := getLenumFromInfo_lt _

theorem Mem.setEra_lt {m : Mem Loc} (h : ∀ i, m.eraArray i < 2 ^ 32) {x y v : ℕ} (hv : v < 2 ^ 32) (i : ℤ) :
    (m.setEra x y v).eraArray i < 2 ^ 32 := by
  simp only [Mem.setEra, Function.update_apply]
  split
  · exact hv
  · exact h i

theorem Mem.bumpEra_lt {m : Mem Loc} (h : ∀ i, m.eraArray i < 2 ^ 32) (t : ℕ) (i : ℤ) :
    (m.bumpEra t).eraArray i < 2 ^ 32 :=
  Mem.setEra_lt h (Nat.mod_lt _ (by norm_num)) i

/-! ## Phases -/

theorem Call.func_cases (c : Call Loc) : c.func = .linkRef ∨ c.func = .unlinkRef := by
  cases c.func <;> simp

/-- Up to the compare-exchange the phase is that of the function, the location and the object. -/
theorem Call.phase_announced {c : Call Loc} (pc : c.pc.announced) :
    c.phase = match c.func with
      | .linkRef => .linking c.ref c.refed
      | .unlinkRef => .unlinking c.ref c.refed := by
  obtain ⟨func, ref, refed, pc', info, era⟩ := c
  cases func <;> cases pc' <;> simp_all [Pc.announced, Call.phase]

theorem Call.func_of_last {c : Call Loc} (last : c.last = true) : c.func = .unlinkRef := by
  simp only [Call.last, Bool.decide_and, Bool.and_eq_true, decide_eq_true_eq] at last
  exact last.1

theorem Call.phase_unlinked {c : Call Loc} (func : c.func = .unlinkRef) (pc : c.pc = .storeRef) :
    c.phase = .unlinked c.ref c.refed c.last := by
  unfold Call.phase
  rw [func, pc]

theorem Call.phase_unlink_bumpEra {c : Call Loc} (func : c.func = .unlinkRef)
    (pc : c.pc = .bumpEra) : c.phase = if c.last then .dropping c.refed else .idle := by
  unfold Call.phase
  rw [func, pc]

theorem phase_update (ctl : ℕ → Control Loc) (t : ℕ) (k : Control Loc) :
    (fun u => (Function.update ctl t k u).phase) =
      Function.update (fun u => (ctl u).phase) t k.phase := by
  funext u
  by_cases hu : u = t <;> simp [hu]

theorem raised_phase_iff (o : Offset) (k : Control Loc) : k.phase.Raised o ↔ LinkPending o k := by
  unfold LinkPending
  cases k with
  | call c =>
    obtain ⟨func, ref, refed, pc, info, era⟩ := c
    cases func <;> cases pc <;> simp only [Control.phase, Call.phase] <;> (try split_ifs) <;>
      simp [Phase.Raised]
  | _ => simp [Control.phase, Phase.Raised]

theorem pinned_phase_iff {o : Offset} {k : Control Loc} (built : ¬ k.phase.Creates o) :
    k.phase.Pinned o ↔ UnlinkPending o k := by
  unfold UnlinkPending
  cases k with
  | call c =>
    obtain ⟨func, ref, refed, pc, info, era⟩ := c
    cases func <;> cases pc <;> simp only [Control.phase, Call.phase] <;> (try split_ifs) <;>
      simp [Phase.Pinned]
  | alloc a =>
    have other : a.block ≠ o := built
    simp [Control.phase, Phase.Pinned, other]
  | _ => simp [Control.phase, Phase.Pinned]

/-! ## The simulation -/

/-- An access is invisible to the counting when it leaves counts, liveness, locations and the phase
of the client alone. -/
theorem abs_eq {s s' : State Loc} {t : ℕ} {k : Control Loc} (ctl : s'.ctl = Function.update s.ctl t k)
    (phase : k.phase = (s.ctl t).phase) (allocated : s'.allocated = s.allocated)
    (words : s'.mem.refInfo = s.mem.refInfo) (loc : s'.mem.loc = s.mem.loc) : abs s' = abs s := by
  have same : (fun u => (s'.ctl u).phase) = fun u => (s.ctl u).phase := by
    rw [ctl, phase_update, phase]
    exact Function.update_eq_self t _
  simp only [abs, same, allocated, words, loc]

theorem abs_setCtl (s : State Loc) (t : ℕ) (k : Control Loc) :
    abs (s.setCtl t k) = { abs s with phase := Function.update (abs s).phase t k.phase } := by
  simp only [abs, State.setCtl, phase_update]
  rfl

/-- The count of a live object, the pending operations and the locations in balance. -/
theorem balance_of_inv {s : State Loc} (inv : RefCounting.Inv (abs s)) {o : Offset} (null : o ≠ 0)
    (live : s.allocated o = true) :
    getRefCntFromInfo (s.mem.refInfo o) + count (UnlinkPending o) s.ctl =
      count (· = o) s.mem.loc + count (LinkPending o) s.ctl := by
  have balance := inv.balance o
  have pinned : count (Phase.Pinned o) (abs s).phase = count (UnlinkPending o) s.ctl :=
    count_congr fun u => pinned_phase_iff fun hu => inv.fresh u o hu live
  have raised : count (Phase.Raised o) (abs s).phase = count (LinkPending o) s.ctl :=
    count_congr fun u => raised_phase_iff o (s.ctl u)
  have holders : count (· = some o) (abs s).loc = count (· = o) s.mem.loc := by
    refine count_congr fun r => ?_
    by_cases hr : s.mem.loc r = 0 <;> simp [abs, hr, Ne.symm null]
  rw [RefCounting.weight_of_live (s := abs s) live, pinned, raised, holders] at balance
  rw [← balance]
  simp [abs, live]

theorem references_eq {s : State Loc} (inv : RefCounting.Inv (abs s)) {o : Offset} (null : o ≠ 0)
    (live : s.allocated o = true) : references s o = getRefCntFromInfo (s.mem.refInfo o) := by
  have balance := balance_of_inv inv null live
  unfold references
  omega

section

variable [DecidableEq Loc]

/-! ## Registers -/

theorem Call.exec_era_lt {m : Mem Loc} (h : ∀ i, m.eraArray i < 2 ^ 32) (t : ℕ) (c : Call Loc)
    (weak : Bool) (i : ℤ) : (c.exec t m weak).1.eraArray i < 2 ^ 32 := by
  unfold Call.exec
  split <;> try split
  all_goals first
    | exact h i
    | exact Mem.setEra_lt h c.sawEra_lt i
    | exact Mem.bumpEra_lt h t i

/-- An access keeps the function, the location and the object of the activation. -/
theorem Call.exec_keeps {t : ℕ} {m : Mem Loc} {c c' : Call Loc} {weak : Bool}
    (h : (c.exec t m weak).2 = some c') :
    c'.func = c.func ∧ c'.ref = c.ref ∧ c'.refed = c.refed ∧ (c'.curEra = c.curEra ∨ c'.curEra = m.era t t) := by
  unfold Call.exec at h
  split at h <;> (try split at h) <;> simp_all <;> subst h <;> simp

/-- The accesses of an activation, with those up to a failing compare-exchange taken together: they
change neither a word nor a location. -/
theorem runCall_cases (s : State Loc) (t : ℕ) (c : Call Loc) (weak : Bool) :
    (∃ m c', s.runCall t c weak = { s with mem := m }.setCtl t (.call c') ∧ c.pc.announced ∧
      c'.pc.announced ∧ c'.func = c.func ∧ c'.ref = c.ref ∧ c'.refed = c.refed ∧
      (c'.curEra = c.curEra ∨ c'.curEra = s.mem.era t t) ∧
      m.refInfo = s.mem.refInfo ∧ m.loc = s.mem.loc) ∨
    (c.pc = .cas ∧ weak = false ∧ s.mem.refInfo c.refed = c.refInfo ∧ s.runCall t c weak =
      { s with
        mem := s.mem.setRefInfo c.refed (c.newRefInfo t)
        trace := s.trace ++ [Event.casOk t c.redoLog] }.setCtl t (.call { c with pc := .storeRef })) ∨
    (c.pc = .storeRef ∧ s.runCall t c weak =
      { s with mem := s.mem.setLoc c.ref c.newRef }.setCtl t (.call { c with pc := .bumpEra })) ∨
    (c.pc = .bumpEra ∧ s.runCall t c weak = { s with mem := s.mem.bumpEra t }.setCtl t
      (if c.last then .call { c with pc := .free } else .idle)) ∨
    (c.pc = .free ∧ s.runCall t c weak =
      { s with
        mem := s.mem.setRefInfo c.refed 0
        allocated := Function.update s.allocated c.refed false
        trace := s.trace ++ [Event.freed t c.refed] }.setCtl t .idle) := by
  cases pc : c.pc with
  | loadInfo =>
    refine .inl ⟨s.mem, _, runCall_loadInfo pc, rfl, ?_, rfl, rfl, rfl, .inl rfl, rfl, rfl⟩
    cases func : c.func <;> simp [Call.afterInfo, func, Pc.announced]
  | loadEra =>
    refine .inl ⟨s.mem, _, runCall_loadEra pc, rfl, ?_, rfl, rfl, rfl, .inr rfl, rfl, rfl⟩
    cases func : c.func <;> simp [Call.afterEra, func, Pc.announced]
  | testEle =>
    refine .inl ⟨s.mem, _, runCall_testEle pc, rfl, ?_, rfl, rfl, rfl, .inl rfl, rfl, rfl⟩
    dsimp only
    split
    · rfl
    · cases func : c.func <;> simp [Call.afterEle, func, Pc.announced]
  | storeEle =>
    refine .inl ⟨_, _, runCall_storeEle pc, rfl, ?_, rfl, rfl, rfl, .inl rfl, rfl, rfl⟩
    cases func : c.func <;> simp [Call.afterEle, func, Pc.announced]
  | storeRedo =>
    exact .inl ⟨_, _, runCall_storeRedo pc, rfl, rfl, rfl, rfl, rfl, .inl rfl, rfl, rfl⟩
  | cas =>
    by_cases wins : weak = false ∧ s.mem.refInfo c.refed = c.refInfo
    · obtain ⟨rfl, word⟩ := wins
      exact .inr (.inl ⟨rfl, rfl, word, runCall_cas pc word⟩)
    · exact .inl ⟨s.mem, _, runCall_cas_fails pc wins, rfl, rfl, rfl, rfl, rfl, .inl rfl, rfl, rfl⟩
  | storeRef => exact .inr (.inr (.inl ⟨rfl, runCall_storeRef pc⟩))
  | bumpEra => exact .inr (.inr (.inr (.inl ⟨rfl, runCall_bumpEra pc⟩)))
  | free => exact .inr (.inr (.inr (.inr ⟨rfl, runCall_free pc⟩)))

/-- Only the unlink of a last reference goes on to free. -/
theorem Call.last_of_free {t : ℕ} {m : Mem Loc} {c c' : Call Loc} {weak : Bool}
    (h : (c.exec t m weak).2 = some c') (free : c'.pc = .free) : c'.last := by
  unfold Call.exec at h
  cases hpc : c.pc with
  | bumpEra =>
    rw [hpc] at h
    cases last : c.last with
    | true =>
      simp only [last, if_true, Option.some.injEq] at h
      rw [← h]
      exact last
    | false => simp [last] at h
  | loadInfo | loadEra | testEle | storeEle | storeRedo | cas | storeRef | free =>
    rcases c.func_cases with func | func <;> rw [hpc] at h <;> simp only at h <;>
      (try split at h) <;> simp_all [Call.afterInfo, Call.afterEra, Call.afterEle] <;>
      subst h <;> simp_all

/-- The registers stay sane through an access of an activation. -/
theorem Call.exec_sane {t : ℕ} {m : Mem Loc} {c c' : Call Loc} {weak : Bool}
    (h : (c.exec t m weak).2 = some c') (era : m.era t t < 2 ^ 32)
    (sane : (Control.call c).Sane) : (Control.call c').Sane := by
  obtain ⟨-, -, refed, cur⟩ := Call.exec_keeps h
  refine ⟨?_, refed ▸ sane.2.1, Call.last_of_free h⟩
  rcases cur with cur | cur <;> rw [cur]
  · exact sane.1
  · exact era

theorem sane_runAlloc {s : State Loc} {t : ℕ} {a : Alloc Loc} (h : Sane s)
    (ha : s.ctl t = .alloc a) : Sane (s.runAlloc t a) := by
  obtain ⟨null, info⟩ := h.alloc ha
  unfold State.runAlloc
  cases pc : a.pc with
  | storePptr => exact h.update h.era rfl ⟨null, by simp⟩ h.null
  | loadEra =>
    refine h.update h.era rfl ⟨null, fun _ => ?_⟩ h.null
    exact getRefCntFromInfo_packRefInfo (by norm_num) (h.era _)
  | bumpEra =>
    exact h.update (Mem.bumpEra_lt h.era t) rfl ⟨null, fun _ => info (.inl pc)⟩ h.null
  | storeInfo =>
    exact h.update h.era rfl trivial (by simp [State.setCtl, Function.update_of_ne null.symm, h.null])

theorem sane_runCall {s : State Loc} {t : ℕ} {c : Call Loc} {weak : Bool} (h : Sane s)
    (hc : s.ctl t = .call c) : Sane (s.runCall t c weak) := by
  refine h.update (t := t) (k := (c.exec t s.mem weak).2.elim .idle .call)
    (Call.exec_era_lt h.era t c weak) rfl ?_ ?_
  · cases next : (c.exec t s.mem weak).2 with
    | none => trivial
    | some c' => exact Call.exec_sane next (h.era _) (h.call hc)
  · simp only [State.runCall]
    split
    · simp [Function.update_apply, h.null]
    · exact h.null

theorem Sane.step {s s' : State Loc} {a : Action Loc} (h : Sane s) (hs : s.step a = some s')
    (ok : Disciplined s a) : Sane s' := by
  cases a with
  | threadInit t =>
    obtain ⟨-, -, -, rfl⟩ := threadInit_eq_some hs
    exact h.update h.era rfl trivial h.null
  | link t r o =>
    obtain ⟨-, rfl⟩ := enter_eq_some hs
    exact h.update h.era rfl ⟨by norm_num, ok.1, by simp⟩ h.null
  | unlink t r o =>
    obtain ⟨-, rfl⟩ := enter_eq_some hs
    exact h.update h.era rfl ⟨by norm_num, ok.1, by simp⟩ h.null
  | malloc t r b =>
    obtain ⟨-, rfl⟩ := enter_eq_some hs
    exact h.update h.era rfl ⟨ok.1, by simp⟩ h.null
  | mallocGeneric t =>
    obtain ⟨-, rfl⟩ := enter_eq_some hs
    exact h.update h.era rfl trivial h.null
  | run t weak =>
    obtain ⟨-, rfl⟩ | ⟨c, hc, rfl⟩ | ⟨a, ha, rfl⟩ | ⟨i, -, -, rfl⟩ | ⟨i, -, -, rfl⟩ := run_cases hs
    · exact h.update (Mem.bumpEra_lt h.era t) rfl trivial h.null
    · exact sane_runCall h hc
    · exact sane_runAlloc h ha
    · exact h.update h.era rfl trivial h.null
    · exact h.update h.era rfl trivial h.null
  | reuse o w =>
    obtain ⟨-, rfl⟩ := reuse_eq_some hs
    exact ⟨h.era, h.ctl, h.null⟩

/-! ## Steps -/

/-- A step of the machine is a step of the counting with the same effect on lives, or invisible. -/
def Simulated (s s' : State Loc) : Prop :=
  ∃ e, (RefCounting.Step (abs s) e (abs s') ∨ e = none ∧ abs s' = abs s) ∧
    lives s'.trace = lives s.trace ++ e.toList

theorem Simulated.invisible {s s' : State Loc} (same : abs s' = abs s)
    (trace : lives s'.trace = lives s.trace) : Simulated s s' :=
  ⟨none, .inr ⟨rfl, same⟩, by simpa using trace⟩

theorem Simulated.silent {s s' : State Loc} (step : RefCounting.Step (abs s) none (abs s'))
    (trace : lives s'.trace = lives s.trace) : Simulated s s' :=
  ⟨none, .inl step, by simpa using trace⟩

theorem simulated_link {s : State Loc} {t : ℕ} {r : Loc} {o : Offset} (idle : s.ctl t = .idle)
    (empty : s.mem.loc r = 0) (unused : Unused s r) :
    Simulated s (s.setCtl t (.call ⟨.linkRef, r, o, .loadInfo, 0, 0⟩)) := by
  refine .silent ?_ rfl
  rw [abs_setCtl]
  exact .beginLink (by simp [abs, idle, Control.phase]) (by simp [abs, empty]) unused

theorem simulated_unlink {s : State Loc} {t : ℕ} {r : Loc} {o : Offset} (idle : s.ctl t = .idle)
    (null : o ≠ 0) (holds : s.mem.loc r = o) (unused : Unused s r) :
    Simulated s (s.setCtl t (.call ⟨.unlinkRef, r, o, .loadInfo, 0, 0⟩)) := by
  refine .silent ?_ rfl
  rw [abs_setCtl]
  exact .beginUnlink (by simp [abs, idle, Control.phase]) (by simp [abs, holds, null]) unused

theorem simulated_malloc {s : State Loc} {t : ℕ} {r : Loc} {b : Offset} (idle : s.ctl t = .idle)
    (empty : s.mem.loc r = 0) (unused : Unused s r) (dead : s.allocated b = false)
    (own : ∀ u, ¬ (s.ctl u).phase.Creates b) :
    Simulated s (s.setCtl t (.alloc ⟨r, b, .storePptr, 0, 0⟩)) := by
  refine .silent ?_ rfl
  rw [abs_setCtl]
  exact .beginCreate (by simp [abs, idle, Control.phase]) (by simp [abs, empty]) unused
    (by simp [abs, dead]) own

/-- The count in the word that a successful compare-exchange stores. -/
theorem abs_cas {s : State Loc} {t : ℕ} {c : Call Loc} (pc : c.pc = .cas)
    (live : s.allocated c.refed = true) (word : s.mem.refInfo c.refed = c.refInfo) :
    abs (s.runCall t c false) = { abs s with
      count := Function.update (abs s).count c.refed (getRefCntFromInfo (c.newRefInfo t))
      phase := Function.update (abs s).phase t ({ c with pc := .storeRef } : Call Loc).phase } := by
  have phase := phase_update s.ctl t (.call { c with pc := .storeRef })
  have counts : (fun o => if s.allocated o = true then getRefCntFromInfo
      (Function.update s.mem.refInfo c.refed (c.newRefInfo t) o) else 0) =
      Function.update (abs s).count c.refed (getRefCntFromInfo (c.newRefInfo t)) := by
    funext o
    by_cases ho : o = c.refed
    · subst ho
      simp [live]
    · simp [ho, abs]
  simp only [State.runCall, Call.exec, pc, word, and_self, if_true, abs, Mem.setRefInfo,
    Option.elim_some, reduceCtorEq, if_false, counts, phase]
  rfl

/-- The compare-exchange of a link that succeeds adds one reference. -/
theorem references_cas {s : State Loc} (inv : RefCounting.Inv (abs s)) {t : ℕ} {c : Call Loc}
    (hc : s.ctl t = .call c) (func : c.func = .linkRef) (pc : c.pc = .cas) (null : c.refed ≠ 0)
    (live : s.allocated c.refed = true) (word : s.mem.refInfo c.refed = c.refInfo) :
    references (s.runCall t c false) c.refed = references s c.refed + 1 := by
  have ctl : (s.runCall t c false).ctl =
      Function.update s.ctl t (.call { c with pc := .storeRef }) := by
    simp [State.runCall, Call.exec, pc, word]
  have loc : (s.runCall t c false).mem.loc = s.mem.loc := by
    simp [State.runCall, Call.exec, pc, word, Mem.setRefInfo]
  have finite : FiniteOn (LinkPending c.refed) s.ctl :=
    Set.Finite.subset (inv.finiteRaised c.refed) fun u hu =>
      (raised_phase_iff c.refed (s.ctl u)).2 hu
  have gain := count_update_gain (b := Control.call { c with pc := .storeRef }) finite (a := t)
    (by simp [LinkPending, hc, pc]) (by simp [LinkPending, func])
  have same := count_update_of_iff (p := UnlinkPending c.refed) (f := s.ctl) (a := t)
    (b := Control.call { c with pc := .storeRef }) (by simp [UnlinkPending, hc, func])
  have balance := balance_of_inv inv null live
  simp only [references, ctl, loc, gain, same]
  omega

/-- The compare-exchange of a link that succeeds. -/
theorem simulated_raise {s : State Loc} {t : ℕ} {c : Call Loc} (sane : Sane s)
    (inv : RefCounting.Inv (abs s)) (hc : s.ctl t = .call c) (func : c.func = .linkRef)
    (pc : c.pc = .cas) (live : s.allocated c.refed = true) (alive : 0 < references s c.refed)
    (bound : references s c.refed + 1 ≤ 65535) (word : s.mem.refInfo c.refed = c.refInfo) :
    Simulated s (s.runCall t c false) := by
  have cnt := references_eq inv ((sane.call hc).2.1) live
  have new : getRefCntFromInfo (c.newRefInfo t) = (abs s).count c.refed + 1 := by
    have small : c.refInfoCnt + 1 < 2 ^ 16 := by
      rw [Call.refInfoCnt, ← word, ← cnt]
      omega
    simp only [Call.newRefInfo, func, getRefCntFromInfo_packRefInfo small ((sane.call hc).1)]
    simp [abs, live, Call.refInfoCnt, word]
  refine .silent ?_ ?_
  · rw [abs_cas pc live word, new]
    simp only [Call.phase, func]
    exact .raise (by simp [abs, hc, Control.phase, Call.phase, func, pc]) live
      (by simp only [abs, live, if_true]; omega)
  · simp [State.runCall, Call.exec, pc, word, lives, Event.life, Call.redoLog, func]

/-- The compare-exchange of an unlink that succeeds. -/
theorem simulated_lower {s : State Loc} {t : ℕ} {c : Call Loc} (sane : Sane s)
    (inv : RefCounting.Inv (abs s)) (hc : s.ctl t = .call c) (func : c.func = .unlinkRef)
    (pc : c.pc = .cas) (word : s.mem.refInfo c.refed = c.refInfo) :
    Simulated s (s.runCall t c false) := by
  have phase : (abs s).phase t = .unlinking c.ref c.refed := by
    simp [abs, hc, Control.phase, Call.phase, func, pc]
  obtain ⟨live, pos⟩ := inv.live_of_unlinking phase
  have cnt : (abs s).count c.refed = c.refInfoCnt := by
    rw [Call.refInfoCnt, ← word]
    exact if_pos live
  have new : getRefCntFromInfo (c.newRefInfo t) = (abs s).count c.refed - 1 := by
    have small := getRefCntFromInfo_lt c.refInfo
    have down : (c.refInfoCnt + (2 ^ 64 - 1)) % 2 ^ 64 = c.refInfoCnt - 1 := by
      rw [Call.refInfoCnt] at cnt ⊢
      omega
    simp only [Call.newRefInfo, func, down]
    rw [getRefCntFromInfo_packRefInfo (by rw [Call.refInfoCnt]; omega) ((sane.call hc).1), cnt]
  have next : ({ c with pc := .storeRef } : Call Loc).phase = .unlinked c.ref c.refed c.last :=
    Call.phase_unlinked (c := { c with pc := .storeRef }) func rfl
  by_cases one : c.refInfoCnt = 1
  · refine ⟨some (.last t c.refed), .inl ?_, ?_⟩
    · have last : c.last = true := by simp [Call.last, func, one]
      rw [abs_cas pc live word, new, cnt, one, next, last]
      exact .lowerLast phase (cnt.trans one)
    · simp [State.runCall, Call.exec, pc, word, lives, Event.life, Call.redoLog, func, one]
  · refine .silent ?_ ?_
    · have last : c.last = false := by simp [Call.last, one]
      rw [abs_cas pc live word, new, next, last]
      exact .lower phase (cnt.trans_ne one)
    · simp [State.runCall, Call.exec, pc, word, lives, Event.life, Call.redoLog, func, one]

/-- A store into a location that is no null reference. -/
theorem loc_update (loc : Loc → Offset) (r : Loc) (o : Offset) :
    (fun x => if Function.update loc r o x = 0 then none else some (Function.update loc r o x)) =
      Function.update (fun x => if loc x = 0 then none else some (loc x)) r
        (if o = 0 then none else some o) := by
  funext x
  by_cases hx : x = r <;> simp [hx]

theorem abs_storeRef {s : State Loc} {t : ℕ} {c : Call Loc} {weak : Bool} (pc : c.pc = .storeRef) :
    abs (s.runCall t c weak) = { abs s with
      loc := Function.update (abs s).loc c.ref (if c.newRef = 0 then none else some c.newRef)
      phase := Function.update (abs s).phase t ({ c with pc := .bumpEra } : Call Loc).phase } := by
  have phase := phase_update s.ctl t (.call { c with pc := .bumpEra })
  have loc := loc_update s.mem.loc c.ref c.newRef
  simp only [State.runCall, Call.exec, pc, abs, Mem.setLoc, Option.elim_some, reduceCtorEq, if_false,
    loc, phase]
  rfl

/-- The store of the reference at the end of a link or unlink. -/
theorem simulated_storeRef {s : State Loc} {t : ℕ} {c : Call Loc} {weak : Bool} (sane : Sane s)
    (hc : s.ctl t = .call c) (pc : c.pc = .storeRef) : Simulated s (s.runCall t c weak) := by
  have trace : lives (s.runCall t c weak).trace = lives s.trace := by
    simp [State.runCall, Call.exec, pc]
  refine .silent ?_ trace
  rw [abs_storeRef pc]
  rcases c.func_cases with func | func
  · simp only [Call.newRef, func, (sane.call hc).2.1, if_false, Call.phase]
    exact .store (by simp [abs, hc, Control.phase, Call.phase, func, pc])
  · have phase : (abs s).phase t = .unlinked c.ref c.refed c.last := by
      simp [abs, hc, Control.phase, Call.phase, func, pc]
    have next : ({ c with pc := .bumpEra } : Call Loc).phase =
        if c.last then .dropping c.refed else .idle :=
      Call.phase_unlink_bumpEra (c := { c with pc := .bumpEra }) func rfl
    rw [next]
    simp only [Call.newRef, func, if_true]
    cases last : c.last with
    | true => exact .clearLast (last ▸ phase)
    | false => exact .clear (last ▸ phase)

theorem simulated_free {s : State Loc} {t : ℕ} {c : Call Loc} {weak : Bool}
    (inv : RefCounting.Inv (abs s)) (hc : s.ctl t = .call c) (func : c.func = .unlinkRef)
    (pc : c.pc = .free) : Simulated s (s.runCall t c weak) := by
  have phase : (abs s).phase t = .dropping c.refed := by
    simp [abs, hc, Control.phase, Call.phase, func, pc]
  have zero := (inv.drops t c.refed (by simp [phase, Phase.Drops])).2
  refine ⟨some (.drop t c.refed), .inl ?_, ?_⟩
  · have new : abs (s.runCall t c weak) = { abs s with
        live := Function.update (abs s).live c.refed False
        phase := Function.update (abs s).phase t .idle } := by
      have phases := phase_update s.ctl t .idle
      have counts : (fun o => if Function.update s.allocated c.refed false o = true then
          getRefCntFromInfo (Function.update s.mem.refInfo c.refed 0 o) else 0) = (abs s).count := by
        funext o
        by_cases ho : o = c.refed
        · simp [ho, zero]
        · simp [ho, abs]
      have alive : (fun o => Function.update s.allocated c.refed false o = true) =
          Function.update (abs s).live c.refed False := by
        funext o
        by_cases ho : o = c.refed <;> simp [ho, abs]
      simp only [State.runCall, Call.exec, pc, Mem.setRefInfo, Option.elim_none, if_true]
      rw [abs]
      simp only [counts, alive, phases]
      rfl
    rw [new]
    exact .drop phase
  · simp [State.runCall, Call.exec, pc, lives, Event.life]

/-- An access before the compare-exchange, or a compare-exchange that fails. -/
theorem simulated_retry {s : State Loc} {t : ℕ} {c : Call Loc} {weak : Bool}
    (hc : s.ctl t = .call c) (pc : c.pc.announced)
    (fails : c.pc = .cas → ¬ (weak = false ∧ s.mem.refInfo c.refed = c.refInfo)) :
    Simulated s (s.runCall t c weak) := by
  have quiet : ∃ c', (c.exec t s.mem weak).2 = some c' ∧ c'.pc.announced ∧
      c'.func = c.func ∧ c'.ref = c.ref ∧ c'.refed = c.refed ∧
      (c.exec t s.mem weak).1.refInfo = s.mem.refInfo ∧
      (c.exec t s.mem weak).1.loc = s.mem.loc := by
    unfold Call.exec
    cases hpc : c.pc <;> simp only [hpc, Pc.announced, Bool.false_eq_true] at pc fails
    case cas =>
      rw [if_neg (fails trivial)]
      exact ⟨_, rfl, rfl, rfl, rfl, rfl, rfl, rfl⟩
    case testEle =>
      dsimp only
      split
      · exact ⟨_, rfl, rfl, rfl, rfl, rfl, rfl, rfl⟩
      · refine ⟨_, rfl, ?_, rfl, rfl, rfl, rfl, rfl⟩
        rcases c.func_cases with func | func <;> simp [Call.afterEle, func, Pc.announced]
    all_goals
      refine ⟨_, rfl, ?_, rfl, rfl, rfl, rfl, rfl⟩
      rcases c.func_cases with func | func <;>
        simp [Call.afterInfo, Call.afterEra, Call.afterEle, func, Pc.announced]
  obtain ⟨c', next, pc', func, ref, refed, words, loc⟩ := quiet
  have notFree : c.pc ≠ .free := by rintro h; rw [h] at pc; cases pc
  refine .invisible (abs_eq (t := t) (k := .call c') ?_ ?_ ?_ words loc) ?_
  · simp [State.runCall, next]
  · rw [hc]
    simp only [Control.phase, Call.phase_announced pc, Call.phase_announced pc', func, ref, refed]
  · simp [State.runCall, notFree]
  · simp only [State.runCall, lives, List.filterMap_append]
    cases hpc : c.pc <;> simp_all

theorem simulated_bumpEra {s : State Loc} {t : ℕ} {c : Call Loc} {weak : Bool}
    (hc : s.ctl t = .call c) (pc : c.pc = .bumpEra) : Simulated s (s.runCall t c weak) := by
  refine .invisible (abs_eq (t := t) (k := if c.last then .call { c with pc := .free } else .idle)
    ?_ ?_ ?_ ?_ ?_) ?_
  · simp only [State.runCall, Call.exec, pc]
    split <;> rfl
  · rw [hc]
    rcases c.func_cases with func | func
    · have last : c.last = false := by simp [Call.last, func]
      simp [last, Control.phase, Call.phase, func, pc]
    · have phase : (Control.call c).phase = if c.last then .dropping c.refed else .idle :=
        Call.phase_unlink_bumpEra func pc
      rw [phase]
      cases c.last
      · rfl
      · simp [Control.phase, Call.phase, func]
  all_goals simp [State.runCall, Call.exec, pc, Mem.bumpEra, Mem.setEra]

/-- Every access of an activation. -/
theorem simulated_runCall {s : State Loc} {t : ℕ} {c : Call Loc} {weak : Bool} (sane : Sane s)
    (inv : RefCounting.Inv (abs s)) (hc : s.ctl t = .call c) (alive : KeepsAlive s)
    (bound : Bounded (s.runCall t c weak)) : Simulated s (s.runCall t c weak) := by
  cases hpc : c.pc with
  | loadInfo | loadEra | testEle | storeEle | storeRedo =>
    exact simulated_retry hc (by simp [hpc, Pc.announced]) (by simp [hpc])
  | cas =>
    by_cases wins : weak = false ∧ s.mem.refInfo c.refed = c.refInfo
    · obtain ⟨rfl, word⟩ := wins
      rcases c.func_cases with func | func
      · obtain ⟨live, pos⟩ := alive t c hc func (by simp [hpc, Pc.announced])
        refine simulated_raise sane inv hc func hpc live pos ?_ word
        have more := references_cas inv hc func hpc ((sane.call hc).2.1) live word
        have := bound c.refed (by simpa [State.runCall, hpc] using live)
        omega
      · exact simulated_lower sane inv hc func hpc word
    · exact simulated_retry hc (by simp [hpc, Pc.announced]) fun _ => wins
  | storeRef => exact simulated_storeRef sane hc hpc
  | bumpEra => exact simulated_bumpEra hc hpc
  | free => exact simulated_free inv hc (Call.func_of_last ((sane.call hc).2.2 hpc)) hpc

theorem simulated_runAlloc {s : State Loc} {t : ℕ} {a : Alloc Loc} (sane : Sane s)
    (ha : s.ctl t = .alloc a) :
    Simulated s (s.runAlloc t a) := by
  obtain ⟨null, info⟩ := sane.alloc ha
  have phase : (abs s).phase t = .creating a.ref a.block (a.pc ≠ .storePptr) := by
    simp [abs, ha, Control.phase]
  cases pc : a.pc with
  | storePptr =>
    refine .silent ?_ (by simp [State.runAlloc, pc, State.setCtl])
    have new : abs (s.runAlloc t a) = { abs s with
        loc := Function.update (abs s).loc a.ref (some a.block)
        phase := Function.update (abs s).phase t (.creating a.ref a.block true) } := by
      have phases := phase_update s.ctl t (.alloc { a with pc := .loadEra })
      have locs := loc_update s.mem.loc a.ref a.block
      rw [if_neg null] at locs
      simp only [State.runAlloc, pc, State.setCtl, Mem.setLoc, abs, locs, phases]
      rfl
    rw [new]
    exact .storeNew (by simpa [pc] using phase)
  | loadEra =>
    refine .invisible (abs_eq (t := t) (k := .alloc { a with
      info := packRefInfo t 1 (s.mem.era t t), curEra := s.mem.era t t, pc := .bumpEra })
      ?_ ?_ ?_ ?_ ?_) ?_ <;>
      simp [State.runAlloc, pc, State.setCtl, ha, Control.phase]
  | bumpEra =>
    refine .invisible (abs_eq (t := t) (k := .alloc { a with pc := .storeInfo }) ?_ ?_ ?_ ?_ ?_) ?_ <;>
      simp [State.runAlloc, pc, State.setCtl, ha, Control.phase, Mem.bumpEra, Mem.setEra]
  | storeInfo =>
    refine ⟨some (.create t a.block), .inl ?_, by simp [State.runAlloc, pc, State.setCtl, lives, Event.life]⟩
    have new : abs (s.runAlloc t a) = { abs s with
        count := Function.update (abs s).count a.block 1
        live := Function.update (abs s).live a.block True
        phase := Function.update (abs s).phase t .idle } := by
      have phases := phase_update s.ctl t .idle
      have counts : (fun o => if Function.update s.allocated a.block true o = true then
          getRefCntFromInfo (Function.update s.mem.refInfo a.block a.info o) else 0) =
          Function.update (abs s).count a.block 1 := by
        funext o
        by_cases ho : o = a.block
        · subst ho
          simp [info (.inr pc)]
        · simp [ho, abs]
      have alive : (fun o => Function.update s.allocated a.block true o = true) =
          Function.update (abs s).live a.block True := by
        funext o
        by_cases ho : o = a.block <;> simp [ho, abs]
      simp only [State.runAlloc, pc, State.setCtl, Mem.setRefInfo]
      rw [abs]
      simp only [counts, alive, phases]
      rfl
    rw [new]
    exact .create (by simpa [pc] using phase)

/-- The machine refines the counting of references: every permitted step is one of its steps or
invisible to it. -/
theorem abs_step {s s' : State Loc} {a : Action Loc} (sane : Sane s)
    (inv : RefCounting.Inv (abs s)) (alive : KeepsAlive s) (hs : s.step a = some s')
    (ok : Permitted s a s') : Simulated s s' := by
  obtain ⟨disciplined, -, bound⟩ := ok
  have hidden : ∀ (t : ℕ) (k : Control Loc) (m : Mem Loc), (s.ctl t).phase = .idle →
      k.phase = .idle → m.refInfo = s.mem.refInfo → m.loc = s.mem.loc →
      Simulated s ({ s with mem := m }.setCtl t k) := by
    intro t k m old new words locs
    exact .invisible (abs_eq rfl (new.trans old.symm) rfl words locs) rfl
  cases a with
  | threadInit t =>
    obtain ⟨absent, -, -, rfl⟩ := threadInit_eq_some hs
    exact hidden t .starting s.mem (by simp [absent, Control.phase]) rfl rfl rfl
  | link t r o =>
    obtain ⟨idle, rfl⟩ := enter_eq_some hs
    exact simulated_link idle disciplined.2.1 disciplined.2.2
  | unlink t r o =>
    obtain ⟨idle, rfl⟩ := enter_eq_some hs
    exact simulated_unlink idle disciplined.1 disciplined.2.1 disciplined.2.2
  | malloc t r b =>
    obtain ⟨idle, rfl⟩ := enter_eq_some hs
    obtain ⟨-, empty, unused, dead, own⟩ := disciplined
    exact simulated_malloc idle empty unused dead own
  | mallocGeneric t =>
    obtain ⟨idle, rfl⟩ := enter_eq_some hs
    exact hidden t (.clearing 0) s.mem (by simp [idle, Control.phase]) rfl rfl rfl
  | run t weak =>
    obtain ⟨hk, rfl⟩ | ⟨c, hc, rfl⟩ | ⟨a, ha, rfl⟩ | ⟨i, hk, -, rfl⟩ | ⟨i, hk, -, rfl⟩ := run_cases hs
    · exact hidden t .idle _ (by simp [hk, Control.phase]) rfl rfl rfl
    · exact simulated_runCall sane inv hc alive bound
    · exact simulated_runAlloc sane ha
    · exact hidden t _ _ (by simp [hk, Control.phase]) rfl rfl rfl
    · exact hidden t .idle s.mem (by simp [hk, Control.phase]) rfl rfl rfl
  | reuse o w =>
    obtain ⟨dead, rfl⟩ := reuse_eq_some hs
    refine .invisible ?_ rfl
    have counts : (fun x => if s.allocated x = true then
        getRefCntFromInfo (Function.update s.mem.refInfo o w x) else 0) = (abs s).count := by
      funext x
      by_cases hx : x = o
      · simp [hx, dead, abs]
      · simp [hx, abs]
    rw [abs]
    simp only [Mem.setRefInfo, counts]
    rfl

end

end CxlShm
