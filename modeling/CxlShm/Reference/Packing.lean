import CxlShm.Reference.Eras

/-!
# What the packed word says

The word `ref_info` has 16 bits for the client that modified it last, 16 bits for the count and 32
bits for the era of the modification; it is put together by additions, without a mask.  As long as
no object has more than 65535 references it says who modified it last, how many references there are
and in which era.  A link that finds 65535 references carries into the client id: the word then has
the count 0 and the id of the next client.
-/

namespace CxlShm

open Counting Reachability

variable {Loc : Type}

/-- The event is a modification of the word of `o`. -/
def Event.modifies (o : Offset) : Event Loc → Bool
  | .created _ o' _ => o' = o
  | .casOk _ e => e.refed = o
  | .freed _ _ => false

/-- The last modification of the word of `o`. -/
def lastModification (o : Offset) (trace : List (Event Loc)) : Option (Event Loc) :=
  (trace.filter (Event.modifies o)).getLast?

/-- The word says who modified it, and in which era. -/
def Event.Stamped (w : ℕ) : Event Loc → Prop
  | .created t _ curEra => getLcidFromInfo w = t ∧ getLenumFromInfo w = curEra
  | .casOk t e => getLcidFromInfo w = t ∧ getLenumFromInfo w = e.curEra
  | .freed _ _ => False

/-- The runs in which the word fits: permitted, so that no object has more than 65535 references, and
by clients whose ids are those of the era array. -/
def Fitting (s : State Loc) (a : Action Loc) (s' : State Loc) : Prop :=
  Permitted s a s' ∧ WithinRows a

theorem lastModification_append_of_modifies {o : Offset} {e : Event Loc} (h : e.modifies o = true)
    (trace : List (Event Loc)) : lastModification o (trace ++ [e]) = some e := by
  simp [lastModification, List.filter_append, h]

theorem lastModification_append_of_not {o : Offset} {e : Event Loc} (h : e.modifies o = false)
    (trace : List (Event Loc)) :
    lastModification o (trace ++ [e]) = lastModification o trace := by
  simp [lastModification, List.filter_append, h]

/-- What a run keeps of the words: ids fit, a new object gets the stamp of its creator, and the word of
an object has the stamp of its last modification. -/
structure Packed (s : State Loc) : Prop where
  ids : ∀ t, (s.ctl t).registered → IsThreadId t
  info : ∀ t a, s.ctl t = .alloc a → a.pc = .bumpEra ∨ a.pc = .storeInfo →
    a.curEra < 2 ^ 32 ∧ a.info = packRefInfo t 1 a.curEra
  last : ∀ o, s.allocated o → ∃ e, lastModification o s.trace = some e ∧ e.Stamped (s.mem.refInfo o)

theorem Packed.init : Packed (State.init : State Loc) where
  ids _ h := by cases h
  info _ _ h := by cases h
  last _ h := by cases h

section

variable {s s' : State Loc} {t : ℕ} {k : Control Loc}

/-- A client moves, and words and history stay. -/
theorem Packed.move (h : Packed s) (ctl : s'.ctl = Function.update s.ctl t k) (id : IsThreadId t)
    (info : ∀ a, k = .alloc a → a.pc = .bumpEra ∨ a.pc = .storeInfo →
      a.curEra < 2 ^ 32 ∧ a.info = packRefInfo t 1 a.curEra)
    (last : ∀ o, s'.allocated o → ∃ e, lastModification o s'.trace = some e ∧
      e.Stamped (s'.mem.refInfo o)) : Packed s' := by
  refine ⟨?_, ?_, last⟩
  · intro u registered
    by_cases same : u = t
    · rw [same]
      exact id
    · rw [ctl, Function.update_of_ne same] at registered
      exact h.ids u registered
  · intro u a here
    by_cases same : u = t
    · subst same
      rw [ctl, Function.update_self] at here
      exact info a here
    · rw [ctl, Function.update_of_ne same] at here
      exact h.info u a here

variable [DecidableEq Loc]

/-- An access of `link_reference` or `unlink_reference`. -/
theorem Packed.runCall (h : Packed s) (acc : Accounted s) {c : Call Loc} (hc : s.ctl t = .call c)
    (weak : Bool) (bound : Bounded (s.runCall t c weak)) : Packed (s.runCall t c weak) := by
  have id : IsThreadId t := h.ids t (by simp [hc, Control.registered])
  obtain ⟨m, c', same, -, -, -, -, -, -, words, -⟩ | ⟨pc, rfl, word, same⟩ | ⟨-, same⟩ |
    ⟨-, same⟩ | ⟨-, same⟩ := runCall_cases s t c weak
  · rw [same]
    refine h.move rfl id (fun a absurd => by cases absurd) fun o live => ?_
    change ∃ e : Event Loc, _ ∧ e.Stamped (m.refInfo o)
    rw [words]
    exact h.last o live
  · have stamp := stamp_newRefInfo acc hc pc word bound id
    rw [same]
    refine h.move rfl id (fun a absurd => by cases absurd) fun o live => ?_
    by_cases here : o = c.refed
    · subst here
      refine ⟨_, lastModification_append_of_modifies (by simp [Event.modifies, Call.redoLog]) _, ?_⟩
      simpa [Event.Stamped, State.setCtl, Mem.setRefInfo, Call.redoLog] using stamp
    · obtain ⟨e, last, stamped⟩ := h.last o live
      refine ⟨e, ?_, ?_⟩
      · rw [← last]
        apply lastModification_append_of_not
        exact decide_eq_false (Ne.symm here)
      · simpa [State.setCtl, Mem.setRefInfo, here] using stamped
  · rw [same]
    exact h.move rfl id (fun a absurd => by cases absurd) h.last
  · rw [same]
    refine h.move rfl id (fun a absurd => ?_) h.last
    split at absurd <;> cases absurd
  · rw [same]
    refine h.move rfl id (fun a absurd => by cases absurd) fun o live => ?_
    have other : o ≠ c.refed := by
      rintro rfl
      simp [State.setCtl] at live
    obtain ⟨e, last, stamped⟩ := h.last o (by simpa [State.setCtl, other] using live)
    refine ⟨e, ?_, ?_⟩
    · rw [← last]
      exact lastModification_append_of_not rfl _
    · simpa [State.setCtl, Mem.setRefInfo, other] using stamped

/-- An access of `cxl_ref_alloc`. -/
theorem Packed.runAlloc (h : Packed s) (acc : Accounted s) {a : Alloc Loc}
    (ha : s.ctl t = .alloc a) : Packed (s.runAlloc t a) := by
  have id : IsThreadId t := h.ids t (by simp [ha, Control.registered])
  unfold State.runAlloc
  cases pc : a.pc with
  | storePptr =>
    refine h.move rfl id ?_ h.last
    rintro _ ⟨⟩ (absurd | absurd) <;> cases absurd
  | loadEra =>
    refine h.move rfl id ?_ h.last
    rintro _ ⟨⟩ -
    exact ⟨acc.sane.era _, rfl⟩
  | bumpEra =>
    refine h.move rfl id ?_ h.last
    rintro _ ⟨⟩ -
    exact h.info t a ha (.inl pc)
  | storeInfo =>
    obtain ⟨small, info⟩ := h.info t a ha (.inr pc)
    have thread : t < 2 ^ 16 := by
      have most := id.2
      simp only [maxThread] at most
      omega
    refine h.move rfl id (fun a absurd => by cases absurd) fun o live => ?_
    by_cases here : o = a.block
    · subst here
      refine ⟨_, lastModification_append_of_modifies (by simp [Event.modifies]) _, ?_⟩
      simp only [Event.Stamped, State.setCtl, Mem.setRefInfo, Function.update_self, info]
      exact ⟨getLcidFromInfo_packRefInfo thread (by norm_num) small, getLenumFromInfo_packRefInfo small⟩
    · obtain ⟨e, last, stamped⟩ := h.last o (by simpa [State.setCtl, here] using live)
      refine ⟨e, ?_, ?_⟩
      · rw [← last]
        apply lastModification_append_of_not
        exact decide_eq_false (Ne.symm here)
      · simpa [State.setCtl, Mem.setRefInfo, here] using stamped

theorem Packed.step {a : Action Loc} (h : Packed s) (acc : Accounted s)
    (hs : s.step a = some s') (ok : Fitting s a s') : Packed s' := by
  obtain ⟨permitted, within⟩ := ok
  have registered : ∀ {t}, s.ctl t = .idle → IsThreadId t := fun idle =>
    h.ids _ (by simp [idle, Control.registered])
  cases a with
  | threadInit t =>
    obtain ⟨absent, pos, -, rfl⟩ := threadInit_eq_some hs
    exact h.move rfl ⟨pos, within t rfl⟩ (fun a absurd => by cases absurd) h.last
  | link t r o | unlink t r o | mallocGeneric t =>
    obtain ⟨idle, rfl⟩ := enter_eq_some hs
    exact h.move rfl (registered idle) (fun a absurd => by cases absurd) h.last
  | malloc t r b =>
    obtain ⟨idle, rfl⟩ := enter_eq_some hs
    refine h.move rfl (registered idle) ?_ h.last
    rintro _ ⟨⟩ (absurd | absurd) <;> cases absurd
  | run t weak =>
    obtain ⟨hk, rfl⟩ | ⟨c, hc, rfl⟩ | ⟨a, ha, rfl⟩ | ⟨i, hi, -, rfl⟩ | ⟨i, hi, -, rfl⟩ :=
      run_cases hs
    · have id : IsThreadId t := h.ids t (by simp [hk, Control.registered])
      exact h.move rfl id (fun a absurd => by cases absurd) h.last
    · exact h.runCall acc hc weak permitted.2.2
    · exact h.runAlloc acc ha
    · have id : IsThreadId t := h.ids t (by simp [hi, Control.registered])
      exact h.move rfl id (fun a absurd => by cases absurd) h.last
    · have id : IsThreadId t := h.ids t (by simp [hi, Control.registered])
      exact h.move rfl id (fun a absurd => by cases absurd) h.last
  | reuse o w =>
    obtain ⟨dead, rfl⟩ := reuse_eq_some hs
    refine ⟨h.ids, h.info, fun x live => ?_⟩
    have other : x ≠ o := by
      rintro rfl
      rw [dead] at live
      cases live
    obtain ⟨e, last, stamped⟩ := h.last x live
    refine ⟨e, last, ?_⟩
    simpa [Mem.setRefInfo, other] using stamped

theorem accounted_of_fitting (h : Reachable State.step Fitting State.init s) : Accounted s :=
  accounted_of_reachable (h.mono fun _ _ _ ok => ok.1)

theorem packed_of_fitting (h : Reachable State.step Fitting State.init s) : Packed s :=
  h.invariant_of (fun _ => accounted_of_fitting) .init
    fun _ _ _ acc _ before hs ok => before.step acc hs ok

/-- **The packed word is exact.**  In every run in which no object has more than 65535 references at a
time, the word of every object says who modified it last and in which era, and how many references
are outstanding; and who is about to call `cxl_free` for an object finds none. -/
theorem packed_word_exact (h : Reachable State.step Fitting State.init s) :
    (∀ o, s.allocated o →
      getRefCntFromInfo (s.mem.refInfo o) = references s o ∧
      ∃ e, lastModification o s.trace = some e ∧ e.Stamped (s.mem.refInfo o)) ∧
    ∀ t c, s.ctl t = .call c → c.pc = .free → s.allocated c.refed ∧ references s c.refed = 0 := by
  have acc := accounted_of_fitting h
  have packed := packed_of_fitting h
  have exact : ∀ o, s.allocated o → getRefCntFromInfo (s.mem.refInfo o) = references s o := by
    intro o live
    have some : o ≠ 0 := by
      rintro rfl
      rw [acc.sane.null] at live
      cases live
    exact (references_eq acc.inv some live).symm
  refine ⟨fun o live => ⟨exact o live, packed.last o live⟩, fun t c hc pc => ?_⟩
  have pending : FreePending c.refed (s.ctl t) :=
    ⟨c, hc, (acc.sane.call hc).2.2 pc, by simp [pc, Pc.announced], rfl⟩
  obtain ⟨live, zero⟩ := acc.inv.drops t c.refed ((drops_phase_iff acc.sane t c.refed).2 pending)
  refine ⟨live, ?_⟩
  rw [← exact c.refed live]
  simpa [abs, show s.allocated c.refed = true from live] using zero

/-- The first client creates the object `8`, the second links it. -/
theorem packed_word_exact_linked : ∃ s : State (Fin 2),
    Reachable State.step Fitting State.init s ∧ s.allocated 8 = true ∧
      getLcidFromInfo (s.mem.refInfo 8) = 2 ∧ getLenumFromInfo (s.mem.refInfo 8) = 1 ∧
      getRefCntFromInfo (s.mem.refInfo 8) = 2 ∧
      getRefCntFromInfo (s.mem.refInfo 8) = references s 8 := by
  let actions : List (Action (Fin 2)) :=
    [.run 1 false, .run 2 false, .malloc 1 0 8] ++ List.replicate 4 (.run 1 false) ++
      [.link 2 1 8] ++ List.replicate 8 (.run 2 false)
  have run : (checkedRun State.step (trial {1, 2}) (claimed 2) actions).any
      (fun s => s.allocated 8 ∧ getLcidFromInfo (s.mem.refInfo 8) = 2 ∧
        getLenumFromInfo (s.mem.refInfo 8) = 1 ∧ getRefCntFromInfo (s.mem.refInfo 8) = 2) =
      true := by
    decide +kernel
  have fitting : ∀ k < 2, Fitting (claimed k : State (Fin 2)) (.threadInit (k + 1))
      (claimed (k + 1)) := by
    intro k small
    refine ⟨permitted_claimed k, ?_⟩
    rintro _ ⟨⟩
    exact (Nat.succ_le_of_lt small).trans (by decide)
  obtain ⟨s, hs, last⟩ := exists_reachable_of_trial Fitting (by decide)
    (fun _ _ _ ok _ => ⟨ok.1, ok.2.1⟩) fitting run
  simp only [Bool.decide_and, Bool.and_eq_true, decide_eq_true_eq] at last
  exact ⟨s, hs, last.1, last.2.1, last.2.2.1, last.2.2.2, ((packed_word_exact hs).1 8 last.1).1⟩

/-! ## More references than the count can say -/

/-- The runs of disciplined callers, with any number of references. -/
def Unlimited (s : State Loc) (a : Action Loc) (s' : State Loc) : Prop :=
  Disciplined s a ∧ KeepsAlive s' ∧ WithinRows a

/-- A word that is read for an operation is that of an object. -/
def ReadsLive (s : State Loc) : Action Loc → Prop
  | .run t _ => ∀ c, s.ctl t = .call c → c.pc = .loadInfo → s.allocated c.refed
  | .threadInit _ | .link _ _ _ | .unlink _ _ _ | .malloc _ _ _ | .mallocGeneric _ | .reuse _ _ => True

/-- As `Unlimited`, on objects and without an era counter that wraps. -/
def Counted (s : State Loc) (a : Action Loc) (s' : State Loc) : Prop :=
  Unlimited s a s' ∧ NoWrap s a ∧ ReadsLive s a

/-- Client 1 is alone, where it is said to be, and location 0 holds the object `8`. -/
structure Alone (s : State ℕ) (k : Control ℕ) : Prop where
  reached : Reachable State.step Counted State.init s
  ctl : s.ctl = Function.update (fun _ => .absent) 1 k
  live : s.allocated 8 = true
  held : s.mem.loc 0 = 8
  finite : FiniteOn (· = 8) s.mem.loc

omit [DecidableEq Loc] in
theorem keepsAlive_of_alone {s : State ℕ} {k : Control ℕ}
    (ctl : s.ctl = Function.update (fun _ => .absent) 1 k) (live : s.allocated 8 = true)
    (held : s.mem.loc 0 = 8) (finite : FiniteOn (· = 8) s.mem.loc)
    (link : ∀ c, k = .call c → c.func = .linkRef ∧ c.refed = 8) : KeepsAlive s := by
  intro t c hc _ _
  have here : t = 1 := by
    by_contra other
    rw [ctl, Function.update_of_ne other] at hc
    cases hc
  rw [here, ctl, Function.update_self] at hc
  obtain ⟨func, refed⟩ := link c hc
  rw [refed]
  refine ⟨live, ?_⟩
  have none : count (UnlinkPending 8) s.ctl = 0 := by
    apply count_eq_zero
    rintro u ⟨c', hc', func', -⟩
    have here : u = 1 := by
      by_contra other
      rw [ctl, Function.update_of_ne other] at hc'
      cases hc'
    rw [here, ctl, Function.update_self, hc] at hc'
    obtain rfl := Control.call.inj hc'
    rw [func] at func'
    cases func'
  have some := count_pos finite held
  rw [references, none]
  omega

/-- An access of the link that client 1 is in. -/
theorem Alone.access {s : State ℕ} {c d : Call ℕ} {m : Mem ℕ} (h : Alone s (.call c))
    (link : c.func = .linkRef) (object : c.refed = 8) (busy : c.pc ≠ .free) (early : c.pc ≠ .bumpEra)
    (exec : c.exec 1 s.mem false = (m, some d)) (held : m.loc 0 = 8)
    (finite : FiniteOn (· = 8) m.loc) : ∃ s', Alone s' (.call d) ∧ s'.mem = m := by
  have here : s.ctl 1 = .call c := by rw [h.ctl, Function.update_self]
  have mem : (s.runCall 1 c false).mem = m := by simp [State.runCall, exec]
  have ctl : (s.runCall 1 c false).ctl = Function.update (fun _ => .absent) 1 (.call d) := by
    simp [State.runCall, exec, h.ctl]
  have live : (s.runCall 1 c false).allocated 8 = true := by
    simp [State.runCall, busy, h.live]
  obtain ⟨func, -, refed, -⟩ := Call.exec_keeps (congrArg Prod.snd exec)
  refine ⟨_, ⟨h.reached.next (step_run_call here) ⟨⟨trivial, ?_, ?_⟩, ?_, ?_⟩, ctl, live, ?_, ?_⟩, mem⟩
  · apply keepsAlive_of_alone ctl live
    · rw [mem, held]
    · rw [mem]
      exact finite
    · rintro _ ⟨⟩
      exact ⟨func.trans link, refed.trans object⟩
  · rintro _ ⟨⟩
  · simp [NoWrap, here, Control.bumps, early]
  · intro c' hc' _
    obtain rfl := Control.call.inj (here.symm.trans hc')
    rw [object]
    exact h.live
  · rw [mem, held]
  · rw [mem]
    exact finite

/-- The client begins a link. -/
theorem Alone.enter {s : State ℕ} {r : ℕ} (h : Alone s .idle) (free : s.mem.loc r = 0) :
    ∃ s', Alone s' (.call ⟨.linkRef, r, 8, .loadInfo, 0, 0⟩) ∧ s'.mem = s.mem := by
  have idle : s.ctl 1 = .idle := by rw [h.ctl, Function.update_self]
  have unused : Unused s r := by
    intro t claims
    by_cases here : t = 1
    · rw [here, idle] at claims
      exact claims
    · rw [h.ctl, Function.update_of_ne here] at claims
      exact claims
  have step : s.step (.link 1 r 8) =
      some (s.setCtl 1 (.call ⟨.linkRef, r, 8, .loadInfo, 0, 0⟩)) := by
    simp [State.step, State.enter, idle]
  have ctl : (s.setCtl 1 (.call ⟨.linkRef, r, 8, .loadInfo, 0, 0⟩)).ctl =
      Function.update (fun _ => .absent) 1 (.call ⟨.linkRef, r, 8, .loadInfo, 0, 0⟩) := by
    simp [State.setCtl, h.ctl]
  refine ⟨_, ⟨h.reached.next step ⟨⟨⟨by decide, free, unused⟩, ?_, ?_⟩, trivial, trivial⟩, ctl, h.live,
    h.held, h.finite⟩, rfl⟩
  · apply keepsAlive_of_alone ctl h.live h.held h.finite
    rintro _ ⟨⟩
    exact ⟨rfl, rfl⟩
  · rintro _ ⟨⟩

/-- The last access of the link. -/
theorem Alone.leave {s : State ℕ} {c : Call ℕ} {m : Mem ℕ} (h : Alone s (.call c))
    (busy : c.pc ≠ .free) (late : c.pc ≠ .loadInfo) (small : s.mem.era 1 1 + 1 < 2 ^ 32)
    (exec : c.exec 1 s.mem false = (m, none)) (held : m.loc 0 = 8)
    (finite : FiniteOn (· = 8) m.loc) : ∃ s', Alone s' .idle ∧ s'.mem = m := by
  have here : s.ctl 1 = .call c := by rw [h.ctl, Function.update_self]
  have mem : (s.runCall 1 c false).mem = m := by simp [State.runCall, exec]
  have ctl : (s.runCall 1 c false).ctl = Function.update (fun _ => .absent) 1 .idle := by
    simp [State.runCall, exec, h.ctl]
  have live : (s.runCall 1 c false).allocated 8 = true := by
    simp [State.runCall, busy, h.live]
  have held' : (s.runCall 1 c false).mem.loc 0 = 8 := by rw [mem, held]
  have finite' : FiniteOn (· = 8) (s.runCall 1 c false).mem.loc := by
    rw [mem]
    exact finite
  refine ⟨_, ⟨h.reached.next (step_run_call here) ⟨⟨trivial, ?_, ?_⟩, fun _ => small, ?_⟩, ctl, live,
    held', finite'⟩, mem⟩
  · exact keepsAlive_of_alone ctl live held' finite' fun c absurd => by cases absurd
  · rintro _ ⟨⟩
  · intro c' hc' pc
    obtain rfl := Control.call.inj (here.symm.trans hc')
    exact absurd pc late

/-- The first `n` locations hold the object, the client's era is `n + 1`, and there is no other era. -/
structure Holds (n : ℕ) (s : State ℕ) : Prop where
  alone : Alone s .idle
  loc : s.mem.loc = fun r => if r < n then 8 else 0
  word : s.mem.refInfo 8 = packRefInfo 1 n n
  era : s.mem.era 1 1 = n + 1
  zero : ∀ i, i ≠ eraIndex 1 1 → s.mem.eraArray i = 0

theorem finite_below (n : ℕ) : FiniteOn (· = 8) fun r : ℕ => if r < n then 8 else 0 := by
  apply Set.Finite.subset (Set.finite_lt_nat n)
  intro r holds
  by_contra beyond
  change ¬ r < n at beyond
  change (if r < n then 8 else 0) = 8 at holds
  rw [if_neg beyond] at holds
  cases holds

/-- One more link. -/
theorem Holds.link {n : ℕ} {s : State ℕ} (h : Holds n s) (fits : n < 2 ^ 16) :
    ∃ s', Holds (n + 1) s' := by
  have lcid : getLcidFromInfo (packRefInfo 1 n n) = 1 :=
    getLcidFromInfo_packRefInfo (by norm_num) fits (by omega)
  have lenum : getLenumFromInfo (packRefInfo 1 n n) = n :=
    getLenumFromInfo_packRefInfo (by omega)
  have cnt : getRefCntFromInfo (packRefInfo 1 n n) = n :=
    getRefCntFromInfo_packRefInfo fits (by omega)
  have held := h.alone.held
  have finite := h.alone.finite
  have free : s.mem.loc n = 0 := by simp [h.loc]
  let w := packRefInfo 1 n n
  let entry : RedoLog ℕ := ⟨.linkRef, n, n + 1, n, 8⟩
  let m₁ := s.mem.setRedo 1 ((n + 1) % redoCachelineCnt) (some entry)
  let m₂ := m₁.setRefInfo 8 (packRefInfo 1 (n + 1) (n + 1))
  let m₃ := m₂.setLoc n 8
  have loc₃ : m₃.loc = fun r => if r < n + 1 then 8 else 0 := by
    funext r
    change Function.update s.mem.loc n 8 r = _
    rw [h.loc]
    by_cases last : r = n
    · simp [last]
    · rw [Function.update_of_ne last]
      have same : r < n + 1 ↔ r < n := by omega
      simp only [same]
  obtain ⟨s₁, at_info, mem₁⟩ := h.alone.enter free
  obtain ⟨s₂, at_era, mem₂⟩ := at_info.access (m := s.mem)
    (d := ⟨.linkRef, n, 8, .loadEra, w, 0⟩) rfl rfl (by simp) (by simp)
    (by simp [Call.exec, Call.afterInfo, mem₁, h.word, w]) held finite
  obtain ⟨s₃, at_test, mem₃⟩ := at_era.access (m := s.mem)
    (d := ⟨.linkRef, n, 8, .testEle, w, n + 1⟩) rfl rfl (by simp) (by simp)
    (by simp [Call.exec, Call.afterEra, mem₂, h.era]) held finite
  obtain ⟨s₄, at_redo, mem₄⟩ := at_test.access (m := s.mem)
    (d := ⟨.linkRef, n, 8, .storeRedo, w, n + 1⟩) rfl rfl (by simp) (by simp)
    (by simp [Call.exec, Call.afterEle, Call.sawCid, Call.sawEra, mem₃, w, lcid, lenum, h.era])
    held finite
  obtain ⟨s₅, at_cas, mem₅⟩ := at_redo.access (m := m₁)
    (d := ⟨.linkRef, n, 8, .cas, w, n + 1⟩) rfl rfl (by simp) (by simp)
    (by simp [Call.exec, Call.redoLog, Call.refInfoCnt, mem₄, w, cnt, m₁, entry]) held finite
  obtain ⟨s₆, at_store, mem₆⟩ := at_cas.access (m := m₂)
    (d := ⟨.linkRef, n, 8, .storeRef, w, n + 1⟩) rfl rfl (by simp) (by simp)
    (by simp [Call.exec, Call.newRefInfo, Call.refInfoCnt, mem₅, w, cnt, m₁, m₂, Mem.setRedo,
      h.word]) held finite
  have held₃ : m₃.loc 0 = 8 := by simp [loc₃]
  have finite₃ : FiniteOn (· = 8) m₃.loc := by
    rw [loc₃]
    exact finite_below (n + 1)
  obtain ⟨s₇, at_bump, mem₇⟩ := at_store.access (m := m₃)
    (d := ⟨.linkRef, n, 8, .bumpEra, w, n + 1⟩) rfl rfl (by simp) (by simp)
    (by simp [Call.exec, Call.newRef, mem₆, m₃]) held₃ finite₃
  have small : s₇.mem.era 1 1 + 1 < 2 ^ 32 := by
    have same : s₇.mem.era 1 1 = s.mem.era 1 1 := by
      rw [mem₇]
      rfl
    rw [same, h.era]
    omega
  obtain ⟨s₈, at_idle, mem₈⟩ := at_bump.leave (m := m₃.bumpEra 1) (by simp) (by simp) small
    (by simp [Call.exec, Call.last, mem₇]) held₃ finite₃
  refine ⟨s₈, at_idle, ?_, ?_, ?_, ?_⟩
  · rw [mem₈]
    exact loc₃
  · rw [mem₈]
    simp [m₃, m₂, Mem.bumpEra, Mem.setEra, Mem.setLoc, Mem.setRefInfo]
  · rw [mem₈]
    have bumped : (m₃.bumpEra 1).era 1 1 = (m₃.era 1 1 + 1) % 2 ^ 32 := by
      simp [Mem.bumpEra, Mem.setEra, Mem.era]
    have same : m₃.era 1 1 = s.mem.era 1 1 := rfl
    rw [bumped, same, h.era]
    omega
  · intro i other
    rw [mem₈]
    exact (Function.update_of_ne other _ _).trans (h.zero i other)

/-- Nobody is in `link_reference` or `unlink_reference`. -/
def Quiet (s : State Loc) : Prop := ∀ t c, s.ctl t ≠ .call c

theorem counted_of_quiet {s s' : State ℕ} {a : Action ℕ} (before : Quiet s) (after : Quiet s')
    (disciplined : Disciplined s a) (rows : WithinRows a) (noWrap : NoWrap s a) : Counted s a s' := by
  refine ⟨⟨disciplined, fun t c hc => absurd hc (after t c), rows⟩, noWrap, ?_⟩
  cases a with
  | run t weak => exact fun c hc => absurd hc (before t c)
  | threadInit _ | link _ _ _ | unlink _ _ _ | malloc _ _ _ | mallocGeneric _ | reuse _ _ => trivial

/-- Client 1 registers and creates the object. -/
theorem holds_one : ∃ s, Holds 1 s := by
  let only : Control ℕ → ℕ → Control ℕ := fun k => Function.update (fun _ => .absent) 1 k
  let m : Mem ℕ := (State.init : State ℕ).mem.bumpEra 1
  let m' : Mem ℕ := m.setLoc 0 8
  let alloc : AllocPc → ℕ → ℕ → Control ℕ := fun pc info e => .alloc ⟨0, 8, pc, info, e⟩
  let s₁ : State ℕ := { (State.init : State ℕ) with ctl := only .starting }
  let s₂ : State ℕ := { s₁ with mem := m, ctl := only .idle }
  let s₃ : State ℕ := { s₂ with ctl := only (alloc .storePptr 0 0) }
  let s₄ : State ℕ := { s₃ with mem := m', ctl := only (alloc .loadEra 0 0) }
  let s₅ : State ℕ := { s₄ with ctl := only (alloc .bumpEra (packRefInfo 1 1 1) 1) }
  let s₆ : State ℕ :=
    { s₅ with mem := m'.bumpEra 1, ctl := only (alloc .storeInfo (packRefInfo 1 1 1) 1) }
  let s₇ : State ℕ :=
    { s₆ with
      mem := (m'.bumpEra 1).setRefInfo 8 (packRefInfo 1 1 1)
      allocated := Function.update s₆.allocated 8 true
      trace := s₆.trace ++ [Event.created 1 8 1]
      ctl := only .idle }
  have still : ∀ k : Control ℕ, (∀ c, k ≠ .call c) → ∀ t c, only k t ≠ .call c := by
    intro k free t c
    by_cases here : t = 1
    · simpa [only, here] using free c
    · simp [only, here]
  have q₁ : Quiet s₁ := still .starting (by rintro _ ⟨⟩)
  have q₂ : Quiet s₂ := still .idle (by rintro _ ⟨⟩)
  have q₃ : Quiet s₃ := still (alloc .storePptr 0 0) (by rintro _ ⟨⟩)
  have q₄ : Quiet s₄ := still (alloc .loadEra 0 0) (by rintro _ ⟨⟩)
  have q₅ : Quiet s₅ := still (alloc .bumpEra (packRefInfo 1 1 1) 1) (by rintro _ ⟨⟩)
  have q₆ : Quiet s₆ := still (alloc .storeInfo (packRefInfo 1 1 1) 1) (by rintro _ ⟨⟩)
  have q₇ : Quiet s₇ := still .idle (by rintro _ ⟨⟩)
  have quiet : ∀ t, (s₂.ctl t).phase = .idle := by
    intro t
    by_cases here : t = 1 <;> simp [s₂, only, here, Control.phase]
  have rows : WithinRows (.run 1 false : Action ℕ) := fun _ absurd => by cases absurd
  have r₁ : Reachable State.step Counted State.init s₁ := by
    refine Reachable.start.next (a := .threadInit 1) ?_ ?_
    · simp [State.step, State.init, s₁, only, State.setCtl]
    · exact counted_of_quiet (by rintro _ _ ⟨⟩) q₁ trivial (by rintro _ ⟨⟩; decide) trivial
  have r₂ : Reachable State.step Counted State.init s₂ := by
    refine r₁.next (a := .run 1 false) ?_ (counted_of_quiet q₁ q₂ trivial rows fun _ => by decide)
    simp [State.step, State.run, s₁, s₂, only, State.setCtl, m]
  have r₃ : Reachable State.step Counted State.init s₃ := by
    refine r₂.next (a := .malloc 1 0 8) ?_ ?_
    · simp [State.step, State.enter, s₁, s₂, s₃, only, State.setCtl, alloc]
    · refine counted_of_quiet q₂ q₃ ⟨by decide, rfl, ?_, rfl, ?_⟩ (fun _ absurd => by cases absurd)
        trivial
      · intro t claims
        rw [quiet t] at claims
        exact claims
      · intro t creates
        rw [quiet t] at creates
        exact creates
  have r₄ : Reachable State.step Counted State.init s₄ := by
    refine r₃.next (a := .run 1 false) ?_ (counted_of_quiet q₃ q₄ trivial rows fun _ => by decide)
    simp [State.step, State.run, State.runAlloc, s₃, s₄, only, State.setCtl, alloc, m', s₂]
  have r₅ : Reachable State.step Counted State.init s₅ := by
    refine r₄.next (a := .run 1 false) ?_ (counted_of_quiet q₄ q₅ trivial rows fun _ => by decide)
    have era : m'.era 1 1 = 1 := by decide
    simp [State.step, State.run, State.runAlloc, s₄, s₅, only, State.setCtl, alloc, era]
  have r₆ : Reachable State.step Counted State.init s₆ := by
    refine r₅.next (a := .run 1 false) ?_ (counted_of_quiet q₅ q₆ trivial rows fun _ => by decide)
    simp [State.step, State.run, State.runAlloc, s₄, s₅, s₆, only, State.setCtl, alloc]
  have r₇ : Reachable State.step Counted State.init s₇ := by
    refine r₆.next (a := .run 1 false) ?_ (counted_of_quiet q₆ q₇ trivial rows fun _ => by decide)
    simp [State.step, State.run, State.runAlloc, s₆, s₇, only, State.setCtl, alloc]
  have loc : s₇.mem.loc = fun r => if r < 1 then 8 else 0 := by
    funext r
    change Function.update (fun _ => 0) 0 8 r = _
    by_cases here : r = 0
    · simp [here]
    · rw [Function.update_of_ne here, if_neg (by omega)]
  refine ⟨s₇, ⟨r₇, rfl, by simp [s₇], by simp [loc], ?_⟩, loc, by simp [s₇, Mem.setRefInfo],
    by decide, fun i other => ?_⟩
  · rw [loc]
    exact finite_below 1
  · exact (Function.update_of_ne other _ _).trans (Function.update_of_ne other _ _)

theorem exists_holds {n : ℕ} (one : 1 ≤ n) (most : n ≤ 2 ^ 16) : ∃ s, Holds n s := by
  induction n, one using Nat.le_induction with
  | base => exact holds_one
  | succ n one ih =>
    obtain ⟨s, holds⟩ := ih (by omega)
    exact holds.link (by omega)

/-- The 65536th reference: 65536 locations hold the object, and its word says 0 references and the next
client. -/
theorem count_carries : ∃ s : State ℕ, Reachable State.step Unlimited State.init s ∧
    s.allocated 8 = true ∧ (∀ r < 65536, s.mem.loc r = 8) ∧
    getRefCntFromInfo (s.mem.refInfo 8) = 0 ∧ getLcidFromInfo (s.mem.refInfo 8) = 2 ∧
    ¬ (getRefCntFromInfo (s.mem.refInfo 8) = references s 8) := by
  obtain ⟨s, alone, loc, word, -⟩ := exists_holds (n := 65536) (by norm_num) (by norm_num)
  have zero : getRefCntFromInfo (s.mem.refInfo 8) = 0 := by
    rw [word]
    decide
  have held := alone.held
  refine ⟨s, alone.reached.mono fun _ _ _ ok => ok.1, alone.live,
    fun r below => by simp [loc, below], zero, ?_, ?_⟩
  · rw [word]
    decide
  · rw [zero]
    have idle : ∀ u c, s.ctl u ≠ .call c := by
      intro u c hc
      rw [alone.ctl] at hc
      by_cases here : u = 1
      · rw [here, Function.update_self] at hc
        cases hc
      · rw [Function.update_of_ne here] at hc
        cases hc
    have none : count (UnlinkPending 8) s.ctl = 0 := by
      apply count_eq_zero
      rintro u ⟨c, hc, -⟩
      exact idle u c hc
    have some := count_pos alone.finite held
    rw [references, none]
    omega

end

end CxlShm
