import CxlShm.Reference.Accounting

/-!
# What the eras say

Each client counts its operations in its own era counter, stamps the words it changes with its id
and era, and records the eras it sees of other clients in its row of the era array.  The invariant
of this file ties them together: a stamp in a word, in a register or in the era array was issued,
which means that the operation it names took place (`EraInv`).  It needs thread ids within the rows
of the era array, counters that do not wrap, and counts that fit their field.
-/

namespace CxlShm

open Reachability

variable {Loc : Type}

/-- An id that has a row and a column in the era array. -/
def IsThreadId (t : ℕ) : Prop := 1 ≤ t ∧ t ≤ maxThread

/-- The client is past a compare-exchange that succeeded and has yet to advance its era. -/
def Control.committed : Control Loc → Prop
  | .call c => c.pc = .storeRef ∨ c.pc = .bumpEra
  | .absent | .starting | .idle | .alloc _ | .clearing _ => False

/-- Client `c` has done the operation of its era `e`. -/
def Issued (s : State Loc) (c e : ℕ) : Prop :=
  IsThreadId c ∧ (e < s.mem.era c c ∨ e = s.mem.era c c ∧ (s.ctl c).committed)

/-- `cur_era` has been read. -/
def Call.knowsEra (c : Call Loc) : Bool :=
  match c.func, c.pc with
  | _, .loadInfo | _, .loadEra | _, .free => false
  | .unlinkRef, .testEle | .unlinkRef, .storeEle => false
  | .linkRef, .testEle | .linkRef, .storeEle => true
  | _, .storeRedo | _, .cas | _, .storeRef | _, .bumpEra => true

/-- The era of the word read has been recorded. -/
def Call.recorded (c : Call Loc) : Bool :=
  match c.func, c.pc with
  | _, .loadInfo | _, .testEle | _, .storeEle | .linkRef, .loadEra => false
  | .unlinkRef, .loadEra => true
  | _, .storeRedo | _, .cas | _, .storeRef | _, .bumpEra | _, .free => true

/-- The registers of an activation against the memory. -/
structure Call.EraOk (s : State Loc) (t : ℕ) (c : Call Loc) : Prop where
  saw : c.pc ≠ .loadInfo → Issued s c.sawCid c.sawEra
  cur : c.knowsEra → c.curEra = s.mem.era t t
  test : c.pc = .storeEle → s.mem.era t c.sawCid < c.sawEra
  seen : c.recorded → c.sawEra ≤ s.mem.era t c.sawCid
  logged : c.pc = .cas ∨ c.pc = .storeRef ∨ c.pc = .bumpEra →
    s.mem.redo t (c.curEra % redoCachelineCnt) = some c.redoLog
  done : c.pc = .storeRef ∨ c.pc = .bumpEra → Event.casOk t c.redoLog ∈ s.trace

/-- The word a `cxl_malloc` is about to store. -/
structure Alloc.EraOk (s : State Loc) (t : ℕ) (a : Alloc Loc) : Prop where
  cur : a.pc = .bumpEra → a.info = packRefInfo t 1 (s.mem.era t t)
  past : a.pc = .storeInfo → ∃ e < s.mem.era t t, a.info = packRefInfo t 1 e

/-- An entry of a redo log is of a completed operation, or of the one under way. -/
structure RedoOk (s : State Loc) (t i : ℕ) (e : RedoLog Loc) : Prop where
  id : IsThreadId t
  slot : i = e.curEra % redoCachelineCnt
  pos : 0 < e.curEra
  op : e.curEra < s.mem.era t t ∧ Event.casOk t e ∈ s.trace ∨
    e.curEra = s.mem.era t t ∧ ∃ c, s.ctl t = .call c ∧ c.pc ≠ .free ∧ e.funcId = c.func ∧
      e.ref = c.ref ∧ e.refed = c.refed ∧
      (c.pc = .storeRef ∨ c.pc = .bumpEra → Event.casOk t e ∈ s.trace)

/-- The invariant of the eras. -/
structure EraInv (s : State Loc) : Prop where
  ids : ∀ t, (s.ctl t).registered → IsThreadId t
  started : ∀ t, (s.ctl t).registered → s.ctl t ≠ .starting → 0 < s.mem.era t t
  below : ∀ i < 0, s.mem.eraArray i = 0
  stamp : ∀ o, s.allocated o →
    Issued s (getLcidFromInfo (s.mem.refInfo o)) (getLenumFromInfo (s.mem.refInfo o))
  row : ∀ j c, IsThreadId j → IsThreadId c → j ≠ c → s.mem.era j c = 0 ∨ Issued s c (s.mem.era j c)
  call : ∀ t c, s.ctl t = .call c → c.EraOk s t
  alloc : ∀ t a, s.ctl t = .alloc a → a.EraOk s t
  redo : ∀ t i e, s.mem.redo t i = some e → RedoOk s t i e

/-! ## The era array -/

theorem eraIndex_inj {x y x' y' : ℕ} (hy : IsThreadId y) (hy' : IsThreadId y')
    (h : eraIndex x y = eraIndex x' y') : x = x' ∧ y = y' := by
  simp only [IsThreadId, eraIndex, maxThread] at *
  omega

theorem Mem.era_setEra (m : Mem Loc) {x y : ℕ} (v : ℕ) {x' y' : ℕ} (hy : IsThreadId y)
    (hy' : IsThreadId y') :
    (m.setEra x y v).era x' y' = if x' = x ∧ y' = y then v else m.era x' y' := by
  by_cases same : x' = x ∧ y' = y
  · obtain ⟨rfl, rfl⟩ := same
    simp [Mem.era, Mem.setEra]
  · have other : eraIndex x' y' ≠ eraIndex x y := fun h => same (eraIndex_inj hy' hy h)
    simp [Mem.era, Mem.setEra, same, other]

theorem Mem.setEra_below (m : Mem Loc) {x y : ℕ} (v : ℕ) (hx : IsThreadId x) (hy : IsThreadId y)
    {i : ℤ} (hi : i < 0) : (m.setEra x y v).eraArray i = m.eraArray i := by
  refine Function.update_of_ne ?_ _ _
  simp only [IsThreadId, eraIndex, maxThread] at *
  omega

/-- Issued stamps stay issued: the counter of the client grows, or stays and the client does not go
back before its compare-exchange. -/
theorem Issued.step {s s' : State Loc} {t : ℕ} {k : Control Loc}
    (ctl : s'.ctl = Function.update s.ctl t k)
    (rows : ∀ u c, u ≠ t → IsThreadId c → s'.mem.era u c = s.mem.era u c)
    (own : s'.mem.era t t = s.mem.era t t ∧ ((s.ctl t).committed → k.committed) ∨
      s.mem.era t t < s'.mem.era t t) {c e : ℕ} (h : Issued s c e) : Issued s' c e := by
  obtain ⟨id, issued⟩ := h
  refine ⟨id, ?_⟩
  by_cases hc : c = t
  · subst hc
    rcases own with ⟨same, keeps⟩ | more
    · rw [same, ctl, Function.update_self]
      exact issued.imp_right fun h => ⟨h.1, keeps h.2⟩
    · left
      rcases issued with h | h
      · exact h.trans more
      · exact h.1 ▸ more
  · rw [rows c c hc id, ctl, Function.update_of_ne hc]
    exact issued

/-- The invariant after a step of client `t`, from what the step does to the client's own part. -/
theorem EraInv.update {s s' : State Loc} (h : EraInv s) {t : ℕ} {k : Control Loc}
    (ctl : s'.ctl = Function.update s.ctl t k)
    (rows : ∀ u c, u ≠ t → IsThreadId c → s'.mem.era u c = s.mem.era u c)
    (logs : ∀ u, u ≠ t → s'.mem.redo u = s.mem.redo u)
    (trace : ∀ e ∈ s.trace, e ∈ s'.trace)
    (own : s'.mem.era t t = s.mem.era t t ∧ ((s.ctl t).committed → k.committed) ∨
      s.mem.era t t < s'.mem.era t t)
    (id : IsThreadId t)
    (started : k ≠ .starting → 0 < s'.mem.era t t)
    (below : ∀ i < 0, s'.mem.eraArray i = s.mem.eraArray i)
    (stamp : ∀ o, s'.allocated o → s.allocated o ∧ s'.mem.refInfo o = s.mem.refInfo o ∨
      Issued s' (getLcidFromInfo (s'.mem.refInfo o)) (getLenumFromInfo (s'.mem.refInfo o)))
    (row : ∀ c, IsThreadId c → t ≠ c → s'.mem.era t c = s.mem.era t c ∨ Issued s' c (s'.mem.era t c))
    (call : ∀ c, k = .call c → c.EraOk s' t)
    (alloc : ∀ a, k = .alloc a → a.EraOk s' t)
    (log : ∀ i e, s'.mem.redo t i = some e → RedoOk s' t i e) : EraInv s' := by
  have issued : ∀ {c e}, Issued s c e → Issued s' c e := fun h => h.step ctl rows own
  have here : s'.ctl t = k := by rw [ctl, Function.update_self]
  have others : ∀ u, u ≠ t → s'.ctl u = s.ctl u := fun u hu => by
    rw [ctl, Function.update_of_ne hu]
  refine ⟨?_, ?_, ?_, ?_, ?_, ?_, ?_, ?_⟩
  · intro u hu
    by_cases hut : u = t
    · exact hut ▸ id
    · exact h.ids u (others u hut ▸ hu)
  · intro u hu notStarting
    by_cases hut : u = t
    · subst hut
      exact started (here ▸ notStarting)
    · rw [others u hut] at hu notStarting
      rw [rows u u hut (h.ids u hu)]
      exact h.started u hu notStarting
  · intro i hi
    rw [below i hi]
    exact h.below i hi
  · intro o live
    rcases stamp o live with ⟨before, same⟩ | new
    · rw [same]
      exact issued (h.stamp o before)
    · exact new
  · intro j c hj hc hjc
    have old := (h.row j c hj hc hjc).imp_right issued
    by_cases hjt : j = t
    · subst hjt
      rcases row c hc hjc with same | new
      · rwa [same]
      · exact .inr new
    · rwa [rows j c hjt hc]
  · intro u c hc
    by_cases hut : u = t
    · subst hut
      exact call c (here ▸ hc)
    · rw [others u hut] at hc
      have ok := h.call u c hc
      have hu : IsThreadId u := h.ids u (by simp [hc, Control.registered])
      have rowOf : ∀ {P : Prop}, (P → c.pc ≠ .loadInfo) → P →
          s'.mem.era u c.sawCid = s.mem.era u c.sawCid := fun late p =>
        rows u _ hut (ok.saw (late p)).1
      refine ⟨fun late => issued (ok.saw late), fun knows => ?_, fun test => ?_, fun recorded => ?_,
        fun pc => ?_, fun pc => trace _ (ok.done pc)⟩
      · rw [rows u u hut hu]
        exact ok.cur knows
      · rw [rowOf (P := c.pc = .storeEle) (by rintro h; simp [h]) test]
        exact ok.test test
      · rw [rowOf (P := c.recorded) (by
          intro h late
          revert h
          cases func : c.func <;> simp [Call.recorded, func, late]) recorded]
        exact ok.seen recorded
      · rw [logs u hut]
        exact ok.logged pc
  · intro u a ha
    by_cases hut : u = t
    · subst hut
      exact alloc a (here ▸ ha)
    · rw [others u hut] at ha
      have ok := h.alloc u a ha
      have hu : IsThreadId u := h.ids u (by simp [ha, Control.registered])
      refine ⟨?_, ?_⟩ <;> rw [rows u u hut hu]
      · exact ok.cur
      · exact ok.past
  · intro u i e he
    by_cases hut : u = t
    · subst hut
      exact log i e he
    · rw [logs u hut] at he
      have ok := h.redo u i e he
      refine ⟨ok.id, ok.slot, ok.pos, ?_⟩
      rw [rows u u hut ok.id, others u hut]
      rcases ok.op with ⟨old, done⟩ | ⟨now, c, hc, notFree, func, ref, refed, done⟩
      · exact .inl ⟨old, trace _ done⟩
      · exact .inr ⟨now, c, hc, notFree, func, ref, refed, fun pc => trace _ (done pc)⟩

/-- A log stays good over a step that leaves the era and the log of the client alone. -/
theorem RedoOk.keep {s s' : State Loc} {t i : ℕ} {e : RedoLog Loc} (ok : RedoOk s t i e)
    {k : Control Loc} (ctl : s'.ctl = Function.update s.ctl t k)
    (era : s'.mem.era t t = s.mem.era t t) (trace : ∀ e ∈ s.trace, e ∈ s'.trace)
    (next : ∀ c, s.ctl t = .call c → c.pc ≠ .free → e.curEra = s.mem.era t t →
      ∃ c', k = .call c' ∧ c'.pc ≠ .free ∧ c'.func = c.func ∧ c'.ref = c.ref ∧
        c'.refed = c.refed ∧ (c'.pc = .storeRef ∨ c'.pc = .bumpEra →
          (c.pc = .storeRef ∨ c.pc = .bumpEra) ∨ Event.casOk t e ∈ s'.trace)) :
    RedoOk s' t i e := by
  refine ⟨ok.id, ok.slot, ok.pos, ?_⟩
  rw [era]
  rcases ok.op with ⟨old, done⟩ | ⟨now, c, hc, notFree, func, ref, refed, done⟩
  · exact .inl ⟨old, trace _ done⟩
  · obtain ⟨c', hk, notFree', func', ref', refed', done'⟩ := next c hc notFree now
    refine .inr ⟨now, c', by rw [ctl, Function.update_self, hk], notFree', func.trans func'.symm,
      ref.trans ref'.symm, refed.trans refed'.symm, fun pc => ?_⟩
    rcases done' pc with before | here
    · exact trace _ (done before)
    · exact here

/-- A step of client `t` that does not touch the era array, the logs, the words or the history. -/
theorem EraInv.move {s s' : State Loc} (h : EraInv s) {t : ℕ} {k : Control Loc}
    (ctl : s'.ctl = Function.update s.ctl t k) (eras : s'.mem.eraArray = s.mem.eraArray)
    (logs : s'.mem.redo = s.mem.redo) (words : s'.mem.refInfo = s.mem.refInfo)
    (allocated : s'.allocated = s.allocated) (trace : s'.trace = s.trace) (id : IsThreadId t)
    (started : k ≠ .starting → 0 < s.mem.era t t)
    (committed : (s.ctl t).committed → k.committed)
    (call : ∀ c, k = .call c → c.EraOk s t) (alloc : ∀ a, k = .alloc a → a.EraOk s t)
    (next : ∀ c, s.ctl t = .call c → c.pc ≠ .free →
      ∃ c', k = .call c' ∧ c'.pc ≠ .free ∧ c'.func = c.func ∧ c'.ref = c.ref ∧
        c'.refed = c.refed ∧ (c'.pc = .storeRef ∨ c'.pc = .bumpEra →
          c.pc = .storeRef ∨ c.pc = .bumpEra)) : EraInv s' := by
  have era : ∀ u c, s'.mem.era u c = s.mem.era u c := fun u c => by rw [Mem.era, eras]; rfl
  refine h.update ctl (fun u c _ _ => era u c) (fun u _ => by rw [logs]) (fun e he => trace ▸ he)
    (.inl ⟨era t t, committed⟩) id (fun hk => era t t ▸ started hk) (fun i _ => by rw [eras])
    (fun o live => .inl ⟨allocated ▸ live, by rw [words]⟩) (fun c _ _ => .inl (era t c)) ?_ ?_ ?_
  · intro c hc
    obtain ⟨saw, cur, test, seen, logged, done⟩ := call c hc
    have issued : ∀ {u e}, Issued s u e → Issued s' u e := fun h =>
      h.step ctl (fun u c _ _ => era u c) (.inl ⟨era t t, committed⟩)
    refine ⟨fun late => issued (saw late), ?_, ?_, ?_, ?_, ?_⟩
    · simpa only [era] using cur
    · simpa only [era] using test
    · simpa only [era] using seen
    · simpa only [logs] using logged
    · simpa only [trace] using done
  · intro a ha
    obtain ⟨cur, past⟩ := alloc a ha
    refine ⟨?_, ?_⟩
    · simpa only [era] using cur
    · simpa only [era] using past
  intro i e he
  refine (h.redo t i e (logs ▸ he)).keep ctl (era t t) (fun e he => trace ▸ he) ?_
  intro c hc notFree _
  obtain ⟨c', hk, notFree', func, ref, refed, done⟩ := next c hc notFree
  exact ⟨c', hk, notFree', func, ref, refed, fun pc => .inl (done pc)⟩

/-- A step of client `t` that advances its era. -/
theorem EraInv.bump {s : State Loc} (h : EraInv s) {t : ℕ} {k : Control Loc}
    (wraps : s.mem.era t t < (s.mem.bumpEra t).era t t) (id : IsThreadId t)
    (past : ∀ c, s.ctl t = .call c → c.pc = .bumpEra)
    (call : ∀ c, k = .call c → c.EraOk ({ s with mem := s.mem.bumpEra t }.setCtl t k) t)
    (alloc : ∀ a, k = .alloc a → a.EraOk ({ s with mem := s.mem.bumpEra t }.setCtl t k) t) :
    EraInv ({ s with mem := s.mem.bumpEra t }.setCtl t k) := by
  have era : ∀ u c, IsThreadId c → (s.mem.bumpEra t).era u c =
      if u = t ∧ c = t then (s.mem.era t t + 1) % 2 ^ 32 else s.mem.era u c :=
    fun u c hc => Mem.era_setEra s.mem _ id hc
  refine h.update rfl ?_ (fun _ _ => rfl) (fun _ he => he) (.inr wraps) id ?_ ?_
    (fun o live => .inl ⟨live, rfl⟩) ?_ call alloc ?_
  · intro u c hu hc
    simp only [State.setCtl, era u c hc, hu, false_and, if_false]
  · intro _
    exact lt_of_le_of_lt (Nat.zero_le _) wraps
  · intro i hi
    exact s.mem.setEra_below _ id id hi
  · intro c hc htc
    left
    simp only [State.setCtl, era t c hc, Ne.symm htc, and_false, if_false]
  · intro i e he
    have ok := h.redo t i e he
    refine ⟨id, ok.slot, ok.pos, .inl ?_⟩
    rcases ok.op with ⟨old, done⟩ | ⟨now, c, hc, -, -, -, -, done⟩
    · exact ⟨old.trans wraps, done⟩
    · exact ⟨now ▸ wraps, done (.inr (past c hc))⟩

/-- A step of client `t` that stores a stamped word. -/
theorem EraInv.stampWord {s s' : State Loc} (h : EraInv s) {t : ℕ} {k : Control Loc}
    (ctl : s'.ctl = Function.update s.ctl t k) (eras : s'.mem.eraArray = s.mem.eraArray)
    (logs : s'.mem.redo = s.mem.redo) (trace : ∀ e ∈ s.trace, e ∈ s'.trace) (id : IsThreadId t)
    (started : 0 < s.mem.era t t) (committed : (s.ctl t).committed → k.committed)
    (stamp : ∀ o, s'.allocated o → s.allocated o ∧ s'.mem.refInfo o = s.mem.refInfo o ∨
      Issued s' (getLcidFromInfo (s'.mem.refInfo o)) (getLenumFromInfo (s'.mem.refInfo o)))
    (call : ∀ c, k = .call c → c.EraOk s' t) (alloc : ∀ a, k = .alloc a → a.EraOk s' t)
    (next : ∀ i e c, s.mem.redo t i = some e → s.ctl t = .call c → c.pc ≠ .free →
      e.curEra = s.mem.era t t →
      ∃ c', k = .call c' ∧ c'.pc ≠ .free ∧ c'.func = c.func ∧ c'.ref = c.ref ∧
        c'.refed = c.refed ∧ (c'.pc = .storeRef ∨ c'.pc = .bumpEra →
          (c.pc = .storeRef ∨ c.pc = .bumpEra) ∨ Event.casOk t e ∈ s'.trace)) : EraInv s' := by
  have era : ∀ u c, s'.mem.era u c = s.mem.era u c := fun u c => by rw [Mem.era, eras]; rfl
  refine h.update ctl (fun u c _ _ => era u c) (fun u _ => by rw [logs]) trace
    (.inl ⟨era t t, committed⟩) id (fun _ => era t t ▸ started) (fun i _ => by rw [eras])
    stamp (fun c _ _ => .inl (era t c)) call alloc ?_
  intro i e he
  exact (h.redo t i e (logs ▸ he)).keep ctl (era t t) trace (next i e · (logs ▸ he))

/-! ## Each step -/

/-- The object of an announced operation is alive. -/
theorem allocated_of_announced {s : State Loc} (acc : Accounted s) {t : ℕ} {c : Call Loc}
    (hc : s.ctl t = .call c) (pc : c.pc.announced) : s.allocated c.refed := by
  rcases c.func_cases with func | func
  · exact (acc.alive t c hc func pc).1
  · refine (acc.inv.live_of_unlinking (t := t) (r := c.ref) ?_).1
    change (s.ctl t).phase = _
    rw [hc]
    simp only [Control.phase, Call.phase_announced pc, func]

/-- The object of an announced operation has a reference. -/
theorem count_of_announced {s : State Loc} (acc : Accounted s) {t : ℕ} {c : Call Loc}
    (hc : s.ctl t = .call c) (pc : c.pc.announced) : 0 < (abs s).count c.refed := by
  rcases c.func_cases with func | func
  · obtain ⟨live, pos⟩ := acc.alive t c hc func pc
    rw [references_eq acc.inv (acc.sane.call hc).2.1 live] at pos
    simpa [abs, live] using pos
  · refine (acc.inv.live_of_unlinking (t := t) (r := c.ref) ?_).2
    change (s.ctl t).phase = _
    rw [hc]
    simp only [Control.phase, Call.phase_announced pc, func]

/-- An activation has a registered client with a started era. -/
theorem EraInv.of_call {s : State Loc} {t : ℕ} {c : Call Loc} (h : EraInv s) (hc : s.ctl t = .call c) :
    IsThreadId t ∧ 0 < s.mem.era t t :=
  ⟨h.ids t (by simp [hc, Control.registered]),
    h.started t (by simp [hc, Control.registered]) (by simp [hc])⟩

/-- An access before the compare-exchange that leaves the memory alone. -/
theorem EraInv.reread {s : State Loc} {t : ℕ} {c c' : Call Loc} (h : EraInv s)
    (hc : s.ctl t = .call c) (pc : c.pc.announced)
    (pc' : c'.pc.announced) (func : c'.func = c.func) (ref : c'.ref = c.ref)
    (refed : c'.refed = c.refed) (ok : c'.EraOk s t) : EraInv (s.setCtl t (.call c')) := by
  obtain ⟨id, started⟩ := h.of_call hc
  refine h.move (k := .call c') rfl rfl rfl rfl rfl rfl id (fun _ => started) ?_ ?_ (by simp) ?_
  · rw [hc]
    rintro (past | past) <;> simp [past, Pc.announced] at pc
  · rintro _ ⟨⟩
    exact ok
  · intro c₀ hc₀ _
    obtain rfl : c = c₀ := by simpa using hc.symm.trans hc₀
    refine ⟨c', rfl, ?_, func, ref, refed, ?_⟩
    · intro free
      simp [free, Pc.announced] at pc'
    · rintro (past | past) <;> simp [past, Pc.announced] at pc'

/-- The `memset` of the redo log. -/
theorem EraInv.clear {s : State Loc} {t : ℕ} (h : EraInv s) {i : ℕ} (hi : s.ctl t = .clearing i) :
    EraInv ({ s with mem := s.mem.setRedo t i none }.setCtl t (.clearing (i + 1))) := by
  have id : IsThreadId t := h.ids t (by simp [hi, Control.registered])
  have started := h.started t (by simp [hi, Control.registered]) (by simp [hi])
  have idle : ¬ (s.ctl t).committed := by simp [hi, Control.committed]
  refine h.update rfl (fun _ _ _ _ => rfl) ?_ (fun _ he => he)
    (.inl ⟨rfl, fun past => absurd past idle⟩) id (fun _ => started) (fun _ _ => rfl)
    (fun o live => .inl ⟨live, rfl⟩) (fun _ _ _ => .inl rfl) (by simp) (by simp) ?_
  · intro u hu
    exact Function.update_of_ne hu _ _
  · intro j e he
    by_cases hj : j = i
    · simp [State.setCtl, Mem.setRedo, hj] at he
    · refine (h.redo t j e (by simpa [State.setCtl, Mem.setRedo, hj] using he)).keep rfl rfl
        (fun _ he => he) ?_
      intro c hc
      simp [hi] at hc

/-- The new count fits its field. -/
def CountFits (c : Call Loc) : Prop :=
  match c.func with
  | .linkRef => c.refInfoCnt + 1 < 2 ^ 16
  | .unlinkRef => 0 < c.refInfoCnt

theorem stamp_of_countFits {t : ℕ} {c : Call Loc} (id : IsThreadId t) (fits : CountFits c)
    (small : c.curEra < 2 ^ 32) :
    getLcidFromInfo (c.newRefInfo t) = t ∧ getLenumFromInfo (c.newRefInfo t) = c.curEra := by
  have thread : t < 2 ^ 16 := by
    have := id.2
    simp only [maxThread] at this
    omega
  unfold CountFits at fits
  rcases c.func_cases with func | func
  · simp only [func] at fits
    simp only [Call.newRefInfo, func]
    exact ⟨getLcidFromInfo_packRefInfo thread fits small, getLenumFromInfo_packRefInfo small⟩
  · simp only [func] at fits
    have count : (c.refInfoCnt + (2 ^ 64 - 1)) % 2 ^ 64 < 2 ^ 16 := by
      have := getRefCntFromInfo_lt c.refInfo
      rw [Call.refInfoCnt] at fits ⊢
      omega
    simp only [Call.newRefInfo, func]
    exact ⟨getLcidFromInfo_packRefInfo thread count small, getLenumFromInfo_packRefInfo small⟩

theorem EraInv.init : EraInv (State.init : State Loc) where
  ids _ h := by cases h
  started _ h := by cases h
  below _ _ := rfl
  stamp _ h := by cases h
  row _ _ _ _ _ := .inl rfl
  call _ _ h := by cases h
  alloc _ _ h := by cases h
  redo _ _ _ h := by cases h

section

variable [DecidableEq Loc]

/-- Counts that callers keep bounded fit. -/
theorem countFits_of_accounted {s : State Loc} (acc : Accounted s) {t : ℕ} {c : Call Loc}
    (hc : s.ctl t = .call c) (pc : c.pc = .cas) (word : s.mem.refInfo c.refed = c.refInfo)
    (bound : Bounded (s.runCall t c false)) : CountFits c := by
  have live := allocated_of_announced acc hc (by simp [pc, Pc.announced])
  obtain ⟨-, null, -⟩ := acc.sane.call hc
  have cnt := references_eq acc.inv null live
  rw [word] at cnt
  unfold CountFits
  rcases c.func_cases with func | func
  · have more := references_cas acc.inv hc func pc null live word
    have most := bound c.refed (by simpa [runCall_cas pc word, State.setCtl] using live)
    simp only [func, Call.refInfoCnt]
    omega
  · have := count_of_announced acc hc (by simp [pc, Pc.announced])
    simpa [func, abs, live, word, Call.refInfoCnt] using this

/-- The stamp of the word that a successful compare-exchange stores. -/
theorem stamp_newRefInfo {s : State Loc} (acc : Accounted s) {t : ℕ} {c : Call Loc}
    (hc : s.ctl t = .call c) (pc : c.pc = .cas) (word : s.mem.refInfo c.refed = c.refInfo)
    (bound : Bounded (s.runCall t c false)) (id : IsThreadId t) :
    getLcidFromInfo (c.newRefInfo t) = t ∧ getLenumFromInfo (c.newRefInfo t) = c.curEra :=
  stamp_of_countFits id (countFits_of_accounted acc hc pc word bound) (acc.sane.call hc).1

variable {s : State Loc} {t : ℕ} {c : Call Loc}

theorem EraInv.loadInfo (h : EraInv s) (acc : Accounted s) (hc : s.ctl t = .call c)
    (pc : c.pc = .loadInfo) (weak : Bool) : EraInv (s.runCall t c weak) := by
  have announced : c.pc.announced := by simp [pc, Pc.announced]
  have live := allocated_of_announced acc hc announced
  rw [runCall_loadInfo pc]
  refine h.reread hc announced ?_ rfl rfl rfl ⟨fun _ => h.stamp _ live, ?_, ?_, ?_, ?_, ?_⟩
  all_goals
    rcases c.func_cases with func | func <;>
      simp [Call.afterInfo, func, Pc.announced, Call.knowsEra, Call.recorded]

theorem EraInv.loadEra (h : EraInv s) (hc : s.ctl t = .call c)
    (pc : c.pc = .loadEra) (weak : Bool) : EraInv (s.runCall t c weak) := by
  have announced : c.pc.announced := by simp [pc, Pc.announced]
  have ok := h.call t c hc
  have seen := ok.seen
  rw [runCall_loadEra pc]
  refine h.reread hc announced ?_ rfl rfl rfl ⟨fun _ => ok.saw (by simp [pc]), fun _ => rfl, ?_, ?_, ?_, ?_⟩
  all_goals
    rcases c.func_cases with func | func <;>
      simp_all [Call.afterEra, Pc.announced, Call.recorded, Call.sawEra, Call.sawCid]

theorem EraInv.testEle (h : EraInv s) (hc : s.ctl t = .call c)
    (pc : c.pc = .testEle) (weak : Bool) : EraInv (s.runCall t c weak) := by
  have announced : c.pc.announced := by simp [pc, Pc.announced]
  have ok := h.call t c hc
  have cur := ok.cur
  rw [runCall_testEle pc]
  by_cases saw : s.mem.era t c.sawCid < c.sawEra
  · rw [if_pos saw]
    refine h.reread hc announced rfl rfl rfl rfl ⟨fun _ => ok.saw (by simp [pc]), ?_, fun _ => saw, ?_, ?_, ?_⟩
    all_goals
      rcases c.func_cases with func | func <;> simp_all [Call.recorded, Call.knowsEra]
  · rw [if_neg saw]
    refine h.reread hc announced ?_ rfl rfl rfl
      ⟨fun _ => ok.saw (by simp [pc]), ?_, ?_, fun _ => not_lt.1 saw, ?_, ?_⟩
    all_goals
      rcases c.func_cases with func | func <;>
        simp_all [Call.afterEle, Pc.announced, Call.knowsEra]

theorem EraInv.cas_fails (h : EraInv s) (hc : s.ctl t = .call c) (pc : c.pc = .cas) (weak : Bool)
    (fails : ¬ (weak = false ∧ s.mem.refInfo c.refed = c.refInfo)) :
    EraInv (s.runCall t c weak) := by
  rw [runCall_cas_fails pc fails]
  refine h.reread hc (by simp [pc, Pc.announced]) rfl rfl rfl rfl ⟨by simp, ?_, by simp, ?_, by simp, by simp⟩
  all_goals
    rcases c.func_cases with func | func <;> simp [func, Call.knowsEra, Call.recorded]

/-- `*ele = saw_era`: the client's own counter is never the one written. -/
theorem EraInv.storeEle (h : EraInv s) (hc : s.ctl t = .call c)
    (pc : c.pc = .storeEle) (weak : Bool) : EraInv (s.runCall t c weak) := by
  obtain ⟨id, started⟩ := h.of_call hc
  have ok := h.call t c hc
  have issued := ok.saw (by simp [pc])
  have test := ok.test pc
  have idle : ¬ (s.ctl t).committed := by simp [hc, Control.committed, pc]
  have other : t ≠ c.sawCid := by
    intro same
    rw [← same] at issued test
    rcases issued.2 with old | ⟨-, now⟩
    · exact absurd old (by omega)
    · exact idle now
  have era : ∀ u v, IsThreadId v → (s.mem.setEra t c.sawCid c.sawEra).era u v =
      if u = t ∧ v = c.sawCid then c.sawEra else s.mem.era u v :=
    fun u v hv => Mem.era_setEra s.mem _ issued.1 hv
  have own : (s.mem.setEra t c.sawCid c.sawEra).era t t = s.mem.era t t := by
    simp [era t t id, other]
  have new : (s.mem.setEra t c.sawCid c.sawEra).era t c.sawCid = c.sawEra := by
    simp [era t c.sawCid issued.1]
  rw [runCall_storeEle pc]
  have keep : ∀ u e, Issued s u e →
      Issued ({ s with mem := s.mem.setEra t c.sawCid c.sawEra }.setCtl t
        (.call { c with pc := c.afterEle })) u e := by
    intro u e
    refine Issued.step rfl ?_ (.inl ⟨own, fun past => absurd past idle⟩)
    intro u v hu hv
    simp [State.setCtl, era u v hv, hu]
  refine h.update rfl ?_ (fun _ _ => rfl) (fun _ he => he) (.inl ⟨own, fun past => absurd past idle⟩)
    id (fun _ => own ▸ started) ?_ (fun o live => .inl ⟨live, rfl⟩) ?_ ?_ (by simp) ?_
  · intro u v hu hv
    simp [State.setCtl, era u v hv, hu]
  · intro i hi
    exact s.mem.setEra_below _ id issued.1 hi
  · intro v hv _
    by_cases hvc : v = c.sawCid
    · right
      subst hvc
      simp only [State.setCtl, new]
      exact keep _ _ issued
    · left
      simp [State.setCtl, era t v hv, hvc]
  · rintro _ ⟨⟩
    refine ⟨fun _ => keep _ _ issued, ?_, ?_, ?_, ?_, ?_⟩
    · intro knows
      simp only [State.setCtl, own]
      refine ok.cur ?_
      rcases c.func_cases with func | func <;>
        simp_all [Call.knowsEra, Call.afterEle]
    · rcases c.func_cases with func | func <;> simp [Call.afterEle, func]
    · exact fun _ => le_of_eq new.symm
    all_goals
      rcases c.func_cases with func | func <;> simp [Call.afterEle, func]
  · intro i e he
    refine (h.redo t i e he).keep rfl own (fun _ he => he) ?_
    intro c₀ hc₀ _ _
    obtain rfl : c = c₀ := by simpa using hc.symm.trans hc₀
    refine ⟨_, rfl, ?_, rfl, rfl, rfl, ?_⟩ <;>
      rcases c.func_cases with func | func <;> simp [Call.afterEle, func]

/-- The log entry of the operation goes into the slot of its era. -/
theorem EraInv.storeRedo (h : EraInv s) (hc : s.ctl t = .call c)
    (pc : c.pc = .storeRedo) (weak : Bool) : EraInv (s.runCall t c weak) := by
  obtain ⟨id, started⟩ := h.of_call hc
  have ok := h.call t c hc
  have cur : c.curEra = s.mem.era t t := ok.cur (by
    rcases c.func_cases with func | func <;> simp [Call.knowsEra, func, pc])
  have seen : c.sawEra ≤ s.mem.era t c.sawCid := ok.seen (by
    rcases c.func_cases with func | func <;> simp [Call.recorded, func, pc])
  have idle : ¬ (s.ctl t).committed := by simp [hc, Control.committed, pc]
  rw [runCall_storeRedo pc]
  have keep : ∀ u e, Issued s u e → Issued ({ s with
      mem := s.mem.setRedo t (c.curEra % redoCachelineCnt) (some c.redoLog) }.setCtl t
        (.call { c with pc := .cas })) u e := by
    intro u e issued
    refine issued.step (t := t) (k := .call { c with pc := .cas }) ?_ ?_ ?_
    · rfl
    · exact fun _ _ _ _ => rfl
    · exact .inl ⟨rfl, fun past => absurd past idle⟩
  refine h.update rfl (fun _ _ _ _ => rfl) ?_ (fun _ he => he)
    (.inl ⟨rfl, fun past => absurd past idle⟩) id (fun _ => started) (fun _ _ => rfl)
    (fun o live => .inl ⟨live, rfl⟩) (fun _ _ _ => .inl rfl) ?_ (by simp) ?_
  · intro u hu
    exact Function.update_of_ne hu _ _
  · rintro _ ⟨⟩
    refine ⟨fun _ => keep _ _ (ok.saw (by simp [pc])), fun _ => cur, by simp, fun _ => seen, ?_, by simp⟩
    intro _
    simp [State.setCtl, Mem.setRedo, Call.redoLog, Call.refInfoCnt]
  · intro i e he
    by_cases hi : i = c.curEra % redoCachelineCnt
    · obtain rfl : c.redoLog = e := by simpa [State.setCtl, Mem.setRedo, hi] using he
      refine ⟨id, hi, ?_, .inr ⟨cur, { c with pc := .cas }, by simp [State.setCtl], by simp, rfl,
        rfl, rfl, by simp⟩⟩
      exact lt_of_lt_of_eq started cur.symm
    · refine (h.redo t i e (by simpa [State.setCtl, Mem.setRedo, hi] using he)).keep rfl rfl
        (fun _ he => he) ?_
      intro c₀ hc₀ _ _
      obtain rfl : c = c₀ := by simpa using hc.symm.trans hc₀
      exact ⟨_, rfl, by simp, rfl, rfl, rfl, by simp⟩

/-- A compare-exchange that succeeds: the stamp it stores is issued by it. -/
theorem EraInv.cas (h : EraInv s) (acc : Accounted s) (hc : s.ctl t = .call c) (pc : c.pc = .cas)
    (word : s.mem.refInfo c.refed = c.refInfo) (bound : Bounded (s.runCall t c false)) :
    EraInv (s.runCall t c false) := by
  obtain ⟨id, started⟩ := h.of_call hc
  have ok := h.call t c hc
  have cur : c.curEra = s.mem.era t t := ok.cur (by
    rcases c.func_cases with func | func <;> simp [Call.knowsEra, func, pc])
  have seen : c.sawEra ≤ s.mem.era t c.sawCid := ok.seen (by
    rcases c.func_cases with func | func <;> simp [Call.recorded, func, pc])
  have idle : ¬ (s.ctl t).committed := by simp [hc, Control.committed, pc]
  have stamp := stamp_newRefInfo acc hc pc word bound id
  rw [runCall_cas pc word]
  refine h.stampWord rfl rfl rfl (fun _ he => List.mem_append_left _ he) id started
    (fun past => absurd past idle) ?_ ?_ (by simp) ?_
  · intro o live
    by_cases ho : o = c.refed
    · subst ho
      right
      simp only [State.setCtl, Mem.setRefInfo, Function.update_self, stamp]
      exact ⟨id, .inr ⟨cur, by simp [Control.committed]⟩⟩
    · exact .inl ⟨live, by simp [State.setCtl, Mem.setRefInfo, ho]⟩
  · rintro _ ⟨⟩
    refine ⟨fun _ => ?_, fun _ => cur, by simp, fun _ => seen, fun _ => ok.logged (.inl pc), ?_⟩
    · refine (ok.saw (by simp [pc])).step (t := t) (k := .call { c with pc := .storeRef }) ?_ ?_ ?_
      · rfl
      · exact fun _ _ _ _ => rfl
      · exact .inl ⟨rfl, fun past => absurd past idle⟩
    · intro _
      simp [State.setCtl, Call.redoLog, Call.refInfoCnt]
  · intro i e c₀ he hc₀ _ now
    obtain rfl : c = c₀ := by simpa using hc.symm.trans hc₀
    refine ⟨_, rfl, by simp, rfl, rfl, rfl, fun _ => .inr ?_⟩
    -- the slot of the current era holds the entry of this operation and no other
    have slot := (h.redo t i e he).slot
    rw [now, ← cur] at slot
    obtain rfl : c.redoLog = e := by
      have logged := ok.logged (.inl pc)
      rw [← slot, he] at logged
      exact (Option.some.inj logged).symm
    simp [State.setCtl]

theorem EraInv.storeRef (h : EraInv s) (hc : s.ctl t = .call c)
    (pc : c.pc = .storeRef) (weak : Bool) : EraInv (s.runCall t c weak) := by
  obtain ⟨id, started⟩ := h.of_call hc
  obtain ⟨saw, cur, -, seen, logged, done⟩ := h.call t c hc
  rw [runCall_storeRef pc]
  refine h.move rfl rfl rfl rfl rfl rfl id (fun _ => started) (fun _ => .inr rfl) ?_ (by simp) ?_
  · rintro _ ⟨⟩
    refine ⟨fun _ => saw (by simp [pc]), fun _ => cur ?_, by simp, fun _ => seen ?_,
      fun _ => logged (.inr (.inl pc)), fun _ => done (.inl pc)⟩ <;>
      rcases c.func_cases with func | func <;> simp [Call.knowsEra, Call.recorded, func, pc]
  · intro c₀ hc₀ _
    obtain rfl : c = c₀ := by simpa using hc.symm.trans hc₀
    exact ⟨_, rfl, by simp, rfl, rfl, rfl, fun _ => .inl pc⟩

theorem EraInv.bumpEra (h : EraInv s) (hc : s.ctl t = .call c) (pc : c.pc = .bumpEra) (weak : Bool)
    (wraps : s.mem.era t t < (s.mem.bumpEra t).era t t) : EraInv (s.runCall t c weak) := by
  obtain ⟨id, -⟩ := h.of_call hc
  obtain ⟨saw, -, -, seen, -, -⟩ := h.call t c hc
  rw [runCall_bumpEra pc]
  refine h.bump wraps id ?_ ?_ ?_
  · intro c₀ hc₀
    obtain rfl : c = c₀ := by simpa using hc.symm.trans hc₀
    exact pc
  · intro c' hc'
    split at hc'
    · cases hc'
      have issued := saw (by simp [pc])
      refine ⟨fun _ => ?_, by cases c.func <;> simp [Call.knowsEra], by simp, fun _ => ?_, by simp, by simp⟩
      · refine issued.step rfl ?_ (.inr wraps)
        intro u v hu hv
        simp [State.setCtl, Mem.bumpEra, Mem.era_setEra s.mem _ id hv, hu]
      · have old := seen (by rcases c.func_cases with func | func <;> simp [Call.recorded, func, pc])
        have grows : s.mem.era t c.sawCid ≤ (s.mem.bumpEra t).era t c.sawCid := by
          by_cases own : c.sawCid = t
          · rw [own]
            exact wraps.le
          · simp [Mem.bumpEra, Mem.era_setEra s.mem _ id issued.1, own]
        exact old.trans grows
    · cases hc'
  · intro a ha
    split at ha <;> cases ha

theorem EraInv.free (h : EraInv s) (hc : s.ctl t = .call c)
    (pc : c.pc = .free) (weak : Bool) : EraInv (s.runCall t c weak) := by
  obtain ⟨id, started⟩ := h.of_call hc
  rw [runCall_free pc]
  refine h.stampWord rfl rfl rfl (fun _ he => List.mem_append_left _ he) id started ?_ ?_ (by simp) (by simp) ?_
  · simp [hc, Control.committed, pc]
  · intro o live
    have ho : o ≠ c.refed := by
      rintro rfl
      simp [State.setCtl] at live
    exact .inl ⟨by simpa [State.setCtl, ho] using live, by simp [State.setCtl, Mem.setRefInfo, ho]⟩
  · intro i e c₀ _ hc₀ notFree
    obtain rfl : c = c₀ := by simpa using hc.symm.trans hc₀
    exact absurd pc notFree

theorem EraInv.runCall (h : EraInv s) (acc : Accounted s) (hc : s.ctl t = .call c) {weak : Bool}
    (bound : Bounded (s.runCall t c weak))
    (wraps : c.pc = .bumpEra → s.mem.era t t < (s.mem.bumpEra t).era t t) :
    EraInv (s.runCall t c weak) := by
  cases pc : c.pc with
  | loadInfo => exact h.loadInfo acc hc pc weak
  | loadEra => exact h.loadEra hc pc weak
  | testEle => exact h.testEle hc pc weak
  | storeEle => exact h.storeEle hc pc weak
  | storeRedo => exact h.storeRedo hc pc weak
  | cas =>
    by_cases wins : weak = false ∧ s.mem.refInfo c.refed = c.refInfo
    · obtain ⟨rfl, word⟩ := wins
      exact h.cas acc hc pc word bound
    · exact h.cas_fails hc pc weak wins
  | storeRef => exact h.storeRef hc pc weak
  | bumpEra => exact h.bumpEra hc pc weak (wraps pc)
  | free => exact h.free hc pc weak

/-- The accesses of `cxl_ref_alloc`: the era in the stamp is the one before the increment. -/
theorem EraInv.runAlloc (h : EraInv s) {a : Alloc Loc} (ha : s.ctl t = .alloc a)
    (wraps : a.pc = .bumpEra → s.mem.era t t < (s.mem.bumpEra t).era t t)
    (small : s.mem.era t t < 2 ^ 32) : EraInv (s.runAlloc t a) := by
  have id : IsThreadId t := h.ids t (by simp [ha, Control.registered])
  have started := h.started t (by simp [ha, Control.registered]) (by simp [ha])
  have ok := h.alloc t a ha
  have idle : ¬ (s.ctl t).committed := by simp [ha, Control.committed]
  have noCall : ∀ c, s.ctl t ≠ .call c := by simp [ha]
  unfold State.runAlloc
  cases pc : a.pc with
  | storePptr =>
    refine h.move rfl rfl rfl rfl rfl rfl id (fun _ => started) (fun past => absurd past idle) (by simp) ?_
      fun c hc => absurd hc (noCall c)
    rintro _ ⟨⟩
    exact ⟨by simp, by simp⟩
  | loadEra =>
    refine h.move rfl rfl rfl rfl rfl rfl id (fun _ => started) (fun past => absurd past idle) (by simp) ?_
      fun c hc => absurd hc (noCall c)
    rintro _ ⟨⟩
    exact ⟨fun _ => rfl, by simp⟩
  | bumpEra =>
    refine h.bump (wraps pc) id (fun c hc => absurd hc (noCall c)) (by simp) ?_
    rintro _ ⟨⟩
    exact ⟨by simp, fun _ => ⟨s.mem.era t t, wraps pc, ok.cur pc⟩⟩
  | storeInfo =>
    obtain ⟨e, old, info⟩ := ok.past pc
    have thread : t < 2 ^ 16 := by
      have := id.2
      simp only [maxThread] at this
      omega
    refine h.stampWord rfl rfl rfl (fun _ he => List.mem_append_left _ he) id started
      (fun past => absurd past idle) ?_ (by simp) (by simp) fun _ _ c _ hc => absurd hc (noCall c)
    intro o live
    by_cases ho : o = a.block
    · subst ho
      right
      have era : e < 2 ^ 32 := old.trans small
      simp only [State.setCtl, Mem.setRefInfo, Function.update_self, info,
        getLcidFromInfo_packRefInfo thread (by norm_num : 1 < 2 ^ 16) era,
        getLenumFromInfo_packRefInfo era]
      exact ⟨id, .inl old⟩
    · exact .inl ⟨by simpa [State.setCtl, ho] using live, by simp [State.setCtl, Mem.setRefInfo, ho]⟩

theorem EraInv.step {s' : State Loc} {a : Action Loc} (h : EraInv s) (acc : Accounted s)
    (hs : s.step a = some s') (ok : Orderly s a s') : EraInv s' := by
  obtain ⟨permitted, within, noWrap⟩ := ok
  have started : ∀ {t}, s.ctl t = .idle → IsThreadId t ∧ 0 < s.mem.era t t := fun idle =>
    ⟨h.ids _ (by simp [idle, Control.registered]),
      h.started _ (by simp [idle, Control.registered]) (by simp [idle])⟩
  have grows : ∀ t, IsThreadId t → s.mem.era t t + 1 < 2 ^ 32 →
      s.mem.era t t < (s.mem.bumpEra t).era t t := by
    intro t id small
    simp only [Mem.bumpEra, Mem.era_setEra s.mem _ id id, and_self, if_true]
    omega
  cases a with
  | threadInit t =>
    obtain ⟨absent, pos, -, rfl⟩ := threadInit_eq_some hs
    refine h.move rfl rfl rfl rfl rfl rfl ⟨pos, within t rfl⟩ (by simp) ?_ (by simp) (by simp) ?_ <;>
      simp [absent, Control.committed]
  | link t r o | unlink t r o =>
    obtain ⟨idle, rfl⟩ := enter_eq_some hs
    obtain ⟨id, pos⟩ := started idle
    refine h.move rfl rfl rfl rfl rfl rfl id (fun _ => pos) ?_ ?_ (by simp) ?_
    · simp [idle, Control.committed]
    · rintro _ ⟨⟩
      exact ⟨by simp, by simp [Call.knowsEra], by simp, by simp [Call.recorded], by simp, by simp⟩
    · simp [idle]
  | malloc t r b =>
    obtain ⟨idle, rfl⟩ := enter_eq_some hs
    obtain ⟨id, pos⟩ := started idle
    refine h.move rfl rfl rfl rfl rfl rfl id (fun _ => pos) ?_ (by simp) ?_ ?_
    · simp [idle, Control.committed]
    · rintro _ ⟨⟩
      exact ⟨by simp, by simp⟩
    · simp [idle]
  | mallocGeneric t =>
    obtain ⟨idle, rfl⟩ := enter_eq_some hs
    obtain ⟨id, pos⟩ := started idle
    refine h.move rfl rfl rfl rfl rfl rfl id (fun _ => pos) ?_ (by simp) (by simp) ?_ <;>
      simp [idle, Control.committed]
  | run t weak =>
    obtain ⟨hk, rfl⟩ | ⟨c, hc, rfl⟩ | ⟨a, ha, rfl⟩ | ⟨i, hi, -, rfl⟩ | ⟨i, hi, -, rfl⟩ := run_cases hs
    · have id : IsThreadId t := h.ids t (by simp [hk, Control.registered])
      exact h.bump (grows t id (noWrap (by simp [hk, Control.bumps]))) id (by simp [hk]) (by simp) (by simp)
    · refine h.runCall acc hc permitted.2.2 fun pc => grows t (h.of_call hc).1 (noWrap ?_)
      simp [hc, Control.bumps, pc]
    · have id : IsThreadId t := h.ids t (by simp [ha, Control.registered])
      refine h.runAlloc ha (fun pc => grows t id (noWrap ?_)) (acc.sane.era _)
      simp [ha, Control.bumps, pc]
    · exact h.clear hi
    · have id : IsThreadId t := h.ids t (by simp [hi, Control.registered])
      have pos := h.started t (by simp [hi, Control.registered]) (by simp [hi])
      refine h.move rfl rfl rfl rfl rfl rfl id (fun _ => pos) ?_ (by simp) (by simp) ?_ <;>
        simp [hi, Control.committed]
  | reuse o w =>
    obtain ⟨dead, rfl⟩ := reuse_eq_some hs
    refine ⟨h.ids, h.started, h.below, fun x live => ?_, h.row, fun t c hc => ?_, fun t a ha => ?_,
      fun t i e he => ?_⟩
    · have hx : x ≠ o := by
        rintro rfl
        simp [dead] at live
      simp only [Mem.setRefInfo, Function.update_of_ne hx]
      exact h.stamp x live
    · obtain ⟨saw, cur, test, seen, logged, done⟩ := h.call t c hc
      exact ⟨saw, cur, test, seen, logged, done⟩
    · obtain ⟨cur, past⟩ := h.alloc t a ha
      exact ⟨cur, past⟩
    · obtain ⟨id, slot, pos, op⟩ := h.redo t i e he
      exact ⟨id, slot, pos, op⟩

theorem accounted_of_orderly (h : Reachable State.step Orderly State.init s) : Accounted s :=
  accounted_of_reachable (h.mono fun _ _ _ ok => ok.1)

theorem eraInv_of_reachable (h : Reachable State.step Orderly State.init s) : EraInv s :=
  h.invariant_of (fun _ => accounted_of_orderly) .init
    fun _ _ _ acc _ before hs ok => before.step acc hs ok

end

end CxlShm
