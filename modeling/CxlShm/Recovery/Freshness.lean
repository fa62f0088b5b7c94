import CxlShm.Hash.Crash
import CxlShm.Recovery.Machine
import CxlShm.Reference.Packing

/-!
# Eras stay fresh

An era that somebody has recorded of client `t`, or that stands in a word with the id of `t`, is at
most the era `t` is in; it is the same only while the operation of that era is under way.  This holds
over stops, recoveries and registrations of slots (`eras_fresh`), as long as the counters do not
wrap, the ids have a row, and the operations are on objects whose counts fit their field.  `put`,
which stamps its element without a compare-exchange, is not among the operations; it and each of the
conditions is needed (`records_not_below`).
-/

namespace CxlShm

open Reachability

variable {Loc : Type}

/-! ## What an access of an activation can do -/

/-- The effect of one access of `link_reference`, `unlink_reference` or `recovery_unlink_reference`
for client `t`; `knows` says where `cur_era` has been read. -/
structure Call.Effect (knows : Call Loc → Prop) (t : ℕ) (m : Mem Loc) (c : Call Loc) (weak : Bool)
    (m' : Mem Loc) (next : Option (Call Loc)) : Prop where
  era : m'.eraArray = m.eraArray ∧ c.pc ≠ .bumpEra ∨
    c.pc = .storeEle ∧ m'.eraArray = (m.setEra t c.sawCid c.sawEra).eraArray ∨
    c.pc = .bumpEra ∧ m'.eraArray = (m.bumpEra t).eraArray
  word : ∀ o, m'.refInfo o = m.refInfo o ∨ o = c.refed ∧ c.pc = .free ∨
    o = c.refed ∧ c.pc = .cas ∧ weak = false ∧ m.refInfo o = c.refInfo ∧
      m'.refInfo o = c.newRefInfo t ∧ ∃ c', next = some c' ∧ c'.pc = .storeRef ∧ c'.refed = c.refed
  stored : c.pc = .storeRef → ∃ c', next = some c' ∧ c'.pc = .bumpEra ∧ c'.refed = c.refed
  refed : ∀ c', next = some c' → c'.refed = c.refed
  info : ∀ c', next = some c' → c'.pc ≠ .loadInfo →
    c'.refInfo = m.refInfo c.refed ∧ c.pc = .loadInfo ∨ c'.refInfo = c.refInfo ∧ c.pc ≠ .loadInfo
  cur : ∀ c', next = some c' → knows c' → c'.curEra = m.era t t ∨ c'.curEra = c.curEra ∧ knows c
  test : ∀ c', next = some c' → c'.pc = .storeEle →
    c.pc = .testEle ∧ c'.refInfo = c.refInfo ∧ m.era t c.sawCid < c.sawEra

/-- In `recovery_unlink_reference`, `cur_era` has been read. -/
def Call.recoveryKnowsEra (c : Call Loc) : Prop :=
  c.pc ≠ .loadInfo ∧ c.pc ≠ .loadEra ∧ c.pc ≠ .free

section

variable [DecidableEq Loc] {t : ℕ} {m : Mem Loc} {c : Call Loc} {weak : Bool}

theorem Call.effect_exec :
    Call.Effect (·.knowsEra) t m c weak (c.exec t m weak).1 (c.exec t m weak).2 := by
  unfold Call.exec
  cases pc : c.pc with
  | loadInfo =>
    refine ⟨.inl ⟨rfl, by simp [pc]⟩, fun _ => .inl rfl, by simp [pc], ?_, ?_, ?_, ?_⟩ <;>
      rcases c.func_cases with func | func <;> simp [Call.afterInfo, Call.knowsEra, func, pc]
  | loadEra =>
    refine ⟨.inl ⟨rfl, by simp [pc]⟩, fun _ => .inl rfl, by simp [pc], ?_, ?_, ?_, ?_⟩ <;>
      rcases c.func_cases with func | func <;> simp [Call.afterEra, func, pc]
  | testEle =>
    by_cases saw : m.era t c.sawCid < c.sawEra
    · simp only [saw, if_true]
      refine ⟨.inl ⟨rfl, by simp [pc]⟩, fun _ => .inl rfl, by simp [pc], ?_, ?_, ?_, ?_⟩ <;>
        rcases c.func_cases with func | func <;> simp [Call.knowsEra, func, pc, saw]
    · simp only [saw, if_false]
      refine ⟨.inl ⟨rfl, by simp [pc]⟩, fun _ => .inl rfl, by simp [pc], ?_, ?_, ?_, ?_⟩ <;>
        rcases c.func_cases with func | func <;> simp [Call.afterEle, Call.knowsEra, func, pc]
  | storeEle =>
    refine ⟨.inr (.inl ⟨pc, rfl⟩), fun _ => .inl rfl, by simp [pc], ?_, ?_, ?_, ?_⟩ <;>
      rcases c.func_cases with func | func <;> simp [Call.afterEle, Call.knowsEra, func, pc]
  | storeRedo =>
    refine ⟨.inl ⟨rfl, by simp [pc]⟩, fun _ => .inl rfl, by simp [pc], ?_, ?_, ?_, ?_⟩ <;>
      rcases c.func_cases with func | func <;> simp [Call.knowsEra, func, pc]
  | cas =>
    by_cases wins : weak = false ∧ m.refInfo c.refed = c.refInfo
    · simp only [wins, and_self, if_true]
      refine ⟨.inl ⟨rfl, by simp [pc]⟩, fun o => ?_, by simp [pc], ?_, ?_, ?_, ?_⟩
      · by_cases ho : o = c.refed
        · exact .inr (.inr ⟨ho, pc, rfl, ho ▸ wins.2, by simp [Mem.setRefInfo, ho], _, rfl, rfl, rfl⟩)
        · exact .inl (Function.update_of_ne ho _ _)
      all_goals rcases c.func_cases with func | func <;> simp [Call.knowsEra, func, pc]
    · simp only [wins, if_false]
      refine ⟨.inl ⟨rfl, by simp [pc]⟩, fun _ => .inl rfl, by simp [pc], ?_, ?_, ?_, ?_⟩ <;>
        rcases c.func_cases with func | func <;> simp [Call.knowsEra, func, pc]
  | storeRef =>
    refine ⟨.inl ⟨rfl, by simp [pc]⟩, fun _ => .inl rfl, fun _ => ⟨_, rfl, rfl, rfl⟩, ?_, ?_, ?_, ?_⟩ <;>
      rcases c.func_cases with func | func <;> simp [Call.knowsEra, func, pc]
  | bumpEra =>
    refine ⟨.inr (.inr ⟨pc, rfl⟩), fun _ => .inl rfl, by simp [pc], ?_, ?_, ?_, ?_⟩ <;>
      cases last : c.last <;> rcases c.func_cases with func | func <;>
        simp [Call.knowsEra, func, pc]
  | free =>
    refine ⟨.inl ⟨rfl, by simp [pc]⟩, fun o => ?_, by simp [pc], by simp, by simp, by simp, by simp⟩
    by_cases ho : o = c.refed
    · exact .inr (.inl ⟨ho, pc⟩)
    · exact .inl (Function.update_of_ne ho _ _)

theorem Call.effect_recoveryExec :
    Call.Effect Call.recoveryKnowsEra t m c weak (c.recoveryExec t m weak).1
      (c.recoveryExec t m weak).2 := by
  unfold Call.recoveryExec
  cases pc : c.pc with
  | loadInfo =>
    refine ⟨.inl ⟨rfl, by simp [pc]⟩, fun _ => .inl rfl, by simp [pc], ?_, ?_, ?_, ?_⟩ <;>
      simp [Call.recoveryKnowsEra, pc]
  | loadEra =>
    refine ⟨.inl ⟨rfl, by simp [pc]⟩, fun _ => .inl rfl, by simp [pc], ?_, ?_, ?_, ?_⟩ <;> simp [pc]
  | testEle =>
    by_cases saw : m.era t c.sawCid < c.sawEra
    · simp only [saw, if_true]
      refine ⟨.inl ⟨rfl, by simp [pc]⟩, fun _ => .inl rfl, by simp [pc], ?_, ?_, ?_, ?_⟩ <;>
        simp [Call.recoveryKnowsEra, pc, saw]
    · simp only [saw, if_false]
      refine ⟨.inl ⟨rfl, by simp [pc]⟩, fun _ => .inl rfl, by simp [pc], ?_, ?_, ?_, ?_⟩ <;>
        simp [Call.recoveryKnowsEra, pc]
  | storeEle =>
    refine ⟨.inr (.inl ⟨pc, rfl⟩), fun _ => .inl rfl, by simp [pc], ?_, ?_, ?_, ?_⟩ <;>
      simp [Call.recoveryKnowsEra, pc]
  | storeRedo => exact ⟨.inl ⟨rfl, by simp [pc]⟩, fun _ => .inl rfl, by simp [pc], by simp, by simp,
      by simp, by simp⟩
  | cas =>
    by_cases wins : weak = false ∧ m.refInfo c.refed = c.refInfo
    · simp only [wins, and_self, if_true]
      refine ⟨.inl ⟨rfl, by simp [pc]⟩, fun o => ?_, by simp [pc], ?_, ?_, ?_, ?_⟩
      · by_cases ho : o = c.refed
        · exact .inr (.inr ⟨ho, pc, rfl, ho ▸ wins.2, by simp [Mem.setRefInfo, ho], _, rfl, rfl, rfl⟩)
        · exact .inl (Function.update_of_ne ho _ _)
      all_goals simp [Call.recoveryKnowsEra, pc]
    · simp only [wins, if_false]
      refine ⟨.inl ⟨rfl, by simp [pc]⟩, fun _ => .inl rfl, by simp [pc], ?_, ?_, ?_, ?_⟩ <;>
        simp [Call.recoveryKnowsEra]
  | storeRef =>
    refine ⟨.inl ⟨rfl, by simp [pc]⟩, fun _ => .inl rfl, fun _ => ⟨_, rfl, rfl, rfl⟩, ?_, ?_, ?_, ?_⟩ <;>
      simp [Call.recoveryKnowsEra, pc]
  | bumpEra =>
    refine ⟨.inr (.inr ⟨pc, rfl⟩), fun _ => .inl rfl, by simp [pc], ?_, ?_, ?_, ?_⟩ <;>
      cases last : c.last <;> simp [Call.recoveryKnowsEra, pc]
  | free =>
    refine ⟨.inl ⟨rfl, by simp [pc]⟩, fun o => ?_, by simp [pc], by simp, by simp, by simp, by simp⟩
    by_cases ho : o = c.refed
    · exact .inr (.inl ⟨ho, pc⟩)
    · exact .inl (Function.update_of_ne ho _ _)

end

namespace Recovery

/-! ## The invariant -/

/-- The operation of client `t` on `o` is past its compare-exchange and has not advanced the era; or
the client has stopped, or is not yet through `thread_init`, so that what its last operation was on
is no longer known. -/
def Pending (s : State Loc) (t : ℕ) (o : Offset) : Prop :=
  s.dead t ∨ s.base.ctl t = .absent ∨ s.base.ctl t = .starting ∨
    ∃ c, s.base.ctl t = .call c ∧ (c.pc = .storeRef ∨ c.pc = .bumpEra) ∧ c.refed = o

/-- The stamp `(t, e)` on `o` is of an earlier era of `t`, or of an operation under way. -/
def Issued (s : State Loc) (t : ℕ) (o : Offset) (e : ℕ) : Prop :=
  IsThreadId t ∧ (e < s.base.mem.era t t ∨ e = s.base.mem.era t t ∧ Pending s t o)

/-- The registers of an activation for client `t`. -/
structure CallOk (knows : Call Loc → Prop) (s : State Loc) (t : ℕ) (c : Call Loc) : Prop where
  saw : c.pc ≠ .loadInfo → Issued s c.sawCid c.refed c.sawEra
  cur : knows c → c.curEra ≤ s.base.mem.era t t
  other : c.pc = .storeEle → c.sawCid ≠ t

/-- The word a `cxl_malloc` is about to store. -/
structure AllocOk (s : State Loc) (t : ℕ) (a : Alloc Loc) : Prop where
  cur : a.pc = .bumpEra → ∃ e ≤ s.base.mem.era t t, a.info = packRefInfo t 1 e
  past : a.pc = .storeInfo → ∃ e < s.base.mem.era t t, a.info = packRefInfo t 1 e

/-- The invariant of the eras over stops and recoveries. -/
structure Fresh (s : State Loc) : Prop where
  ids : ∀ t, (s.base.ctl t).registered → IsThreadId t
  started : ∀ t, (s.base.ctl t).registered → s.base.ctl t ≠ .starting → 0 < s.base.mem.era t t
  small : ∀ t, IsThreadId t → s.base.mem.era t t < 2 ^ 32
  below : ∀ i < 0, s.base.mem.eraArray i = 0
  stamp : ∀ o, s.base.allocated o →
    Issued s (getLcidFromInfo (s.base.mem.refInfo o)) o (getLenumFromInfo (s.base.mem.refInfo o))
  row : ∀ u t, IsThreadId u → IsThreadId t → u ≠ t →
    s.base.mem.era u t = 0 ∨ ∃ o, Issued s t o (s.base.mem.era u t)
  call : ∀ t c, s.dead t = false → s.base.ctl t = .call c → CallOk (·.knowsEra) s t c
  alloc : ∀ t a, s.dead t = false → s.base.ctl t = .alloc a → AllocOk s t a
  unlink : ∀ t c, s.monitor = .unlink t c → CallOk Call.recoveryKnowsEra s t c
  busy : ∀ t, s.monitor.slot = some t → s.dead t
  dead : ∀ t, s.dead t → (s.base.ctl t).registered

/-- Eras grow, and operations stay under way until they do. -/
def Later (s s' : State Loc) : Prop :=
  ∀ t, IsThreadId t → s.base.mem.era t t < s'.base.mem.era t t ∨
    s'.base.mem.era t t = s.base.mem.era t t ∧ ∀ o, Pending s t o → Pending s' t o

section

variable {s s' : State Loc}

theorem Later.le (h : Later s s') {t : ℕ} (ht : IsThreadId t) :
    s.base.mem.era t t ≤ s'.base.mem.era t t := by
  rcases h t ht with more | ⟨same, -⟩
  · exact more.le
  · exact same.ge

theorem Issued.later (h : Later s s') {t e : ℕ} {o : Offset} (issued : Issued s t o e) :
    Issued s' t o e := by
  obtain ⟨id, old | ⟨rfl, pending⟩⟩ := issued
  · exact ⟨id, .inl (lt_of_lt_of_le old (h.le id))⟩
  · rcases h t id with more | ⟨same, keeps⟩
    · exact ⟨id, .inl more⟩
    · exact ⟨id, .inr ⟨same.symm, keeps o pending⟩⟩

theorem Issued.le {t e : ℕ} {o : Offset} (issued : Issued s t o e) : e ≤ s.base.mem.era t t := by
  obtain ⟨-, old | ⟨rfl, -⟩⟩ := issued
  · exact old.le
  · exact le_rfl

theorem CallOk.later {knows : Call Loc → Prop} (h : Later s s') {t : ℕ} {c : Call Loc}
    (id : IsThreadId t) (ok : CallOk knows s t c) : CallOk knows s' t c where
  saw late := (ok.saw late).later h
  cur known := (ok.cur known).trans (h.le id)
  other := ok.other

theorem AllocOk.later (h : Later s s') {t : ℕ} {a : Alloc Loc} (id : IsThreadId t)
    (ok : AllocOk s t a) : AllocOk s' t a where
  cur pc := by
    obtain ⟨e, most, info⟩ := ok.cur pc
    exact ⟨e, most.trans (h.le id), info⟩
  past pc := by
    obtain ⟨e, less, info⟩ := ok.past pc
    exact ⟨e, lt_of_lt_of_le less (h.le id), info⟩

/-- The slot the monitor works on is that of a registered client. -/
theorem Fresh.id_of_unlink (h : Fresh s) {t : ℕ} {c : Call Loc} (hm : s.monitor = .unlink t c) :
    IsThreadId t := h.ids t (h.dead t (h.busy t (by rw [hm]; rfl)))

/-- What a step does to the eras and the words. -/
structure Advance (s s' : State Loc) : Prop where
  later : Later s s'
  small : ∀ t, IsThreadId t →
    s'.base.mem.era t t = s.base.mem.era t t ∨ s'.base.mem.era t t < 2 ^ 32
  below : ∀ i < 0, s'.base.mem.eraArray i = s.base.mem.eraArray i
  stamp : ∀ o, s'.base.allocated o →
    s.base.allocated o ∧ s'.base.mem.refInfo o = s.base.mem.refInfo o ∨
    Issued s' (getLcidFromInfo (s'.base.mem.refInfo o)) o (getLenumFromInfo (s'.base.mem.refInfo o))
  row : ∀ u t, IsThreadId u → IsThreadId t → u ≠ t →
    s'.base.mem.era u t = s.base.mem.era u t ∨ ∃ o, Issued s' t o (s'.base.mem.era u t)

/-- A step that touches neither. -/
theorem Advance.still (eras : s'.base.mem.eraArray = s.base.mem.eraArray)
    (words : s'.base.mem.refInfo = s.base.mem.refInfo)
    (allocated : s'.base.allocated = s.base.allocated)
    (pending : ∀ t o, Pending s t o → Pending s' t o) : Advance s s' := by
  have era : ∀ u t, s'.base.mem.era u t = s.base.mem.era u t := fun u t => by
    rw [Mem.era, eras]
    rfl
  refine ⟨fun t _ => .inr ⟨era t t, pending t⟩, fun t _ => .inl (era t t), fun i _ => by rw [eras],
    fun o live => .inl ⟨allocated ▸ live, by rw [words]⟩, fun u t _ _ _ => .inl (era u t)⟩

/-- The invariant after a step, from what is new in the state. -/
theorem Fresh.update (h : Fresh s) (advance : Advance s s')
    (ids : ∀ t, (s'.base.ctl t).registered → (s.base.ctl t).registered ∨ IsThreadId t)
    (started : ∀ t, (s'.base.ctl t).registered → s'.base.ctl t ≠ .starting →
      (s.base.ctl t).registered ∧ s.base.ctl t ≠ .starting ∨ 0 < s'.base.mem.era t t)
    (call : ∀ t c, s'.dead t = false → s'.base.ctl t = .call c →
      s.dead t = false ∧ s.base.ctl t = .call c ∨ CallOk (·.knowsEra) s' t c)
    (alloc : ∀ t a, s'.dead t = false → s'.base.ctl t = .alloc a →
      s.dead t = false ∧ s.base.ctl t = .alloc a ∨ AllocOk s' t a)
    (unlink : ∀ t c, s'.monitor = .unlink t c →
      s.monitor = .unlink t c ∨ CallOk Call.recoveryKnowsEra s' t c)
    (busy : ∀ t, s'.monitor.slot = some t → s'.dead t)
    (dead : ∀ t, s'.dead t → (s'.base.ctl t).registered) : Fresh s' := by
  have isId : ∀ t, (s'.base.ctl t).registered → IsThreadId t := fun t ht =>
    (ids t ht).elim (h.ids t) fun new => new
  refine ⟨isId, fun t ht notStarting => ?_, fun t ht => ?_, fun i hi => ?_, fun o live => ?_,
    fun u t hu ht hut => ?_, fun t c live hc => ?_, fun t a live ha => ?_, fun t c hm => ?_, busy,
    dead⟩
  · rcases started t ht notStarting with ⟨before, running⟩ | pos
    · exact lt_of_lt_of_le (h.started t before running) (advance.later.le (isId t ht))
    · exact pos
  · rcases advance.small t ht with same | new
    · exact same ▸ h.small t ht
    · exact new
  · exact (advance.below i hi).trans (h.below i hi)
  · rcases advance.stamp o live with ⟨before, same⟩ | new
    · rw [same]
      exact (h.stamp o before).later advance.later
    · exact new
  · rcases advance.row u t hu ht hut with same | new
    · rw [same]
      exact (h.row u t hu ht hut).imp_right fun ⟨o, issued⟩ => ⟨o, issued.later advance.later⟩
    · exact .inr new
  · rcases call t c live hc with ⟨before, same⟩ | new
    · exact (h.call t c before same).later advance.later
        (h.ids t (by simp [same, Control.registered]))
    · exact new
  · rcases alloc t a live ha with ⟨before, same⟩ | new
    · exact (h.alloc t a before same).later advance.later
        (h.ids t (by simp [same, Control.registered]))
    · exact new
  · rcases unlink t c hm with same | new
    · exact (h.unlink t c same).later advance.later (h.id_of_unlink same)
    · exact new

theorem Fresh.init : Fresh (State.init : State Loc) where
  ids _ h := by cases h
  started _ h := by cases h
  small _ _ := by simp [State.init, CxlShm.State.init, Mem.era]
  below _ _ := rfl
  stamp _ h := by cases h
  row _ _ _ _ _ := .inl rfl
  call _ _ _ h := by cases h
  alloc _ _ _ h := by cases h
  unlink _ _ h := by cases h
  busy _ h := by cases h
  dead _ h := by cases h

/-! ## An access of an activation -/

/-- An access of an activation for client `t`, by the client or by the monitor. -/
theorem Fresh.access (h : Fresh s) {knows : Call Loc → Prop} {t : ℕ} {c : Call Loc}
    {weak : Bool} {next : Option (Call Loc)}
    (effect : Call.Effect knows t s.base.mem c weak s'.base.mem next)
    (id : IsThreadId t) (ok : CallOk knows s t c) (known : c.pc = .cas → knows c)
    (object : c.pc = .loadInfo → s.base.allocated c.refed)
    (fits : c.pc = .cas → weak = false → s.base.mem.refInfo c.refed = c.refInfo → CountFits c)
    (noWrap : c.pc = .bumpEra → s.base.mem.era t t + 1 < 2 ^ 32)
    (allocated : s'.base.allocated = if c.pc = .free
      then Function.update s.base.allocated c.refed false else s.base.allocated)
    (pending : ∀ u o, (u = t → c.pc ≠ .bumpEra) → Pending s u o → Pending s' u o)
    (committed : ∀ c', next = some c' → c'.pc = .storeRef → Pending s' t c'.refed) :
    Advance s s' ∧ ∀ c', next = some c' → CallOk knows s' t c' := by
  have rows : ∀ u v, IsThreadId v → s'.base.mem.era u v = s.base.mem.era u v ∨
      (c.pc = .storeEle ∧ u = t ∧ v = c.sawCid ∧ s'.base.mem.era u v = c.sawEra) ∨
      (c.pc = .bumpEra ∧ u = t ∧ v = t ∧ s'.base.mem.era u v = s.base.mem.era t t + 1) := by
    intro u v hv
    rcases effect.era with ⟨same, -⟩ | ⟨pc, new⟩ | ⟨pc, new⟩
    · left
      rw [Mem.era, same]
      rfl
    · have cid := (ok.saw (by simp [pc])).1
      have era : s'.base.mem.era u v = (s.base.mem.setEra t c.sawCid c.sawEra).era u v := by
        rw [Mem.era, new]
        rfl
      rw [era, Mem.era_setEra s.base.mem _ cid hv]
      by_cases here : u = t ∧ v = c.sawCid
      · exact .inr (.inl ⟨pc, here.1, here.2, if_pos here⟩)
      · exact .inl (if_neg here)
    · have era : s'.base.mem.era u v = (s.base.mem.bumpEra t).era u v := by
        rw [Mem.era, new]
        rfl
      rw [era, Mem.bumpEra, Mem.era_setEra s.base.mem _ id hv]
      by_cases here : u = t ∧ v = t
      · exact .inr (.inr ⟨pc, here.1, here.2, (if_pos here).trans (Nat.mod_eq_of_lt (noWrap pc))⟩)
      · exact .inl (if_neg here)
  have later : Later s s' := by
    intro u hu
    rcases rows u u hu with same | ⟨pc, rfl, own, -⟩ | ⟨pc, rfl, -, more⟩
    · by_cases bump : u = t ∧ c.pc = .bumpEra
      · left
        obtain ⟨rfl, pc⟩ := bump
        rcases effect.era with ⟨-, other⟩ | ⟨other, -⟩ | ⟨-, new⟩
        · exact absurd pc other
        · simp [pc] at other
        · have era : s'.base.mem.era u u = (s.base.mem.era u u + 1) % 2 ^ 32 := by
            rw [Mem.era, new]
            exact Function.update_self _ _ _
          rw [era, Nat.mod_eq_of_lt (noWrap pc)]
          exact Nat.lt_succ_self _
      · exact .inr ⟨same, fun o => pending u o fun hu pc => bump ⟨hu, pc⟩⟩
    · exact absurd own.symm (ok.other pc)
    · left
      omega
  refine ⟨⟨later, fun u hu => ?_, fun i hi => ?_, fun o live => ?_, fun u v hu hv huv => ?_⟩,
    fun c' hc' => ⟨fun late => ?_, fun knows' => ?_, fun pc => ?_⟩⟩
  · rcases rows u u hu with same | ⟨pc, rfl, own, -⟩ | ⟨pc, rfl, -, more⟩
    · exact .inl same
    · exact absurd own.symm (ok.other pc)
    · exact .inr (more ▸ noWrap pc)
  · rcases effect.era with ⟨same, -⟩ | ⟨pc, new⟩ | ⟨-, new⟩
    · rw [same]
    · rw [new]
      exact s.base.mem.setEra_below _ id (ok.saw (by simp [pc])).1 hi
    · rw [new]
      exact s.base.mem.setEra_below _ id id hi
  · rw [allocated] at live
    rcases effect.word o with same | ⟨rfl, pc⟩ | ⟨rfl, pc, strong, found, word, c', hc', pc', refed⟩
    · left
      split at live
      · by_cases ho : o = c.refed
        · simp [ho] at live
        · exact ⟨by simpa [ho] using live, same⟩
      · exact ⟨live, same⟩
    · simp [pc] at live
    · right
      have most := ok.cur (known pc)
      obtain ⟨lcid, lenum⟩ := stamp_of_countFits id (fits pc strong found)
        (lt_of_le_of_lt most (h.small t id))
      rw [word, lcid, lenum]
      refine ⟨id, ?_⟩
      rcases (most.trans (later.le id)).lt_or_eq with less | same
      · exact .inl less
      · exact .inr ⟨same, refed ▸ committed c' hc' pc'⟩
  · rcases rows u v hv with same | ⟨pc, rfl, rfl, saw⟩ | ⟨-, rfl, rfl, -⟩
    · exact .inl same
    · exact .inr ⟨c.refed, saw ▸ (ok.saw (by simp [pc])).later later⟩
    · exact absurd rfl huv
  · rw [Call.sawCid, Call.sawEra, effect.refed c' hc']
    rcases effect.info c' hc' late with ⟨loaded, pc⟩ | ⟨same, pc⟩
    · rw [loaded]
      exact (h.stamp c.refed (object pc)).later later
    · rw [same]
      exact (ok.saw pc).later later
  · rcases effect.cur c' hc' knows' with new | ⟨same, before⟩
    · exact new ▸ later.le id
    · exact same ▸ (ok.cur before).trans (later.le id)
  · obtain ⟨test, same, more⟩ := effect.test c' hc' pc
    rw [Call.sawCid, same]
    intro own
    have most := (ok.saw (by simp [test])).le
    rw [Call.sawCid, own] at most
    rw [Call.sawCid, own] at more
    omega

end

/-! ## The runs considered -/

/-- The step registers no client without a row in the era array. -/
def WithinRows (a : Action Loc) : Prop := ∀ t, a = .client (.threadInit t) → t ≤ maxThread

/-- The next access of the activation reads the word of an object, or makes a count that fits. -/
def ReadsObject (b : CxlShm.State Loc) (c : Call Loc) (weak : Bool) : Prop :=
  (c.pc = .loadInfo → b.allocated c.refed) ∧
    (c.pc = .cas → weak = false → b.mem.refInfo c.refed = c.refInfo → CountFits c)

/-- The operations of clients are on objects. -/
def ClientOnObjects (b : CxlShm.State Loc) : CxlShm.Action Loc → Prop
  | .run t weak => ∀ c, b.ctl t = .call c → ReadsObject b c weak
  | .threadInit _ | .link _ _ _ | .unlink _ _ _ | .malloc _ _ _ | .mallocGeneric _ | .reuse _ _ => True

/-- Operations are on objects. -/
def OnObjects (s : State Loc) : Action Loc → Prop
  | .client a => ClientOnObjects s.base a
  | .monitor weak => ∀ t c, s.monitor = .unlink t c → ReadsObject s.base c weak
  | .crash _ | .check _ | .dropRef _ | .release => True

/-- The step does not increment an era counter at its largest value. -/
def NoWrap (s : State Loc) : Action Loc → Prop
  | .client a => CxlShm.NoWrap s.base a
  | .monitor _ => ∀ t c, s.monitor = .unlink t c → c.pc = .bumpEra → s.base.mem.era t t + 1 < 2 ^ 32
  | .crash _ | .check _ | .dropRef _ | .release => True

/-- The steps of the runs in which eras stay fresh. -/
def Sane (s : State Loc) (a : Action Loc) (_ : State Loc) : Prop :=
  WithinRows a ∧ OnObjects s a ∧ NoWrap s a

/-! ## Each step -/

section

variable {s s' : State Loc}

/-- A step of the live client `t` keeps what is pending, if it does for `t`. -/
theorem Pending.client {t : ℕ} {k : Control Loc} (live : s.dead t = false)
    (ctl : s'.base.ctl = Function.update s.base.ctl t k) (dead : s'.dead = s.dead)
    (absent : s.base.ctl t = .absent → k = .starting) {u : ℕ} {o : Offset}
    (starting : u = t → s.base.ctl t ≠ .starting)
    (commits : ∀ c, u = t → s.base.ctl t = .call c → c.pc = .storeRef ∨ c.pc = .bumpEra →
      ∃ c', k = .call c' ∧ c'.pc = .bumpEra ∧ c'.refed = c.refed)
    (pending : Pending s u o) : Pending s' u o := by
  by_cases hu : u = t
  · subst hu
    rcases pending with stopped | none | first | ⟨c, hc, pc, refed⟩
    · simp [live] at stopped
    · exact .inr (.inr (.inl (by rw [ctl, Function.update_self, absent none])))
    · exact absurd first (starting rfl)
    · obtain ⟨c', hk, pc', same⟩ := commits c rfl hc pc
      exact .inr (.inr (.inr ⟨c', by rw [ctl, Function.update_self, hk], .inr pc', same.trans refed⟩))
  · rwa [Pending, ctl, Function.update_of_ne hu, dead]

/-- A step of the live client `t`. -/
theorem Fresh.client (h : Fresh s) (advance : Advance s s') {t : ℕ} {k : Control Loc}
    (live : s.dead t = false) (ctl : s'.base.ctl = Function.update s.base.ctl t k)
    (dead : s'.dead = s.dead) (monitor : s'.monitor = s.monitor) (id : IsThreadId t)
    (started : k ≠ .starting → 0 < s'.base.mem.era t t)
    (call : ∀ c, k = .call c → CallOk (·.knowsEra) s' t c)
    (alloc : ∀ a, k = .alloc a → AllocOk s' t a) : Fresh s' := by
  have others : ∀ u, u ≠ t → s'.base.ctl u = s.base.ctl u := fun u hu => by
    rw [ctl, Function.update_of_ne hu]
  have here : s'.base.ctl t = k := by rw [ctl, Function.update_self]
  refine h.update advance (fun u hu => ?_) (fun u hu more => ?_) (fun u c live' hc => ?_)
    (fun u a live' ha => ?_) (fun u c hm => .inl (monitor ▸ hm)) (fun u slot => ?_)
    fun u stopped => ?_
  · by_cases hut : u = t
    · exact .inr (hut ▸ id)
    · exact .inl (others u hut ▸ hu)
  · by_cases hut : u = t
    · subst hut
      exact .inr (started (here ▸ more))
    · rw [others u hut] at hu more
      exact .inl ⟨hu, more⟩
  · by_cases hut : u = t
    · subst hut
      exact .inr (call c (here ▸ hc))
    · exact .inl ⟨dead ▸ live', others u hut ▸ hc⟩
  · by_cases hut : u = t
    · subst hut
      exact .inr (alloc a (here ▸ ha))
    · exact .inl ⟨dead ▸ live', others u hut ▸ ha⟩
  · rw [dead]
    exact h.busy u (monitor ▸ slot)
  · rw [dead] at stopped
    have hut : u ≠ t := by
      rintro rfl
      simp [live] at stopped
    exact (others u hut).symm ▸ h.dead u stopped

/-- A client that runs has an id, and a started era. -/
theorem Fresh.running (h : Fresh s) {t : ℕ} (registered : (s.base.ctl t).registered)
    (running : s.base.ctl t ≠ .starting) : IsThreadId t ∧ 0 < s.base.mem.era t t :=
  ⟨h.ids t registered, h.started t registered running⟩

/-- The client enters a function. -/
theorem Fresh.enter (h : Fresh s) {t : ℕ} {k : Control Loc} (live : s.dead t = false)
    (idle : s.base.ctl t = .idle) (call : ∀ c, k = .call c → c.pc = .loadInfo)
    (alloc : ∀ a, k = .alloc a → a.pc = .storePptr) :
    Fresh { s with base := s.base.setCtl t k } := by
  obtain ⟨id, pos⟩ := h.running (t := t) (by simp [idle, Control.registered]) (by simp [idle])
  have advance : Advance s { s with base := s.base.setCtl t k } := by
    refine .still rfl rfl rfl fun u o pending => ?_
    refine pending.client live (k := k) ?_ ?_ ?_ ?_ ?_ <;> simp [idle, CxlShm.State.setCtl]
  refine h.client advance live rfl rfl rfl id (fun _ => pos) (fun c hc => ?_) fun a ha => ?_
  · have pc := call c hc
    exact ⟨fun late => absurd pc late, by simp [Call.knowsEra, pc], by simp [pc]⟩
  · have pc := alloc a ha
    exact ⟨by simp [pc], by simp [pc]⟩

section

variable {t : ℕ}

theorem Fresh.threadInit [DecidableEq Loc] (h : Fresh s) {b : CxlShm.State Loc}
    (hb : s.base.step (.threadInit t) = some b) (row : t ≤ maxThread) :
    Fresh (s.note (.threadInit t) b) := by
  obtain ⟨absent, pos, -, rfl⟩ := threadInit_eq_some hb
  have live : s.dead t = false := by
    by_contra stopped
    have := h.dead t (by simpa using stopped)
    simp [absent, Control.registered] at this
  have advance : Advance s (s.note (.threadInit t) (s.base.setCtl t .starting)) := by
    refine .still rfl rfl rfl fun u o pending => ?_
    refine pending.client live (k := .starting) ?_ ?_ ?_ ?_ ?_ <;>
      simp [absent, State.note, CxlShm.State.setCtl]
  exact h.client advance live rfl rfl rfl ⟨pos, row⟩ (by simp) (by simp) (by simp)

/-- The increment of an era by its client. -/
theorem Advance.bump (id : IsThreadId t)
    (noWrap : s.base.mem.era t t + 1 < 2 ^ 32) (eras : s'.base.mem.eraArray = (s.base.mem.bumpEra t).eraArray)
    (words : s'.base.mem.refInfo = s.base.mem.refInfo)
    (allocated : s'.base.allocated = s.base.allocated)
    (pending : ∀ u o, u ≠ t → Pending s u o → Pending s' u o) :
    Advance s s' ∧ s'.base.mem.era t t = s.base.mem.era t t + 1 := by
  have era : ∀ u v, IsThreadId v → s'.base.mem.era u v =
      if u = t ∧ v = t then s.base.mem.era t t + 1 else s.base.mem.era u v := by
    intro u v hv
    have same : s'.base.mem.era u v = (s.base.mem.bumpEra t).era u v := by
      rw [Mem.era, eras]
      rfl
    rw [same, Mem.bumpEra, Mem.era_setEra s.base.mem _ id hv, Nat.mod_eq_of_lt noWrap]
  have own : s'.base.mem.era t t = s.base.mem.era t t + 1 := by simp [era t t id]
  refine ⟨⟨fun u hu => ?_, fun u hu => ?_, fun i hi => ?_, fun o live => .inl ⟨allocated ▸ live, by rw [words]⟩,
    fun u v _ hv huv => .inl ?_⟩, own⟩
  · by_cases hut : u = t
    · left
      rw [hut, own]
      exact Nat.lt_succ_self _
    · exact .inr ⟨by simp [era u u hu, hut], fun o => pending u o hut⟩
  · by_cases hut : u = t
    · right
      rwa [hut, own]
    · exact .inl (by simp [era u u hu, hut])
  · rw [eras]
    exact s.base.mem.setEra_below _ id id hi
  · rw [era u v hv, if_neg]
    rintro ⟨rfl, rfl⟩
    exact huv rfl

/-- A step that leaves the eras alone and stores issued stamps. -/
theorem Advance.words (eras : s'.base.mem.eraArray = s.base.mem.eraArray)
    (pending : ∀ t o, Pending s t o → Pending s' t o)
    (stamp : ∀ o, s'.base.allocated o →
      s.base.allocated o ∧ s'.base.mem.refInfo o = s.base.mem.refInfo o ∨
      Issued s' (getLcidFromInfo (s'.base.mem.refInfo o)) o
        (getLenumFromInfo (s'.base.mem.refInfo o))) : Advance s s' := by
  have era : ∀ u t, s'.base.mem.era u t = s.base.mem.era u t := fun u t => by
    rw [Mem.era, eras]
    rfl
  exact ⟨fun t _ => .inr ⟨era t t, pending t⟩, fun t _ => .inl (era t t), fun i _ => by rw [eras],
    stamp, fun u t _ _ _ => .inl (era u t)⟩

theorem Fresh.runStarting (h : Fresh s) (live : s.dead t = false) (hk : s.base.ctl t = .starting)
    (noWrap : s.base.mem.era t t + 1 < 2 ^ 32)
    (base : s'.base = { s.base with mem := s.base.mem.bumpEra t }.setCtl t .idle)
    (dead : s'.dead = s.dead) (monitor : s'.monitor = s.monitor) : Fresh s' := by
  have id : IsThreadId t := h.ids t (by simp [hk, Control.registered])
  have ctl : s'.base.ctl = Function.update s.base.ctl t .idle := by rw [base]; rfl
  have bump : Advance s s' ∧ s'.base.mem.era t t = s.base.mem.era t t + 1 :=
    Advance.bump id noWrap (by rw [base]; rfl) (by rw [base]; rfl)
    (by rw [base]; rfl) fun u o hu pending => pending.client live ctl dead (by simp [hk])
      (fun same => absurd same hu) (fun _ same => absurd same hu)
  exact h.client bump.1 live ctl dead monitor id (fun _ => by rw [bump.2]; omega) (by simp) (by simp)

theorem Fresh.runCall [DecidableEq Loc] (h : Fresh s) {c : Call Loc} {weak : Bool}
    (live : s.dead t = false) (hc : s.base.ctl t = .call c) (object : ReadsObject s.base c weak)
    (noWrap : c.pc = .bumpEra → s.base.mem.era t t + 1 < 2 ^ 32)
    (base : s'.base = s.base.runCall t c weak) (dead : s'.dead = s.dead)
    (monitor : s'.monitor = s.monitor) : Fresh s' := by
  obtain ⟨id, pos⟩ := h.running (t := t) (by simp [hc, Control.registered]) (by simp [hc])
  have effect : Call.Effect (·.knowsEra) t s.base.mem c weak s'.base.mem
      (c.exec t s.base.mem weak).2 := by
    rw [base]
    exact Call.effect_exec
  have ctl : s'.base.ctl =
      Function.update s.base.ctl t ((c.exec t s.base.mem weak).2.elim .idle .call) := by
    rw [base]
    rfl
  have here : ∀ c', (c.exec t s.base.mem weak).2 = some c' → s'.base.ctl t = .call c' := by
    intro c' hc'
    rw [ctl, hc']
    exact Function.update_self _ _ _
  have keeps : ∀ u o, (u = t → c.pc ≠ .bumpEra) → Pending s u o → Pending s' u o := by
    intro u o own pending
    refine pending.client live ctl dead (by simp [hc]) (by simp [hc]) fun c₀ hu hc₀ pc => ?_
    obtain rfl : c = c₀ := by simpa using hc.symm.trans hc₀
    rcases pc with pc | pc
    · obtain ⟨c', rest, pc', refed⟩ := effect.stored pc
      exact ⟨c', by simp [rest], pc', refed⟩
    · exact absurd pc (own hu)
  obtain ⟨advance, next⟩ := h.access effect id (h.call t c live hc)
    (fun pc => by rcases c.func_cases with func | func <;> simp [Call.knowsEra, func, pc])
    object.1 object.2 noWrap (by rw [base]; rfl) keeps
    (fun c' hc' pc => .inr (.inr (.inr ⟨c', here c' hc', .inl pc, rfl⟩)))
  refine h.client advance live ctl dead monitor id (fun _ => lt_of_lt_of_le pos (advance.later.le id))
    (fun c' hc' => ?_) fun a ha => ?_
  · cases rest : (c.exec t s.base.mem weak).2 with
    | none => simp [rest] at hc'
    | some c'' =>
      obtain rfl : c'' = c' := by simpa [rest] using hc'
      exact next c'' rest
  · cases rest : (c.exec t s.base.mem weak).2 <;> simp [rest] at ha

theorem Fresh.runAlloc [DecidableEq Loc] (h : Fresh s) {a : Alloc Loc} (live : s.dead t = false)
    (ha : s.base.ctl t = .alloc a)
    (noWrap : a.pc = .bumpEra → s.base.mem.era t t + 1 < 2 ^ 32)
    (base : s'.base = s.base.runAlloc t a) (dead : s'.dead = s.dead)
    (monitor : s'.monitor = s.monitor) : Fresh s' := by
  obtain ⟨id, pos⟩ := h.running (t := t) (by simp [ha, Control.registered]) (by simp [ha])
  have ok := h.alloc t a live ha
  have keeps : ∀ k, s'.base.ctl = Function.update s.base.ctl t k →
      ∀ u o, Pending s u o → Pending s' u o := fun k ctl u o pending =>
    pending.client live ctl dead (by simp [ha]) (by simp [ha]) (by simp [ha])
  unfold CxlShm.State.runAlloc at base
  cases pc : a.pc with
  | storePptr =>
    rw [pc] at base
    have ctl : s'.base.ctl = Function.update s.base.ctl t (.alloc { a with pc := .loadEra }) := by
      rw [base]; rfl
    refine h.client (.still ?_ ?_ ?_ (keeps _ ctl)) live ctl dead monitor id (fun _ => ?_)
      (by simp) ?_
    any_goals rw [base]; first | rfl | exact pos
    rintro _ ⟨⟩
    exact ⟨by simp, by simp⟩
  | loadEra =>
    rw [pc] at base
    have ctl : s'.base.ctl = Function.update s.base.ctl t
        (.alloc { a with
          info := packRefInfo t 1 (s.base.mem.era t t)
          curEra := s.base.mem.era t t
          pc := .bumpEra }) := by
      rw [base]; rfl
    refine h.client (.still ?_ ?_ ?_ (keeps _ ctl)) live ctl dead monitor id (fun _ => ?_)
      (by simp) ?_
    any_goals rw [base]; first | rfl | exact pos
    rintro _ ⟨⟩
    refine ⟨fun _ => ⟨s.base.mem.era t t, ?_, rfl⟩, by simp⟩
    rw [base]
    exact le_rfl
  | bumpEra =>
    rw [pc] at base
    have ctl : s'.base.ctl = Function.update s.base.ctl t (.alloc { a with pc := .storeInfo }) := by
      rw [base]; rfl
    obtain ⟨advance, more⟩ : Advance s s' ∧ s'.base.mem.era t t = s.base.mem.era t t + 1 :=
      Advance.bump id (noWrap pc) (by rw [base]; rfl)
      (by rw [base]; rfl) (by rw [base]; rfl) fun u o _ => keeps _ ctl u o
    refine h.client advance live ctl dead monitor id (fun _ => by omega) (by simp) ?_
    rintro _ ⟨⟩
    obtain ⟨e, most, info⟩ := ok.cur pc
    exact ⟨by simp, fun _ => ⟨e, by omega, info⟩⟩
  | storeInfo =>
    rw [pc] at base
    have ctl : s'.base.ctl = Function.update s.base.ctl t .idle := by
      rw [base]; rfl
    obtain ⟨e, old, info⟩ := ok.past pc
    have thread : t < 2 ^ 16 := by
      have := id.2
      simp only [maxThread] at this
      omega
    have era : s'.base.mem.era t t = s.base.mem.era t t := by rw [base]; rfl
    refine h.client (.words (by rw [base]; rfl) (keeps _ ctl) fun o live => ?_) live ctl dead monitor
      id (fun _ => era ▸ pos) (by simp) (by simp)
    by_cases ho : o = a.block
    · right
      have small : e < 2 ^ 32 := old.trans (h.small t id)
      have word : s'.base.mem.refInfo o = packRefInfo t 1 e := by
        rw [base, ho, ← info]
        exact Function.update_self _ _ _
      rw [word, getLcidFromInfo_packRefInfo thread (by norm_num : 1 < 2 ^ 16) small,
        getLenumFromInfo_packRefInfo small]
      exact ⟨id, .inl (era ▸ old)⟩
    · left
      rw [base] at live ⊢
      exact ⟨by simpa [CxlShm.State.setCtl, ho] using live,
        by simp [CxlShm.State.setCtl, Mem.setRefInfo, ho]⟩

/-- A step of a client that is neither in an activation nor in `thread_init`, and touches only its
redo log. -/
theorem Fresh.runClearing (h : Fresh s) {i : ℕ} {k : Control Loc} (live : s.dead t = false)
    (hi : s.base.ctl t = .clearing i) (eras : s'.base.mem.eraArray = s.base.mem.eraArray)
    (words : s'.base.mem.refInfo = s.base.mem.refInfo)
    (allocated : s'.base.allocated = s.base.allocated)
    (ctl : s'.base.ctl = Function.update s.base.ctl t k) (dead : s'.dead = s.dead)
    (monitor : s'.monitor = s.monitor) (call : ∀ c, k ≠ .call c) (alloc : ∀ a, k ≠ .alloc a) :
    Fresh s' := by
  obtain ⟨id, pos⟩ := h.running (t := t) (by simp [hi, Control.registered]) (by simp [hi])
  have era : s'.base.mem.era t t = s.base.mem.era t t := by rw [Mem.era, eras]; rfl
  refine h.client (.still eras words allocated fun u o pending => ?_) live ctl dead monitor id
    (fun _ => era ▸ pos) (fun c hc => absurd hc (call c)) fun a ha => absurd ha (alloc a)
  exact pending.client live ctl dead (by simp [hi]) (by simp [hi]) (by simp [hi])

end

section

variable [DecidableEq Loc] {t : ℕ}

theorem Fresh.run (h : Fresh s) {weak : Bool} {b : CxlShm.State Loc}
    (hb : s.base.step (.run t weak) = some b) (live : s.dead t = false)
    (objects : OnObjects s (.client (.run t weak))) (noWrap : NoWrap s (.client (.run t weak))) :
    Fresh (s.note (.run t weak) b) := by
  have wraps : (s.base.ctl t).bumps → s.base.mem.era t t + 1 < 2 ^ 32 := noWrap
  obtain ⟨hk, rfl⟩ | ⟨c, hc, rfl⟩ | ⟨a, ha, rfl⟩ | ⟨i, hi, -, rfl⟩ | ⟨i, hi, -, rfl⟩ :=
    run_cases (show s.base.run t weak = some b from hb)
  · exact h.runStarting live hk (wraps (by simp [hk, Control.bumps])) rfl rfl rfl
  · exact h.runCall live hc (objects c hc) (fun pc => wraps (by simp [hc, Control.bumps, pc]))
      rfl rfl rfl
  · exact h.runAlloc live ha (fun pc => wraps (by simp [ha, Control.bumps, pc])) rfl rfl rfl
  · exact h.runClearing live hi rfl rfl rfl rfl rfl rfl (by simp) (by simp)
  · exact h.runClearing live hi rfl rfl rfl rfl rfl rfl (by simp) (by simp)

theorem Fresh.ofClient (h : Fresh s) {a : CxlShm.Action Loc} {b : CxlShm.State Loc}
    (hb : s.base.step a = some b) (live : s.mayRun a) (sane : Sane s (.client a) (s.note a b)) :
    Fresh (s.note a b) := by
  obtain ⟨within, objects, noWrap⟩ := sane
  cases a with
  | threadInit t => exact h.threadInit hb (within t rfl)
  | run t weak =>
    exact h.run hb (by simpa [State.mayRun, CxlShm.Action.client] using live) objects noWrap
  | link t r o | unlink t r o | malloc t r o | mallocGeneric t =>
    obtain ⟨idle, rfl⟩ := enter_eq_some hb
    exact h.enter (by simpa [State.mayRun, CxlShm.Action.client] using live) idle (by simp)
      (by simp)
  | reuse o w =>
    obtain ⟨free, rfl⟩ := reuse_eq_some hb
    refine h.update (.words rfl (fun _ _ pending => pending) fun x live => .inl ⟨live, ?_⟩)
      (fun _ hu => .inl hu) (fun _ hu more => .inl ⟨hu, more⟩) (fun _ _ live' hc => .inl ⟨live', hc⟩)
      (fun _ _ live' ha => .inl ⟨live', ha⟩) (fun _ _ hm => .inl hm) h.busy h.dead
    refine Function.update_of_ne ?_ _ _
    rintro rfl
    exact absurd live (by simp [State.note, free])

omit [DecidableEq Loc] in
/-- The monitor moves on, without an access. -/
theorem Fresh.setMonitor (h : Fresh s) {m : Monitor Loc}
    (unlink : ∀ t c, m = .unlink t c → c.pc = .loadInfo) (busy : ∀ t, m.slot = some t → s.dead t) :
    Fresh (s.setMonitor m) := by
  refine h.update (.still rfl rfl rfl fun _ _ pending => pending) (fun _ hu => .inl hu)
    (fun _ hu more => .inl ⟨hu, more⟩) (fun _ _ live' hc => .inl ⟨live', hc⟩)
    (fun _ _ live' ha => .inl ⟨live', ha⟩) (fun t c hm => .inr ?_) busy h.dead
  have pc := unlink t c hm
  exact ⟨fun late => absurd pc late, fun known => absurd pc known.1, by simp [pc]⟩

theorem Fresh.monitor (h : Fresh s) {weak : Bool} (hs : s.monitorStep weak = some s')
    (objects : OnObjects s (.monitor weak)) (noWrap : NoWrap s (.monitor weak)) : Fresh s' := by
  have stopped : ∀ t, s.monitor.slot = some t → s.dead t := h.busy
  unfold State.monitorStep at hs
  cases hm : s.monitor with
  | idle | collect t => simp [hm] at hs
  | select t =>
    simp only [hm, Option.some.injEq] at hs
    subst hs
    have dead := stopped t (by rw [hm]; rfl)
    refine h.setMonitor ?_ ?_ <;> split
    · simp
    · simp
    · rintro _ ⟨⟩
      exact dead
    · rintro _ ⟨⟩
      exact dead
  | loadCid t i e | loadEra t i e cid =>
    simp only [hm, Option.some.injEq] at hs
    subst hs
    have dead := stopped t (by rw [hm]; rfl)
    refine h.setMonitor ?_ ?_ <;> try split
    all_goals first
      | rintro _ _ ⟨⟩
      | rintro _ ⟨⟩
        exact dead
  | scan t i e j maxEra =>
    have dead := stopped t (by rw [hm]; rfl)
    simp only [hm] at hs
    split at hs <;> obtain rfl := Option.some.inj hs <;> refine h.setMonitor ?_ ?_ <;> try split
    all_goals first
      | rintro _ _ ⟨⟩
      | rintro _ ⟨⟩
        exact dead
  | store t i e =>
    have dead := stopped t (by rw [hm]; rfl)
    simp only [hm, Option.some.injEq] at hs
    subst hs
    refine h.update (.still rfl rfl rfl fun _ _ pending => pending) (fun _ hu => .inl hu)
      (fun _ hu more => .inl ⟨hu, more⟩) (fun _ _ live' hc => .inl ⟨live', hc⟩)
      (fun _ _ live' ha => .inl ⟨live', ha⟩) (fun _ _ hm => by cases hm) (fun u slot => ?_) h.dead
    cases slot
    exact dead
  | unlink t c =>
    have dead := stopped t (by rw [hm]; rfl)
    simp only [hm, Option.some.injEq] at hs
    obtain ⟨object, fits⟩ := objects t c hm
    have effect : Call.Effect Call.recoveryKnowsEra t s.base.mem c weak s'.base.mem
        (c.recoveryExec t s.base.mem weak).2 := by
      rw [← hs]
      exact Call.effect_recoveryExec
    have ctl : s'.base.ctl = s.base.ctl := by rw [← hs]
    have deads : s'.dead = s.dead := by rw [← hs]
    obtain ⟨advance, next⟩ := h.access effect (h.id_of_unlink hm) (h.unlink t c hm)
      (fun pc => by simp [Call.recoveryKnowsEra, pc]) object fits (noWrap t c hm)
      (by rw [← hs]) (fun u o _ pending => by rwa [Pending, ctl, deads])
      (fun _ _ _ => .inl (deads ▸ dead))
    have monitor : s'.monitor =
        (c.recoveryExec t s.base.mem weak).2.elim (.collect t) (.unlink t) := by rw [← hs]
    refine h.update advance (fun _ hu => .inl (ctl ▸ hu)) (fun _ hu more => .inl ⟨ctl ▸ hu, ctl ▸ more⟩)
      (fun _ _ live' hc => .inl ⟨deads ▸ live', ctl ▸ hc⟩)
      (fun _ _ live' ha => .inl ⟨deads ▸ live', ctl ▸ ha⟩) (fun u c' hm' => .inr ?_) (fun u slot => ?_)
      (fun u hu => ctl.symm ▸ h.dead u (deads ▸ hu))
    · cases rest : (c.recoveryExec t s.base.mem weak).2 with
      | none => simp [monitor, rest] at hm'
      | some c'' =>
        obtain ⟨rfl, rfl⟩ : t = u ∧ c'' = c' := by simpa [monitor, rest] using hm'
        exact next c'' rest
    · rw [deads]
      cases rest : (c.recoveryExec t s.base.mem weak).2 <;> rw [monitor, rest] at slot <;>
        cases slot <;> exact dead

theorem Fresh.step (h : Fresh s) {a : Action Loc} (hs : s.step a = some s') (sane : Sane s a s') :
    Fresh s' := by
  cases a with
  | client a =>
    simp only [State.step] at hs
    split at hs
    · obtain ⟨b, hb, rfl⟩ := Option.map_eq_some_iff.1 hs
      exact h.ofClient hb ‹_› sane
    · cases hs
  | crash t =>
    simp only [State.step] at hs
    split at hs
    · rename_i stops
      obtain rfl := Option.some.inj hs
      have dead : ∀ u, Function.update s.dead t true u = false → s.dead u = false := by
        intro u live
        by_cases hu : u = t
        · simp [hu] at live
        · simpa [hu] using live
      have keeps : ∀ u, s.dead u → Function.update s.dead t true u := by
        intro u stopped
        by_cases hu : u = t
        · simp [hu]
        · simpa [hu] using stopped
      refine h.update (.still rfl rfl rfl fun u o pending => pending.imp_left (keeps u))
        (fun _ hu => .inl hu) (fun _ hu more => .inl ⟨hu, more⟩)
        (fun u _ live' hc => .inl ⟨dead u live', hc⟩) (fun u _ live' ha => .inl ⟨dead u live', ha⟩)
        (fun _ _ hm => .inl hm) (fun u slot => keeps u (h.busy u slot)) fun u stopped => ?_
      by_cases hu : u = t
      · exact hu ▸ stops.2
      · exact h.dead u (by simpa [hu] using stopped)
    · cases hs
  | check t =>
    simp only [State.step] at hs
    split at hs
    · obtain rfl := Option.some.inj hs
      refine h.setMonitor (fun _ _ hm => by cases hm) fun u slot => ?_
      cases slot
      exact And.right ‹_›
    · cases hs
  | monitor weak => exact h.monitor hs sane.2.1 sane.2.2
  | dropRef r =>
    simp only [State.step] at hs
    cases hm : s.monitor with
    | collect t =>
      simp only [hm] at hs
      split at hs
      · obtain rfl := Option.some.inj hs
        refine h.setMonitor (fun u c same => ?_) fun u slot => ?_
        · cases same
          rfl
        · cases slot
          exact h.busy t (by rw [hm]; rfl)
      · cases hs
    | _ => simp [hm] at hs
  | release =>
    simp only [State.step] at hs
    cases hm : s.monitor with
    | collect t =>
      simp only [hm, Option.some.injEq] at hs
      subst hs
      have others : ∀ u, u ≠ t → (s.base.setCtl t .absent).ctl u = s.base.ctl u := fun u hu =>
        Function.update_of_ne hu _ _
      have here : (s.base.setCtl t .absent).ctl t = .absent := Function.update_self _ _ _
      have deads : ∀ u, u ≠ t → Function.update s.dead t false u = s.dead u := fun u hu =>
        Function.update_of_ne hu _ _
      have runs : ∀ u k, k ≠ .absent → (s.base.setCtl t .absent).ctl u = k →
          u ≠ t ∧ s.base.ctl u = k := by
        intro u k some hk
        have hut : u ≠ t := by
          rintro rfl
          exact some (hk.symm.trans here)
        exact ⟨hut, others u hut ▸ hk⟩
      have registered : ∀ u, ((s.base.setCtl t .absent).ctl u).registered →
          u ≠ t ∧ (s.base.ctl u).registered := by
        intro u hu
        have hut : u ≠ t := by
          rintro rfl
          simp [here, Control.registered] at hu
        exact ⟨hut, others u hut ▸ hu⟩
      refine h.update (.still rfl rfl rfl fun u o pending => ?_)
        (fun u hu => .inl (registered u hu).2)
        (fun u hu more => .inl ⟨(registered u hu).2, others u (registered u hu).1 ▸ more⟩)
        (fun u c live' hc => .inl ?_) (fun u a live' ha => .inl ?_) (fun _ _ hm => by cases hm)
        (fun _ slot => by cases slot) fun u stopped => ?_
      · by_cases hut : u = t
        · exact .inr (.inl (hut ▸ here))
        · simp only [Pending, others u hut, deads u hut]
          exact pending
      · obtain ⟨hut, before⟩ := runs u _ (by simp) hc
        exact ⟨deads u hut ▸ live', before⟩
      · obtain ⟨hut, before⟩ := runs u _ (by simp) ha
        exact ⟨deads u hut ▸ live', before⟩
      · by_cases hut : u = t
        · simp [hut] at stopped
        · exact (others u hut).symm ▸ h.dead u (deads u hut ▸ stopped)
    | _ => simp [hm] at hs

theorem fresh_of_reachable (hs : Reachable State.step Sane State.init s) : Fresh s :=
  hs.invariant .init fun _ _ _ h step sane => h.step step sane

omit [DecidableEq Loc] in
/-- A record of an era of `t` is of an era before the current one, if none is under way. -/
theorem Fresh.record_lt (h : Fresh s) {t u : ℕ} (ht : IsThreadId t) (hu : IsThreadId u) (hut : u ≠ t)
    (pos : 0 < s.base.mem.era t t) (settled : ∀ o, ¬ Pending s t o) :
    s.base.mem.era u t < s.base.mem.era t t := by
  rcases h.row u t hu ht hut with none | ⟨o, -, old | ⟨-, pending⟩⟩
  · omega
  · exact old
  · exact absurd pending (settled o)

/-- The client is registered, past `thread_init`, and has not stopped. -/
def Running (s : State Loc) (t : ℕ) : Prop :=
  s.dead t = false ∧ (s.base.ctl t).registered ∧ s.base.ctl t ≠ .starting

/-- An operation of client `t` on `o` is past its compare-exchange and before the increment. -/
def UnderWay (s : State Loc) (t : ℕ) (o : Offset) : Prop :=
  ∃ c, s.base.ctl t = .call c ∧ (c.pc = .storeRef ∨ c.pc = .bumpEra) ∧ c.refed = o

omit [DecidableEq Loc] in
theorem Running.underWay {t : ℕ} {o : Offset} (running : Running s t) (pending : Pending s t o) :
    UnderWay s t o := by
  obtain ⟨live, registered, past⟩ := running
  rcases pending with stopped | none | first | call
  · simp [live] at stopped
  · simp [none, Control.registered] at registered
  · exact absurd first past
  · exact call

/-- In the runs considered, what is recorded or stamped of the eras of `t` is at most its current
era.  While `t` runs, stamps are of earlier eras, but for the one of the operation under way; and
between operations so are the records, so that a redo of an entry of the current era has no evidence
for it. -/
theorem eras_fresh (hs : Reachable State.step Sane State.init s) {t u : ℕ} (ht : IsThreadId t)
    (hu : IsThreadId u) (hut : u ≠ t) :
    s.base.mem.era u t ≤ s.base.mem.era t t ∧
    (∀ o, s.base.allocated o → getLcidFromInfo (s.base.mem.refInfo o) = t →
      getLenumFromInfo (s.base.mem.refInfo o) ≤ s.base.mem.era t t) ∧
    (Running s t →
      (∀ o, s.base.allocated o → getLcidFromInfo (s.base.mem.refInfo o) = t → ¬ UnderWay s t o →
        getLenumFromInfo (s.base.mem.refInfo o) < s.base.mem.era t t) ∧
      ((∀ o, ¬ UnderWay s t o) → s.base.mem.era u t < s.base.mem.era t t ∧
        ∀ e, e.curEra = s.base.mem.era t t → s.base.allocated e.refed →
          needRedo s.base.mem t e = false)) := by
  have h := fresh_of_reachable hs
  have stamp : ∀ o, s.base.allocated o → getLcidFromInfo (s.base.mem.refInfo o) = t →
      Issued s t o (getLenumFromInfo (s.base.mem.refInfo o)) := by
    rintro o live rfl
    exact h.stamp o live
  refine ⟨?_, fun o live own => (stamp o live own).le, fun running => ?_⟩
  · rcases h.row u t hu ht hut with none | ⟨o, issued⟩
    · omega
    · exact issued.le
  have pos := h.started t running.2.1 running.2.2
  have older : ∀ o, s.base.allocated o → getLcidFromInfo (s.base.mem.refInfo o) = t →
      ¬ UnderWay s t o → getLenumFromInfo (s.base.mem.refInfo o) < s.base.mem.era t t := by
    intro o live own apart
    obtain ⟨-, old | ⟨-, pending⟩⟩ := stamp o live own
    · exact old
    · exact absurd (running.underWay pending) apart
  refine ⟨older, fun settled => ?_⟩
  have records : ∀ v, IsThreadId v → v ≠ t → s.base.mem.era v t < s.base.mem.era t t :=
    fun v hv hvt => h.record_lt ht hv hvt pos fun o pending => settled o (running.underWay pending)
  refine ⟨records u hu hut, fun e now live => ?_⟩
  by_contra need
  rw [Bool.not_eq_false, needRedo, decide_eq_true_eq, now] at need
  rcases need with ⟨own, same⟩ | recorded
  · have := older e.refed live own (settled _)
    omega
  · obtain ⟨j, small, hjt, most⟩ := (le_maxEra_iff pos).1 recorded
    by_cases zero : j = 0
    · have none : s.base.mem.era 0 t = 0 := by
        refine h.below _ ?_
        simp only [IsThreadId, eraIndex, maxThread] at *
        omega
      rw [zero, none] at most
      omega
    · have := records j ⟨by omega, small.le⟩ hjt
      omega

/-! ## Runs in which nobody stops -/

/-- What callers promise includes that operations are on objects. -/
theorem clientOnObjects_of_permitted {b b' : CxlShm.State Loc} {a : CxlShm.Action Loc}
    (acc : Accounted b) (hb : b.step a = some b') (permitted : Permitted b a b') :
    ClientOnObjects b a := by
  cases a with
  | run t weak =>
    intro c hc
    refine ⟨fun pc => allocated_of_announced acc hc (by simp [pc, Pc.announced]), ?_⟩
    rintro pc rfl word
    rw [step_run_call hc] at hb
    obtain rfl := Option.some.inj hb
    exact countFits_of_accounted acc hc pc word permitted.2.2
  | threadInit _ | link _ _ _ | unlink _ _ _ | malloc _ _ _ | mallocGeneric _ | reuse _ _ => trivial

theorem exists_of_permitted {ok : CxlShm.State Loc → CxlShm.Action Loc → CxlShm.State Loc → Prop}
    (ok' : State Loc → Action Loc → State Loc → Prop) {b : CxlShm.State Loc}
    (hb : Reachable CxlShm.State.step ok CxlShm.State.init b)
    (permitted : ∀ b a b', ok b a b' → Permitted b a b')
    (lift : ∀ s a b', ok s.base a b' → ClientOnObjects s.base a → ok' s (.client a) (s.note a b')) :
    ∃ s, Reachable State.step ok' State.init s ∧ s.base = b ∧ ∀ t, s.dead t = false := by
  have on : Reachable CxlShm.State.step (fun b a b' => ok b a b' ∧ ClientOnObjects b a)
      CxlShm.State.init b := hb.mono_of fun b a b' before hstep ok =>
    ⟨ok, clientOnObjects_of_permitted (accounted_of_reachable (before.mono permitted)) hstep
      (permitted b a b' ok)⟩
  exact exists_of_crashFree ok' on fun s a b' ⟨permits, object⟩ => lift s a b' permits object

omit [DecidableEq Loc] in
theorem withinRows_client {a : CxlShm.Action Loc} (within : CxlShm.WithinRows a) :
    WithinRows (.client a) := fun t same => within t (by cases same; rfl)

/-! ## Counters that wrap -/

/-- The condition without the one on the counters. -/
def MayWrap (b : CxlShm.State Loc) (a : CxlShm.Action Loc) (_ : CxlShm.State Loc) : Prop :=
  CxlShm.WithinRows a ∧ ClientOnObjects b a

section

variable {b₀ b : CxlShm.State Loc}

omit [DecidableEq Loc] in
theorem mayWrap_run {k : Control Loc} (hk : b.ctl t = k) (noCall : ∀ c, k ≠ .call c) {weak : Bool}
    {b' : CxlShm.State Loc} : MayWrap b (.run t weak) b' :=
  ⟨fun _ same => (by cases same), fun c hc => absurd (hk.symm.trans hc) (noCall c)⟩

/-- The next access of an activation. -/
theorem reachable_access (h : Reachable CxlShm.State.step MayWrap b₀ b) {c : Call Loc}
    (hc : b.ctl t = .call c) (object : ReadsObject b c false) {b' : CxlShm.State Loc}
    (hb : b.runCall t c false = b') : Reachable CxlShm.State.step MayWrap b₀ b' := by
  subst hb
  refine h.next (step_run_call hc) ⟨fun _ same => (by cases same), fun c' hc' => ?_⟩
  obtain rfl : c = c' := by simpa using hc.symm.trans hc'
  exact object

/-- A `cxl_malloc` by itself. -/
theorem malloc_run (idle : b.ctl t = .idle) (r : Loc) (o : Offset) :
    ∃ b', Reachable CxlShm.State.step MayWrap b b' ∧ b'.ctl t = .idle ∧ b'.allocated o ∧
      b'.mem = ((b.mem.setLoc r o).bumpEra t).setRefInfo o (packRefInfo t 1 (b.mem.era t t)) := by
  let a : Alloc Loc := ⟨r, o, .storePptr, 0, 0⟩
  let b₁ := b.setCtl t (.alloc a)
  let b₂ := b₁.runAlloc t a
  let b₃ := b₂.runAlloc t { a with pc := .loadEra }
  let a₃ : Alloc Loc := { a with
    info := packRefInfo t 1 (b.mem.era t t)
    curEra := b.mem.era t t
    pc := .bumpEra }
  let b₄ := b₃.runAlloc t a₃
  have step : ∀ (b' : CxlShm.State Loc) (a' : Alloc Loc), b'.ctl t = .alloc a' →
      b'.step (.run t false) = some (b'.runAlloc t a') := fun b' a' ha => by
    simp [CxlShm.State.step, CxlShm.State.run, ha]
  have h₁ : b.step (.malloc t r o) = some b₁ := by simp [CxlShm.State.step, CxlShm.State.enter, idle, b₁, a]
  have at₁ : b₁.ctl t = .alloc a := Function.update_self _ _ _
  have at₂ : b₂.ctl t = .alloc { a with pc := .loadEra } := Function.update_self _ _ _
  have at₃ : b₃.ctl t = .alloc a₃ := Function.update_self _ _ _
  have at₄ : b₄.ctl t = .alloc { a₃ with pc := .storeInfo } := Function.update_self _ _ _
  refine ⟨b₄.runAlloc t { a₃ with pc := .storeInfo },
    ((((Reachable.start.next h₁ ⟨fun _ same => (by cases same), trivial⟩).next (step _ _ at₁)
      (mayWrap_run at₁ (by simp))).next (step _ _ at₂) (mayWrap_run at₂ (by simp))).next
      (step _ _ at₃) (mayWrap_run at₃ (by simp))).next (step _ _ at₄) (mayWrap_run at₄ (by simp)),
    Function.update_self _ _ _, Function.update_self _ _ _, rfl⟩

/-- An `unlink_reference` of the last reference, of an object that the client itself has stamped in
an earlier era, by itself. -/
theorem unlink_run (idle : b.ctl t = .idle) (r : Loc) {o : Offset} {e : ℕ} (id : IsThreadId t)
    (live : b.allocated o) (word : b.mem.refInfo o = packRefInfo t 1 e) (old : e < b.mem.era t t)
    (small : e < 2 ^ 32) :
    ∃ b', Reachable CxlShm.State.step MayWrap b b' ∧ b'.ctl t = .idle ∧
      b'.mem.eraArray = (b.mem.bumpEra t).eraArray := by
  have thread : t < 2 ^ 16 := by
    have := id.2
    simp only [maxThread] at this
    omega
  let c : Call Loc := ⟨.unlinkRef, r, o, .loadInfo, 0, 0⟩
  let c₁ : Call Loc := { c with refInfo := packRefInfo t 1 e, pc := .testEle }
  let c₂ : Call Loc := { c₁ with pc := .loadEra }
  let c₃ : Call Loc := { c₂ with curEra := b.mem.era t t, pc := .storeRedo }
  have count : c₃.refInfoCnt = 1 :=
    getRefCntFromInfo_packRefInfo (by norm_num : 1 < 2 ^ 16) small
  have saw : ¬ b.mem.era t c₁.sawCid < c₁.sawEra := by
    simp only [Call.sawCid, Call.sawEra, c₁,
      getLcidFromInfo_packRefInfo thread (by norm_num : 1 < 2 ^ 16) small,
      getLenumFromInfo_packRefInfo small]
    omega
  let c₄ : Call Loc := { c₃ with pc := .cas }
  let c₅ : Call Loc := { c₄ with pc := .storeRef }
  let c₆ : Call Loc := { c₅ with pc := .bumpEra }
  have last : c₆.last = true := decide_eq_true ⟨rfl, count⟩
  let b₁ := b.setCtl t (.call c)
  let b₂ := b₁.setCtl t (.call c₁)
  let b₃ := b₂.setCtl t (.call c₂)
  let b₄ := b₃.setCtl t (.call c₃)
  let b₅ := { b₄ with mem := b.mem.setRedo t (c₃.curEra % redoCachelineCnt) (some c₃.redoLog) }.setCtl
    t (.call c₄)
  let b₆ := { b₅ with
    mem := b₅.mem.setRefInfo o (c₄.newRefInfo t)
    trace := b.trace ++ [Event.casOk t c₄.redoLog] }.setCtl t (.call c₅)
  let b₇ := { b₆ with mem := b₆.mem.setLoc r 0 }.setCtl t (.call c₆)
  let b₈ := { b₇ with mem := b₇.mem.bumpEra t }.setCtl t (.call { c₆ with pc := .free })
  have h₁ : b.step (.unlink t r o) = some b₁ := by
    simp [CxlShm.State.step, CxlShm.State.enter, idle, c, b₁]
  have r₁ : Reachable CxlShm.State.step MayWrap b b₁ :=
    Reachable.start.next h₁ ⟨fun _ same => (by cases same), trivial⟩
  have r₂ : Reachable CxlShm.State.step MayWrap b b₂ := by
    refine reachable_access r₁ (Function.update_self _ _ _) ⟨fun _ => live, by simp⟩ ?_
    rw [runCall_loadInfo rfl]
    simp only [b₂, b₁, c₁, ← word]
    rfl
  have r₃ : Reachable CxlShm.State.step MayWrap b b₃ := by
    refine reachable_access r₂ (Function.update_self _ _ _) ⟨by simp, by simp⟩ ?_
    have test : (if b₂.mem.era t c₁.sawCid < c₁.sawEra then Pc.storeEle else c₁.afterEle) =
        .loadEra := if_neg saw
    rw [runCall_testEle rfl, test]
  have r₄ : Reachable CxlShm.State.step MayWrap b b₄ := by
    refine reachable_access r₃ (Function.update_self _ _ _) ⟨by simp, by simp⟩ ?_
    rw [runCall_loadEra rfl]
    rfl
  have r₅ : Reachable CxlShm.State.step MayWrap b b₅ := by
    refine reachable_access r₄ (Function.update_self _ _ _) ⟨by simp, by simp⟩ ?_
    rw [runCall_storeRedo rfl]
    rfl
  have r₆ : Reachable CxlShm.State.step MayWrap b b₆ := by
    refine reachable_access r₅ (Function.update_self _ _ _) ⟨by simp [c₄], fun _ _ _ => ?_⟩ ?_
    · exact Nat.lt_of_lt_of_eq Nat.zero_lt_one count.symm
    · rw [runCall_cas rfl word]
      rfl
  have r₇ : Reachable CxlShm.State.step MayWrap b b₇ := by
    refine reachable_access r₆ (Function.update_self _ _ _) ⟨by simp [c₅], by simp [c₅]⟩ ?_
    rw [runCall_storeRef rfl]
    rfl
  have r₈ : Reachable CxlShm.State.step MayWrap b b₈ := by
    refine reachable_access r₇ (Function.update_self _ _ _) ⟨by simp [c₆], by simp [c₆]⟩ ?_
    rw [runCall_bumpEra rfl, last, if_pos rfl]
  refine ⟨b₈.runCall t { c₆ with pc := .free } false,
    reachable_access r₈ (Function.update_self _ _ _) ⟨by simp, by simp⟩ rfl, ?_, ?_⟩
  · rw [runCall_free rfl]
    exact Function.update_self _ _ _
  · rw [runCall_free rfl]
    rfl

/-- A `cxl_malloc` whose only reference is dropped at once takes two eras. -/
theorem round_run (idle : b.ctl t = .idle) (id : IsThreadId t) (r : Loc) (o : Offset)
    (small : b.mem.era t t + 1 < 2 ^ 32) :
    ∃ b', Reachable CxlShm.State.step MayWrap b b' ∧ b'.ctl t = .idle ∧
      b'.mem.era t t = (b.mem.era t t + 2) % 2 ^ 32 ∧ ∀ u, u ≠ t → b'.mem.era u t = b.mem.era u t := by
  obtain ⟨b₁, r₁, idle₁, live, mem⟩ := malloc_run idle r o
  have era : ∀ u, b₁.mem.era u t = if u = t then b.mem.era t t + 1 else b.mem.era u t := by
    intro u
    have same : b₁.mem.era u t = (b.mem.bumpEra t).era u t := by rw [mem]; rfl
    rw [same, Mem.bumpEra, Mem.era_setEra b.mem _ id id, Nat.mod_eq_of_lt small]
    simp
  have own : b₁.mem.era t t = b.mem.era t t + 1 := by simp [era]
  obtain ⟨b₂, r₂, idle₂, eras⟩ := unlink_run (e := b.mem.era t t) idle₁ r id live
    (by rw [mem]; exact Function.update_self _ _ _) (by omega) (by omega)
  have era₂ : ∀ u, b₂.mem.era u t = if u = t then (b.mem.era t t + 2) % 2 ^ 32 else b.mem.era u t := by
    intro u
    have same : b₂.mem.era u t = (b₁.mem.bumpEra t).era u t := by rw [Mem.era, eras]; rfl
    rw [same, Mem.bumpEra, Mem.era_setEra b₁.mem _ id id, own]
    by_cases hu : u = t <;> simp [hu, era]
  refine ⟨b₂, r₁.trans r₂, idle₂, by simp [era₂], fun u hu => by simp [era₂, hu]⟩

/-- From an even era on, the counter comes to 0. -/
theorem wrap_run (idle : b.ctl t = .idle) (id : IsThreadId t) (r : Loc) (o : Offset) {n : ℕ}
    (last : b.mem.era t t + 2 * n + 2 = 2 ^ 32) :
    ∃ b', Reachable CxlShm.State.step MayWrap b b' ∧ b'.ctl t = .idle ∧ b'.mem.era t t = 0 ∧
      ∀ u, u ≠ t → b'.mem.era u t = b.mem.era u t := by
  induction n generalizing b with
  | zero =>
    obtain ⟨b₁, r₁, idle₁, own, others⟩ := round_run idle id r o (by omega)
    refine ⟨b₁, r₁, idle₁, ?_, others⟩
    rw [own, show b.mem.era t t + 2 = 2 ^ 32 by omega, Nat.mod_self]
  | succ n ih =>
    obtain ⟨b₁, r₁, idle₁, own, others⟩ := round_run idle id r o (by omega)
    have small : b.mem.era t t + 2 < 2 ^ 32 := by omega
    rw [Nat.mod_eq_of_lt small] at own
    obtain ⟨b₂, r₂, idle₂, zero, others₂⟩ := ih idle₁ (by omega)
    exact ⟨b₂, r₁.trans r₂, idle₂, zero, fun u hu => (others₂ u hu).trans (others u hu)⟩

end

end

end

/-! ## Counts that carry -/

/-- The words read are those of objects, whatever their count. -/
def OnLive (s : State Loc) : Action Loc → Prop
  | .client a => ReadsLive s.base a
  | .monitor _ => ∀ t c, s.monitor = .unlink t c → c.pc = .loadInfo → s.base.allocated c.refed
  | .crash _ | .check _ | .dropRef _ | .release => True

/-- As `Sane`, whatever the counts. -/
def AnyCount (s : State Loc) (a : Action Loc) (_ : State Loc) : Prop :=
  WithinRows a ∧ OnLive s a ∧ NoWrap s a

/-- The same of clients alone. -/
def ClientAnyCount (b : CxlShm.State Loc) (a : CxlShm.Action Loc) (_ : CxlShm.State Loc) : Prop :=
  CxlShm.WithinRows a ∧ ReadsLive b a ∧ CxlShm.NoWrap b a

section

variable [DecidableEq Loc] {b : CxlShm.State Loc}

/-- The registration of a client. -/
theorem register_run (absent : b.ctl t = .absent) (pos : 0 < t) (low : t ≤ maxThread)
    (first : ∀ u < t, 0 < u → (b.ctl u).registered)
    (small : b.mem.era t t + 1 < 2 ^ 32) :
    ∃ b', Reachable CxlShm.State.step ClientAnyCount b b' ∧
      b' = { b with mem := b.mem.bumpEra t }.setCtl t .idle := by
  let b₁ := b.setCtl t .starting
  have at_start : b₁.ctl t = .starting := Function.update_self _ _ _
  have h₁ : b.step (.threadInit t) = some b₁ := by
    simp only [CxlShm.State.step, absent]
    exact if_pos ⟨pos, first⟩
  have h₂ : b₁.step (.run t false) = some ({ b with mem := b.mem.bumpEra t }.setCtl t .idle) := by
    simp [CxlShm.State.step, CxlShm.State.run, b₁, CxlShm.State.setCtl]
  have within : CxlShm.WithinRows (.threadInit t : CxlShm.Action Loc) := by
    rintro _ ⟨⟩
    exact low
  have quiet : ReadsLive b₁ (.run t false) := fun c hc => by
    rw [at_start] at hc
    cases hc
  exact ⟨_, (Reachable.start.next h₁ ⟨within, trivial, trivial⟩).next h₂
    ⟨fun _ same => (by cases same), quiet, fun _ => small⟩, rfl⟩

/-- A link up to the record that it makes of the client and the era in the word. -/
theorem record_run (idle : b.ctl t = .idle) (r : Loc) {o : Offset} (live : b.allocated o)
    (saw : b.mem.era t (getLcidFromInfo (b.mem.refInfo o)) < getLenumFromInfo (b.mem.refInfo o)) :
    ∃ b', Reachable CxlShm.State.step ClientAnyCount b b' ∧
      b'.mem = b.mem.setEra t (getLcidFromInfo (b.mem.refInfo o))
        (getLenumFromInfo (b.mem.refInfo o)) ∧ ∀ u, u ≠ t → b'.ctl u = b.ctl u := by
  let c : Call Loc := ⟨.linkRef, r, o, .loadInfo, 0, 0⟩
  let c₁ : Call Loc := { c with refInfo := b.mem.refInfo o, pc := .loadEra }
  let c₂ : Call Loc := { c₁ with curEra := b.mem.era t t, pc := .testEle }
  let c₃ : Call Loc := { c₂ with pc := .storeEle }
  have access : ∀ (s : CxlShm.State Loc) (d d' : Call Loc) (m : Mem Loc),
      Reachable CxlShm.State.step ClientAnyCount b (s.setCtl t (.call d)) →
      (d.pc = .loadInfo → s.allocated d.refed) → d.pc ≠ .bumpEra →
      (s.setCtl t (.call d)).runCall t d false =
        { s.setCtl t (.call d) with mem := m }.setCtl t (.call d') →
      Reachable CxlShm.State.step ClientAnyCount b ({ s with mem := m }.setCtl t (.call d')) := by
    intro s d d' m reached object early ran
    have at_d : (s.setCtl t (.call d)).ctl t = .call d := Function.update_self _ _ _
    have reads : ReadsLive (s.setCtl t (.call d)) (.run t false) := fun d' hd' => by
      obtain rfl := Control.call.inj (at_d.symm.trans hd')
      exact object
    have called : (s.setCtl t (.call d)).step (.run t false) =
        some ((s.setCtl t (.call d)).runCall t d false) := step_run_call at_d
    have next := reached.next called
      ⟨fun _ same => (by cases same), reads, by simp [CxlShm.NoWrap, at_d, Control.bumps, early]⟩
    rw [ran] at next
    simpa [CxlShm.State.setCtl] using next
  have h₀ : b.step (.link t r o) = some (b.setCtl t (.call c)) := by
    simp [CxlShm.State.step, CxlShm.State.enter, idle, c]
  have r₀ : Reachable CxlShm.State.step ClientAnyCount b (b.setCtl t (.call c)) :=
    Reachable.start.next h₀ ⟨fun _ same => (by cases same), trivial, trivial⟩
  have r₁ := access b c c₁ b.mem r₀ (fun _ => live) (by simp [c]) (runCall_loadInfo rfl)
  have r₂ := access b c₁ c₂ b.mem r₁ (by simp [c₁]) (by simp [c₁]) (runCall_loadEra rfl)
  have r₃ := access b c₂ c₃ b.mem r₂ (by simp [c₂]) (by simp [c₂]) (by
    rw [runCall_testEle rfl]
    exact congrArg (fun pc => (b.setCtl t (.call c₂)).setCtl t (.call { c₂ with pc := pc }))
      (if_pos saw))
  have r₄ := access b c₃ { c₃ with pc := .storeRedo } _ r₃ (by simp [c₃]) (by simp [c₃])
    (runCall_storeEle rfl)
  exact ⟨_, r₄, rfl, fun u hu => Function.update_of_ne hu _ _⟩

end

/-- The word of an object with 65536 references is stamped with the id of client 2 and the era of
client 1; client 1 records it when it links once more. -/
theorem exists_carried : ∃ b : CxlShm.State ℕ,
    Reachable CxlShm.State.step ClientAnyCount CxlShm.State.init b ∧ b.ctl 2 = .idle ∧
      b.mem.era 1 2 = 65536 ∧ b.mem.era 2 2 = 1 := by
  have one : IsThreadId 1 := ⟨by decide, by decide⟩
  have two : IsThreadId 2 := ⟨by decide, by decide⟩
  obtain ⟨b, alone, loc, word, -, zero⟩ := exists_holds (n := 65536) (by norm_num) (by norm_num)
  have reached : Reachable CxlShm.State.step ClientAnyCount CxlShm.State.init b :=
    alone.reached.mono fun _ _ _ ok => ⟨ok.1.2.2, ok.2.2, ok.2.1⟩
  have era₂ : b.mem.era 2 2 = 0 := zero _ (by decide)
  have era₁₂ : b.mem.era 1 2 = 0 := zero _ (by decide)
  have first : ∀ u < 2, 0 < u → (b.ctl u).registered := by
    intro u below pos
    obtain rfl : u = 1 := by omega
    simp [alone.ctl, Control.registered]
  obtain ⟨b₁, r₁, rfl⟩ := register_run (t := 2) (by simp [alone.ctl]) (by decide) (by decide) first
    (by rw [era₂]; norm_num)
  have eras : ∀ u, IsThreadId u → (b.mem.bumpEra 2).era 2 u = if u = 2 then 1 else b.mem.era 2 u := by
    intro u id
    rw [Mem.bumpEra, Mem.era_setEra b.mem _ two id, era₂]
    simp
  have cid : getLcidFromInfo (packRefInfo 1 65536 65536) = 2 := by decide
  have lenum : getLenumFromInfo (packRefInfo 1 65536 65536) = 65536 := by decide
  have none : (b.mem.bumpEra 2).era 1 2 = 0 := by
    rw [Mem.bumpEra, Mem.era_setEra b.mem _ two two, era₁₂]
    simp
  have read : (b.mem.bumpEra 2).refInfo 8 = packRefInfo 1 65536 65536 := word
  obtain ⟨b₂, r₂, mem, others⟩ := record_run
    (b := { b with mem := b.mem.bumpEra 2 }.setCtl 2 .idle) (t := 1)
    (by simp [CxlShm.State.setCtl, alone.ctl]) 65536 (o := 8) alone.live (by
      show (b.mem.bumpEra 2).era 1 (getLcidFromInfo ((b.mem.bumpEra 2).refInfo 8)) <
        getLenumFromInfo ((b.mem.bumpEra 2).refInfo 8)
      rw [read, cid, lenum, none]
      norm_num)
  have recorded : b₂.mem = (b.mem.bumpEra 2).setEra 1 2 65536 := by
    rw [mem]
    show (b.mem.bumpEra 2).setEra 1 (getLcidFromInfo ((b.mem.bumpEra 2).refInfo 8))
      (getLenumFromInfo ((b.mem.bumpEra 2).refInfo 8)) = _
    rw [read, cid, lenum]
  refine ⟨b₂, (reached.trans r₁).trans r₂, ?_, ?_, ?_⟩
  · rw [others 2 (by decide)]
    simp [CxlShm.State.setCtl]
  · rw [recorded, Mem.era_setEra _ _ two two]
    simp
  · rw [recorded, Mem.era_setEra _ _ two two, eras 2 two]
    simp

/-! ## Runs of a few clients -/

/-- Client 1 has allocated object 8 and client 2 has recorded its era; client 2 has stopped. -/
theorem eras_fresh_recorded : ∃ s : State (Fin 3), Reachable State.step Sane State.init s ∧
    s.dead 2 ∧ s.base.mem.era 2 1 = 1 ∧ s.base.mem.era 2 1 < s.base.mem.era 1 1 := by
  let actions : List (CxlShm.Action (Fin 3)) :=
    [.run 1 false, .run 2 false, .malloc 1 1 8] ++ List.replicate 4 (.run 1 false) ++
      [.link 2 2 8] ++ List.replicate 8 (.run 2 false)
  have run : (checkedRun CxlShm.State.step (trial {1, 2}) (claimed 2) actions).any
      (fun b => b.ctl 1 = .idle ∧ b.ctl 2 = .idle ∧ b.mem.era 2 1 = 1) = true := by
    decide +kernel
  obtain ⟨b, hb, last⟩ := exists_reachable_of_trial Orderly (by decide) (fun _ _ _ ok _ => ok)
    (fun k hk => ⟨permitted_claimed k, by rintro _ ⟨⟩; simp only [maxThread]; omega, trivial⟩) run
  simp only [Bool.decide_and, Bool.and_eq_true, decide_eq_true_eq] at last
  obtain ⟨s, hs, rfl, live⟩ := exists_of_permitted Sane hb (fun _ _ _ ok => ok.1)
    fun s a b' ok object => ⟨withinRows_client ok.2.1, object, ok.2.2⟩
  have stops : s.step (.crash 2) = some { s with dead := Function.update s.dead 2 true } := by
    simp [State.step, live, last.2.1, Control.registered]
  have reached := hs.next stops ⟨fun _ same => (by cases same), trivial, trivial⟩
  refine ⟨_, reached, by simp, last.2.2, ?_⟩
  have fresh := eras_fresh reached (t := 1) (u := 2) ⟨by decide, by decide⟩
    ⟨by decide, by decide⟩ (by decide)
  refine (fresh.2.2 ⟨?_, ?_, ?_⟩).2 (fun o => ?_) |>.1
  · simp [live]
  · simp [last.1, Control.registered]
  · simp [last.1]
  · rintro ⟨c, hc, -⟩
    simp [last.1] at hc

/-- The records of the eras of client `t` are of earlier eras. -/
def RecordsBelow (s : State Loc) (t : ℕ) : Prop :=
  ∀ u, IsThreadId u → u ≠ t → s.base.mem.era u t < s.base.mem.era t t

/-- A `put` of client 1 has written its log entry, and the entry already counts as carried out. -/
def putLogged (s : Hash.Crash.State) : Bool :=
  match s.pos with
  | .link c => c.pc = .cas ∧ c.curEra = s.mem.era 1 1 ∧ needRedo s.mem 1 c.redoLog = true
  | _ => false

/-- A record can be of the operation under way; of an era that a counter that has wrapped has yet to
reach, with nothing under way; with ids beyond the rows, of somebody else; and of an era of somebody
else too where a count has carried into the id.  And a `put` stamps its element with the current era
before the compare-exchange, so that its log entry is redone. -/
theorem records_not_below :
    (¬ ∀ s : State (Fin 3), Reachable State.step Sane State.init s →
      ∀ t, IsThreadId t → Running s t → RecordsBelow s t) ∧
    (¬ ∀ s : State (Fin 3),
      Reachable State.step (fun s a _ => WithinRows a ∧ OnObjects s a) State.init s →
        ∀ t, IsThreadId t → Running s t → (∀ o, ¬ UnderWay s t o) → RecordsBelow s t) ∧
    (¬ ∀ s : State (Fin 3),
      Reachable State.step (fun s a _ => OnObjects s a ∧ NoWrap s a) State.init s →
        ∀ t, IsThreadId t → Running s t → (∀ o, ¬ UnderWay s t o) → RecordsBelow s t) ∧
    (¬ ∀ s : State ℕ, Reachable State.step AnyCount State.init s →
      ∀ t, IsThreadId t → Running s t → (∀ o, ¬ UnderWay s t o) → RecordsBelow s t) ∧
    (¬ ∀ s : Hash.Crash.State,
      Reachable (Hash.Crash.State.step 1) (Hash.Crash.Careful 1) Hash.Crash.State.init s →
        ∀ c, s.pos = .link c → c.pc = .cas → c.curEra = s.mem.era 1 1 →
          needRedo s.mem 1 c.redoLog = false) := by
  have one : IsThreadId 1 := ⟨by decide, by decide⟩
  have two : IsThreadId 2 := ⟨by decide, by decide⟩
  refine ⟨fun below => ?_, fun below => ?_, fun below => ?_, fun below => ?_, fun unseen => ?_⟩
  · -- client 2 reads the word that the link of client 1 has just stored
    let actions : List (CxlShm.Action (Fin 3)) :=
      [.run 1 false, .run 2 false, .malloc 1 1 8] ++ List.replicate 4 (.run 1 false) ++
        [.link 1 0 8] ++ List.replicate 5 (.run 1 false) ++
        [.link 2 2 8] ++ List.replicate 4 (.run 2 false)
    have run : (checkedRun CxlShm.State.step (trial {1, 2}) (claimed 2) actions).any
        (fun b => b.mem.era 2 1 = 2 ∧ b.mem.era 1 1 = 2 ∧ (b.ctl 1).registered ∧
          b.ctl 1 ≠ .starting) = true := by
      decide +kernel
    obtain ⟨b, hb, last⟩ := exists_reachable_of_trial Orderly (by decide) (fun _ _ _ ok _ => ok)
      (fun k hk => ⟨permitted_claimed k, by rintro _ ⟨⟩; simp only [maxThread]; omega, trivial⟩) run
    simp only [Bool.decide_and, Bool.and_eq_true, decide_eq_true_eq] at last
    obtain ⟨s, hs, rfl, live⟩ := exists_of_permitted Sane hb (fun _ _ _ ok => ok.1)
      fun s a b' ok object => ⟨withinRows_client ok.2.1, object, ok.2.2⟩
    have := below s hs 1 one ⟨live 1, last.2.2.1, last.2.2.2⟩ 2 two (by decide)
    omega
  · let actions : List (CxlShm.Action (Fin 3)) :=
      [.run 1 false, .run 2 false, .malloc 1 1 8] ++ List.replicate 4 (.run 1 false) ++
        [.link 2 2 8] ++ List.replicate 8 (.run 2 false)
    have run : (checkedRun CxlShm.State.step (trial {1, 2}) (claimed 2) actions).any
        (fun b => b.ctl 1 = .idle ∧ b.ctl 2 = .idle ∧ b.mem.era 2 1 = 1 ∧ b.mem.era 1 1 = 2) = true := by
      decide +kernel
    obtain ⟨b, hb, last⟩ := exists_reachable_of_trial Orderly (by decide) (fun _ _ _ ok _ => ok)
      (fun k hk => ⟨permitted_claimed k, by rintro _ ⟨⟩; simp only [maxThread]; omega, trivial⟩) run
    simp only [Bool.decide_and, Bool.and_eq_true, decide_eq_true_eq] at last
    have may : Reachable CxlShm.State.step MayWrap CxlShm.State.init b :=
      hb.mono_of fun b a b' before hstep ok => ⟨ok.2.1,
        clientOnObjects_of_permitted (accounted_of_orderly before) hstep ok.1⟩
    obtain ⟨b', wrapped, idle, zero, others⟩ :=
      wrap_run last.1 one 0 16 (n := 2 ^ 31 - 2) (by rw [last.2.2.2]; norm_num)
    obtain ⟨s, hs, rfl, live⟩ := exists_of_crashFree
      (fun s a _ => WithinRows a ∧ OnObjects s a) (may.trans wrapped)
      fun s a b' ok => ⟨withinRows_client ok.1, ok.2⟩
    have settled : ∀ o, ¬ UnderWay s 1 o := by
      rintro o ⟨c, hc, -⟩
      simp [idle] at hc
    have := below s hs 1 one ⟨live 1, by simp [idle, Control.registered], by simp [idle]⟩ settled
      2 two (by decide)
    omega
  · -- `era(1, 1025)` is the word of `era(2, 1)`
    let actions : List (CxlShm.Action (Fin 3)) :=
      [.run 1 false, .run 1025 false, .malloc 1025 0 8] ++ List.replicate 4 (.run 1025 false) ++
        [.link 1025 2 8] ++ List.replicate 7 (.run 1025 false) ++
        [.link 1 1 8] ++ List.replicate 4 (.run 1 false)
    have run : (checkedRun CxlShm.State.step (trial {1, 1025}) (claimed 1025) actions).any
        (fun b => b.ctl 1 = .call ⟨.linkRef, 1, 8, .storeRedo, packRefInfo 1025 2 2, 1⟩ ∧
          b.mem.era 2 1 = 2 ∧ b.mem.era 1 1 = 1) = true := by
      decide +kernel
    obtain ⟨b, hb, last⟩ := exists_reachable_of_trial
      (fun b a b' => Permitted b a b' ∧ CxlShm.NoWrap b a) (by decide)
      (fun _ _ _ ok _ => ⟨ok.1, ok.2.2⟩) (fun k _ => ⟨permitted_claimed k, trivial⟩) run
    simp only [Bool.decide_and, Bool.and_eq_true, decide_eq_true_eq] at last
    obtain ⟨s, hs, rfl, live⟩ := exists_of_permitted
      (fun s a _ => OnObjects s a ∧ NoWrap s a) hb (fun _ _ _ ok => ok.1)
      fun s a b' ok object => ⟨object, ok.2⟩
    have settled : ∀ o, ¬ UnderWay s 1 o := by
      rintro o ⟨c, hc, pc, -⟩
      obtain rfl := Control.call.inj (last.1.symm.trans hc)
      simp at pc
    have := below s hs 1 one ⟨live 1, by simp [last.1, Control.registered], by simp [last.1]⟩ settled
      2 two (by decide)
    omega
  · obtain ⟨b, hb, idle, seen, current⟩ := exists_carried
    obtain ⟨s, hs, rfl, live⟩ := exists_of_crashFree AnyCount hb
      fun s a b' ok => ⟨withinRows_client ok.1, ok.2.1, ok.2.2⟩
    have settled : ∀ o, ¬ UnderWay s 2 o := by
      rintro o ⟨c, hc, -⟩
      simp [idle] at hc
    have := below s hs 2 two ⟨live 2, by simp [idle, Control.registered], by simp [idle]⟩ settled
      1 one (by decide)
    omega
  · -- client 1 has written the log entry of its first `put`
    obtain ⟨s, reached, evidence⟩ := Hash.Crash.exists_firstPut (n := 9) (P := putLogged)
      (by decide +kernel)
    cases pos : s.pos with
    | link c =>
      obtain ⟨pc, era, redone⟩ : c.pc = .cas ∧ c.curEra = s.mem.era 1 1 ∧
          needRedo s.mem 1 c.redoLog = true := by
        simpa [putLogged, pos] using evidence
      rw [unseen s reached c pos pc era] at redone
      cases redone
    | idle | walk key value | found value d | alloc key value entry | clearing key value entry i
    | fill w key value entry block => simp [putLogged, pos] at evidence

end Recovery

end CxlShm
