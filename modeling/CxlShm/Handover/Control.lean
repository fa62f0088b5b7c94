import CxlShm.Handover.Places

/-!
# Who works on the segment

The words `sas->thread_id` and `segment->thread_id` say which client may do what: only the client
that the header names works on pages, the header is empty while a client takes the segment or gives
it back, and the monitor works on the pages of nobody but a client that has stopped or left.
-/

namespace CxlShm.Handover

open Function

/-- The client takes the segment or gives it back. -/
def Pc.Taking : Pc → Prop
  | .storeInfo | .storeThreadId | .releaseSegment => True
  | _ => False

/-- The client works on pages of its own. -/
def Pc.Owning : Pc → Prop
  | .pushFreePages | .pushPage _ _ | .storeBlock _ _ _ | .walk _ _ _ | .merge _ | .loadUsed _
  | .abandon | .freeLocal _ _ | .removePage _ _ | .clearPage _ | .clearSegment => True
  | _ => False

/-- The slot that the monitor recovers. -/
def Monitor.slot : Monitor → Option ℕ
  | .idle | .loopPage _ | .loopScan _ _ _ | .loopClearPage _ _ | .loopClearSegment | .loopStoreInfo
  | .loopRelease => none
  | .sweep t | .memset t _ | .loadThreadId t _ | .load t _ | .storeNext t _ _ | .cas t _ _ | .page t _
  | .scan t _ _ _ | .clearPage t _ _ | .abandon t _ | .segment t | .clearSegment t | .release t
  | .freeTls t => some t

/-- The pages of objects that the monitor is at, or has still to get to, in a recovery. -/
def Monitor.worklist : Monitor → List ℕ
  | .page _ rest | .abandon _ rest => rest
  | .scan _ p _ rest | .clearPage _ p rest => p :: rest
  | _ => []

/-- The segment has been given back, but not yet the slot. -/
def Monitor.leaving : Monitor → Option ℕ
  | .release t | .freeTls t => some t
  | _ => none

/-- The monitor has come to the segment in its loop over all segments. -/
def Monitor.Looping : Monitor → Prop
  | .loopPage _ | .loopScan _ _ _ | .loopClearPage _ _ | .loopClearSegment | .loopStoreInfo
  | .loopRelease => True
  | _ => False

/-- What the two words say of the clients and of the monitor. -/
structure Control (s : State) : Prop where
  running : ∀ t, s.pc t ≠ .idle → s.slot t = .running
  registered : ∀ t, s.slot t ≠ .free → t ≠ 0
  header : s.segmentThreadId ≠ 0 → s.sasThreadId = s.segmentThreadId
  taking : ∀ t, (s.pc t).Taking → s.sasThreadId = t ∧ s.segmentThreadId = 0
  empty : ∀ t, s.pc t = .storeThreadId → s.info.threadFree = 0
  owning : ∀ t, (s.pc t).Owning → s.segmentThreadId = t
  blank : s.segmentThreadId = 0 → s.segmentUsed = 0 ∧
    ∀ page, s.used page = 0 ∧ s.free page = 0 ∧ s.localFree page = 0
  pages : ∀ t i page, page ∈ s.pages t i →
    s.slot t ≠ .free ∧ (s.segmentThreadId = t ∨ s.monitor.leaving = some t)
  freePage : ∀ t page, page ∈ s.freePage t →
    s.slot t ≠ .free ∧ (s.segmentThreadId = t ∨ s.monitor.leaving = some t)
  stopped : ∀ t, s.monitor.slot = some t → s.slot t = .stopped
  worklist : ∀ t page, s.monitor.slot = some t → page ∈ s.monitor.worklist → s.segmentThreadId = t
  clearing : ∀ t, s.monitor = .clearSegment t → s.sasThreadId = t
  releasing : ∀ t, s.monitor = .release t → s.sasThreadId = t ∧ s.segmentThreadId = 0
  looping : s.monitor.Looping → s.sasThreadId ≠ 0 ∧ (∀ t, ¬ (s.pc t).Taking) ∧
    (s.segmentThreadId ≠ 0 → s.slot s.segmentThreadId = .free)
  looped : s.monitor = .loopStoreInfo ∨ s.monitor = .loopRelease → s.segmentThreadId = 0

/-- The two states agree on the words that say who owns what. -/
structure SameOwner (s s' : State) : Prop where
  sasThreadId : s'.sasThreadId = s.sasThreadId
  segmentThreadId : s'.segmentThreadId = s.segmentThreadId
  slot : s'.slot = s.slot

namespace Control

variable {s s' : State} {t : ℕ} {p : Pc} {m : Monitor}

theorem leaving_slot {u : ℕ} (h : m.leaving = some u) : m.slot = some u := by
  cases m <;> simp_all [Monitor.leaving, Monitor.slot]

/-- What is in a queue of a running client is the owner's. -/
theorem owner_of_mem (h : Control s) {i page : ℕ} (running : s.slot t = .running)
    (mem : page ∈ s.pages t i) : s.segmentThreadId = t := by
  obtain ⟨-, owner | leaving⟩ := h.pages t i page mem
  · exact owner
  · rw [h.stopped t (leaving_slot leaving)] at running
    cases running

theorem owner_of_free (h : Control s) {page : ℕ} (running : s.slot t = .running)
    (mem : page ∈ s.freePage t) : s.segmentThreadId = t := by
  obtain ⟨-, owner | leaving⟩ := h.freePage t page mem
  · exact owner
  · rw [h.stopped t (leaving_slot leaving)] at running
    cases running

theorem kept_of_owner (running : s.slot t = .running) (owner : s.segmentThreadId = t) : s.Kept := by
  rw [State.Kept, owner]
  exact running

theorem owned_of_kept (h : Control s) (kept : s.Kept) : s.segmentThreadId ≠ 0 := by
  apply h.registered
  rw [State.Kept] at kept
  simp [kept]

theorem kept_of_owning (h : Control s) (owning : (s.pc t).Owning) : s.Kept := by
  have busy : s.pc t ≠ .idle := by
    intro idle
    rw [idle] at owning
    exact owning
  exact kept_of_owner (h.running t busy) (h.owning t owning)

/-- A step of client `t` that leaves the two words as they are. -/
theorem client (h : Control s) (pc : s'.pc = update s.pc t p) (same : SameOwner s s')
    (monitor : s'.monitor = s.monitor) (running : s.slot t = .running) (taking : ¬ p.Taking)
    (owning : p.Owning → s.segmentThreadId = t)
    (chain : s.segmentThreadId = 0 → s'.info.threadFree = s.info.threadFree)
    (blank : s.segmentThreadId = 0 → s'.segmentUsed = s.segmentUsed ∧ s'.used = s.used ∧
      s'.free = s.free ∧ s'.localFree = s.localFree)
    (pages : ∀ u i page, page ∈ s'.pages u i → page ∈ s.pages u i ∨ u = t ∧ s.segmentThreadId = t)
    (freePage : ∀ u page, page ∈ s'.freePage u →
      page ∈ s.freePage u ∨ u = t ∧ s.segmentThreadId = t) : Control s' := by
  have used : s.slot t ≠ .free := by simp [running]
  have other : ∀ u, (s'.pc u).Taking → u ≠ t ∧ (s.pc u).Taking := by
    intro u taking_u
    rw [pc] at taking_u
    by_cases here : u = t
    · subst here
      rw [update_self] at taking_u
      exact absurd taking_u taking
    · rw [update_of_ne here] at taking_u
      exact ⟨here, taking_u⟩
  refine ⟨?_, ?_, ?_, ?_, ?_, ?_, ?_, ?_, ?_, ?_, ?_, ?_, ?_, ?_, ?_⟩
  · intro u busy
    rw [same.slot]
    by_cases here : u = t
    · rw [here]
      exact running
    · rw [pc, update_of_ne here] at busy
      exact h.running u busy
  · rw [same.slot]
    exact h.registered
  · rw [same.segmentThreadId, same.sasThreadId]
    exact h.header
  · intro u taking_u
    rw [same.segmentThreadId, same.sasThreadId]
    exact h.taking u (other u taking_u).2
  · intro u at_store
    have taking_u : (s.pc u).Taking := (other u (by rw [at_store]; trivial)).2
    rw [chain (h.taking u taking_u).2]
    apply h.empty u
    have elsewhere := (other u (by rw [at_store]; trivial)).1
    rwa [pc, update_of_ne elsewhere] at at_store
  · intro u owning_u
    rw [same.segmentThreadId]
    by_cases here : u = t
    · subst here
      rw [pc, update_self] at owning_u
      exact owning owning_u
    · rw [pc, update_of_ne here] at owning_u
      exact h.owning u owning_u
  · intro none
    rw [same.segmentThreadId] at none
    obtain ⟨segmentUsed, blocks, free, localFree⟩ := blank none
    rw [segmentUsed, blocks, free, localFree]
    exact h.blank none
  · intro u i page mem
    rw [same.segmentThreadId, same.slot, monitor]
    rcases pages u i page mem with old | ⟨rfl, owner⟩
    · exact h.pages u i page old
    · exact ⟨used, .inl owner⟩
  · intro u page mem
    rw [same.segmentThreadId, same.slot, monitor]
    rcases freePage u page mem with old | ⟨rfl, owner⟩
    · exact h.freePage u page old
    · exact ⟨used, .inl owner⟩
  · rw [monitor, same.slot]
    exact h.stopped
  · rw [monitor, same.segmentThreadId]
    exact h.worklist
  · rw [monitor, same.sasThreadId]
    exact h.clearing
  · rw [monitor, same.sasThreadId, same.segmentThreadId]
    exact h.releasing
  · rw [monitor, same.sasThreadId, same.segmentThreadId, same.slot]
    intro looping
    obtain ⟨taken, none, gone⟩ := h.looping looping
    exact ⟨taken, fun u taking_u => none u (other u taking_u).2, gone⟩
  · rw [monitor, same.segmentThreadId]
    exact h.looped

/-- A step of the monitor that leaves the two words as they are. -/
theorem monitor (h : Control s) (pc : s'.pc = s.pc) (same : SameOwner s s')
    (chain : s'.info.threadFree = s.info.threadFree ∨ s.segmentThreadId ≠ 0)
    (blank : s.segmentThreadId = 0 → s'.segmentUsed = s.segmentUsed ∧
      ∀ page, s'.used page = 0 ∧ s'.free page = 0 ∧ s'.localFree page = 0)
    (pages : s'.pages = s.pages) (freePage : s'.freePage = s.freePage)
    (leaving : ∀ t, s.monitor.leaving = some t → s'.monitor.leaving = some t)
    (slot : ∀ t, s'.monitor.slot = some t → s.slot t = .stopped)
    (worklist : ∀ t page, s'.monitor.slot = some t → page ∈ s'.monitor.worklist →
      s.segmentThreadId = t)
    (clearing : ∀ t, s'.monitor = .clearSegment t → s.sasThreadId = t)
    (releasing : ∀ t, s'.monitor ≠ .release t)
    (looping : s'.monitor.Looping → s.sasThreadId ≠ 0 ∧ (∀ t, ¬ (s.pc t).Taking) ∧
      (s.segmentThreadId ≠ 0 → s.slot s.segmentThreadId = .free))
    (looped : ¬ (s'.monitor = .loopStoreInfo ∨ s'.monitor = .loopRelease)) : Control s' := by
  refine ⟨?_, ?_, ?_, ?_, ?_, ?_, ?_, ?_, ?_, ?_, ?_, ?_, ?_, ?_, ?_⟩
  · rw [pc, same.slot]
    exact h.running
  · rw [same.slot]
    exact h.registered
  · rw [same.segmentThreadId, same.sasThreadId]
    exact h.header
  · rw [pc, same.segmentThreadId, same.sasThreadId]
    exact h.taking
  · intro t at_store
    rw [pc] at at_store
    rcases chain with chain | owned
    · rw [chain]
      exact h.empty t at_store
    · exact absurd (h.taking t (by rw [at_store]; trivial)).2 owned
  · rw [pc, same.segmentThreadId]
    exact h.owning
  · intro none
    rw [same.segmentThreadId] at none
    rw [(blank none).1]
    exact ⟨(h.blank none).1, (blank none).2⟩
  · intro t i page mem
    rw [pages] at mem
    rw [same.segmentThreadId, same.slot]
    obtain ⟨nonzero, owner⟩ := h.pages t i page mem
    exact ⟨nonzero, owner.imp_right (leaving t)⟩
  · intro t page mem
    rw [freePage] at mem
    rw [same.segmentThreadId, same.slot]
    obtain ⟨nonzero, owner⟩ := h.freePage t page mem
    exact ⟨nonzero, owner.imp_right (leaving t)⟩
  · rw [same.slot]
    exact slot
  · rw [same.segmentThreadId]
    exact worklist
  · rw [same.sasThreadId]
    exact clearing
  · intro t at_release
    exact absurd at_release (releasing t)
  · rw [same.sasThreadId, same.segmentThreadId, same.slot, pc]
    exact looping
  · intro at_loop
    exact absurd at_loop looped

end Control

end CxlShm.Handover
