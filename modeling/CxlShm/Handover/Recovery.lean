import CxlShm.Handover.Turns

/-!
# The accesses of the monitor

The monitor recovers the slot of a client that has stopped: it drops the references of the client,
looks for objects that are still in use, and clears what is not.  In its loop over all segments it
does the same with a segment whose owner has gone.  Each access keeps the invariant; a record, or
the whole header, is cleared only when nothing of it is in use.
-/

namespace CxlShm.Handover

open Linked Function Heap Counting

variable {g t i era page : ℕ} {bin : ℕ → Option ℕ} {place place' : Offset → Place} {s s' : State}
  {b : Offset} {v : Place} {m : Monitor} {info : StateFreeInfo}

theorem not_looping_of_slot (h : m.slot = some t) : ¬ m.Looping := by
  cases m <;> simp [Monitor.slot, Monitor.Looping] at h ⊢

/-- The monitor is in the recovery of a slot, and stays there. -/
theorem Control.recovering (h : Control s) (pc : s'.pc = s.pc) (same : SameRecords s s')
    (free : s'.free = s.free) (localFree : s'.localFree = s.localFree)
    (chain : s'.info.threadFree = s.info.threadFree ∨ s.segmentThreadId ≠ 0)
    (before : s.monitor.leaving = none) (stopped : s.slot t = .stopped)
    (after : s'.monitor.slot = some t)
    (worklist : ∀ page ∈ s'.monitor.worklist, s.segmentThreadId = t)
    (clearing : s'.monitor = .clearSegment t → s.sasThreadId = t)
    (releasing : s'.monitor ≠ .release t) : Control s' := by
  refine h.monitor pc same.toSameOwner chain ?_ same.pages same.freePage ?_ ?_ ?_ ?_ ?_ ?_ ?_
  · intro none
    rw [same.segmentUsed, same.used, free, localFree]
    exact ⟨rfl, (h.blank none).2⟩
  · intro u leaving
    rw [before] at leaving
    cases leaving
  · intro u at_u
    rw [after] at at_u
    rw [← Option.some.inj at_u]
    exact stopped
  · intro u x at_u mem
    rw [after] at at_u
    rw [← Option.some.inj at_u]
    exact worklist x mem
  · intro u at_clear
    have at_u : s'.monitor.slot = some u := by rw [at_clear]; rfl
    rw [after] at at_u
    obtain rfl := Option.some.inj at_u
    exact clearing at_clear
  · intro u at_release
    have at_u : s'.monitor.slot = some u := by rw [at_release]; rfl
    rw [after] at at_u
    obtain rfl := Option.some.inj at_u
    exact releasing at_release
  · intro looping
    exact absurd looping (not_looping_of_slot after)
  · rintro (at_loop | at_loop) <;> rw [at_loop] at after <;> cases after

namespace Inv

/-- A step of the monitor that leaves the records as they are. -/
theorem monitor (h : Inv g bin place s) (pc : s'.pc = s.pc) (same : SameRecords s s')
    (free : s'.free = s.free) (places : Places place' s') (control : Control s')
    (inside : ∀ b, place' b ≠ .outside ↔ place b ≠ .outside)
    (counted : ∀ b, (place' b).Counted ↔ (place b).Counted)
    (suits : s.Kept → ∀ b, (place' b).Suits (bin (cxlPtrPage b)))
    (objects : ∀ b, place' b = .object → place b = .object)
    (ahead : ¬ s.Kept → ∀ b, place' b = .object →
      s'.monitor.Ahead s.segmentThreadId s'.info.state b) : Inv g bin place' s' := by
  refine ⟨places, control, ?_, ?_⟩
  · intro kept
    rw [same.kept] at kept
    refine (h.owned kept).keep same.segmentThreadId same.segmentUsed same.blockSize same.used
      same.isMsgQueuePage (by rw [same.pages]) (by rw [same.freePage]) inside counted (suits kept)
      (by rw [pc]) (by rw [pc]; exact id) ?_
    rw [pc]
    exact (h.owned kept).todo
  · intro gone
    rw [same.kept] at gone
    exact (h.remains gone).keep same objects free (ahead gone)

/-- The same, when no block moves. -/
theorem watch (h : Inv g bin place s) (pc : s'.pc = s.pc) (same : SameRecords s s')
    (free : s'.free = s.free) (places : Places place s') (control : Control s')
    (ahead : ¬ s.Kept → ∀ b, place b = .object →
      s'.monitor.Ahead s.segmentThreadId s'.info.state b) : Inv g bin place s' :=
  h.monitor pc same free places control (fun _ => Iff.rfl) (fun _ => Iff.rfl)
    (fun kept => (h.owned kept).suits) (fun _ => id) ahead

/-- The same, when one block moves. -/
theorem handle (h : Inv g bin place s) (pc : s'.pc = s.pc) (same : SameRecords s s')
    (free : s'.free = s.free) (places : Places (update place b v) s') (control : Control s')
    (old : (place b).Counted) (new : v.Counted)
    (suits : s.Kept → v.Suits (bin (cxlPtrPage b))) (object : v ≠ .object)
    (ahead : ∀ b, s'.monitor.Ahead s.segmentThreadId s'.info.state b) :
    Inv g bin (update place b v) s' := by
  have inside : ∀ w : Place, w.Counted → w ≠ .outside := by
    rintro w counted rfl
    exact counted
  refine h.monitor pc same free places control ?_ ?_ ?_ ?_ (fun _ b _ => ahead b)
  · intro x
    by_cases here : x = b
    · subst here
      rw [update_self]
      exact iff_of_true (inside _ new) (inside _ old)
    · rw [update_of_ne here]
  · intro x
    by_cases here : x = b
    · subst here
      rw [update_self]
      exact iff_of_true new old
    · rw [update_of_ne here]
  · intro kept x
    by_cases here : x = b
    · subst here
      rw [update_self]
      exact suits kept
    · rw [update_of_ne here]
      exact (h.owned kept).suits x
  · intro x
    by_cases here : x = b
    · subst here
      rw [update_self]
      exact fun absurd => (object absurd).elim
    · rw [update_of_ne here]
      exact id

/-- The slot that the monitor recovers is that of a client that has stopped. -/
theorem stopped (h : Inv g bin place s) (at_t : s.monitor.slot = some t) : s.slot t = .stopped :=
  h.control.stopped t at_t

/-! ## The references of the client -/

theorem recover (h : Inv g bin place s) (idle : s.monitor = .idle) (stopped : s.slot t = .stopped) :
    Inv g bin place (s.setMonitor (.sweep t)) := by
  refine h.watch rfl ⟨⟨rfl, rfl, rfl⟩, rfl, rfl, rfl, rfl, rfl, rfl⟩ rfl ?_ ?_ (fun _ _ _ => trivial)
  · exact h.places.setMonitor (by rw [idle]; rfl) (by rintro b x ⟨⟩)
  · exact h.control.recovering rfl ⟨⟨rfl, rfl, rfl⟩, rfl, rfl, rfl, rfl, rfl, rfl⟩ rfl rfl (.inl rfl)
      (by rw [idle]; rfl) stopped rfl (by simp [Monitor.worklist, State.setMonitor]) (by rintro ⟨⟩)
      (by rintro ⟨⟩)

section Sweep

variable (at_sweep : s.monitor = .sweep t)
include at_sweep

/-- A step in the sweeps that writes neither records nor queues. -/
theorem sweeping (h : Inv g bin place s) (pc : s'.pc = s.pc) (same : SameRecords s s')
    (monitor : s'.monitor = s.monitor) (free : s'.free = s.free)
    (localFree : s'.localFree = s.localFree) (chain : s'.info.threadFree = s.info.threadFree) :
    Control s' := by
  refine h.control.recovering (t := t) pc same free localFree (.inl chain) (by rw [at_sweep]; rfl)
    (h.stopped (by rw [at_sweep]; rfl)) ?_ ?_ ?_ ?_ <;> rw [monitor, at_sweep]
  · rfl
  · simp [Monitor.worklist]
  · rintro ⟨⟩
  · rintro ⟨⟩

theorem redo {w u : ℕ} (h : Inv g bin place s) (root : s.rootOf b = some u) :
    Inv g bin place (s.setNext b w) := by
  refine h.watch rfl ⟨⟨rfl, rfl, rfl⟩, rfl, rfl, rfl, rfl, rfl, rfl⟩ rfl (h.places.storeRoot root) ?_ ?_
  · exact h.sweeping at_sweep rfl ⟨⟨rfl, rfl, rfl⟩, rfl, rfl, rfl, rfl, rfl, rfl⟩ rfl rfl rfl rfl
  · intro _ x _
    show s.monitor.Ahead _ _ x
    rw [at_sweep]
    trivial

/-- The state of the segment is set. -/
theorem mark {state : SegmentState} (h : Inv g bin place s) :
    Inv g bin place { s with info := ⟨state, s.info.threadFree⟩ } := by
  refine h.watch rfl ⟨⟨rfl, rfl, rfl⟩, rfl, rfl, rfl, rfl, rfl, rfl⟩ rfl ?_ ?_ ?_
  · exact h.places.frame rfl (fun _ _ _ => rfl) rfl rfl rfl h.places.live h.places.ready rfl rfl id
  · exact h.sweeping at_sweep rfl ⟨⟨rfl, rfl, rfl⟩, rfl, rfl, rfl, rfl, rfl, rfl⟩ rfl rfl rfl rfl
  · intro _ x _
    show s.monitor.Ahead _ _ x
    rw [at_sweep]
    trivial

theorem dropRef (h : Inv g bin place s) (object : s.object b = true)
    (more : 0 < getRefCntFromInfo (s.refInfo b) - 1) : Inv g bin place (s.dropRef t b era) := by
  refine h.watch rfl ⟨⟨rfl, rfl, rfl⟩, rfl, rfl, rfl, rfl, rfl, rfl⟩ rfl
    (h.places.dropRef object more) ?_ ?_
  · exact h.sweeping at_sweep rfl ⟨⟨rfl, rfl, rfl⟩, rfl, rfl, rfl, rfl, rfl, rfl⟩ rfl rfl rfl rfl
  · intro _ x _
    show s.monitor.Ahead _ _ x
    rw [at_sweep]
    trivial

theorem dropLast (h : Inv g bin place s) (object : s.object b = true)
    (last : ¬ 0 < getRefCntFromInfo (s.refInfo b) - 1) :
    Inv g bin (update place b (.held none)) ((s.dropRef t b era).setMonitor (.memset t b)) := by
  have at_b := (h.places.object b).1 object
  refine h.handle rfl ⟨⟨rfl, rfl, rfl⟩, rfl, rfl, rfl, rfl, rfl, rfl⟩ rfl ?_ ?_ (by rw [at_b]; trivial)
    trivial (fun _ => trivial) (by simp) (fun _ => trivial)
  · exact h.places.dropLast object last (by simp [State.held, at_sweep, Monitor.held]) rfl rfl
      (show _ = (s.dropRef t b era).refInfo from rfl) rfl rfl (held_setMonitor _ _) (linked_setMonitor _ _) rfl rfl rfl
  · exact h.control.recovering rfl ⟨⟨rfl, rfl, rfl⟩, rfl, rfl, rfl, rfl, rfl, rfl⟩ rfl rfl (.inl rfl)
      (by rw [at_sweep]; rfl) (h.stopped (by rw [at_sweep]; rfl)) rfl
      (by simp [Monitor.worklist, State.setMonitor]) (by rintro ⟨⟩) (by rintro ⟨⟩)

/-- A `RootRef` of the client is on its way to `recovery_cxl_free`. -/
theorem clearRoot (h : Inv g bin place s) (root : s.rootOf b = some t) :
    Inv g bin (update place b (.held none))
      ({ s with rootOf := update s.rootOf b none }.setMonitor (.memset t b)) := by
  have at_b := (h.places.root b t).1 root
  refine h.handle rfl ⟨⟨rfl, rfl, rfl⟩, rfl, rfl, rfl, rfl, rfl, rfl⟩ rfl ?_ ?_ (by rw [at_b]; trivial)
    trivial (fun _ => trivial) (by simp) (fun _ => trivial)
  · refine h.places.take (by simp [State.held, at_sweep, Monitor.held]) (by simp [at_b])
      (by simp [at_b]) ?_ (fun _ _ => rfl) ?_ ?_ (update_self _ _ _) (held_setMonitor _ _)
      (linked_setMonitor _ _) (fun _ _ => rfl) (fun _ _ => rfl) (fun _ _ => rfl) ?_ rfl rfl
    · exact h.places.lists_same (v := .lost) (by simp [at_b]) rfl rfl rfl
    · show s.object b = false
      rw [← Bool.not_eq_true, h.places.object, at_b]
      simp
    · intro x other
      exact update_of_ne other _ _
    · exact h.places.born b (by rw [at_b]; trivial)
  · exact h.control.recovering rfl ⟨⟨rfl, rfl, rfl⟩, rfl, rfl, rfl, rfl, rfl, rfl⟩ rfl rfl (.inl rfl)
      (by rw [at_sweep]; rfl) (h.stopped (by rw [at_sweep]; rfl)) rfl
      (by simp [Monitor.worklist, State.setMonitor]) (by rintro ⟨⟩) (by rintro ⟨⟩)

end Sweep

/-! ## A block goes on the chain of its segment -/

section Free

/-- The monitor keeps a block in hand. -/
theorem freeing {m : Monitor} (h : Inv g bin place s) (pc : s'.pc = s.pc) (same : SameRecords s s')
    (free : s'.free = s.free) (localFree : s'.localFree = s.localFree)
    (chain : s'.info.threadFree = s.info.threadFree ∨ s.segmentThreadId ≠ 0)
    (at_t : s.monitor.slot = some t) (hand : s.monitor.held ≠ none) (monitor : s'.monitor = m)
    (after : m.slot = some t) (next : m.held ≠ none ∨ m = .sweep t) : Control s' := by
  have work : m.worklist = [] := by
    rcases next with next | rfl
    · cases m <;> simp [Monitor.held, Monitor.worklist] at next ⊢
    · rfl
  refine h.control.recovering (t := t) pc same free localFree chain ?_ (h.stopped at_t)
    (by rw [monitor, after]) ?_ ?_ ?_
  · cases at_m : s.monitor <;> rw [at_m] at hand <;> first
      | rfl
      | exact absurd rfl hand
  · rw [monitor, work]
    simp
  · rw [monitor]
    rintro rfl
    simp [Monitor.held] at next
  · rw [monitor]
    rintro rfl
    simp [Monitor.held] at next

theorem clearFreed (h : Inv g bin place s) (at_m : s.monitor = .memset t b) :
    Inv g bin place ((s.clearBlock b).setMonitor (.loadThreadId t b)) := by
  have at_b : place b = .held none := h.places.in_hand (by simp [State.held, at_m, Monitor.held])
  refine h.watch rfl ⟨⟨rfl, rfl, rfl⟩, rfl, rfl, rfl, rfl, rfl, rfl⟩ rfl ?_ ?_ (fun _ _ _ => trivial)
  · refine h.places.write at_b rfl ?_ ?_ rfl rfl ?_ (linked_setMonitor _ _) (by rintro x y ⟨⟩) rfl rfl rfl
    · intro x other
      exact update_of_ne other _ _
    · intro x other
      exact update_of_ne other _ _
    · refine held_setMonitor_same _ ?_
      show Monitor.held _ = s.monitor.held
      rw [at_m]
      rfl
  · exact h.freeing (m := .loadThreadId t b) rfl ⟨⟨rfl, rfl, rfl⟩, rfl, rfl, rfl, rfl, rfl, rfl⟩ rfl rfl (.inl rfl)
      (by rw [at_m]; rfl) (by simp [at_m, Monitor.held]) rfl rfl (.inl (by simp [Monitor.held]))

/-- A block of the segment of the client itself is not pushed. -/
theorem keepFreed (h : Inv g bin place s) (at_m : s.monitor = .loadThreadId t b) :
    Inv g bin (update place b .lost) (s.setMonitor (.sweep t)) := by
  have at_b : place b = .held none := h.places.in_hand (by simp [State.held, at_m, Monitor.held])
  refine h.handle rfl ⟨⟨rfl, rfl, rfl⟩, rfl, rfl, rfl, rfl, rfl, rfl⟩ rfl ?_ ?_ (by rw [at_b]; trivial)
    trivial (fun _ => trivial) (by simp) (fun _ => trivial)
  · refine h.places.release at_b (by rintro o ⟨⟩) ?_ (by rintro q ⟨⟩) (fun _ _ => rfl) ?_
      (fun _ _ => rfl) ?_ (held_setMonitor _ _) (linked_setMonitor _ _) (fun _ _ => rfl)
      (fun _ _ => rfl) (by rintro ⟨⟩) rfl rfl rfl
    · exact h.places.lists_same (by simp [at_b]) rfl rfl rfl
    · show s.object b = true ↔ _
      simp [h.places.object, at_b]
    · intro u
      show s.rootOf b = some u ↔ _
      simp [h.places.root, at_b]
  · exact h.freeing rfl ⟨⟨rfl, rfl, rfl⟩, rfl, rfl, rfl, rfl, rfl, rfl⟩ rfl rfl (.inl rfl)
      (by rw [at_m]; rfl) (by simp [at_m, Monitor.held]) rfl rfl (.inr rfl)

/-- The monitor only reads. -/
theorem loadFreed {m : Monitor} (h : Inv g bin place s) (at_t : s.monitor.slot = some t)
    (hand : s.monitor.held = some b) (next : m.held = some b) (after : m.slot = some t)
    (linked : m.linked = none) (ahead : ∀ b, m.Ahead s.segmentThreadId s.info.state b) :
    Inv g bin place (s.setMonitor m) := by
  refine h.watch rfl ⟨⟨rfl, rfl, rfl⟩, rfl, rfl, rfl, rfl, rfl, rfl⟩ rfl ?_ ?_ (fun _ b _ => ahead b)
  · exact h.places.setMonitor (by rw [hand, next]) (by rw [linked]; rintro x y ⟨⟩)
  · exact h.freeing (m := m) rfl ⟨⟨rfl, rfl, rfl⟩, rfl, rfl, rfl, rfl, rfl, rfl⟩ rfl rfl (.inl rfl) at_t
      (by simp [hand]) rfl after (.inl (by simp [next]))

theorem linkFreed (h : Inv g bin place s) (at_m : s.monitor = .storeNext t b info) :
    Inv g bin place ((s.setNext b info.threadFree).setMonitor (.cas t b info)) := by
  have at_b : place b = .held none := h.places.in_hand (by simp [State.held, at_m, Monitor.held])
  refine h.watch rfl ⟨⟨rfl, rfl, rfl⟩, rfl, rfl, rfl, rfl, rfl, rfl⟩ rfl ?_ ?_ (fun _ _ _ => trivial)
  · refine h.places.write at_b rfl ?_ (fun _ _ => rfl) rfl rfl ?_ (linked_setMonitor _ _) ?_ rfl rfl rfl
    · intro x other
      exact update_of_ne other _ _
    · refine held_setMonitor_same _ ?_
      show Monitor.held _ = s.monitor.held
      rw [at_m]
      rfl
    · rintro x y ⟨⟩
      exact update_self _ _ _
  · exact h.freeing (m := .cas t b info) rfl ⟨⟨rfl, rfl, rfl⟩, rfl, rfl, rfl, rfl, rfl, rfl⟩ rfl rfl (.inl rfl)
      (by rw [at_m]; rfl) (by simp [at_m, Monitor.held]) rfl rfl (.inl (by simp [Monitor.held]))

theorem pushFreed (h : Inv g bin place s) (at_m : s.monitor = .cas t b info) (seen : s.info = info) :
    Inv g bin (update place b (.listed .threadFree))
      ({ s with info := ⟨info.state, b⟩ }.setMonitor (.sweep t)) := by
  have at_b : place b = .held none := h.places.in_hand (by simp [State.held, at_m, Monitor.held])
  have owned := h.places.owned (b := b) (by simp [at_b])
  refine h.handle rfl ⟨⟨rfl, rfl, rfl⟩, rfl, rfl, rfl, rfl, rfl, rfl⟩ rfl ?_ ?_ (by rw [at_b]; trivial)
    trivial (fun _ => trivial) (by simp) (fun _ => trivial)
  · exact h.places.push at_b (by simp [State.linked, at_m, Monitor.linked]) seen (heads_info owned _)
      rfl rfl rfl rfl (held_setMonitor _ _) (linked_setMonitor _ _) rfl rfl rfl
  · exact h.freeing rfl ⟨⟨rfl, rfl, rfl⟩, rfl, rfl, rfl, rfl, rfl, rfl⟩ rfl rfl (.inr owned)
      (by rw [at_m]; rfl) (by simp [at_m, Monitor.held]) rfl rfl (.inr rfl)

end Free

/-! ## The pages of objects -/

/-- The monitor goes on, and writes neither records nor blocks. -/
theorem goOn {m : Monitor} (h : Inv g bin place s) (at_t : s.monitor.slot = some t)
    (hand : s.monitor.held = none) (stays : s.monitor.leaving = none) (after : m.slot = some t)
    (next : m.held = none) (worklist : ∀ page ∈ m.worklist, s.segmentThreadId = t)
    (clearing : m = .clearSegment t → s.sasThreadId = t) (releasing : m ≠ .release t)
    (ahead : ¬ s.Kept → ∀ b, place b = .object → m.Ahead s.segmentThreadId s.info.state b) :
    Inv g bin place (s.setMonitor m) := by
  refine h.watch rfl ⟨⟨rfl, rfl, rfl⟩, rfl, rfl, rfl, rfl, rfl, rfl⟩ rfl ?_ ?_ ahead
  · refine h.places.setMonitor (by rw [hand, next]) ?_
    intro b x linked
    have in_hand := Monitor.linked_held linked
    rw [next] at in_hand
    cases in_hand
  · exact h.control.recovering rfl ⟨⟨rfl, rfl, rfl⟩, rfl, rfl, rfl, rfl, rfl, rfl⟩ rfl rfl (.inl rfl)
      stays (h.stopped at_t) after worklist clearing releasing

theorem objectPages (h : Inv g bin place s) (at_m : s.monitor = .sweep t) :
    Inv g bin place (s.setMonitor (.page t (s.objectPages t))) := by
  refine h.goOn (t := t) (by rw [at_m]; rfl) (by rw [at_m]; rfl) (by rw [at_m]; rfl) rfl rfl ?_
    (by rintro ⟨⟩) (by rintro ⟨⟩) ?_
  · intro page mem
    obtain ⟨i, -, -, queued⟩ := mem_objectPages.1 mem
    obtain ⟨-, owner | leaving⟩ := h.control.pages t i page queued
    · exact owner
    · rw [at_m] at leaving
      cases leaving
  · rintro gone b at_b rfl
    exact .inr ((h.remains gone).queued (h.stopped (by rw [at_m]; rfl)) b at_b)

theorem pagesDone (h : Inv g bin place s) (at_m : s.monitor = .page t []) :
    Inv g bin place (s.setMonitor (.segment t)) := by
  refine h.goOn (t := t) (by rw [at_m]; rfl) (by rw [at_m]; rfl) (by rw [at_m]; rfl) rfl rfl
    (by simp [Monitor.worklist]) (by rintro ⟨⟩) (by rintro ⟨⟩) ?_
  intro gone b at_b owner
  have ahead := (h.remains gone).ahead b at_b
  rw [at_m] at ahead
  rcases ahead owner with abandoned | mem
  · exact abandoned
  · exact absurd mem List.not_mem_nil

/-- The monitor turns to the next page of objects. -/
theorem nextPage {rest : List ℕ} (h : Inv g bin place s) (at_m : s.monitor = .page t (page :: rest)) :
    Inv g bin place ((if s.free page = 0 then s else s.setRefInfo (s.free page) 0).setMonitor
      (.scan t page (blocksFrom (s.blockSize page) (pageSize / s.blockSize page) (cxlPageStart page))
        rest)) := by
  have at_t : s.monitor.slot = some t := by rw [at_m]; rfl
  have stopped := h.stopped at_t
  have owner : s.segmentThreadId = t :=
    h.control.worklist t page at_t (by rw [at_m]; exact List.mem_cons_self)
  have gone : ¬ s.Kept := by
    rw [State.Kept, owner, stopped]
    simp
  have r := h.remains gone
  obtain ⟨s₁, s₁_eq⟩ : ∃ s₁, s₁ = if s.free page = 0 then s else s.setRefInfo (s.free page) 0 :=
    ⟨_, rfl⟩
  have cleared : Inv g bin place s₁ := by
    rw [s₁_eq]
    split
    · exact h
    · refine h.watch rfl ⟨⟨rfl, rfl, rfl⟩, rfl, rfl, rfl, rfl, rfl, rfl⟩ rfl ?_ ?_ (fun _ => r.ahead)
      · refine h.places.frame rfl (fun _ _ _ => rfl) rfl rfl rfl ?_ h.places.ready rfl rfl id
        intro x at_x
        have other : x ≠ s.free page := by
          rintro rfl
          exact r.head (by rw [owner, stopped]) page at_x
        show 0 < getRefCntFromInfo (update s.refInfo (s.free page) 0 x)
        rw [update_of_ne other]
        exact h.places.live x at_x
      · refine h.control.recovering (t := t) rfl ⟨⟨rfl, rfl, rfl⟩, rfl, rfl, rfl, rfl, rfl, rfl⟩ rfl rfl
          (.inl rfl) (by rw [at_m]; rfl) stopped at_t (fun _ _ => owner) ?_ ?_
        · show s.monitor = _ → _
          rw [at_m]
          rintro ⟨⟩
        · show s.monitor ≠ _
          rw [at_m]
          simp
  have monitor : s₁.monitor = .page t (page :: rest) := by
    rw [s₁_eq]
    split <;> exact at_m
  have header : s₁.segmentThreadId = s.segmentThreadId := by
    rw [s₁_eq]
    split <;> rfl
  have info : s₁.info = s.info := by
    rw [s₁_eq]
    split <;> rfl
  rw [← s₁_eq]
  refine cleared.goOn (t := t) (by rw [monitor]; rfl) (by rw [monitor]; rfl) (by rw [monitor]; rfl) rfl rfl
    (fun _ _ => by rw [header, owner]) (by rintro ⟨⟩) (by rintro ⟨⟩) ?_
  intro _ b at_b _
  rw [info]
  have ahead := r.ahead b at_b
  rw [at_m] at ahead
  split
  · next here =>
    obtain ⟨-, -, mem⟩ := r.recorded b at_b
    rwa [here] at mem
  · next elsewhere =>
    rcases ahead owner.symm with abandoned | mem
    · exact .inl abandoned
    · exact .inr ((List.mem_cons.1 mem).resolve_left elsewhere)

theorem scanned {rest : List ℕ} (h : Inv g bin place s) (at_m : s.monitor = .scan t page [] rest) :
    Inv g bin place (s.setMonitor (.clearPage t page rest)) := by
  have at_t : s.monitor.slot = some t := by rw [at_m]; rfl
  have owner := h.control.worklist t page at_t (by rw [at_m]; exact List.mem_cons_self)
  refine h.goOn at_t (by rw [at_m]; rfl) (by rw [at_m]; rfl) rfl rfl (fun _ _ => owner)
    (by rintro ⟨⟩) (by rintro ⟨⟩) ?_
  intro gone b at_b _
  have ahead := (h.remains gone).ahead b at_b
  rw [at_m] at ahead
  have next := ahead owner.symm
  split at next
  · exact absurd next List.not_mem_nil
  · next elsewhere => exact ⟨elsewhere, next⟩

theorem scan {blocks : List Offset} {rest : List ℕ} (h : Inv g bin place s)
    (at_m : s.monitor = .scan t page (b :: blocks) rest) :
    Inv g bin place (s.setMonitor
      (if 0 < getRefCntFromInfo (s.refInfo b) then .abandon t rest else .scan t page blocks rest)) := by
  have at_t : s.monitor.slot = some t := by rw [at_m]; rfl
  have owner := h.control.worklist t page at_t (by rw [at_m]; exact List.mem_cons_self)
  split
  · exact h.goOn at_t (by rw [at_m]; rfl) (by rw [at_m]; rfl) rfl rfl (fun _ _ => owner)
      (by rintro ⟨⟩) (by rintro ⟨⟩) (fun _ _ _ => trivial)
  · next dead =>
    refine h.goOn at_t (by rw [at_m]; rfl) (by rw [at_m]; rfl) rfl rfl (fun _ _ => owner)
      (by rintro ⟨⟩) (by rintro ⟨⟩) ?_
    intro gone x at_x _
    have ahead := (h.remains gone).ahead x at_x
    rw [at_m] at ahead
    have next := ahead owner.symm
    split at next
    · next here =>
      rw [if_pos here]
      refine (List.mem_cons.1 next).resolve_left ?_
      rintro rfl
      exact dead (h.places.live x at_x)
    · next elsewhere => rwa [if_neg elsewhere]

theorem abandonSegment {rest : List ℕ} (h : Inv g bin place s) (at_m : s.monitor = .abandon t rest) :
    Inv g bin place
      ({ s with info := ⟨.abandon, s.info.threadFree⟩ }.setMonitor (.page t rest)) := by
  have at_t : s.monitor.slot = some t := by rw [at_m]; rfl
  refine h.watch rfl ⟨⟨rfl, rfl, rfl⟩, rfl, rfl, rfl, rfl, rfl, rfl⟩ rfl ?_ ?_ (fun _ _ _ _ => .inl rfl)
  · have places := h.places.setMonitor (m := .page t rest) (by rw [at_m]; rfl) (by rintro b x ⟨⟩)
    exact places.frame rfl (fun _ _ _ => rfl) rfl rfl rfl places.live places.ready rfl rfl id
  · refine h.control.recovering (t := t) rfl ⟨⟨rfl, rfl, rfl⟩, rfl, rfl, rfl, rfl, rfl, rfl⟩ rfl rfl
      (.inl rfl) (by rw [at_m]; rfl) (h.stopped at_t) rfl ?_ (by rintro ⟨⟩) (by rintro ⟨⟩)
    intro page mem
    exact h.control.worklist t page at_t (by rw [at_m]; exact mem)

theorem segment (h : Inv g bin place s) (at_m : s.monitor = .segment t) :
    Inv g bin place (s.setMonitor
      (if s.sasThreadId = t ∧ s.info.state ≠ .abandon then .clearSegment t else .freeTls t)) := by
  have at_t : s.monitor.slot = some t := by rw [at_m]; rfl
  split
  · next free =>
    refine h.goOn at_t (by rw [at_m]; rfl) (by rw [at_m]; rfl) rfl rfl (by simp [Monitor.worklist])
      (fun _ => free.1) (by rintro ⟨⟩) ?_
    rintro gone b at_b rfl
    have ahead := (h.remains gone).ahead b at_b
    rw [at_m] at ahead
    exact free.2 (ahead rfl)
  · exact h.goOn at_t (by rw [at_m]; rfl) (by rw [at_m]; rfl) rfl rfl (by simp [Monitor.worklist])
      (by rintro ⟨⟩) (by rintro ⟨⟩) (fun _ _ _ => trivial)

/-! ## Records are cleared -/

/-- A page with no object in use is forgotten. -/
theorem clearRecord (h : Inv g bin place s) (gone : ¬ s.Kept)
    (empty : ∀ b, place b = .object → cxlPtrPage b ≠ page) : Inv g bin place (s.clearRecord page) := by
  have c := h.control
  have r := h.remains gone
  refine ⟨?_, ?_, fun kept => absurd kept gone, fun _ => ?_⟩
  · refine h.places.frame ?_ (fun _ _ _ => rfl) rfl rfl rfl h.places.live h.places.ready rfl rfl id
    have gone' : ¬ (s.clearRecord page).Kept := gone
    rw [heads_of_not_kept gone', heads_of_not_kept gone]
    rfl
  · refine ⟨c.running, c.registered, c.header, c.taking, c.empty, c.owning, ?_, c.pages, c.freePage,
      c.stopped, c.worklist, c.clearing, c.releasing, c.looping, c.looped⟩
    intro none
    obtain ⟨segmentUsed, records⟩ := c.blank none
    refine ⟨segmentUsed, fun x => ?_⟩
    obtain ⟨used, free, localFree⟩ := records x
    show update s.used page 0 x = 0 ∧ update s.free page 0 x = 0 ∧ update s.localFree page 0 x = 0
    by_cases here : x = page
    · rw [here, update_self, update_self, update_self]
      exact ⟨rfl, rfl, rfl⟩
    · rw [update_of_ne here, update_of_ne here, update_of_ne here]
      exact ⟨used, free, localFree⟩
  · refine ⟨?_, r.ahead, r.queued, r.apart, ?_⟩
    · intro b at_b
      obtain ⟨inside, msg, mem⟩ := r.recorded b at_b
      have other := empty b at_b
      refine ⟨inside, ?_, ?_⟩
      · show update s.isMsgQueuePage page false (cxlPtrPage b) = false
        rw [update_of_ne other, msg]
      · show b ∈ blocksFrom (update s.blockSize page 0 (cxlPtrPage b))
          (pageSize / update s.blockSize page 0 (cxlPtrPage b)) _
        rw [update_of_ne other]
        exact mem
    · intro stopped x
      show place (update s.free page 0 x) ≠ .object
      by_cases here : x = page
      · rw [here, update_self]
        intro at_zero
        exact h.places.nonzero 0 (by simp [at_zero]) rfl
      · rw [update_of_ne here]
        exact r.head stopped x

/-- The owner of what the monitor finds in queues is gone. -/
theorem gone_of_slot (h : Inv g bin place s) (at_t : s.monitor.slot = some t)
    (owner : s.segmentThreadId = t) : ¬ s.Kept := by
  rw [State.Kept, owner, h.stopped at_t]
  simp

/-- No object lies in a page of `RootRef`s. -/
theorem dead_of_rootPage (h : Inv g bin place s) (at_m : s.monitor = .sweep t)
    (mem : page ∈ s.pages t 0) : ¬ s.Kept ∧ ∀ b, place b = .object → cxlPtrPage b ≠ page := by
  have at_t : s.monitor.slot = some t := by rw [at_m]; rfl
  have owner : s.segmentThreadId = t := by
    obtain ⟨-, owner | leaving⟩ := h.control.pages t 0 page mem
    · exact owner
    · rw [at_m] at leaving
      cases leaving
  have gone := h.gone_of_slot at_t owner
  refine ⟨gone, ?_⟩
  rintro b at_b rfl
  refine (h.remains gone).apart ?_ b at_b ?_
  · rw [owner]
    exact h.stopped at_t
  · rwa [owner]

theorem clearRootPage (h : Inv g bin place s) (at_m : s.monitor = .sweep t)
    (mem : page ∈ s.pages t 0) : Inv g bin place (s.clearRecord page) := by
  obtain ⟨gone, dead⟩ := h.dead_of_rootPage at_m mem
  exact h.clearRecord gone dead

/-- The monitor has seen that there are no objects in the page; the others it has still to get to,
or the segment is marked. -/
theorem dead_of_clearPage {rest : List ℕ} (h : Inv g bin place s)
    (at_m : s.monitor = .clearPage t page rest) : s.segmentThreadId = t ∧ ¬ s.Kept ∧
      ∀ b, place b = .object →
        cxlPtrPage b ≠ page ∧ (s.info.state = .abandon ∨ cxlPtrPage b ∈ rest) := by
  have at_t : s.monitor.slot = some t := by rw [at_m]; rfl
  have owner := h.control.worklist t page at_t (by rw [at_m]; exact List.mem_cons_self)
  have gone := h.gone_of_slot at_t owner
  refine ⟨owner, gone, ?_⟩
  intro b at_b
  have next := (h.remains gone).ahead b at_b
  rw [at_m] at next
  exact next owner.symm

theorem clearObjectPage {rest : List ℕ} (h : Inv g bin place s)
    (at_m : s.monitor = .clearPage t page rest) :
    Inv g bin place ((s.clearRecord page).setMonitor (.page t rest)) := by
  obtain ⟨owner, gone, ahead⟩ := h.dead_of_clearPage at_m
  have cleared := h.clearRecord gone fun b at_b => (ahead b at_b).1
  have same : (s.clearRecord page).monitor = .clearPage t page rest := at_m
  exact cleared.goOn (t := t) (by rw [same]; rfl) (by rw [same]; rfl) (by rw [same]; rfl) rfl rfl
    (fun _ _ => owner) (by rintro ⟨⟩) (by rintro ⟨⟩) (fun _ b at_b _ => (ahead b at_b).2)

/-! ## The header is cleared -/

/-- A segment that nobody has anything of is cleared. -/
theorem clearHeader {m : Monitor} (h : Inv g bin place s)
    (dead : ∀ b, place b ≠ .object) (hands : ∀ u, s.held (some u) = none) (next : m.held = none)
    (control : Control (s.clearHeader.setMonitor m)) :
    Inv g bin (fun _ => .outside) (s.clearHeader.setMonitor m) := by
  have gone' : ¬ (s.clearHeader.setMonitor m).Kept := by
    show s.slot 0 ≠ .running
    rw [slot_zero h.control]
    simp
  have idle : s.pc 0 = .idle := by
    by_contra busy
    have running := h.control.running 0 busy
    rw [slot_zero h.control] at running
    cases running
  refine blank (Places.blank_of (fun _ => rfl) ?_ ?_ (fun _ => rfl) ?_) control rfl
  · rw [heads_of_not_kept gone']
    intro q
    cases q with
    | free page | localFree page | threadFree => rfl
    | detached =>
      show (s.pc 0).tail = 0
      rw [idle]
      rfl
  · intro b
    show s.object b = false
    rw [← Bool.not_eq_true, h.places.object]
    exact dead b
  · intro o
    rw [held_setMonitor, next]
    cases o with
    | none => rw [update_self]
    | some u =>
      rw [update_of_ne (by simp)]
      exact hands u

/-- No object is left when the monitor gives the segment of the slot back. -/
theorem dead_of_clearSegment (h : Inv g bin place s) (at_m : s.monitor = .clearSegment t) :
    ¬ s.Kept ∧ (s.segmentThreadId ≠ 0 → s.segmentThreadId = t) ∧ ∀ b, place b ≠ .object := by
  have at_t : s.monitor.slot = some t := by rw [at_m]; rfl
  have owner : s.segmentThreadId ≠ 0 → s.segmentThreadId = t := fun owned =>
    (h.control.header owned).symm.trans (h.control.clearing t at_m)
  have gone : ¬ s.Kept := by
    intro kept
    exact h.gone_of_slot at_t (owner (h.control.owned_of_kept kept)) kept
  refine ⟨gone, owner, ?_⟩
  intro b at_b
  have owned := h.places.owned (b := b) (by simp [at_b])
  have ahead := (h.remains gone).ahead b at_b
  rw [at_m] at ahead
  exact ahead (owner owned).symm

theorem clearStopped (h : Inv g bin place s) (at_m : s.monitor = .clearSegment t)
    (hands : ∀ u, s.held (some u) = none) :
    Inv g bin (fun _ => .outside) (s.clearHeader.setMonitor (.release t)) := by
  have c := h.control
  have at_t : s.monitor.slot = some t := by rw [at_m]; rfl
  have mine := c.clearing t at_m
  obtain ⟨gone, owner, dead⟩ := h.dead_of_clearSegment at_m
  refine h.clearHeader dead hands rfl ?_
  refine ⟨c.running, c.registered, fun owned => absurd rfl owned, ?_, c.empty, ?_, ?_, ?_, ?_, ?_, ?_,
    by rintro u ⟨⟩, ?_, False.elim, by rintro (⟨⟨⟩⟩ | ⟨⟨⟩⟩)⟩
  · intro u taking
    exact ⟨(c.taking u taking).1, rfl⟩
  · intro u owning
    exact absurd (c.kept_of_owning owning) gone
  · exact fun _ => ⟨rfl, fun _ => ⟨rfl, rfl, rfl⟩⟩
  · intro u i page mem
    obtain ⟨used, named | leaving⟩ := c.pages u i page mem
    · have owned : s.segmentThreadId ≠ 0 := by
        rw [named]
        exact c.registered u used
      exact ⟨used, .inr (congrArg some ((owner owned).symm.trans named))⟩
    · rw [at_m] at leaving
      cases leaving
  · intro u page mem
    obtain ⟨used, named | leaving⟩ := c.freePage u page mem
    · have owned : s.segmentThreadId ≠ 0 := by
        rw [named]
        exact c.registered u used
      exact ⟨used, .inr (congrArg some ((owner owned).symm.trans named))⟩
    · rw [at_m] at leaving
      cases leaving
  · rintro u ⟨⟩
    exact h.stopped at_t
  · intro u page _ mem
    exact absurd mem List.not_mem_nil
  · rintro u ⟨⟩
    exact ⟨mine, rfl⟩

theorem release (h : Inv g bin place s) (at_m : s.monitor = .release t) :
    s.sasThreadId = t ∧
      Inv g bin place ({ s with sasThreadId := 0 }.setMonitor (.freeTls t)) := by
  have c := h.control
  have at_t : s.monitor.slot = some t := by rw [at_m]; rfl
  obtain ⟨mine, none⟩ := c.releasing t at_m
  have no_taking : ∀ u, ¬ (s.pc u).Taking := by
    intro u taking
    have busy : s.pc u ≠ .idle := by
      intro idle
      rw [idle] at taking
      exact taking
    have same := (c.taking u taking).1.symm.trans mine
    have running := c.running u busy
    rw [same, h.stopped at_t] at running
    cases running
  refine ⟨mine, blank ?_ ?_ none⟩
  · have places := h.places.setMonitor (m := .freeTls t) (by rw [at_m]; rfl) (by rintro b x ⟨⟩)
    exact places.frame rfl (fun _ _ _ => rfl) rfl rfl rfl places.live places.ready rfl rfl id
  · refine ⟨c.running, c.registered, fun owned => absurd none owned,
      fun u taking => absurd taking (no_taking u), c.empty, c.owning, c.blank, ?_, ?_, ?_, ?_,
      by rintro u ⟨⟩, by rintro u ⟨⟩, False.elim, by rintro (⟨⟨⟩⟩ | ⟨⟨⟩⟩)⟩
    · intro u i page mem
      obtain ⟨used, named | leaving⟩ := c.pages u i page mem
      · exact ⟨used, .inl named⟩
      · rw [at_m] at leaving
        exact ⟨used, .inr leaving⟩
    · intro u page mem
      obtain ⟨used, named | leaving⟩ := c.freePage u page mem
      · exact ⟨used, .inl named⟩
      · rw [at_m] at leaving
        exact ⟨used, .inr leaving⟩
    · rintro u ⟨⟩
      exact h.stopped at_t
    · intro u page _ mem
      exact absurd mem List.not_mem_nil

/-- The slot is given back. -/
theorem freeTls (h : Inv g bin place s) (at_m : s.monitor = .freeTls t) :
    Inv g bin place
      ({ s with
        slot := update s.slot t .free
        pages := update s.pages t fun _ => []
        freePage := update s.freePage t [] }.setMonitor .idle) := by
  have c := h.control
  have at_t : s.monitor.slot = some t := by rw [at_m]; rfl
  have stopped := h.stopped at_t
  obtain ⟨s₁, s₁_eq⟩ : ∃ s₁, s₁ = ({ s with
        slot := update s.slot t .free
        pages := update s.pages t fun _ => []
        freePage := update s.freePage t [] }.setMonitor .idle : State) := ⟨_, rfl⟩
  have slot : ∀ u, u ≠ t → s₁.slot u = s.slot u := by
    intro u other
    rw [s₁_eq]
    exact update_of_ne other _ _
  have slot_t : s₁.slot t = .free := by
    rw [s₁_eq]
    exact update_self _ _ _
  have pages : ∀ u, u ≠ t → s₁.pages u = s.pages u := by
    intro u other
    rw [s₁_eq]
    exact update_of_ne other _ _
  have pages_t : ∀ k, s₁.pages t k = [] := by
    intro k
    rw [s₁_eq]
    show update s.pages t (fun _ => []) t k = []
    rw [update_self]
  have freePage : ∀ u, u ≠ t → s₁.freePage u = s.freePage u := by
    intro u other
    rw [s₁_eq]
    exact update_of_ne other _ _
  have freePage_t : s₁.freePage t = [] := by
    rw [s₁_eq]
    exact update_self _ _ _
  have header : s₁.segmentThreadId = s.segmentThreadId := by rw [s₁_eq]; rfl
  have sas : s₁.sasThreadId = s.sasThreadId := by rw [s₁_eq]; rfl
  have pc : s₁.pc = s.pc := by rw [s₁_eq]; rfl
  have monitor : s₁.monitor = .idle := by rw [s₁_eq]; rfl
  have info : s₁.info = s.info := by rw [s₁_eq]; rfl
  have kept : s₁.Kept ↔ s.Kept := by
    unfold State.Kept
    rw [header]
    by_cases here : s.segmentThreadId = t
    · rw [here, slot_t, stopped]
      simp
    · rw [slot _ here]
  have running : ∀ u, s.slot u = .running → u ≠ t := by
    rintro u at_u rfl
    rw [stopped] at at_u
    cases at_u
  have elsewhere : ∀ u, s.segmentThreadId = u ∨ s.monitor.leaving = some u → u ≠ t →
      s.segmentThreadId = u := by
    rintro u (named | leaving) other
    · exact named
    · rw [at_m] at leaving
      exact absurd (Option.some.inj leaving).symm other
  rw [← s₁_eq]
  refine ⟨?_, ?_, ?_, ?_⟩
  · have places := h.places.setMonitor (m := .idle) (by rw [at_m]; rfl) (by rintro b x ⟨⟩)
    refine places.frame ?_ ?_ ?_ ?_ ?_ ?_ ?_ ?_ ?_ (by rw [header]; exact id)
    · refine heads_congr (s := s.setMonitor .idle) kept ?_ ?_ ?_ ?_ <;> rw [s₁_eq] <;> rfl
    all_goals
      rw [s₁_eq]
    · exact fun _ _ _ => rfl
    · rfl
    · rfl
    · rfl
    · exact places.live
    · exact places.ready
    · rfl
    · rfl
  · refine ⟨?_, ?_, ?_, ?_, ?_, ?_, ?_, ?_, ?_, ?_, ?_, ?_, ?_, ?_, ?_⟩
    · intro u busy
      rw [pc] at busy
      have at_u := c.running u busy
      rw [slot u (running u at_u), at_u]
    · intro u used
      have other : u ≠ t := by
        rintro rfl
        exact used slot_t
      rw [slot u other] at used
      exact c.registered u used
    · rw [header, sas]
      exact c.header
    · rw [header, sas, pc]
      exact c.taking
    · rw [pc, info]
      exact c.empty
    · rw [pc, header]
      exact c.owning
    · rw [header, s₁_eq]
      exact c.blank
    · intro u k x mem
      have other : u ≠ t := by
        rintro rfl
        rw [pages_t] at mem
        exact List.not_mem_nil mem
      rw [pages u other] at mem
      obtain ⟨used, owner⟩ := c.pages u k x mem
      rw [slot u other, header]
      exact ⟨used, .inl (elsewhere u owner other)⟩
    · intro u x mem
      have other : u ≠ t := by
        rintro rfl
        rw [freePage_t] at mem
        exact List.not_mem_nil mem
      rw [freePage u other] at mem
      obtain ⟨used, owner⟩ := c.freePage u x mem
      rw [slot u other, header]
      exact ⟨used, .inl (elsewhere u owner other)⟩
    · rw [monitor]
      rintro u ⟨⟩
    · rw [monitor]
      rintro u x ⟨⟩
    · rw [monitor]
      rintro u ⟨⟩
    · rw [monitor]
      rintro u ⟨⟩
    · rw [monitor]
      exact False.elim
    · rw [monitor]
      rintro (⟨⟨⟩⟩ | ⟨⟨⟩⟩)
  · intro kept'
    rw [kept] at kept'
    have other := running _ kept'
    have owned := h.owned kept'
    refine owned.keep header (by rw [s₁_eq]; rfl) (by rw [s₁_eq]; rfl) (by rw [s₁_eq]; rfl)
      (by rw [s₁_eq]; rfl) (pages _ other) (freePage _ other) (fun _ => Iff.rfl) (fun _ => Iff.rfl)
      owned.suits (by rw [pc]) (by rw [pc]; exact id) (by rw [pc]; exact owned.todo)
  · intro gone
    rw [kept] at gone
    have r := h.remains gone
    have other : s₁.slot s₁.segmentThreadId = .stopped → s.segmentThreadId ≠ t := by
      intro at_stop named
      rw [header, named, slot_t] at at_stop
      cases at_stop
    refine ⟨?_, ?_, ?_, ?_, ?_⟩
    · rw [s₁_eq]
      exact r.recorded
    · rw [monitor]
      exact fun _ _ => trivial
    · intro at_stop b at_b
      have elsewhere := other at_stop
      rw [header, slot _ elsewhere] at at_stop
      have queued := r.queued at_stop b at_b
      rw [State.objectPages, header, pages _ elsewhere]
      exact queued
    · intro at_stop b at_b
      have elsewhere := other at_stop
      rw [header, slot _ elsewhere] at at_stop
      rw [header, pages _ elsewhere]
      exact r.apart at_stop b at_b
    · intro at_stop
      have elsewhere := other at_stop
      rw [header, slot _ elsewhere] at at_stop
      rw [s₁_eq]
      exact r.head at_stop

/-! ## The loop over all segments -/

/-- The owner of the segment that the loop has come to is gone. -/
theorem gone_of_looping (h : Inv g bin place s) (looping : s.monitor.Looping) : ¬ s.Kept := by
  intro kept
  have free := (h.control.looping looping).2.2 (h.control.owned_of_kept kept)
  rw [State.Kept, free] at kept
  cases kept

/-- The loop goes on, or comes to its end. -/
theorem loopOn {m : Monitor} (h : Inv g bin place s) (held : s.monitor.held = none)
    (leaving : s.monitor.leaving = none) (next : m.held = none)
    (loop : m.Looping → s.sasThreadId ≠ 0 ∧ (∀ t, ¬ (s.pc t).Taking) ∧
      (s.segmentThreadId ≠ 0 → s.slot s.segmentThreadId = .free))
    (slot : m.slot = none) (looped : ¬ (m = .loopStoreInfo ∨ m = .loopRelease))
    (ahead : ¬ s.Kept → ∀ b, place b = .object → m.Ahead s.segmentThreadId s.info.state b) :
    Inv g bin place (s.setMonitor m) := by
  refine h.watch rfl ⟨⟨rfl, rfl, rfl⟩, rfl, rfl, rfl, rfl, rfl, rfl⟩ rfl ?_ ?_ ahead
  · refine h.places.setMonitor (by rw [held, next]) ?_
    intro b x linked
    have in_hand := Monitor.linked_held linked
    rw [next] at in_hand
    cases in_hand
  · refine h.control.monitor rfl ⟨rfl, rfl, rfl⟩ (.inl rfl) ?_ rfl rfl ?_ ?_ ?_ ?_ ?_ loop looped
    · exact fun none => ⟨rfl, (h.control.blank none).2⟩
    · intro t at_t
      rw [leaving] at at_t
      cases at_t
    · intro t at_t
      rw [show (s.setMonitor m).monitor = m from rfl, slot] at at_t
      cases at_t
    · intro t x at_t
      rw [show (s.setMonitor m).monitor = m from rfl, slot] at at_t
      cases at_t
    · intro t at_clear
      have at_m : m = .clearSegment t := at_clear
      rw [at_m] at slot
      cases slot
    · intro t at_release
      have at_m : m = .release t := at_release
      rw [at_m] at slot
      cases slot

theorem segmentLoop (h : Inv g bin place s) (idle : s.monitor = .idle) (taken : s.sasThreadId ≠ 0)
    (free : s.slot s.sasThreadId = .free) :
    Inv g bin place
      (s.setMonitor (.loopPage (metaPage (segmentAt g) 0 :: segmentPages g))) := by
  refine h.loopOn (by rw [idle]; rfl) (by rw [idle]; rfl) rfl ?_ rfl (by simp) ?_
  · refine fun _ => ⟨taken, ?_, ?_⟩
    · intro t taking
      have busy : s.pc t ≠ .idle := by
        intro idle
        rw [idle] at taking
        exact taking
      have running := h.control.running t busy
      rw [← (h.control.taking t taking).1, free] at running
      cases running
    · intro owned
      rw [← h.control.header owned]
      exact free
  · intro gone b at_b
    exact List.mem_cons_of_mem _ ((h.remains gone).recorded b at_b).1

theorem loopPagesDone (h : Inv g bin place s) (at_m : s.monitor = .loopPage []) :
    Inv g bin place (s.setMonitor .loopClearSegment) := by
  have looping : s.monitor.Looping := by rw [at_m]; trivial
  refine h.loopOn (by rw [at_m]; rfl) (by rw [at_m]; rfl) rfl (fun _ => h.control.looping looping) rfl
    (by simp) ?_
  intro gone b at_b
  have ahead := (h.remains gone).ahead b at_b
  rw [at_m] at ahead
  exact absurd ahead List.not_mem_nil

theorem loopNextPage {rest : List ℕ} (h : Inv g bin place s)
    (at_m : s.monitor = .loopPage (page :: rest)) :
    Inv g bin place (s.setMonitor (if s.blockSize page = 0 then .loopPage rest
      else .loopScan page
        (blocksFrom (s.blockSize page) (pageSize / s.blockSize page) (cxlPageStart page)) rest)) := by
  have looping : s.monitor.Looping := by rw [at_m]; trivial
  have ahead : ∀ b, place b = .object → cxlPtrPage b ∈ page :: rest := by
    intro b at_b
    have next := (h.remains (h.gone_of_looping looping)).ahead b at_b
    rw [at_m] at next
    exact next
  have recorded := (h.remains (h.gone_of_looping looping)).recorded
  split
  · next empty =>
    refine h.loopOn (by rw [at_m]; rfl) (by rw [at_m]; rfl) rfl (fun _ => h.control.looping looping) rfl
      (by simp) ?_
    intro _ b at_b
    refine (List.mem_cons.1 (ahead b at_b)).resolve_left ?_
    intro here
    obtain ⟨-, -, mem⟩ := recorded b at_b
    rw [here, empty, Nat.div_zero] at mem
    exact List.not_mem_nil mem
  · refine h.loopOn (by rw [at_m]; rfl) (by rw [at_m]; rfl) rfl (fun _ => h.control.looping looping) rfl
      (by simp) ?_
    intro _ b at_b
    show if cxlPtrPage b = page then _ else _
    split
    · next here =>
      obtain ⟨-, -, mem⟩ := recorded b at_b
      rwa [here] at mem
    · next elsewhere => exact (List.mem_cons.1 (ahead b at_b)).resolve_left elsewhere

theorem loopScanned {rest : List ℕ} (h : Inv g bin place s) (at_m : s.monitor = .loopScan page [] rest) :
    Inv g bin place (s.setMonitor (.loopClearPage page rest)) := by
  have looping : s.monitor.Looping := by rw [at_m]; trivial
  refine h.loopOn (by rw [at_m]; rfl) (by rw [at_m]; rfl) rfl (fun _ => h.control.looping looping) rfl
    (by simp) ?_
  intro gone b at_b
  have next := (h.remains gone).ahead b at_b
  rw [at_m] at next
  change if cxlPtrPage b = page then _ else _ at next
  split at next
  · exact absurd next List.not_mem_nil
  · next elsewhere => exact ⟨elsewhere, next⟩

/-- The loop passes a block that is not in use. -/
theorem loopSkip {blocks : List Offset} {rest : List ℕ} (h : Inv g bin place s)
    (at_m : s.monitor = .loopScan page (b :: blocks) rest)
    (dead : place b = .object → cxlPtrPage b ≠ page) :
    Inv g bin place (s.setMonitor (.loopScan page blocks rest)) := by
  have looping : s.monitor.Looping := by rw [at_m]; trivial
  refine h.loopOn (by rw [at_m]; rfl) (by rw [at_m]; rfl) rfl (fun _ => h.control.looping looping) rfl
    (by simp) ?_
  intro gone x at_x
  have next := (h.remains gone).ahead x at_x
  rw [at_m] at next
  change if cxlPtrPage x = page then _ else _ at next
  show if cxlPtrPage x = page then _ else _
  split at next
  · next here =>
    rw [if_pos here]
    refine (List.mem_cons.1 next).resolve_left ?_
    rintro rfl
    exact dead at_x here
  · next elsewhere => rwa [if_neg elsewhere]

theorem loopBreak {blocks : List Offset} {rest : List ℕ} (h : Inv g bin place s)
    (at_m : s.monitor = .loopScan page blocks rest) : Inv g bin place (s.setMonitor .idle) :=
  h.loopOn (by rw [at_m]; rfl) (by rw [at_m]; rfl) rfl False.elim rfl (by simp) (fun _ _ _ => trivial)

/-- There are no objects in a page of message queues. -/
theorem dead_of_queue (h : Inv g bin place s) {blocks : List Offset} {rest : List ℕ}
    (at_m : s.monitor = .loopScan page (b :: blocks) rest) (msg : s.isMsgQueuePage page = true)
    (at_b : place b = .object) : cxlPtrPage b ≠ page := by
  intro inside
  have looping : s.monitor.Looping := by rw [at_m]; trivial
  obtain ⟨-, object, -⟩ := (h.remains (h.gone_of_looping looping)).recorded b at_b
  rw [inside, msg] at object
  cases object

/-- The loop has seen that there are no objects in the page, and comes to the others. -/
theorem dead_of_loopClearPage {rest : List ℕ} (h : Inv g bin place s)
    (at_m : s.monitor = .loopClearPage page rest) {b : Offset} (at_b : place b = .object) :
    cxlPtrPage b ≠ page ∧ cxlPtrPage b ∈ rest := by
  have looping : s.monitor.Looping := by rw [at_m]; trivial
  have next := (h.remains (h.gone_of_looping looping)).ahead b at_b
  rw [at_m] at next
  exact next

theorem loopClearPage {rest : List ℕ} (h : Inv g bin place s)
    (at_m : s.monitor = .loopClearPage page rest) :
    Inv g bin place ((s.clearRecord page).setMonitor (.loopPage rest)) := by
  have looping : s.monitor.Looping := by rw [at_m]; trivial
  have cleared := h.clearRecord (h.gone_of_looping looping)
    fun b at_b => (h.dead_of_loopClearPage at_m at_b).1
  have same : (s.clearRecord page).monitor = .loopClearPage page rest := at_m
  exact cleared.loopOn (by rw [same]; rfl) (by rw [same]; rfl) rfl (fun _ => h.control.looping looping)
    rfl (by simp) (fun _ b at_b => (h.dead_of_loopClearPage at_m at_b).2)

/-- No object is left when the loop gives the segment back. -/
theorem dead_of_loopClearSegment (h : Inv g bin place s) (at_m : s.monitor = .loopClearSegment) (b : Offset) :
    place b ≠ .object := by
  intro at_b
  have looping : s.monitor.Looping := by rw [at_m]; trivial
  have ahead := (h.remains (h.gone_of_looping looping)).ahead b at_b
  rw [at_m] at ahead
  exact ahead

theorem loopClearSegment (h : Inv g bin place s) (at_m : s.monitor = .loopClearSegment)
    (hands : ∀ u, s.held (some u) = none) :
    Inv g bin (fun _ => .outside) (s.clearHeader.setMonitor .loopStoreInfo) := by
  have c := h.control
  have looping : s.monitor.Looping := by rw [at_m]; trivial
  have gone := h.gone_of_looping looping
  obtain ⟨taken, no_taking, free⟩ := c.looping looping
  have dead := h.dead_of_loopClearSegment at_m
  have none : ∀ u, s.slot u ≠ .free → ¬ (s.segmentThreadId = u ∨ s.monitor.leaving = some u) := by
    rintro u used (named | leaving)
    · have owned : s.segmentThreadId ≠ 0 := by
        rw [named]
        exact c.registered u used
      rw [← named, free owned] at used
      exact used rfl
    · rw [at_m] at leaving
      cases leaving
  refine h.clearHeader dead hands rfl ?_
  refine ⟨c.running, c.registered, fun owned => absurd rfl owned,
    fun u taking => absurd taking (no_taking u), c.empty, ?_, ?_, ?_, ?_, by rintro u ⟨⟩, by rintro u x ⟨⟩,
    by rintro u ⟨⟩, by rintro u ⟨⟩, ?_, fun _ => rfl⟩
  · intro u owning
    exact absurd (c.kept_of_owning owning) gone
  · exact fun _ => ⟨rfl, fun _ => ⟨rfl, rfl, rfl⟩⟩
  · intro u i page mem
    obtain ⟨used, owner⟩ := c.pages u i page mem
    exact absurd owner (none u used)
  · intro u page mem
    obtain ⟨used, owner⟩ := c.freePage u page mem
    exact absurd owner (none u used)
  · exact fun _ => ⟨taken, no_taking, fun owned => absurd rfl owned⟩

theorem loopStoreInfo (h : Inv g bin place s) (at_m : s.monitor = .loopStoreInfo) :
    Inv g bin place ({ s with info := ⟨.normal, 0⟩ }.setMonitor .loopRelease) := by
  have c := h.control
  have looping : s.monitor.Looping := by rw [at_m]; trivial
  have none := c.looped (.inl at_m)
  obtain ⟨taken, no_taking, free⟩ := c.looping looping
  refine blank ?_ ?_ none
  · have places := h.places.setMonitor (m := .loopRelease) (by rw [at_m]; rfl) (by rintro b x ⟨⟩)
    refine places.frame ?_ (fun _ _ _ => rfl) rfl rfl rfl places.live places.ready rfl rfl id
    have chain : ({ s with info := ⟨.normal, 0⟩ }.setMonitor .loopRelease).chain = 0 := if_pos none
    have chain' : (s.setMonitor .loopRelease).chain = 0 := if_pos none
    refine heads_congr (s := s.setMonitor .loopRelease) Iff.rfl rfl rfl ?_ rfl
    exact chain.trans chain'.symm
  · refine ⟨c.running, c.registered, c.header, c.taking, fun _ _ => rfl, c.owning, c.blank, ?_, ?_,
      by rintro u ⟨⟩, by rintro u x ⟨⟩, by rintro u ⟨⟩, by rintro u ⟨⟩,
      fun _ => ⟨taken, no_taking, free⟩, fun _ => none⟩
    · intro u i page mem
      obtain ⟨used, named | leaving⟩ := c.pages u i page mem
      · exact ⟨used, .inl named⟩
      · rw [at_m] at leaving
        cases leaving
    · intro u page mem
      obtain ⟨used, named | leaving⟩ := c.freePage u page mem
      · exact ⟨used, .inl named⟩
      · rw [at_m] at leaving
        cases leaving

theorem loopRelease (h : Inv g bin place s) (at_m : s.monitor = .loopRelease) :
    Inv g bin place ({ s with sasThreadId := 0 }.setMonitor .idle) := by
  have c := h.control
  have looping : s.monitor.Looping := by rw [at_m]; trivial
  have none := c.looped (.inr at_m)
  obtain ⟨taken, no_taking, free⟩ := c.looping looping
  refine blank ?_ ?_ none
  · have places := h.places.setMonitor (m := .idle) (by rw [at_m]; rfl) (by rintro b x ⟨⟩)
    exact places.frame rfl (fun _ _ _ => rfl) rfl rfl rfl places.live places.ready rfl rfl id
  · refine ⟨c.running, c.registered, fun owned => absurd none owned,
      fun u taking => absurd taking (no_taking u), c.empty, c.owning, c.blank, ?_, ?_,
      by rintro u ⟨⟩, by rintro u x ⟨⟩, by rintro u ⟨⟩, by rintro u ⟨⟩, False.elim,
      by rintro (⟨⟨⟩⟩ | ⟨⟨⟩⟩)⟩
    · intro u i page mem
      obtain ⟨used, named | leaving⟩ := c.pages u i page mem
      · exact ⟨used, .inl named⟩
      · rw [at_m] at leaving
        cases leaving
    · intro u page mem
      obtain ⟨used, named | leaving⟩ := c.freePage u page mem
      · exact ⟨used, .inl named⟩
      · rw [at_m] at leaving
        cases leaving

end Inv

end CxlShm.Handover
