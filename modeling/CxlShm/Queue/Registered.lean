import CxlShm.Queue.Registry

/-!
# Runs over the lists of queues

Every step keeps what the lists say of the blocks and of the slots, so that a collection finds on
its two lists the queues that name its slot, and no others (`registry_of_careful`,
`senders_of_careful`).
-/

namespace CxlShm.Registry

open Function Linked Reachability

variable {s s' : State} {t u : ℕ} {q x : Offset} {p : Pc} {place place' : Offset → Option ℕ}

/-! ## Every step -/

/-- A step of slot `t`. -/
theorem Slots.change (h : Slots s) (pc : s'.pc = update s.pc t p)
    (others : ∀ u ≠ t, s'.senderQueue u = s.senderQueue u ∧ s'.receiverQueue u = s.receiverQueue u)
    (range : p ≠ .out → 1 ≤ t ∧ t ≤ maxThread)
    (noSender : p.senderEmpty = true → s'.senderQueue t = 0)
    (noReceiver : p.receiverEmpty = true → s'.receiverQueue t = 0)
    (monitor : ∀ u, s'.monitor = .slot u → if u = t then p.collects = true else s.monitor = .slot u)
    (apart : Apart s') (dead : ∀ q todo, s'.monitor = .clear q todo → s'.created q = false) :
    Slots s' := by
  have pc_self : s'.pc t = p := by
    rw [pc, update_self]
  have pc_ne {u : ℕ} (other : u ≠ t) : s'.pc u = s.pc u := by
    rw [pc, update_of_ne other]
  refine ⟨fun u used => ?_, fun u empty => ?_, fun u empty => ?_, fun u slot => ?_, apart, dead⟩
  all_goals by_cases mine : u = t
  · exact mine ▸ range (pc_self ▸ mine ▸ used)
  · exact h.range u (pc_ne mine ▸ used)
  · exact mine ▸ noSender (pc_self ▸ mine ▸ empty)
  · exact (others u mine).1.trans (h.noSender u (pc_ne mine ▸ empty))
  · exact mine ▸ noReceiver (pc_self ▸ mine ▸ empty)
  · exact (others u mine).2.trans (h.noReceiver u (pc_ne mine ▸ empty))
  · have collects := monitor u slot
    rw [if_pos mine] at collects
    rw [mine, pc_self]
    exact collects
  · have before := monitor u slot
    rw [if_neg mine] at before
    rw [pc_ne mine]
    exact h.monitor u before

/-- A step of slot `t` that the monitor does not see. -/
theorem Slots.next {p₀ : Pc} (h : Slots s) (pc : s'.pc = update s.pc t p) (here : s.pc t = p₀)
    (used : p₀ ≠ .out) (created : s'.created = s.created) (monitor : s'.monitor = s.monitor)
    (collects : p₀.collects = true → p.collects = true)
    (others : ∀ u ≠ t, s'.senderQueue u = s.senderQueue u ∧ s'.receiverQueue u = s.receiverQueue u)
    (noSender : p.senderEmpty = true → s'.senderQueue t = 0)
    (noReceiver : p.receiverEmpty = true → s'.receiverQueue t = 0) (apart : Apart s') :
    Slots s' := by
  refine h.change pc others (fun _ => h.range t (here ▸ used)) noSender noReceiver
    (fun u slot => ?_) apart fun q todo looks => ?_
  · rw [monitor] at slot
    split
    · next mine =>
        have before := h.monitor u slot
        rw [mine, here] at before
        exact collects before
    · exact slot
  · rw [created]
    exact h.dead q todo (monitor ▸ looks)

theorem Slots.run (h : Slots s) (run : s.runPc t (s.pc t) = some s') (apart : Apart s') :
    Slots s' := by
  have empty := h.noSender t
  have empty' := h.noReceiver t
  cases here : s.pc t with
  | out | idle =>
    rw [here] at run
    cases run
  | making q todo =>
    rw [here] at run
    cases todo <;> obtain rfl := Option.some.inj run
    all_goals
      exact h.next rfl here nofun rfl rfl nofun (fun _ _ => ⟨rfl, rfl⟩) nofun nofun apart
  | linkSender q | linkReceiver q | claim q =>
    rw [here] at run
    obtain rfl := Option.some.inj run
    exact h.next rfl here nofun rfl rfl nofun (fun _ _ => ⟨rfl, rfl⟩) nofun nofun apart
  | leaveSender q next | leaveReceiver q next =>
    rw [here] at run
    obtain rfl := Option.some.inj run
    exact h.next rfl here nofun rfl rfl (fun _ => rfl) (fun _ _ => ⟨rfl, rfl⟩) nofun nofun apart
  | sender q | receiver q =>
    rw [here] at run
    obtain rfl := Option.some.inj run
    refine h.next rfl here nofun rfl rfl (fun _ => ?_) (fun _ _ => ⟨rfl, rfl⟩) (fun none => ?_)
      (fun none => ?_) apart
    · split <;> rfl
    · split at none <;> cases none
    · split at none <;> cases none
  | resetSender =>
    rw [here] at run empty'
    obtain rfl := Option.some.inj run
    exact h.next rfl here nofun rfl rfl nofun (fun u other => ⟨update_of_ne other _ _, rfl⟩)
      (fun _ => update_self _ _ _) (fun _ => empty' rfl) apart
  | resetReceiver =>
    rw [here] at run
    obtain rfl := Option.some.inj run
    exact h.next rfl here nofun rfl rfl nofun (fun u other => ⟨rfl, update_of_ne other _ _⟩)
      nofun nofun apart
  | publishSender q =>
    rw [here] at run
    obtain rfl := Option.some.inj run
    refine h.change rfl (fun u other => ⟨update_of_ne other _ _, rfl⟩)
      (fun _ => h.range t (by rw [here]; nofun)) nofun nofun (fun u slot => ?_) apart
      fun x todo looks => ?_
    · split
      · next mine =>
          have before := h.monitor u slot
          rw [mine, here] at before
          cases before
      · exact slot
    · have other : x ≠ q := by
        rintro rfl
        refine (h.apart x (by rw [show s.monitor = _ from looks]; rfl) t).1 ?_
        rw [here]
        rfl
      exact (update_of_ne other _ _).trans (h.dead x todo looks)
  | publishReceiver q =>
    rw [here] at run
    obtain rfl := Option.some.inj run
    exact h.next rfl here nofun rfl rfl nofun (fun u other => ⟨rfl, update_of_ne other _ _⟩)
      nofun nofun apart
  | dropSender =>
    rw [here] at run
    obtain rfl := Option.some.inj run
    exact h.next rfl here nofun rfl rfl (fun _ => rfl)
      (fun u other => ⟨update_of_ne other _ _, rfl⟩) (fun _ => update_self _ _ _) nofun apart
  | dropReceiver =>
    rw [here] at run empty
    obtain rfl := Option.some.inj run
    exact h.next rfl here nofun rfl rfl (fun _ => rfl)
      (fun u other => ⟨rfl, update_of_ne other _ _⟩) (fun _ => empty rfl)
      (fun _ => update_self _ _ _) apart
  | vacate =>
    rw [here] at run empty empty'
    obtain rfl := Option.some.inj run
    refine h.change rfl (fun _ _ => ⟨rfl, rfl⟩) (fun out => absurd rfl out)
      (fun _ => empty rfl) (fun _ => empty' rfl) (fun u slot => ?_) apart fun q todo looks => ?_
    · simp only [State.setPc] at slot
      split at slot
      · cases slot
      · next other =>
          rw [if_neg (by rintro rfl; exact other slot)]
          exact slot
    · simp only [State.setPc] at looks
      split at looks
      · cases looks
      · exact h.dead q todo looks

/-- The monitor's steps at a block. -/
theorem Slots.sweep (h : Slots s) (pc : s'.pc = s.pc) (senderQueue : s'.senderQueue = s.senderQueue)
    (receiverQueue : s'.receiverQueue = s.receiverQueue) (monitor : ∀ t, s'.monitor ≠ .slot t)
    (apart : Apart s') (dead : ∀ q todo, s'.monitor = .clear q todo → s'.created q = false) :
    Slots s' := by
  refine ⟨fun t used => ?_, fun t empty => ?_, fun t empty => ?_,
    fun t slot => absurd slot (monitor t), apart, dead⟩
  · exact h.range t (pc ▸ used)
  · rw [senderQueue]
    exact h.noSender t (pc ▸ empty)
  · rw [receiverQueue]
    exact h.noReceiver t (pc ▸ empty)

theorem Slots.runSweep (h : Slots s) (run : s.runSweep s.monitor = some s') (apart : Apart s') :
    Slots s' := by
  cases here : s.monitor with
  | idle | slot t =>
    rw [here] at run
    cases run
  | sender q =>
    rw [here] at run
    simp only [State.runSweep] at run
    split at run <;> obtain rfl := Option.some.inj run
    · refine h.sweep rfl rfl rfl nofun apart fun x todo looks => ?_
      obtain ⟨rfl, -⟩ := Monitor.clear.inj looks
      exact update_self _ _ _
    · exact h.sweep rfl rfl rfl nofun apart nofun
  | clear q todo =>
    have dead := h.dead q todo here
    rw [here] at run
    cases todo <;> obtain rfl := Option.some.inj run
    · exact h.sweep rfl rfl rfl nofun apart nofun
    · refine h.sweep rfl rfl rfl nofun apart fun x todo looks => ?_
      obtain ⟨rfl, -⟩ := Monitor.clear.inj looks
      exact dead

theorem Slots.step {a : Action} (h : Slots s) (run : Registry.step s a = some s')
    (careful : Careful s a s') : Slots s' := by
  have apart := careful.1
  have dead := h.dead
  cases a with
  | run t => exact h.run run apart
  | runSweep => exact h.runSweep run apart
  | sweep q =>
    simp only [Registry.step] at run
    split at run
    case isFalse => cases run
    case isTrue guard =>
      obtain rfl := Option.some.inj run
      split
      · exact h.sweep rfl rfl rfl (by rintro _ ⟨⟩) (by simpa [*] using apart)
          (by rintro _ _ ⟨⟩)
      · exact h
  | create t dst q =>
    simp only [Registry.step] at run
    split at run
    case isFalse => cases run
    case isTrue idle =>
      have used := h.range t
      have monitor := h.monitor t
      rw [idle] at used monitor
      obtain rfl := Option.some.inj run
      refine h.change rfl (fun _ _ => ⟨rfl, rfl⟩) (fun _ => used (by rintro ⟨⟩))
        (by rintro ⟨⟩) (by rintro ⟨⟩) (fun u slot => ?_) apart dead
      split
      · next mine => exact absurd (monitor (mine ▸ slot)) Bool.false_ne_true
      · exact slot
  | overwrite q f v =>
    obtain rfl := Option.some.inj run
    exact ⟨h.range, h.noSender, h.noReceiver, h.monitor, apart, dead⟩
  | recover t =>
    simp only [Registry.step] at run
    split at run
    case isFalse => cases run
    case isTrue guard =>
      have used := h.range t
      obtain rfl := Option.some.inj run
      refine h.change rfl (fun _ _ => ⟨rfl, rfl⟩) (fun _ => used guard.2)
        (by rintro ⟨⟩) (by rintro ⟨⟩) (fun u slot => ?_) apart (by rintro _ _ ⟨⟩)
      split
      · rfl
      · next other => exact absurd (Monitor.slot.inj slot).symm other
  | threadInit t =>
    simp only [Registry.step] at run
    split at run
    case isFalse => cases run
    case isTrue guard =>
      have empty := h.noSender t
      have empty' := h.noReceiver t
      have monitor := h.monitor t
      rw [guard.1] at empty empty' monitor
      obtain rfl := Option.some.inj run
      refine h.change rfl (fun _ _ => ⟨rfl, rfl⟩) (fun _ => ⟨guard.2, careful.2⟩)
        (fun _ => empty rfl) (fun _ => empty' rfl) (fun u slot => ?_) apart dead
      split
      · next mine => exact absurd (monitor (mine ▸ slot)) Bool.false_ne_true
      · exact slot
  | unwrap t q | exit t =>
    simp only [Registry.step] at run
    split at run
    case isFalse => cases run
    case isTrue idle =>
      have used := h.range t
      have monitor := h.monitor t
      rw [idle] at used monitor
      obtain rfl := Option.some.inj run
      refine h.change rfl (fun _ _ => ⟨rfl, rfl⟩) (fun _ => used (by rintro ⟨⟩)) ?_ ?_
        (fun u slot => ?_) apart dead
      case refine_3 =>
        split
        · next mine => exact absurd (monitor (mine ▸ slot)) Bool.false_ne_true
        · exact slot
      all_goals
        first
        | split <;> simp [Pc.senderEmpty, Pc.receiverEmpty]
        | simp [Pc.senderEmpty, Pc.receiverEmpty]

theorem Senders.run (h : Senders place s) (slots : Slots s)
    (run : s.runPc t (s.pc t) = some s') : ∃ place', Senders place' s' := by
  cases here : s.pc t with
  | out | idle =>
    rw [here] at run
    cases run
  | making q todo =>
    rw [here] at run
    cases todo <;> obtain rfl := Option.some.inj run
    · exact ⟨_, h.made here⟩
    · exact ⟨_, h.store slots here⟩
  | linkSender q =>
    rw [here] at run
    obtain rfl := Option.some.inj run
    exact ⟨_, h.linkSender here⟩
  | publishSender q =>
    rw [here] at run
    obtain rfl := Option.some.inj run
    exact ⟨_, h.publishSender slots here⟩
  | leaveSender q next =>
    rw [here] at run
    obtain rfl := Option.some.inj run
    exact ⟨_, h.leaveSender here⟩
  | sender q | receiver q =>
    rw [here] at run
    obtain rfl := Option.some.inj run
    by_cases null : q = 0 <;> simp only [null, if_true, if_false]
    all_goals
      refine ⟨_, h.frame rfl rfl (fun q => ⟨rfl, rfl⟩) ?_ (fun _ _ => rfl) ?_ ?_⟩
      all_goals simp +contextual [State.setPc, State.senderHead, Pc.creates, here, null]
  | resetSender | dropReceiver | vacate =>
    have empty := slots.noSender t (by rw [here]; rfl)
    rw [here] at run
    obtain rfl := Option.some.inj run
    refine ⟨_, h.frame rfl rfl (fun x => ⟨rfl, rfl⟩) ?_ ?_ ?_ ?_⟩
    all_goals simp +contextual [State.setPc, State.senderHead, Pc.creates, here, empty]
  | resetReceiver | publishReceiver q | dropSender =>
    rw [here] at run
    obtain rfl := Option.some.inj run
    refine ⟨_, h.frame rfl rfl (fun x => ⟨rfl, rfl⟩) ?_ ?_ ?_ ?_⟩
    all_goals simp +contextual [State.setPc, State.senderHead, Pc.creates, here]
  | linkReceiver q | claim q | leaveReceiver q next =>
    rw [here] at run
    obtain rfl := Option.some.inj run
    refine ⟨_, h.frame rfl rfl (fun x => ?_) ?_ (fun _ _ => rfl) ?_ ?_⟩
    case refine_1 =>
      simp only [State.setPc, State.setQueue, update_apply]
      split
      · next same => exact same ▸ ⟨rfl, rfl⟩
      · exact ⟨rfl, rfl⟩
    all_goals simp +contextual [State.setPc, State.setQueue, State.senderHead, Pc.creates, here]

/-- Only the monitor's own field changes. -/
theorem Senders.monitor {m : Monitor} (h : Senders place s) :
    Senders place { s with monitor := m } := by
  refine ⟨h.rows, fun q => ?_, fun t => ?_, h.unique⟩
  · obtain ⟨block, placed, named⟩ := h.block q
    exact ⟨block, placed, named⟩
  · obtain ⟨creating, order, linked, left⟩ := h.slot t
    exact ⟨creating, order, linked, left⟩

theorem Senders.runSweep (h : Senders place s) (slots : Slots s)
    (run : s.runSweep s.monitor = some s') : ∃ place', Senders place' s' := by
  cases here : s.monitor with
  | idle | slot t =>
    rw [here] at run
    cases run
  | sender q =>
    have apart := slots.apart q (by rw [here]; rfl)
    rw [here] at run
    simp only [State.runSweep] at run
    split at run <;> obtain rfl := Option.some.inj run
    case isTrue gone =>
      exact ⟨_, h.write (x := q) slots rfl rfl
        (fun x different => ⟨update_of_ne different _ _, rfl⟩) (h.place_gone gone)
        (update_self _ _ _) fun t => (apart t).1⟩
    case isFalse => exact ⟨_, h.monitor⟩
  | clear q todo =>
    have apart := slots.apart q (by rw [here]; rfl)
    have new := slots.dead q todo here
    rw [here] at run
    cases todo <;> obtain rfl := Option.some.inj run
    · exact ⟨_, h.monitor⟩
    · exact ⟨_, h.write (x := q) slots rfl rfl
        (fun x different => ⟨rfl, update_of_ne different _ _⟩) (h.place_new new) new
        fun t => (apart t).1⟩

theorem Senders.step {a : Action} (h : Senders place s) (slots : Slots s)
    (run : Registry.step s a = some s') (careful : Careful s a s') :
    ∃ place', Senders place' s' := by
  cases a with
  | run t => exact h.run slots run
  | runSweep => exact h.runSweep slots run
  | create t dst q =>
    simp only [Registry.step] at run
    split at run
    case isFalse => cases run
    case isTrue idle =>
      obtain rfl := Option.some.inj run
      exact ⟨_, h.create idle careful.2.1 careful.2.2⟩
  | overwrite q f v =>
    obtain rfl := Option.some.inj run
    obtain ⟨new, nobody⟩ : Unused s q := careful.2
    exact ⟨_, h.write (x := q) slots rfl rfl (fun x different => ⟨rfl, update_of_ne different _ _⟩)
      (h.place_new new) new nobody⟩
  | sweep q =>
    simp only [Registry.step] at run
    split at run
    case isFalse => cases run
    case isTrue guard =>
      obtain rfl := Option.some.inj run
      split
      · exact ⟨_, h.monitor⟩
      · exact ⟨_, h⟩
  | threadInit t =>
    simp only [Registry.step] at run
    split at run
    case isFalse => cases run
    case isTrue guard =>
      obtain rfl := Option.some.inj run
      refine ⟨_, h.frame rfl rfl (fun q => ⟨rfl, rfl⟩) ?_ ?_ ?_ ?_⟩
      all_goals simp +contextual [State.setPc, State.senderHead, Pc.creates, guard.1]
  | unwrap t q =>
    simp only [Registry.step] at run
    split at run
    case isFalse => cases run
    case isTrue idle =>
      obtain rfl := Option.some.inj run
      split
      all_goals
        refine ⟨_, h.frame rfl rfl (fun q => ⟨rfl, rfl⟩) ?_ (fun _ _ => rfl) ?_ ?_⟩
        all_goals simp +contextual [State.setPc, State.senderHead, Pc.creates, idle]
  | exit t =>
    simp only [Registry.step] at run
    split at run
    case isFalse => cases run
    case isTrue idle =>
      obtain rfl := Option.some.inj run
      refine ⟨_, h.frame rfl rfl (fun q => ⟨rfl, rfl⟩) ?_ (fun _ _ => rfl) ?_ ?_⟩
      all_goals simp +contextual [State.setPc, State.senderHead, Pc.creates, idle]
  | recover t =>
    simp only [Registry.step] at run
    split at run
    case isFalse => cases run
    case isTrue guard =>
      obtain rfl := Option.some.inj run
      have outside : (s.pc t).collects = false := careful.2
      refine ⟨_, h.frame rfl rfl (fun q => ⟨rfl, rfl⟩) ?_ (fun _ _ => rfl) rfl
        (by rintro _ _ ⟨⟩)⟩
      cases here : s.pc t <;> simp_all [State.setPc, State.senderHead, Pc.collects]

theorem Receivers.run (h : Receivers place s) (senders : Senders place' s) (slots : Slots s)
    (run : s.runPc t (s.pc t) = some s') : ∃ place', Receivers place' s' := by
  cases here : s.pc t with
  | out | idle =>
    rw [here] at run
    cases run
  | making q todo =>
    have creates : (s.pc t).creates = some q := by
      rw [here]
      rfl
    obtain ⟨new, id⟩ := (h.slot t).creating q creates
    have later : (s.queue q).receiverId = 0 ∨ .receiverId ∈ todo := by
      refine id.imp_right ?_
      rintro ⟨_, making, mem⟩
      rwa [(Pc.making.inj (here.symm.trans making)).2]
    rw [here] at run
    cases todo with
    | nil =>
      obtain rfl := Option.some.inj run
      exact ⟨_, h.making (q := q) rfl rfl rfl rfl (fun x _ => ⟨rfl, rfl⟩) (senders.only creates) new
        (by rw [here]; rfl) rfl (.inl (later.resolve_right List.not_mem_nil))
        (by simp only [State.receiverHead, here])⟩
    | cons f todo =>
      obtain rfl := Option.some.inj run
      refine ⟨_, h.making (q := q) rfl rfl rfl rfl
        (fun x different => ⟨rfl, update_of_ne different _ _⟩) (senders.only creates) new
        (by rw [here]; rfl) rfl ?_ (by simp only [State.receiverHead, here])⟩
      simp only [State.setPc, State.setQueue, update_self, receiverId_store]
      by_cases same : f = .receiverId
      · exact .inl (by rw [if_pos same, same]; rfl)
      · rw [if_neg same]
        refine later.imp_right fun mem => ⟨todo, rfl, ?_⟩
        exact (List.mem_cons.1 mem).resolve_left (Ne.symm same)
  | linkSender q =>
    have creates : (s.pc t).creates = some q := by
      rw [here]
      rfl
    obtain ⟨new, zero | ⟨todo, making, -⟩⟩ := (h.slot t).creating q creates
    · rw [here] at run
      obtain rfl := Option.some.inj run
      exact ⟨_, h.making (q := q) rfl rfl rfl rfl
        (fun x different => ⟨rfl, update_of_ne different _ _⟩) (senders.only creates) new
        (by rw [here]; rfl) rfl (.inl (by simpa [State.setPc, State.setQueue] using zero))
        (by simp only [State.receiverHead, here])⟩
    · cases here.symm.trans making
  | publishSender q =>
    have only := senders.only (t := t) (q := q) (by rw [here]; rfl)
    rw [here] at run
    obtain rfl := Option.some.inj run
    exact ⟨_, h.publishSender here only⟩
  | linkReceiver q =>
    rw [here] at run
    obtain rfl := Option.some.inj run
    exact ⟨_, h.linkReceiver here⟩
  | publishReceiver q =>
    rw [here] at run
    obtain rfl := Option.some.inj run
    exact ⟨_, h.publishReceiver slots here⟩
  | claim q =>
    rw [here] at run
    obtain rfl := Option.some.inj run
    exact ⟨_, h.claim slots here⟩
  | leaveReceiver q next =>
    rw [here] at run
    obtain rfl := Option.some.inj run
    exact ⟨_, h.leaveReceiver here⟩
  | sender q | receiver q =>
    rw [here] at run
    obtain rfl := Option.some.inj run
    by_cases null : q = 0 <;> simp only [null, if_true, if_false]
    all_goals
      refine ⟨_, h.frame rfl rfl rfl (fun q => ⟨rfl, rfl⟩) ?_ (fun _ _ => rfl) ⟨rfl, rfl⟩ ?_ ?_
        (fun _ dead => .inl dead) fun _ => id⟩
      all_goals simp +contextual [State.setPc, State.receiverHead, here, null]
  | resetReceiver =>
    have empty := slots.noReceiver t (by rw [here]; rfl)
    rw [here] at run
    obtain rfl := Option.some.inj run
    refine ⟨_, h.frame rfl rfl rfl (fun q => ⟨rfl, rfl⟩) ?_ ?_ ⟨rfl, rfl⟩ ?_ ?_
      (fun _ dead => .inl dead) fun _ => id⟩
    all_goals simp +contextual [State.setPc, State.receiverHead, here, empty]
  | vacate =>
    have empty := slots.noReceiver t (by rw [here]; rfl)
    have head : s.receiverHead t = 0 := by
      simp only [State.receiverHead, here]
    rw [here] at run
    obtain rfl := Option.some.inj run
    refine ⟨_, h.frame rfl rfl rfl (fun q => ⟨rfl, rfl⟩) ?_ (fun _ _ => rfl) ⟨rfl, rfl⟩
      (by rintro _ _ ⟨⟩) ?_ (fun u dead => ?_) fun q looks => ?_⟩
    · simp [State.setPc, State.receiverHead, here, empty]
    · simp [here]
    · by_cases mine : u = t
      · exact .inr (mine ▸ head)
      · refine .inl ((if_neg ?_).trans dead)
        rw [dead]
        exact fun same => mine (Monitor.slot.inj same)
    · simp only [State.setPc] at looks
      split at looks
      · cases looks
      · exact looks
  | resetSender | dropSender | dropReceiver =>
    rw [here] at run
    obtain rfl := Option.some.inj run
    refine ⟨_, h.frame rfl rfl rfl (fun q => ⟨rfl, rfl⟩) ?_ ?_ ⟨rfl, rfl⟩ ?_ ?_
      (fun _ dead => .inl dead) fun _ => id⟩
    all_goals simp +contextual [State.setPc, State.receiverHead, here]
  | leaveSender q next =>
    rw [here] at run
    obtain rfl := Option.some.inj run
    refine ⟨_, h.frame rfl rfl rfl (fun x => ?_) ?_ (fun _ _ => rfl) ⟨rfl, rfl⟩ ?_ ?_
      (fun _ dead => .inl dead) fun _ => id⟩
    case refine_1 =>
      simp only [State.setPc, State.setQueue, update_apply]
      split
      · next same => exact same ▸ ⟨rfl, rfl⟩
      · exact ⟨rfl, rfl⟩
    all_goals simp +contextual [State.setPc, State.setQueue, State.receiverHead, here]

theorem Receivers.runSweep (h : Receivers place s) (slots : Slots s)
    (run : s.runSweep s.monitor = some s') : ∃ place', Receivers place' s' := by
  cases here : s.monitor with
  | idle | slot t =>
    rw [here] at run
    cases run
  | sender q =>
    have apart := slots.apart q (by rw [here]; rfl)
    have free := h.place_looked here fun t => (apart t).2
    have sweeps : ∀ t, s.monitor ≠ .slot t := by
      rw [here]
      nofun
    rw [here] at run
    simp only [State.runSweep] at run
    split at run <;> obtain rfl := Option.some.inj run
    · exact ⟨_, h.write (x := q) slots rfl rfl rfl
        (fun x different => ⟨update_of_ne different _ _, rfl⟩) free (update_self _ _ _) apart
        (fun t slot => absurd slot (sweeps t)) nofun⟩
    · exact ⟨_, h.monitor (fun t slot => absurd slot (sweeps t)) nofun⟩
  | clear q todo =>
    have apart := slots.apart q (by rw [here]; rfl)
    have new := slots.dead q todo here
    have sweeps : ∀ t, s.monitor ≠ .slot t := by
      rw [here]
      nofun
    rw [here] at run
    cases todo <;> obtain rfl := Option.some.inj run
    · exact ⟨_, h.monitor (fun t slot => absurd slot (sweeps t)) nofun⟩
    · exact ⟨_, h.write (x := q) slots rfl rfl rfl
        (fun x different => ⟨rfl, update_of_ne different _ _⟩) (h.place_new new) new apart
        (fun t slot => absurd slot (sweeps t)) nofun⟩

theorem Receivers.step {a : Action} (h : Receivers place s) (senders : Senders place' s)
    (slots : Slots s) (run : Registry.step s a = some s') (careful : Careful s a s') :
    ∃ place', Receivers place' s' := by
  cases a with
  | run t => exact h.run senders slots run
  | runSweep => exact h.runSweep slots run
  | create t dst q =>
    simp only [Registry.step] at run
    split at run
    case isFalse => cases run
    case isTrue idle =>
      obtain rfl := Option.some.inj run
      obtain ⟨-, new, nobody⟩ := careful.2
      refine ⟨_, h.making (q := q) rfl rfl rfl rfl
        (fun x different => ⟨update_of_ne different _ _, rfl⟩)
        (fun u x making => ⟨fun mine => ?_, ?_⟩) new (by rw [idle]; rfl) rfl
        (.inr ⟨_, rfl, by decide⟩) (by simp only [State.receiverHead, idle])⟩
      · rw [mine, idle] at making
        cases making
      · rintro rfl
        exact absurd making (nobody u)
  | overwrite q f v =>
    obtain rfl := Option.some.inj run
    obtain ⟨new, nobody⟩ : Unused s q := careful.2
    exact ⟨_, h.write (x := q) slots rfl rfl rfl
      (fun x different => ⟨rfl, update_of_ne different _ _⟩) (h.place_new new) new
      (fun t => ⟨nobody t, h.registers_ne new t⟩) (fun _ => id) fun _ => id⟩
  | sweep q =>
    simp only [Registry.step] at run
    split at run
    case isFalse => cases run
    case isTrue idle =>
      obtain rfl := Option.some.inj run
      split
      · next nobody =>
          refine ⟨_, h.monitor (fun t slot => ?_) fun x looks => ?_⟩
          · cases idle.symm.trans slot
          · obtain rfl := Monitor.sender.inj looks
            exact nobody
      · exact ⟨_, h⟩
  | threadInit t =>
    simp only [Registry.step] at run
    split at run
    case isFalse => cases run
    case isTrue guard =>
      obtain rfl := Option.some.inj run
      refine ⟨_, h.frame rfl rfl rfl (fun q => ⟨rfl, rfl⟩) ?_ (fun _ _ => rfl) ⟨rfl, rfl⟩
        (by rintro _ _ ⟨⟩) ?_ (fun _ dead => .inl dead) fun _ => id⟩
      all_goals simp [State.setPc, State.receiverHead, guard.1]
  | unwrap t q =>
    simp only [Registry.step] at run
    split at run
    case isFalse => cases run
    case isTrue idle =>
      obtain rfl := Option.some.inj run
      obtain ⟨made, dst⟩ : s.created q = true ∧ s.dstId q = t := careful.2
      split
      case isTrue nobody =>
        exact ⟨_, h.unwrap slots idle ((senders.block q).block made) made dst nobody⟩
      case isFalse =>
        refine ⟨_, h.frame rfl rfl rfl (fun q => ⟨rfl, rfl⟩) ?_ (fun _ _ => rfl) ⟨rfl, rfl⟩
          (by rintro _ _ ⟨⟩) ?_ (fun _ dead => .inl dead) fun _ => id⟩
        all_goals simp [State.setPc, State.receiverHead, idle]
  | exit t =>
    simp only [Registry.step] at run
    split at run
    case isFalse => cases run
    case isTrue idle =>
      obtain rfl := Option.some.inj run
      refine ⟨_, h.frame rfl rfl rfl (fun q => ⟨rfl, rfl⟩) ?_ (fun _ _ => rfl) ⟨rfl, rfl⟩
        (by rintro _ _ ⟨⟩) ?_ (fun _ dead => .inl dead) fun _ => id⟩
      all_goals simp [State.setPc, State.receiverHead, idle]
  | recover t =>
    simp only [Registry.step] at run
    split at run
    case isFalse => cases run
    case isTrue guard =>
      obtain rfl := Option.some.inj run
      have outside : (s.pc t).collects = false := careful.2
      refine ⟨_, h.frame rfl rfl rfl (fun q => ⟨rfl, rfl⟩) ?_ (fun _ _ => rfl) ⟨rfl, rfl⟩
        (by rintro _ _ ⟨⟩) (fun _ _ => rfl) (fun u dead => ?_) (by rintro _ ⟨⟩)⟩
      · cases here : s.pc t <;> simp_all [State.setPc, State.receiverHead, Pc.collects]
      · cases guard.1.symm.trans dead

/-! ## Every run -/

theorem slots_init : Slots State.init :=
  ⟨fun _ used => absurd rfl used, fun _ _ => rfl, fun _ _ => rfl, nofun, nofun, nofun⟩

theorem senders_init : Senders (fun _ => none) State.init :=
  ⟨fun _ => ⟨[], rfl, by simp⟩, fun _ => .of_new rfl rfl, fun _ => ⟨nofun, nofun, nofun, nofun⟩,
    nofun⟩

theorem receivers_init : Receivers (fun _ => none) State.init :=
  ⟨fun _ => ⟨[], rfl, by simp⟩, fun _ => .of_new rfl rfl, fun _ => ⟨nofun, nofun, nofun, nofun⟩⟩

theorem inv_of_reachable (h : Reachable step Careful State.init s) :
    Slots s ∧ (∃ place, Senders place s) ∧ ∃ place, Receivers place s := by
  refine h.invariant (I := fun s => Slots s ∧ (∃ place, Senders place s) ∧
    ∃ place, Receivers place s) ⟨slots_init, ⟨_, senders_init⟩, ⟨_, receivers_init⟩⟩ ?_
  rintro s a s' ⟨slots, ⟨place, senders⟩, ⟨place', receivers⟩⟩ run careful
  exact ⟨slots.step run careful, senders.step slots run careful,
    receivers.step senders slots run careful⟩

/-- The two lists of slot `t` outside a collection: they are chains, as `Cascade.Stopped` asks, of
queues that name the slot, and hold all queues that it receives from. -/
structure Listed (s : State) (t : ℕ) (l l' : List Offset) : Prop where
  senders : Chain (fun q => (s.queue q).senderNext) 0 (s.senderQueue t) l
  receivers : Chain (fun q => (s.queue q).receiverNext) 0 (s.receiverQueue t) l'
  sends : ∀ q ∈ l, (s.queue q).senderId = t
  receives : ∀ q ∈ l', (s.queue q).receiverId = t ∨ (s.queue q).receiverId = 0 ∧ s.pc t = .claim q
  all : ∀ q, s.created q = true → (s.queue q).receiverId = t → q ∈ l'

theorem senderHead_eq (outside : (s.pc t).collects = false) : s.senderHead t = s.senderQueue t := by
  cases here : s.pc t <;> simp_all [State.senderHead, Pc.collects]

theorem receiverHead_eq (outside : (s.pc t).collects = false) :
    s.receiverHead t = s.receiverQueue t := by
  cases here : s.pc t <;> simp_all [State.receiverHead, Pc.collects]

theorem exists_listed (slots : Slots s) (senders : Senders place s)
    (receivers : Receivers place' s) (from_one : 1 ≤ t) (outside : (s.pc t).collects = false) :
    ∃ l l', Listed s t l l' := by
  obtain ⟨l, chain, mem⟩ := senders.rows t
  obtain ⟨l', chain', mem'⟩ := receivers.rows t
  rw [senderHead_eq outside] at chain
  rw [receiverHead_eq outside] at chain'
  refine ⟨l, l', chain, chain', fun q hq => ((senders.block q).placed t ((mem q).1 hq)).2.1,
    fun q hq => ?_, fun q made id => ?_⟩
  · obtain ⟨-, -, -, named⟩ := (receivers.block q).placed t ((mem' q).1 hq)
    refine named.imp_right fun zero => ⟨zero.1, zero.2.resolve_right fun dead => ?_⟩
    rw [slots.monitor t dead] at outside
    cases outside
  · rw [mem', ← id]
    exact (receivers.block q).claimed made (by omega)

/-- What a collection writes: it clears an `id` only where it is that of its slot. -/
theorem collection_spares (senders : Senders place s) (receivers : Receivers place' s)
    (run : step s (.run t) = some s') (collects : (s.pc t).collects = true) (q : Offset) :
    ((s'.queue q).senderId ≠ (s.queue q).senderId → (s.queue q).senderId = t) ∧
      ((s'.queue q).receiverId ≠ (s.queue q).receiverId → (s.queue q).receiverId = t) := by
  simp only [step] at run
  cases here : s.pc t with
  | leaveSender x next =>
    rw [here] at run
    obtain rfl := Option.some.inj run
    have id := ((senders.block x).placed t (senders.leaving here).2.2.2).2.1
    by_cases same : q = x
    · subst same
      exact ⟨fun _ => id, fun changed => absurd (by simp [State.setPc, State.setQueue]) changed⟩
    · simp [State.setPc, State.setQueue, same]
  | leaveReceiver x next =>
    rw [here] at run
    obtain rfl := Option.some.inj run
    obtain ⟨-, -, -, named⟩ := (receivers.block x).placed t (receivers.leaving here).2.2.2
    by_cases same : q = x
    · subst same
      refine ⟨fun changed => absurd (by simp [State.setPc, State.setQueue]) changed,
        fun changed => ?_⟩
      refine named.resolve_right fun unclaimed => changed ?_
      simp [State.setPc, State.setQueue, unclaimed.1]
    · simp [State.setPc, State.setQueue, same]
  | sender x | receiver x | dropSender | dropReceiver | vacate =>
    rw [here] at run
    obtain rfl := Option.some.inj run
    exact ⟨fun changed => absurd rfl changed, fun changed => absurd rfl changed⟩
  | _ =>
    rw [here] at collects
    cases collects

/-- In every run the lists of each slot are what a collection takes them for, a collection leaves
the queues of other slots alone, and after it no queue names the slot as its receiver. -/
theorem registry_of_careful (h : Reachable step Careful State.init s) :
    (∀ t, 1 ≤ t → (s.pc t).collects = false → ∃ senders receivers, Listed s t senders receivers) ∧
    (∀ t, 1 ≤ t → s.pc t = .out → ∀ q, s.created q = true → (s.queue q).receiverId ≠ t) ∧
    ∀ t s', step s (.run t) = some s' → (s.pc t).collects = true → ∀ q,
      ((s'.queue q).senderId ≠ (s.queue q).senderId → (s.queue q).senderId = t) ∧
      ((s'.queue q).receiverId ≠ (s.queue q).receiverId → (s.queue q).receiverId = t) := by
  obtain ⟨slots, ⟨place, senders⟩, ⟨place', receivers⟩⟩ := inv_of_reachable h
  refine ⟨fun t => exists_listed slots senders receivers, fun t from_one free q made id => ?_,
    fun t s' => collection_spares senders receivers⟩
  obtain ⟨l, l', listed⟩ := exists_listed slots senders receivers from_one (by rw [free]; rfl)
  have empty := listed.receivers
  rw [slots.noReceiver t (by rw [free]; rfl), chain_null] at empty
  exact List.not_mem_nil (empty ▸ listed.all q made id)

/-- The list of senders of a slot holds all queues that name it. -/
theorem senders_of_careful (h : Reachable step Careful State.init s) (from_one : 1 ≤ t)
    (outside : (s.pc t).collects = false) :
    ∃ senders, Chain (fun q => (s.queue q).senderNext) 0 (s.senderQueue t) senders ∧
      ∀ q, q ∈ senders ↔ s.created q = true ∧ (s.queue q).senderId = t := by
  obtain ⟨-, ⟨place, senders⟩, -⟩ := inv_of_reachable h
  obtain ⟨l, chain, mem⟩ := senders.rows t
  rw [senderHead_eq outside] at chain
  refine ⟨l, chain, fun q => ?_⟩
  rw [mem]
  constructor
  · intro listed
    obtain ⟨made, id, -⟩ := (senders.block q).placed t listed
    exact ⟨made, id⟩
  · rintro ⟨made, rfl⟩
    exact (senders.block q).named made (by omega)

/-! ## A run -/

/-- A step moves one slot at most, and takes it only in `thread_init`. -/
theorem pc_of_step {a : Action} (run : step s a = some s') :
    s'.pc = s.pc ∨ ∃ t p, s'.pc = update s.pc t p ∧ (s.pc t ≠ .out ∨ a = .threadInit t) := by
  cases a with
  | run t =>
    simp only [step] at run
    cases here : s.pc t with
    | making q todo =>
      rw [here] at run
      cases todo <;> obtain rfl := Option.some.inj run <;>
        exact .inr ⟨t, _, rfl, .inl (by rw [here]; nofun)⟩
    | out | idle =>
      rw [here] at run
      cases run
    | _ =>
      rw [here] at run
      obtain rfl := Option.some.inj run
      exact .inr ⟨t, _, rfl, .inl (by rw [here]; nofun)⟩
  | runSweep =>
    simp only [step] at run
    cases here : s.monitor with
    | idle | slot t =>
      rw [here] at run
      cases run
    | sender q =>
      rw [here] at run
      simp only [State.runSweep] at run
      split at run <;> obtain rfl := Option.some.inj run <;> exact .inl rfl
    | clear q todo =>
      rw [here] at run
      cases todo <;> obtain rfl := Option.some.inj run <;> exact .inl rfl
  | sweep q =>
    simp only [step] at run
    split at run
    · obtain rfl := Option.some.inj run
      split <;> exact .inl rfl
    · cases run
  | overwrite q f v =>
    obtain rfl := Option.some.inj run
    exact .inl rfl
  | threadInit t =>
    simp only [step] at run
    split at run
    · obtain rfl := Option.some.inj run
      exact .inr ⟨t, _, rfl, .inr rfl⟩
    · cases run
  | recover t =>
    simp only [step] at run
    split at run
    · next guard =>
        obtain rfl := Option.some.inj run
        exact .inr ⟨t, _, rfl, .inl guard.2⟩
    · cases run
  | create t dst q | unwrap t q | exit t =>
    simp only [step] at run
    split at run
    · next idle =>
        obtain rfl := Option.some.inj run
        exact .inr ⟨t, _, rfl, .inl (by rw [idle]; nofun)⟩
    · cases run

/-- Only clients 1 and 2 have registered. -/
def Two (s : State) : Prop :=
  ∀ t, t ≠ 1 → t ≠ 2 → s.pc t = .out

/-- Neither client is at the block. -/
def awayCheck (s : State) (q : Offset) : Bool :=
  [1, 2].all fun t => (s.pc t).creates ≠ some q && (s.pc t).registers ≠ some q

/-- `Careful`, of clients 1 and 2. -/
def carefulCheck (s : State) (a : Action) (s' : State) : Bool :=
  s'.monitor.looksAt.all (awayCheck s') &&
  match a with
  | .threadInit t => t == 1 || t == 2
  | .create _ _ q => q ≠ 0 && (!s.created q && awayCheck s q)
  | .overwrite q _ _ => !s.created q && awayCheck s q
  | .unwrap t q => s.created q && s.dstId q == t
  | .recover t => !(s.pc t).collects
  | _ => true

theorem Two.away (two : Two s) (away : awayCheck s q = true) :
    ∀ t, (s.pc t).creates ≠ some q ∧ (s.pc t).registers ≠ some q := by
  intro t
  by_cases one : t = 1
  · subst one
    simp_all [awayCheck]
  · by_cases second : t = 2
    · subst second
      simp_all [awayCheck]
    · rw [two t one second]
      exact ⟨nofun, nofun⟩

theorem Two.unused (two : Two s) (passed : (!s.created q && awayCheck s q) = true) :
    Unused s q := by
  simp only [Bool.and_eq_true, Bool.not_eq_true'] at passed
  exact ⟨passed.1, fun t => (two.away passed.2 t).1⟩

theorem careful_of_check {a : Action} (two : Two s) (run : step s a = some s')
    (passed : carefulCheck s a s' = true) : Two s' ∧ Careful s a s' := by
  simp only [carefulCheck, Bool.and_eq_true] at passed
  obtain ⟨looks, passed⟩ := passed
  have two' : Two s' := by
    intro u one second
    rcases pc_of_step run with same | ⟨t, p, pc, used⟩
    · rw [same]
      exact two u one second
    · rw [pc]
      by_cases mine : u = t
      · subst mine
        rcases used with used | rfl
        · exact absurd (two u one second) used
        · simp only [Bool.or_eq_true, beq_iff_eq] at passed
          exact absurd passed (not_or.2 ⟨one, second⟩)
      · rw [update_of_ne mine]
        exact two u one second
  have apart : Apart s' := by
    intro q at_block
    rw [at_block] at looks
    exact two'.away looks
  refine ⟨two', apart, ?_⟩
  cases a with
  | threadInit t =>
    simp only [Bool.or_eq_true, beq_iff_eq] at passed
    have low : t ≤ maxThread := by rcases passed with rfl | rfl <;> decide
    exact low
  | create t dst q =>
    rw [Bool.and_eq_true, decide_eq_true_eq] at passed
    exact ⟨passed.1, two.unused passed.2⟩
  | overwrite q f v => exact two.unused passed
  | unwrap t q =>
    simp only [Bool.and_eq_true, beq_iff_eq] at passed
    exact passed
  | recover t =>
    rw [Bool.not_eq_true'] at passed
    exact passed
  | _ => trivial

/-- Client 1 makes queue 40, from which client 2 receives, and exits; client 2 stops.  While the
monitor clears the queue, client 1, back again, makes queue 80.  Later the block 40 is used for
something else, which leaves 1 and 2 in the words of the ids; client 2, back again, stops while it
makes a queue of it, and client 1 makes one of it. -/
def reusedQueue : List Action :=
  List.flatten [
    [.threadInit 1, .run 1, .run 1, .threadInit 2, .run 2, .run 2, .create 1 2 40],
    List.replicate 9 (.run 1), [.unwrap 2 40, .run 2, .run 2, .run 2, .exit 1],
    List.replicate 7 (.run 1), [.recover 2], List.replicate 7 (.run 2),
    [.threadInit 1, .run 1, .run 1, .sweep 40, .create 1 2 80, .run 1, .runSweep, .run 1],
    List.replicate 7 .runSweep, List.replicate 7 (.run 1),
    [.overwrite 40 .senderId 1, .overwrite 40 .receiverId 2, .threadInit 2, .run 2, .run 2,
      .create 2 1 40, .run 2, .recover 2], List.replicate 5 (.run 2), [.create 1 2 40],
    List.replicate 9 (.run 1)]

theorem exists_reusedQueue : ∃ s, Reachable step Careful State.init s ∧
    (decide (s.pc 1 = .idle) && (decide (s.senderQueue 1 = 40) && s.created 40)) = true :=
  exists_reachable_of_checkedRun (J := Two) (fun _ _ _ => careful_of_check) (fun _ _ _ => rfl)
    (show (checkedRun step carefulCheck State.init reusedQueue).any _ = true by decide +kernel)

/-- The swept block is on the list again. -/
theorem registry_of_careful_reusedQueue : ∃ s, Reachable step Careful State.init s ∧
    s.senderQueue 1 = 40 ∧ ∃ senders receivers, Listed s 1 senders receivers := by
  obtain ⟨s, reached, found⟩ := exists_reusedQueue
  simp only [Bool.and_eq_true, decide_eq_true_eq] at found
  exact ⟨s, reached, found.2.1, (registry_of_careful reached).1 1 le_rfl (by rw [found.1]; rfl)⟩

theorem senders_of_careful_reusedQueue : ∃ (s : State) (senders : List Offset),
    s.created 40 = true ∧ Chain (fun q => (s.queue q).senderNext) 0 40 senders ∧
      ∀ q, q ∈ senders ↔ s.created q = true ∧ (s.queue q).senderId = 1 := by
  obtain ⟨s, reached, found⟩ := exists_reusedQueue
  simp only [Bool.and_eq_true, decide_eq_true_eq] at found
  obtain ⟨senders, chain, mem⟩ := senders_of_careful reached le_rfl (by rw [found.1]; rfl)
  exact ⟨s, senders, found.2.2, found.2.1 ▸ chain, mem⟩

end CxlShm.Registry
