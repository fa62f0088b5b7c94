import CxlShm.Release.Slot

/-!
# The rounds of a collection

Both collections drop references one by one, around the same loops.  `Progress` says what has been
done so far, where `Done` is what a collection keeps true of the memory when some references are
dropped; a collection that can drop one reference (`Handles`) gets through the queues.
-/

namespace CxlShm.Cascade

open Function Fuel Linked

variable {roots dropped slots : Set ObjLoc} {r : ObjLoc} {o b page q : Offset} {t i : ℕ}
  {live : Finset Offset} {s₀ s s' : Site} {c : Belongings} {freed : Set Offset}
  {left left' : List Offset}
  {Done : Set ObjLoc → Site → Prop} {testFree : ℕ → Site → ObjLoc → Option Site}

/-- The `RootRef`s `freed` are freed, the references `slots` of queues are dropped, and the queues
`left` and `left'` have lost their sender and receiver. -/
structure Progress (Done : Set ObjLoc → Site → Prop) (slots : Set ObjLoc) (freed : Set Offset)
    (left left' : List Offset) (s₀ s : Site) : Prop where
  done : Done (s₀.heldBy freed ∪ slots) s
  inUse : ∀ b, s.inUse b = true ↔ s₀.inUse b = true ∧ b ∉ freed
  queue : ∀ q, s.queue q = { s₀.queue q with
    senderId := if q ∈ left then 0 else (s₀.queue q).senderId
    receiverId := if q ∈ left' then 0 else (s₀.queue q).receiverId }
  senderQueue : s.senderQueue = s₀.senderQueue
  receiverQueue : s.receiverQueue = s₀.receiverQueue

/-- `testFree` drops a reference, and leaving a queue drops none. -/
structure Handles (roots : Set ObjLoc) (testFree : ℕ → Site → ObjLoc → Option Site)
    (Done : Set ObjLoc → Site → Prop) : Prop where
  drop : ∀ {dropped s r}, Done dropped s → r ∈ roots → s.loc r ≠ 0 →
    ∃ w, Ends (fun fuel => testFree fuel s r) { s with world := w } ∧
      Done (dropped ∪ {r}) { s with world := w }
  null : ∀ {dropped s r}, Done dropped s → s.loc r = 0 → Done (dropped ∪ {r}) s
  sender : ∀ {dropped s} q, Done dropped s → Done dropped (s.leaveSender q)
  receiver : ∀ {dropped s} q, Done dropped s → Done dropped (s.leaveReceiver q)

theorem Progress.start (done : Done ∅ s) : Progress Done ∅ ∅ [] [] s s where
  done := by
    have nothing : s.heldBy ∅ ∪ ∅ = ∅ := by
      simp [Site.heldBy]
    rw [nothing]
    exact done
  inUse b := by simp
  queue q := by simp
  senderQueue := rfl
  receiverQueue := rfl

/-- A round that touches only the objects. -/
theorem Progress.of_world {slots' : Set ObjLoc} {w : World}
    (p : Progress Done slots freed left left' s₀ s) (done : Done (s₀.heldBy freed ∪ slots') { s with world := w }) :
    Progress Done slots' freed left left' s₀ { s with world := w } :=
  ⟨done, p.inUse, p.queue, p.senderQueue, p.receiverQueue⟩

/-! ## The queues -/

/-- The round for a slot of a queue. -/
theorem Progress.slot (p : Progress Done slots freed left left' s₀ s) (h : Handles roots testFree Done)
    (root : bufferSlot q i ∈ roots) :
    ∃ s', Ends (fun fuel => s.dropSlot testFree fuel q i) s' ∧
      Progress Done (slots ∪ {bufferSlot q i}) freed left left' s₀ s' := by
  by_cases null : s.loc (bufferSlot q i) = 0
  · refine ⟨s, (Ends.pure s).of_eq 0 fun fuel _ => if_neg (not_not.2 null), ?_⟩
    refine p.of_world (w := s.world) ?_
    rw [← Set.union_assoc]
    exact h.null p.done null
  · obtain ⟨w, ends, done⟩ := h.drop p.done root null
    refine ⟨_, ends.of_eq 0 fun fuel _ => if_pos null, p.of_world ?_⟩
    rw [← Set.union_assoc]
    exact done

/-- The slots of a loop around the buffer of a queue. -/
theorem Progress.ring {l : List ℕ} (p : Progress Done slots freed left left' s₀ s)
    (h : Handles roots testFree Done) (inside : ∀ i ∈ l, bufferSlot q i ∈ roots) :
    ∃ s', Ends (fun fuel => l.foldlM (Site.dropSlot testFree fuel q) s) s' ∧
      Progress Done (slots ∪ {r | ∃ i ∈ l, r = bufferSlot q i}) freed left left' s₀ s' := by
  refine ends_foldlM (P := fun done s =>
      Progress Done (slots ∪ {r | ∃ i ∈ done, r = bufferSlot q i}) freed left left' s₀ s)
    (by simpa using p) ?_
  intro done i rest s split p
  have hi : i ∈ l := split ▸ List.mem_append_right done List.mem_cons_self
  obtain ⟨s', ends, p'⟩ := p.slot h (inside i hi)
  refine ⟨s', ends, ?_⟩
  have grown : slots ∪ {r | ∃ j ∈ done ++ [i], r = bufferSlot q j} =
      slots ∪ {r | ∃ j ∈ done, r = bufferSlot q j} ∪ {bufferSlot q i} := by
    ext r
    simp only [Set.mem_union, Set.mem_ofPred_eq, List.mem_append, List.mem_singleton,
      Set.mem_singleton_iff, or_assoc, or_and_right, exists_or, exists_eq_left]
  rw [grown]
  exact p'

/-- The loop over the messages in flight. -/
theorem Progress.inFlight (p : Progress Done slots freed left left' s₀ s)
    (h : Handles roots testFree Done) (m : MessageQueue)
    (inside : ∀ i < messageBufferSize, bufferSlot q i ∈ roots) (start : m.start < messageBufferSize)
    (last : m.end_ < messageBufferSize) :
    ∃ s', Ends (fun fuel =>
        whileRing messageBufferSize m.end_ (Site.dropSlot testFree fuel q) fuel m.start s) s' ∧
      Progress Done (slots ∪ {r | ∃ i < messageBufferSize, m.InFlight i ∧ r = bufferSlot q i}) freed
        left left' s₀ s' := by
  have size : messageBufferSize = 16 := rfl
  have mem (i : ℕ) : i ∈ ringFrom messageBufferSize m.start
      ((m.end_ + messageBufferSize - m.start) % messageBufferSize) ↔
      i < messageBufferSize ∧ m.InFlight i :=
    mem_ringFrom start (Nat.mod_lt _ (by decide)).le
  obtain ⟨s', ends, p'⟩ := p.ring (q := q) h fun i hi => inside i ((mem i).1 hi).1
  refine ⟨s', ends.of_eq messageBufferSize fun fuel enough => ?_, ?_⟩
  · rw [size] at start last enough
    apply whileRing_eq start (Nat.mod_lt _ (by decide)) <;> rw [size] <;> omega
  · simpa only [mem, and_assoc] using p'

/-- The loop over the other slots. -/
theorem Progress.notInFlight (p : Progress Done slots freed left left' s₀ s)
    (h : Handles roots testFree Done) (m : MessageQueue)
    (inside : ∀ i < messageBufferSize, bufferSlot q i ∈ roots) (start : m.start < messageBufferSize)
    (last : m.end_ < messageBufferSize) :
    ∃ s', Ends (fun fuel =>
        doRing messageBufferSize m.start (Site.dropSlot testFree fuel q) fuel m.end_ s) s' ∧
      Progress Done (slots ∪ {r | ∃ i < messageBufferSize, ¬ m.InFlight i ∧ r = bufferSlot q i}) freed
        left left' s₀ s' := by
  have size : messageBufferSize = 16 := rfl
  obtain ⟨d, rounds⟩ : ∃ d, d = (m.start + 15 - m.end_) % 16 := ⟨_, rfl⟩
  have mem (i : ℕ) : i ∈ ringFrom messageBufferSize m.end_ (d + 1) ↔
      i < messageBufferSize ∧ ¬ m.InFlight i := by
    rw [mem_ringFrom last (by omega), MessageQueue.InFlight]
    rw [size] at start last ⊢
    omega
  obtain ⟨s', ends, p'⟩ := p.ring (q := q) h fun i hi => inside i ((mem i).1 hi).1
  refine ⟨s', ends.of_eq messageBufferSize fun fuel enough => ?_, ?_⟩
  · rw [size] at start last enough
    apply doRing_eq d last
    · omega
    · omega
    · omega
  · simpa only [mem, and_assoc] using p'

/-- The round for a queue that the client sends on. -/
theorem Progress.sender (stopped : Stopped t s₀ live roots c) (h : Handles roots testFree Done)
    (p : Progress Done slots freed left [] s₀ s) (hq : q ∈ c.senders) :
    ∃ s', Ends (fun fuel => s.dropSender testFree fuel q) s' ∧
      Progress Done (slots ∪ s₀.leftBySender q) freed (left ++ [q]) [] s₀ s' := by
  obtain ⟨start, last⟩ := stopped.indices q (List.mem_append_left _ hq)
  have inside := stopped.buffers q (List.mem_append_left _ hq)
  have same : s.queue q = { s₀.queue q with
      senderId := if q ∈ left then 0 else (s₀.queue q).senderId } := p.queue q
  obtain ⟨s₁, ends₁, p₁⟩ := p.notInFlight h (s₀.queue q) inside start last
  have second : ∃ s₂, Ends (fun fuel =>
      if (s₀.queue q).receiverId = 0 then
        whileRing messageBufferSize (s₀.queue q).end_ (Site.dropSlot testFree fuel q) fuel
          (s₀.queue q).start s₁
      else some s₁) s₂ ∧
      Progress Done (slots ∪ s₀.leftBySender q) freed left [] s₀ s₂ := by
    by_cases nobody : (s₀.queue q).receiverId = 0
    · obtain ⟨s₂, ends₂, p₂⟩ := p₁.inFlight h (s₀.queue q) inside start last
      refine ⟨s₂, ends₂.of_eq 0 fun _ _ => if_pos nobody, ?_⟩
      have all : slots ∪ s₀.leftBySender q =
          slots ∪ {r | ∃ i < messageBufferSize, ¬ (s₀.queue q).InFlight i ∧ r = bufferSlot q i} ∪
            {r | ∃ i < messageBufferSize, (s₀.queue q).InFlight i ∧ r = bufferSlot q i} := by
        rw [Set.union_assoc]
        congr 1
        ext r
        simp only [Site.leftBySender, nobody, true_or, true_and, Set.mem_ofPred_eq, Set.mem_union]
        constructor
        · rintro ⟨i, hi, rfl⟩
          by_cases flies : (s₀.queue q).InFlight i
          · exact .inr ⟨i, hi, flies, rfl⟩
          · exact .inl ⟨i, hi, flies, rfl⟩
        · rintro (⟨i, hi, -, rfl⟩ | ⟨i, hi, -, rfl⟩) <;> exact ⟨i, hi, rfl⟩
      rw [all]
      exact p₂
    · refine ⟨s₁, (Ends.pure s₁).of_eq 0 fun _ _ => if_neg nobody, ?_⟩
      simpa only [Site.leftBySender, nobody, false_or] using p₁
  obtain ⟨s₂, ends₂, p₂⟩ := second
  refine ⟨s₂.leaveSender q, ?_, ?_⟩
  · have leave := ends₂.map (f := fun s => s.leaveSender q) rfl
    simp only [Site.dropSender, same]
    exact ends₁.bind leave
  · refine { p₂ with done := h.sender q p₂.done, queue := fun x => ?_ }
    by_cases here : x = q
    · subst here
      simp [Site.leaveSender, p₂.queue x]
    · simp [Site.leaveSender, p₂.queue x, here]

/-- The round for a queue that the client receives from. -/
theorem Progress.receiver (stopped : Stopped t s₀ live roots c) (h : Handles roots testFree Done)
    (p : Progress Done slots freed left left' s₀ s) (hq : q ∈ c.receivers) :
    ∃ s', Ends (fun fuel => s.dropReceiver testFree fuel q) s' ∧
      Progress Done (slots ∪ s₀.leftByReceiver q) freed left (left' ++ [q]) s₀ s' := by
  obtain ⟨start, last⟩ := stopped.indices q (List.mem_append_right _ hq)
  have inside := stopped.buffers q (List.mem_append_right _ hq)
  have same := p.queue q
  obtain ⟨s₁, ends, p₁⟩ := p.inFlight h (s₀.queue q) inside start last
  refine ⟨s₁.leaveReceiver q, ?_, ?_⟩
  · have leave := ends.map (f := fun s => s.leaveReceiver q) rfl
    simp only [Site.dropReceiver, same]
    exact leave
  · refine { p₁ with done := h.receiver q p₁.done, queue := fun x => ?_ }
    by_cases here : x = q
    · subst here
      simp [Site.leaveReceiver, p₁.queue x]
    · simp [Site.leaveReceiver, p₁.queue x, here]

/-- A union over a list that gets longer. -/
theorem union_append_singleton {f : Offset → Set ObjLoc} (l : List Offset) (q : Offset) :
    {r | ∃ x ∈ l ++ [q], r ∈ f x} = {r | ∃ x ∈ l, r ∈ f x} ∪ f q := by
  ext r
  simp only [List.mem_append, List.mem_singleton, or_and_right, exists_or, exists_eq_left,
    Set.mem_ofPred_eq, Set.mem_union]

/-- All queues that the client sends on. -/
theorem Progress.senders (stopped : Stopped t s₀ live roots c) (h : Handles roots testFree Done)
    (p : Progress Done ∅ freed [] [] s₀ s) :
    ∃ s', Ends (fun fuel => walk (fun s q => (s.queue q).senderNext) 0
        (fun s q => Site.dropSender testFree fuel q s) fuel (s.senderQueue t) s) s' ∧
      Progress Done {r | ∃ q ∈ c.senders, r ∈ s₀.leftBySender q} freed c.senders [] s₀ s' := by
  rw [p.senderQueue]
  refine ends_walk (P := fun done s =>
    Progress Done {r | ∃ q ∈ done, r ∈ s₀.leftBySender q} freed done [] s₀ s) stopped.senders
    (by simpa using p) ?_ ?_
  · intro done q rest s split p
    rw [p.queue q]
  · intro done q rest s split p
    have hq : q ∈ c.senders := split ▸ List.mem_append_right done List.mem_cons_self
    obtain ⟨s', ends, p'⟩ := p.sender stopped h hq
    refine ⟨s', ends, ?_⟩
    rw [union_append_singleton]
    exact p'

/-- All queues that the client receives from. -/
theorem Progress.receivers (stopped : Stopped t s₀ live roots c) (h : Handles roots testFree Done)
    (p : Progress Done slots freed left [] s₀ s) :
    ∃ s', Ends (fun fuel => walk (fun s q => (s.queue q).receiverNext) 0
        (fun s q => Site.dropReceiver testFree fuel q s) fuel (s.receiverQueue t) s) s' ∧
      Progress Done (slots ∪ {r | ∃ q ∈ c.receivers, r ∈ s₀.leftByReceiver q}) freed left c.receivers s₀
        s' := by
  rw [p.receiverQueue]
  refine ends_walk (P := fun done s =>
    Progress Done (slots ∪ {r | ∃ q ∈ done, r ∈ s₀.leftByReceiver q}) freed left done s₀ s)
    stopped.receivers (by simpa using p) ?_ ?_
  · intro done q rest s split p
    rw [p.queue q]
  · intro done q rest s split p
    have hq : q ∈ c.receivers := split ▸ List.mem_append_right done List.mem_cons_self
    obtain ⟨s', ends, p'⟩ := p.receiver stopped h hq
    refine ⟨s', ends, ?_⟩
    rw [union_append_singleton, ← Set.union_assoc]
    exact p'

/-- All queues of the client. -/
theorem Progress.queues (stopped : Stopped t s₀ live roots c) (h : Handles roots testFree Done)
    (p : Progress Done ∅ freed [] [] s₀ s) :
    ∃ s', Ends (fun fuel => s.dropQueues t testFree fuel) s' ∧
      Progress Done ({r | ∃ q ∈ c.senders, r ∈ s₀.leftBySender q} ∪
        {r | ∃ q ∈ c.receivers, r ∈ s₀.leftByReceiver q}) freed c.senders c.receivers s₀ s' := by
  obtain ⟨s₁, ends₁, p₁⟩ := p.senders stopped h
  obtain ⟨s₂, ends₂, p₂⟩ := p₁.receivers stopped h
  exact ⟨s₂, ends₁.bind ends₂, p₂⟩

/-! ## The `RootRef`s -/

theorem heldBy_insert (s : Site) (freed : Set Offset) (b : Offset) :
    s.heldBy (freed ∪ {b}) = s.heldBy freed ∪ {r | s.inUse b = true ∧ r = .root b} := by
  ext r
  constructor
  · rintro ⟨x, hx | rfl, used, rfl⟩
    · exact .inl ⟨x, hx, used, rfl⟩
    · exact .inr ⟨used, rfl⟩
  · rintro (⟨x, hx, used, rfl⟩ | ⟨used, rfl⟩)
    · exact ⟨x, .inl hx, used, rfl⟩
    · exact ⟨b, .inr rfl, used, rfl⟩

/-- Blocks that are not in use hold nothing to be freed. -/
theorem Progress.unused {more : Set Offset} (p : Progress Done slots freed left left' s₀ s)
    (unused : ∀ b ∈ more, s.inUse b = false) : Progress Done slots (freed ∪ more) left left' s₀ s := by
  have held : s₀.heldBy (freed ∪ more) = s₀.heldBy freed := by
    ext r
    constructor
    · rintro ⟨b, hb | hb, used, rfl⟩
      · exact ⟨b, hb, used, rfl⟩
      · refine ⟨b, ?_, used, rfl⟩
        by_contra out
        have this := (p.inUse b).2 ⟨used, out⟩
        rw [unused b hb] at this
        cases this
    · rintro ⟨b, hb, used, rfl⟩
      exact ⟨b, .inl hb, used, rfl⟩
  refine { p with done := held ▸ p.done, inUse := fun b => ?_ }
  rw [p.inUse, Set.mem_union]
  constructor
  · rintro ⟨used, out⟩
    refine ⟨used, not_or.2 ⟨out, fun hb => ?_⟩⟩
    have this := (p.inUse b).2 ⟨used, out⟩
    rw [unused b hb] at this
    cases this
  · exact fun ⟨used, out⟩ => ⟨used, fun hb => out (.inl hb)⟩

/-- A `RootRef` in use has not been freed. -/
theorem Progress.root_notMem (p : Progress Done slots freed left left' s₀ s) (used : s.inUse b = true) :
    s₀.inUse b = true ∧ ObjLoc.root b ∉ s₀.heldBy freed := by
  obtain ⟨used₀, new⟩ := (p.inUse b).1 used
  refine ⟨used₀, ?_⟩
  rintro ⟨x, hx, -, eq⟩
  cases eq
  exact new hx

/-- A `RootRef` is freed. -/
theorem Progress.free {Done' : Set ObjLoc → Site → Prop} (p : Progress Done ∅ freed left left' s₀ s)
    (used : s.inUse b = true) (done : Done' (s₀.heldBy freed ∪ {.root b}) s')
    (inUse : s'.inUse = update s.inUse b false) (queue : s'.queue = s.queue)
    (senderQueue : s'.senderQueue = s.senderQueue)
    (receiverQueue : s'.receiverQueue = s.receiverQueue) :
    Progress Done' ∅ (freed ∪ {b}) left left' s₀ s' where
  done := by
    have held : s₀.heldBy (freed ∪ {b}) ∪ ∅ = s₀.heldBy freed ∪ {.root b} := by
      rw [heldBy_insert, Set.union_empty]
      congr 1
      ext r
      simp [(p.root_notMem used).1]
    rw [held]
    exact done
  inUse x := by
    rw [inUse]
    by_cases here : x = b
    · subst here
      simp
    · rw [update_of_ne here, p.inUse, Set.mem_union, Set.mem_singleton_iff]
      simp [here]
  queue q := by
    rw [queue]
    exact p.queue q
  senderQueue := senderQueue.trans p.senderQueue
  receiverQueue := receiverQueue.trans p.receiverQueue

end CxlShm.Cascade
