import CxlShm.Handover.Recovery
import CxlShm.Handover.Pages
import CxlShm.Lib.Reachability

/-!
# What holds while the segment goes from hand to hand

Every step keeps the invariant, if the callers see to the following.  No client takes a slot that has
no row, or that a segment with objects in it still names, as it would pass for the owner; requests
have a bin; references lead to objects, and an object has no more of them than its count can hold; a
client writes to its own `RootRef`s; what the redo log names is a `RootRef`; the monitor recovers
clients that have stopped, and its loop over the segments comes to those only whose slot is free; and
no client is on its way to free a block of the segment when the monitor clears it.
-/

namespace CxlShm.Handover

open Linked Function Heap Counting Reachability

/-- The monitor is about to clear the segment header. -/
def Monitor.Clearing : Monitor → Prop
  | .clearSegment _ | .loopClearSegment => True
  | _ => False

/-- What the code does not check itself. -/
def Careful (s : State) : Action → State → Prop
  | .register t, _ => t ≤ maxThread ∧ s.segmentThreadId ≠ t
  -- an object has at least 24 bytes, so that none goes into bin 2
  | .takePage _ i _, _ => i < cxlBinSize ∧ i ≠ 2
  | .link _ b _, _ => s.object b = true ∧ getRefCntFromInfo (s.refInfo b) + 1 < 2 ^ 16
  | .unlink _ b _, _ | .drop b _, _ => s.object b = true
  | .storeRoot t b _, _ | .freeRoot t b, _ => s.rootOf b = some t
  | .recover t, _ => s.slot t = .stopped
  | .redo a _, _ => ∃ t, s.rootOf a = some t
  | .segmentLoop, _ => s.slot s.sasThreadId = .free
  | .monitor _, _ => s.monitor.Clearing → ∀ t, s.held (some t) = none
  | _, _ => True

variable {g : ℕ} {bin : ℕ → Option ℕ} {place : Offset → Place} {s s' : State}

namespace Inv

theorem init : Inv g (fun _ => none) (fun _ => .outside) State.init := by
  refine blank ?_ ?_ rfl
  · refine Places.blank_of (fun _ => rfl) ?_ (fun _ => rfl) (fun _ => rfl) ?_
    · intro q
      have gone : ¬ State.init.Kept := by decide
      rw [State.heads, if_neg gone]
      cases q <;> rfl
    · intro o
      cases o <;> rfl
  · refine ⟨?_, ?_, ?_, ?_, ?_, ?_, ?_, ?_, ?_, ?_, ?_, ?_, ?_, ?_, ?_⟩ <;>
      simp [State.init, Pc.Taking, Pc.Owning, Monitor.slot, Monitor.Looping]

/-- The next access of a client. -/
theorem clientStep {t : ℕ} {weak : Bool} (h : Inv g bin place s)
    (next : s.clientStep g t weak = some s') : ∃ bin' place', Inv g bin' place' s' := by
  unfold State.clientStep at next
  split at next
  · cases next
  · next at_pc =>
    obtain rfl := Option.some.inj next
    exact ⟨_, _, h.storeInfo at_pc⟩
  · next at_pc =>
    obtain rfl := Option.some.inj next
    exact ⟨_, _, h.storeThreadId at_pc⟩
  · next at_pc =>
    obtain rfl := Option.some.inj next
    exact ⟨_, _, h.pushFreePages at_pc⟩
  · next at_pc =>
    obtain rfl := Option.some.inj next
    exact ⟨_, _, h.pushPage at_pc⟩
  · next i b era at_pc =>
    split at next
    · next tbr =>
      obtain rfl := Option.some.inj next
      rw [tbr] at at_pc
      exact ⟨_, _, h.storeTbr at_pc⟩
    · split at next
      · obtain rfl := Option.some.inj next
        exact ⟨_, _, h.storeMsgQueue at_pc⟩
      · obtain rfl := Option.some.inj next
        exact ⟨_, _, h.storeCxlobj at_pc (by omega)⟩
  · next page tail exit at_pc =>
    simp only at next
    split at next
    · next walked =>
      obtain rfl := Option.some.inj next
      rw [walked] at at_pc
      exact ⟨_, _, h.walked at_pc⟩
    · next some =>
      obtain rfl := Option.some.inj next
      exact ⟨_, _, h.walk at_pc some⟩
  · next page at_pc =>
    split at next
    · next empty =>
      obtain rfl := Option.some.inj next
      exact ⟨_, _, h.merge at_pc empty.2⟩
    · obtain rfl := Option.some.inj next
      exact ⟨_, _, h.done (by rw [at_pc]; trivial) (by rw [at_pc]; rfl) (by rw [at_pc]; rfl)
        (by rw [at_pc]; rfl)⟩
  · next at_pc =>
    obtain rfl := Option.some.inj next
    exact ⟨_, _, h.loadUsed at_pc⟩
  · next at_pc =>
    obtain rfl := Option.some.inj next
    exact ⟨_, _, h.abandon at_pc⟩
  · next at_pc =>
    obtain rfl := Option.some.inj next
    exact ⟨_, _, h.memset at_pc⟩
  · next at_pc =>
    obtain rfl := Option.some.inj next
    exact ⟨_, _, h.loadThreadId at_pc⟩
  · next b at_pc =>
    obtain rfl := Option.some.inj next
    split
    · have at_b : place b = .held (some t) := (h.places.held _ b).1 (by
        rw [State.held, at_pc]
        rfl)
      exact ⟨_, _, h.drop at_b (by rw [at_pc]; rfl) (by rw [at_pc]; rfl)⟩
    · exact ⟨_, _, h.loadInfo at_pc⟩
  · next at_pc =>
    obtain rfl := Option.some.inj next
    exact ⟨_, _, h.storeNext at_pc⟩
  · next b info at_pc =>
    split at next
    · next won =>
      obtain rfl := Option.some.inj next
      exact ⟨_, _, h.push at_pc won.2⟩
    · obtain rfl := Option.some.inj next
      exact ⟨_, _, h.retry at_pc⟩
  · next at_pc =>
    obtain rfl := Option.some.inj next
    exact ⟨_, _, h.freeLocal at_pc rfl⟩
  · next at_pc =>
    obtain rfl := Option.some.inj next
    exact ⟨_, _, (h.removePage at_pc rfl).2⟩
  · next at_pc =>
    obtain rfl := Option.some.inj next
    obtain ⟨place', h'⟩ := h.clearPage at_pc rfl rfl
    exact ⟨_, place', h'⟩
  · next at_pc =>
    obtain rfl := Option.some.inj next
    exact ⟨_, _, (h.clearSegment at_pc).2⟩
  · next at_pc =>
    split at next
    · obtain rfl := Option.some.inj next
      exact ⟨_, _, (h.releaseSegment at_pc).2⟩
    · cases next

/-- The next access of the monitor. -/
theorem monitorStep {weak : Bool} (h : Inv g bin place s) (next : s.monitorStep weak = some s')
    (hands : s.monitor.Clearing → ∀ t, s.held (some t) = none) :
    ∃ bin' place', Inv g bin' place' s' := by
  have in_hand : ∀ b, s.monitor.held = some b → place b = .held none :=
    fun b => (h.places.held none b).1
  unfold State.monitorStep at next
  split at next
  · cases next
  · cases next
  · next at_m =>
    obtain rfl := Option.some.inj next
    exact ⟨_, _, h.clearFreed at_m⟩
  · next t b at_m =>
    obtain rfl := Option.some.inj next
    split
    · exact ⟨_, _, h.keepFreed at_m⟩
    · exact ⟨_, _, h.loadFreed (by rw [at_m]; rfl) (by rw [at_m]; rfl) rfl rfl rfl
        fun _ => trivial⟩
  · next t b at_m =>
    obtain rfl := Option.some.inj next
    exact ⟨_, _, h.loadFreed (by rw [at_m]; rfl) (by rw [at_m]; rfl) rfl rfl rfl fun _ => trivial⟩
  · next at_m =>
    obtain rfl := Option.some.inj next
    exact ⟨_, _, h.linkFreed at_m⟩
  · next t b info at_m =>
    split at next
    · next won =>
      obtain rfl := Option.some.inj next
      exact ⟨_, _, h.pushFreed at_m won.2⟩
    · obtain rfl := Option.some.inj next
      exact ⟨_, _, h.loadFreed (by rw [at_m]; rfl) (by rw [at_m]; rfl) rfl rfl rfl
        fun _ => trivial⟩
  · next at_m =>
    obtain rfl := Option.some.inj next
    exact ⟨_, _, h.pagesDone at_m⟩
  · next at_m =>
    simp only at next
    split at next
    · cases next
    · obtain rfl := Option.some.inj next
      exact ⟨_, _, h.nextPage at_m⟩
  · next at_m =>
    obtain rfl := Option.some.inj next
    exact ⟨_, _, h.scanned at_m⟩
  · next at_m =>
    obtain rfl := Option.some.inj next
    exact ⟨_, _, h.scan at_m⟩
  · next at_m =>
    obtain rfl := Option.some.inj next
    exact ⟨_, _, h.clearObjectPage at_m⟩
  · next at_m =>
    obtain rfl := Option.some.inj next
    exact ⟨_, _, h.abandonSegment at_m⟩
  · next at_m =>
    obtain rfl := Option.some.inj next
    exact ⟨_, _, h.segment at_m⟩
  · next at_m =>
    obtain rfl := Option.some.inj next
    exact ⟨_, _, h.clearStopped at_m (hands (by rw [at_m]; trivial))⟩
  · next at_m =>
    split at next
    · obtain rfl := Option.some.inj next
      exact ⟨_, _, (h.release at_m).2⟩
    · cases next
  · next at_m =>
    obtain rfl := Option.some.inj next
    exact ⟨_, _, h.freeTls at_m⟩
  · next at_m =>
    obtain rfl := Option.some.inj next
    exact ⟨_, _, h.loopPagesDone at_m⟩
  · next at_m =>
    obtain rfl := Option.some.inj next
    exact ⟨_, _, h.loopNextPage at_m⟩
  · next at_m =>
    obtain rfl := Option.some.inj next
    exact ⟨_, _, h.loopScanned at_m⟩
  · next page b blocks rest at_m =>
    obtain rfl := Option.some.inj next
    split
    · next msg =>
      split
      · exact ⟨_, _, h.loopBreak at_m⟩
      · exact ⟨_, _, h.loopSkip at_m (h.dead_of_queue at_m msg)⟩
    · split
      · exact ⟨_, _, h.loopBreak at_m⟩
      · next dead => exact ⟨_, _, h.loopSkip at_m fun at_b => absurd (h.places.live b at_b) dead⟩
  · next at_m =>
    obtain rfl := Option.some.inj next
    exact ⟨_, _, h.loopClearPage at_m⟩
  · next at_m =>
    obtain rfl := Option.some.inj next
    exact ⟨_, _, h.loopClearSegment at_m (hands (by rw [at_m]; trivial))⟩
  · next at_m =>
    obtain rfl := Option.some.inj next
    exact ⟨_, _, h.loopStoreInfo at_m⟩
  · next at_m =>
    obtain rfl := Option.some.inj next
    exact ⟨_, _, h.loopRelease at_m⟩

theorem dropRef_object (s : State) (t : ℕ) (b : Offset) (era : ℕ) :
    (s.dropRef t b era).object b = true ↔ 0 < getRefCntFromInfo (s.refInfo b) - 1 := by
  simp [State.dropRef]

/-- Every step keeps the invariant. -/
theorem next {a : Action} (h : Inv g bin place s) (hstep : step g s a = some s')
    (careful : Careful s a s') : ∃ bin' place', Inv g bin' place' s' := by
  unfold step at hstep
  split at hstep
  · next t =>
    split at hstep
    · next slot =>
      obtain rfl := Option.some.inj hstep
      exact ⟨_, _, h.register (by omega) slot.2 careful.2⟩
    · cases hstep
  · next t =>
    split at hstep
    · next running =>
      obtain rfl := Option.some.inj hstep
      obtain ⟨place', h'⟩ := h.depart .stopped s.pages s.freePage running (by decide)
        (fun _ _ => ⟨rfl, rfl⟩) (.inl ⟨rfl, rfl, rfl⟩)
      exact ⟨_, place', h'⟩
    · cases hstep
  · next t =>
    split at hstep
    · next ready =>
      obtain rfl := Option.some.inj hstep
      have departed := h.depart .free (update s.pages t fun _ => [])
        (update s.freePage t []) ready.1 (by decide)
        (fun u other => ⟨update_of_ne other _ _, update_of_ne other _ _⟩)
        (.inr ⟨rfl, fun _ => by rw [update_self], update_self ..⟩)
      obtain ⟨place', h'⟩ := departed
      rw [State.setPc, update_idle ready.2] at h'
      exact ⟨_, place', h'⟩
    · cases hstep
  · next t =>
    split at hstep
    · next ready =>
      obtain rfl := Option.some.inj hstep
      exact ⟨_, _, h.acquire ready.1 ready.2⟩
    · cases hstep
  · next t i stale =>
    split at hstep
    · cases hstep
    · next page rest free =>
      split at hstep
      · next ready =>
        obtain rfl := Option.some.inj hstep
        obtain ⟨place', h'⟩ := h.takePage stale ready free careful.1 careful.2
        exact ⟨_, place', h'⟩
      · cases hstep
  · next t i page era =>
    simp only at hstep
    split at hstep
    · next ready =>
      obtain rfl := Option.some.inj hstep
      exact ⟨_, _, h.alloc ready.1 ready.2.1 ready.2.2⟩
    · cases hstep
  · next t i page exit =>
    split at hstep
    · next ready =>
      obtain rfl := Option.some.inj hstep
      exact ⟨_, _, h.collect ready.1 ready.2.1 ready.2.2⟩
    · cases hstep
  · next t b era =>
    split at hstep
    · next ready =>
      obtain rfl := Option.some.inj hstep
      exact ⟨_, _, h.link ready careful.2⟩
    · cases hstep
  · next t b era =>
    split at hstep
    · next ready =>
      obtain rfl := Option.some.inj hstep
      have left := dropRef_object s t b era
      split
      · next more => exact ⟨_, _, h.unlink ready careful (left.1 more)⟩
      · next last => exact ⟨_, _, h.unlinkLast ready careful fun more => last (left.2 more)⟩
    · cases hstep
  · next t b w =>
    split at hstep
    · next ready =>
      obtain rfl := Option.some.inj hstep
      exact ⟨_, _, h.storeRoot ready careful⟩
    · cases hstep
  · next t b =>
    split at hstep
    · next ready =>
      obtain rfl := Option.some.inj hstep
      exact ⟨_, _, h.freeRoot ready careful⟩
    · cases hstep
  · next t =>
    split at hstep
    · next ready =>
      obtain rfl := Option.some.inj hstep
      exact ⟨_, _, h.exitQueue ready.1 ready.2⟩
    · cases hstep
  · exact h.clientStep hstep
  · next t =>
    split at hstep
    · next ready =>
      obtain rfl := Option.some.inj hstep
      exact ⟨_, _, h.recover ready.1 careful⟩
    · cases hstep
  · next a w =>
    split at hstep
    · next at_m =>
      obtain rfl := Option.some.inj hstep
      obtain ⟨u, root⟩ := careful
      exact ⟨_, _, h.redo at_m root⟩
    · cases hstep
  · split at hstep
    · next at_m =>
      obtain rfl := Option.some.inj hstep
      exact ⟨_, _, h.mark at_m⟩
    · cases hstep
  · next b era =>
    split at hstep
    · next t at_m =>
      obtain rfl := Option.some.inj hstep
      have left := dropRef_object s t b era
      split
      · next more => exact ⟨_, _, h.dropRef at_m careful (left.1 more)⟩
      · next last => exact ⟨_, _, h.dropLast at_m careful fun more => last (left.2 more)⟩
    · cases hstep
  · next b =>
    split at hstep
    · next at_m =>
      split at hstep
      · next root =>
        obtain rfl := Option.some.inj hstep
        exact ⟨_, _, h.clearRoot at_m root⟩
      · cases hstep
    · cases hstep
  · next page =>
    split at hstep
    · next at_m =>
      split at hstep
      · next mem =>
        obtain rfl := Option.some.inj hstep
        exact ⟨_, _, h.clearRootPage at_m mem⟩
      · cases hstep
    · cases hstep
  · split at hstep
    · next at_m =>
      split at hstep
      · obtain rfl := Option.some.inj hstep
        exact ⟨_, _, h.mark at_m⟩
      · cases hstep
    · cases hstep
  · split at hstep
    · next at_m =>
      obtain rfl := Option.some.inj hstep
      exact ⟨_, _, h.objectPages at_m⟩
    · cases hstep
  · split at hstep
    · next loop =>
      obtain rfl := Option.some.inj hstep
      exact ⟨_, _, h.segmentLoop loop.1 loop.2 careful⟩
    · cases hstep
  · exact h.monitorStep hstep careful

theorem of_reachable (reached : Reachable (step g) Careful State.init s) :
    ∃ bin place, Inv g bin place s := by
  refine reached.invariant (I := fun s => ∃ bin place, Inv g bin place s) ⟨_, _, init⟩ ?_
  rintro s a s' ⟨bin, place, h⟩ hstep careful
  exact h.next hstep careful

end Inv

/-! ## In terms of the memory -/

/-- The block is on the list that begins at `head`. -/
def State.OnList (s : State) (head b : Offset) : Prop := ∃ l, Chain s.blockNext 0 head l ∧ b ∈ l

/-- The block is no object and no `RootRef`, and nobody builds or frees it. -/
structure State.Unused (s : State) (b : Offset) : Prop where
  object : s.object b = false
  root : s.rootOf b = none
  hands : ∀ o, s.held o ≠ some b

/-- The block waits for the owner, on the chain of the segment or on the one that the owner has
detached. -/
def State.Waits (s : State) (b : Offset) : Prop := s.OnList s.chain b ∨ s.OnList s.tail b

namespace Places

theorem onList (h : Places place s) (q : Stack) {b : Offset} :
    s.OnList (s.heads q) b ↔ place b = .listed q := by
  obtain ⟨l, chain, mem⟩ := h.lists q
  constructor
  · rintro ⟨m, chain', mem'⟩
    rw [chain'.unique chain, mem, stack_eq_some] at mem'
    exact mem'
  · intro listed
    exact ⟨l, chain, (mem b).2 (by simp [listed])⟩

theorem heads_threadFree : s.heads .threadFree = s.chain := by
  unfold State.heads
  split <;> rfl

theorem heads_detached : s.heads .detached = s.tail := by
  unfold State.heads
  split <;> rfl

theorem waits (h : Places place s) {b : Offset} :
    s.Waits b ↔ place b = .listed .threadFree ∨ place b = .listed .detached := by
  rw [State.Waits, ← heads_threadFree, ← heads_detached, h.onList, h.onList]

theorem unused (h : Places place s) {b : Offset}
    (apart : ∀ o t, place b ≠ .object ∧ place b ≠ .root t ∧ place b ≠ .held o) : s.Unused b := by
  refine ⟨?_, ?_, ?_⟩
  · rw [← Bool.not_eq_true, h.object]
    exact (apart none 0).1
  · rw [Option.eq_none_iff_forall_ne_some]
    intro t mine
    exact (apart none t).2.1 ((h.root b t).1 mine)
  · intro o in_hand
    exact (apart o 0).2.2 ((h.held o b).1 in_hand)

theorem unused_of_listed (h : Places place s) {b : Offset} {q : Stack} (listed : place b = .listed q) :
    s.Unused b := by
  apply h.unused
  simp [listed]

/-- A block that is on a list of its page, or of a page that is not in use, is not in use. -/
theorem unused_of_uncounted (h : Places place s) {b : Offset} (uncounted : ¬ (place b).Counted) :
    s.Unused b ∧ ¬ s.Waits b := by
  constructor
  · apply h.unused
    intro o t
    refine ⟨?_, ?_, ?_⟩ <;>
    · intro at_b
      rw [at_b] at uncounted
      exact uncounted trivial
  · rw [h.waits]
    rintro (at_b | at_b) <;>
    · rw [at_b] at uncounted
      exact uncounted trivial

end Places

theorem ncard_of_list {l : List ℕ} {p : ℕ → Prop} (nodup : l.Nodup) (mem : ∀ b, b ∈ l ↔ p b) :
    {b | p b}.ncard = l.length := by
  have same : {b | p b} = (l.toFinset : Set ℕ) := by
    ext b
    simp [mem]
  rw [same, Set.ncard_coe_finset, List.toFinset_card_of_nodup nodup]

theorem length_blocksFrom {bs n block : ℕ} : (blocksFrom bs n block).length = n := by
  induction n generalizing block with
  | zero => rfl
  | succ n ih => rw [blocksFrom, List.length_cons, ih]

theorem nodup_blocksFrom {bs : ℕ} (n block : ℕ) (pos : 0 < bs) : (blocksFrom bs n block).Nodup := by
  induction n generalizing block with
  | zero => exact List.nodup_nil
  | succ n ih =>
    refine List.nodup_cons.2 ⟨?_, ih _⟩
    intro again
    obtain ⟨j, -, same⟩ := mem_blocksFrom.1 again
    omega

/-- How many blocks a page is cut into. -/
theorem ncard_inPage {page i : ℕ} (isPage : IsPage page) (few : i < cxlBinSize) :
    {b | InPage page i b}.ncard = pageSize / initBlockSize i := by
  have counted := ncard_of_list (p := InPage page i)
    (nodup_blocksFrom (pageSize / initBlockSize i) (cxlPageStart page) (initBlockSize_pos few)) ?_
  · rwa [length_blocksFrom] at counted
  · intro b
    rw [mem_blocksFrom]
    exact ⟨fun at_index => ⟨isPage, at_index⟩, fun in_page => in_page.at_index⟩

/-! ## A run -/

/-- The condition on a step that a run is checked for; the monitor does not clear segments in it. -/
def careful (s : State) : Action → State → Bool
  | .register t, _ => t ≤ maxThread ∧ s.segmentThreadId ≠ t
  | .takePage _ i _, _ => i < cxlBinSize ∧ i ≠ 2
  | .link _ b _, _ => s.object b ∧ getRefCntFromInfo (s.refInfo b) + 1 < 2 ^ 16
  | .unlink _ b _, _ | .drop b _, _ => s.object b
  | .storeRoot t b _, _ | .freeRoot t b, _ => s.rootOf b = some t
  | .recover t, _ => s.slot t = .stopped
  | .redo a _, _ => (s.rootOf a).isSome
  | .segmentLoop, _ => s.slot s.sasThreadId = .free
  | .monitor _, _ =>
    match s.monitor with
    | .clearSegment _ | .loopClearSegment => false
    | _ => true
  | _, _ => true

theorem careful_sound {a : Action} (passed : careful s a s' = true) : Careful s a s' := by
  cases a with
  | redo a w => exact Option.isSome_iff_exists.1 passed
  | monitor weak =>
    intro clearing
    simp only [careful] at passed
    unfold Monitor.Clearing at clearing
    split at clearing <;> simp_all
  | _ => first | trivial | simpa [careful, Careful] using passed

theorem exists_run (as : List Action) (P : State → Prop) [DecidablePred P]
    (run : (checkedRun (step 0) careful State.init as).any (fun s => P s) = true) :
    ∃ s, Reachable (step 0) Careful State.init s ∧ P s := by
  obtain ⟨s, reached, last⟩ := exists_reachable_of_checkedRun (J := fun _ => True)
    (fun _ _ _ _ _ passed => ⟨trivial, careful_sound passed⟩) trivial run
  exact ⟨s, reached, of_decide_eq_true last⟩

/-- The first page of the first segment, and its first block. -/
def firstPage : ℕ := metaPage (segmentAt 0) 1

def firstBlock : Offset := cxlPageStart firstPage

/-- Client 1 takes the segment, and hands out a block of 1024 bytes. -/
def firstAlloc : List Action :=
  [.register 1, .register 2, .acquire 1, .client 1 false, .client 1 false, .client 1 false,
    .takePage 1 65 0, .client 1 false, .alloc 1 65 firstPage 0, .client 1 false]

/-! ## Safety -/

/-- What a client or the monitor builds or frees was handed out since the present owner has taken
the segment, nobody else has it, and it is on none of the lists that lead back to the owner. -/
theorem held_of_present_owner (reached : Reachable (step g) Careful State.init s)
    {o : Option ℕ} {b : Offset} (in_hand : s.held o = some b) :
    s.segmentThreadId ≠ 0 ∧ s.bornIn b = s.generation ∧ s.object b = false ∧ s.rootOf b = none ∧
      (∀ o', s.held o' = some b → o' = o) ∧ ¬ s.Waits b := by
  obtain ⟨bin, place, h⟩ := Inv.of_reachable reached
  have at_b := (h.places.held o b).1 in_hand
  refine ⟨?_, ?_, ?_, ?_, fun o' in_hand' => h.places.alone in_hand' in_hand, ?_⟩
  · exact h.places.owned (b := b) (by simp [at_b])
  · exact h.places.born b (by rw [at_b]; trivial)
  · rw [← Bool.not_eq_true, h.places.object, at_b]
    simp
  · rw [Option.eq_none_iff_forall_ne_some]
    intro t mine
    rw [h.places.root, at_b] at mine
    cases mine
  · rw [h.places.waits, at_b]
    simp

/-- Client 2 gives up the last reference to a block of client 1. -/
theorem held_of_present_owner_remote : ∃ s, Reachable (step 0) Careful State.init s ∧
    s.held (some 2) = some firstBlock ∧ s.bornIn firstBlock = s.generation ∧ ¬ s.Waits firstBlock := by
  obtain ⟨s, reached, in_hand⟩ := exists_run (firstAlloc ++ [.unlink 2 firstBlock 0])
    (fun s => s.held (some 2) = some firstBlock) (by decide +kernel)
  obtain ⟨-, born, -, -, -, waits⟩ := held_of_present_owner reached in_hand
  exact ⟨s, reached, in_hand, born, waits⟩

/-- The chain of the segment and the one that the owner has detached are lists without repetition
and without a common block.  What is on them was handed out since the present owner has taken the
segment, and is not in use any more. -/
theorem chains_of_present_owner (reached : Reachable (step g) Careful State.init s) :
    ∃ l l', Chain s.blockNext 0 s.chain l ∧ Chain s.blockNext 0 s.tail l' ∧ (l ++ l').Nodup ∧
      ∀ b ∈ l ++ l', s.bornIn b = s.generation ∧ s.Unused b := by
  obtain ⟨bin, place, h⟩ := Inv.of_reachable reached
  obtain ⟨l, chain, mem⟩ := h.places.lists .threadFree
  obtain ⟨l', chain', mem'⟩ := h.places.lists .detached
  simp only [stack_eq_some] at mem mem'
  refine ⟨l, l', Places.heads_threadFree ▸ chain, Places.heads_detached ▸ chain', ?_, ?_⟩
  · refine List.nodup_append.2 ⟨chain.nodup, chain'.nodup, ?_⟩
    rintro b waiting x detached rfl
    have at_b := (mem b).1 waiting
    rw [(mem' b).1 detached] at at_b
    cases at_b
  · intro b waiting
    rcases List.mem_append.1 waiting with waiting | detached
    · have at_b := (mem b).1 waiting
      exact ⟨h.places.born b (by rw [at_b]; trivial), h.places.unused_of_listed at_b⟩
    · have at_b := (mem' b).1 detached
      exact ⟨h.places.born b (by rw [at_b]; trivial), h.places.unused_of_listed at_b⟩

/-- The block is on the chain of the segment when client 1 has stopped. -/
theorem chains_of_present_owner_remote : ∃ s, Reachable (step 0) Careful State.init s ∧
    s.chain = firstBlock ∧ s.slot 1 = .stopped ∧ s.bornIn firstBlock = s.generation := by
  obtain ⟨s, reached, last⟩ := exists_run
    (firstAlloc ++ [.unlink 2 firstBlock 0] ++ List.replicate 5 (.client 2 false) ++ [.crash 1])
    (fun s => s.chain = firstBlock ∧ s.slot 1 = .stopped) (by decide +kernel)
  obtain ⟨l, l', chain, -, -, born⟩ := chains_of_present_owner reached
  obtain ⟨rest, rfl, -⟩ := chain.exists_cons (by rw [last.1]; decide)
  refine ⟨s, reached, last.1, last.2, ?_⟩
  rw [← last.1]
  exact (born s.chain (by simp)).1

/-- A block that a client takes from a page is no object and no `RootRef`, nobody else has it, and
it is on no list that leads back to the owner. -/
theorem alloc_unused (reached : Reachable (step g) Careful State.init s) {t i page : ℕ}
    (ready : s.Ready t) (mem : page ∈ s.pages t i) (some : s.free page ≠ 0) :
    s.segmentThreadId = t ∧ InPage page i (s.free page) ∧ s.Unused (s.free page) ∧
      ¬ s.Waits (s.free page) := by
  obtain ⟨bin, place, h⟩ := Inv.of_reachable reached
  obtain ⟨kept, owner, in_bin⟩ := h.bin_of_mem ready.1 mem
  have owned := h.owned kept
  have at_b : place (s.free page) = .listed (.free page) := by
    have on_list := h.places.lists.place_head (q := .free page) (by rwa [heads_of_kept kept])
    rwa [heads_of_kept kept, stack_eq_some] at on_list
  have here : cxlPtrPage (s.free page) = page := h.places.fits _ _ at_b
  obtain ⟨k, in_k, inside⟩ := (owned.block (s.free page)).1 (by simp [at_b])
  rw [here] at in_k inside
  obtain rfl : i = k := Option.some.inj (in_bin.symm.trans in_k)
  obtain ⟨unused, waits⟩ := h.places.unused_of_uncounted (b := s.free page) (by rw [at_b]; exact id)
  exact ⟨owner, inside, unused, waits⟩

/-- The second block of the page. -/
theorem alloc_unused_second : ∃ s, Reachable (step 0) Careful State.init s ∧
    s.object firstBlock = true ∧ s.free firstPage = firstBlock + 1024 ∧
      s.Unused (firstBlock + 1024) := by
  obtain ⟨s, reached, last⟩ := exists_run firstAlloc
    (fun s => s.Ready 1 ∧ firstPage ∈ s.pages 1 65 ∧ s.object firstBlock = true ∧
      s.free firstPage = firstBlock + 1024) (by decide +kernel)
  obtain ⟨ready, mem, object, free⟩ := last
  have unused := (alloc_unused reached ready mem (by rw [free]; exact Nat.succ_ne_zero _)).2.2.1
  rw [free] at unused
  exact ⟨s, reached, object, free, unused⟩

/-- Where `cxl_free` takes the local branch, and where the owner goes through what others have
freed, the block belongs to a page in one of its own queues, which has given away blocks. -/
theorem freed_into_own_page (reached : Reachable (step g) Careful State.init s) {t : ℕ} {b : Offset}
    (at_pc : (∃ special, s.pc t = .freeLocal b special) ∨
      ∃ page exit, s.pc t = .walk page b exit ∧ b ≠ 0) :
    s.sasThreadId = t ∧ s.segmentThreadId = t ∧ s.slot t = .running ∧
      ∃ i, cxlPtrPage b ∈ s.pages t i ∧ InPage (cxlPtrPage b) i b ∧ 0 < s.used (cxlPtrPage b) := by
  obtain ⟨bin, place, h⟩ := Inv.of_reachable reached
  have c := h.control
  have owning : (s.pc t).Owning := by
    rcases at_pc with ⟨special, at_pc⟩ | ⟨page, exit, at_pc, -⟩ <;> rw [at_pc] <;> trivial
  have moving : (s.pc t).moving = none := by
    rcases at_pc with ⟨special, at_pc⟩ | ⟨page, exit, at_pc, -⟩ <;> rw [at_pc] <;> rfl
  have kept := c.kept_of_owning owning
  have owner := c.owning t owning
  have owned := h.owned kept
  have counted : (place b).Counted := by
    rcases at_pc with ⟨special, at_pc⟩ | ⟨page, exit, at_pc, some⟩
    · rw [(h.places.held (Option.some t) b).1 (by rw [State.held, at_pc]; rfl)]
      trivial
    · have tail : s.tail = b := by rw [State.tail, owner, at_pc]; rfl
      have at_b := h.places.lists.place_head (q := .detached) (by rwa [Places.heads_detached, tail])
      rw [Places.heads_detached, tail, stack_eq_some] at at_b
      rw [at_b]
      trivial
  have inside : place b ≠ .outside := by
    intro outside
    rw [outside] at counted
    exact counted
  obtain ⟨i, in_bin, in_page⟩ := (owned.block b).1 inside
  refine ⟨?_, owner, ?_, i, ?_, in_page, ?_⟩
  · rw [c.header (c.owned_of_kept kept), owner]
  · rwa [State.Kept, owner] at kept
  · have queue := owned.queue
    rw [owner] at queue
    rw [queue, moving]
    exact ⟨in_bin, by simp⟩
  · rw [owned.used]
    exact countAt_pos (finite_page in_page.isPage) rfl counted

/-- Client 1 collects the block that client 2 has pushed. -/
theorem freed_into_own_page_walk : ∃ s, Reachable (step 0) Careful State.init s ∧
    s.pc 1 = .walk firstPage firstBlock false ∧ 0 < s.used (cxlPtrPage firstBlock) := by
  obtain ⟨s, reached, at_pc⟩ := exists_run
    (firstAlloc ++ [.unlink 2 firstBlock 0] ++ List.replicate 5 (.client 2 false) ++
      [.collect 1 65 firstPage false])
    (fun s => s.pc 1 = .walk firstPage firstBlock false) (by decide +kernel)
  obtain ⟨-, -, -, i, -, -, used⟩ :=
    freed_into_own_page reached (.inr ⟨firstPage, false, at_pc, by decide⟩)
  exact ⟨s, reached, at_pc, used⟩

/-- An owner gives a page back out of the queue that it is in, and when none of the blocks of the
page is in use or on the way back; the monitor does when no block of it is an object. -/
theorem page_freed_unused (reached : Reachable (step g) Careful State.init s) {page : ℕ} :
    (∀ t special, s.pc t = .removePage page special →
      page ∈ s.pages t (cxlPageQueue special (s.blockSize page))) ∧
    (∀ t, (∃ special, s.pc t = .removePage page special) ∨ s.pc t = .clearPage page →
      ∀ b, cxlPtrPage b = page → s.Unused b ∧ ¬ s.Waits b) ∧
    ((∃ t, s.monitor = .sweep t ∧ page ∈ s.pages t 0) ∨ (∃ t rest, s.monitor = .clearPage t page rest) ∨
      (∃ rest, s.monitor = .loopClearPage page rest) →
      ∀ b, cxlPtrPage b = page → s.object b = false) := by
  obtain ⟨bin, place, h⟩ := Inv.of_reachable reached
  refine ⟨fun t special at_pc => (h.removePage at_pc rfl).1, ?_, ?_⟩
  · intro t at_pc b here
    have owning : (s.pc t).Owning := by
      rcases at_pc with ⟨special, at_pc⟩ | at_pc <;> rw [at_pc] <;> trivial
    have owned := h.owned (h.control.kept_of_owning owning)
    have todo := h.todo_of_owning owning
    obtain ⟨isPage, unused⟩ : IsPage page ∧ s.used page = 0 := by
      rcases at_pc with ⟨special, at_pc⟩ | at_pc
      · rw [at_pc] at todo
        obtain ⟨k, in_bin⟩ := todo.1.taken
        exact ⟨(owned.page page k in_bin).1, todo.2⟩
      · rw [at_pc] at todo
        obtain ⟨⟨k, in_bin⟩, unused⟩ := todo
        exact ⟨(owned.page page k in_bin).1, unused⟩
    apply h.places.unused_of_uncounted
    rcases Inv.unused_page h.places owned isPage unused here with at_b | at_b | at_b <;>
    · rw [at_b]
      exact id
  · intro clearing b here
    rw [← Bool.not_eq_true, h.places.object]
    intro at_b
    rcases clearing with ⟨t, at_m, mem⟩ | ⟨t, rest, at_m⟩ | ⟨rest, at_m⟩
    · exact (h.dead_of_rootPage at_m mem).2 b at_b here
    · exact ((h.dead_of_clearPage at_m).2.2 b at_b).1 here
    · exact (h.dead_of_loopClearPage at_m at_b).1 here

/-- Client 1 frees its only block. -/
theorem page_freed_unused_last : ∃ s, Reachable (step 0) Careful State.init s ∧
    s.pc 1 = .removePage firstPage false ∧
      firstPage ∈ s.pages 1 (cxlPageQueue false (s.blockSize firstPage)) := by
  obtain ⟨s, reached, at_pc⟩ := exists_run
    (firstAlloc ++ [.unlink 1 firstBlock 0] ++ List.replicate 3 (.client 1 false))
    (fun s => s.pc 1 = .removePage firstPage false) (by decide +kernel)
  exact ⟨s, reached, at_pc, (page_freed_unused reached).1 1 false at_pc⟩

/-- An owner gives the segment back when nothing of it is in use or on the way back, and the monitor
when it holds no object. -/
theorem segment_freed_unused (reached : Reachable (step g) Careful State.init s) (b : Offset) :
    ((∃ t, s.pc t = .clearSegment) → s.Unused b ∧ ¬ s.Waits b) ∧
      (s.monitor.Clearing → s.object b = false) := by
  obtain ⟨bin, place, h⟩ := Inv.of_reachable reached
  constructor
  · rintro ⟨t, at_pc⟩
    apply h.places.unused_of_uncounted
    rw [(h.clearSegment at_pc).1 b]
    exact id
  · intro clearing
    rw [← Bool.not_eq_true, h.places.object]
    unfold Monitor.Clearing at clearing
    split at clearing
    · next t at_m => exact (h.dead_of_clearSegment at_m).2.2 b
    · next at_m => exact h.dead_of_loopClearSegment at_m b
    · exact clearing.elim

/-- The monitor comes to the segment of client 1, which has stopped after it had freed its only
block. -/
theorem segment_freed_unused_stopped : ∃ s, Reachable (step 0) Careful State.init s ∧
    s.monitor = .clearSegment 1 ∧ s.object firstBlock = false := by
  obtain ⟨s, reached, at_m⟩ := exists_run
    (firstAlloc ++ [.unlink 1 firstBlock 0, .crash 1, .recover 1, .objectPages] ++
      List.replicate 69 (.monitor false))
    (fun s => s.monitor = .clearSegment 1) (by decide +kernel)
  exact ⟨s, reached, at_m, (segment_freed_unused reached firstBlock).2 (by rw [at_m]; trivial)⟩

/-- While the owner of a page runs, each block of the page is in the list `free`, in `local_free`,
or counted by `used`. -/
theorem used_add_length (reached : Reachable (step g) Careful State.init s) {t i page : ℕ}
    (running : s.slot t = .running) (mem : page ∈ s.pages t i) :
    ∃ l l', Chain s.blockNext 0 (s.free page) l ∧ Chain s.blockNext 0 (s.localFree page) l' ∧
      (l ++ l').Nodup ∧ (∀ b ∈ l ++ l', InPage page i b ∧ s.Unused b ∧ ¬ s.Waits b) ∧
      s.used page + (l ++ l').length = pageSize / s.blockSize page := by
  obtain ⟨bin, place, h⟩ := Inv.of_reachable reached
  obtain ⟨kept, owner, in_bin⟩ := h.bin_of_mem running mem
  have owned := h.owned kept
  obtain ⟨isPage, -, ⟨few, -⟩, size, -⟩ := owned.page page i in_bin
  obtain ⟨l, chain, on_free⟩ := h.places.lists (.free page)
  obtain ⟨l', chain', on_local⟩ := h.places.lists (.localFree page)
  simp only [stack_eq_some] at on_free on_local
  rw [heads_of_kept kept] at chain chain'
  have nodup : (l ++ l').Nodup := by
    refine List.nodup_append.2 ⟨chain.nodup, chain'.nodup, ?_⟩
    rintro b mem_b x mem_x rfl
    have at_b := (on_free b).1 mem_b
    rw [(on_local b).1 mem_x] at at_b
    cases at_b
  have listed : ∀ b, b ∈ l ++ l' ↔
      place b = .listed (.free page) ∨ place b = .listed (.localFree page) := by
    intro b
    rw [List.mem_append, on_free, on_local]
  have uncounted : ∀ b ∈ l ++ l', cxlPtrPage b = page ∧ place b ≠ .outside ∧ ¬ (place b).Counted := by
    intro b mem_b
    rcases (listed b).1 mem_b with at_b | at_b <;>
    · rw [at_b]
      exact ⟨h.places.fits b _ at_b, by simp, id⟩
  have inside : ∀ b, cxlPtrPage b = page ∧ place b ≠ .outside ↔ InPage page i b := by
    intro b
    constructor
    · rintro ⟨rfl, inside⟩
      obtain ⟨k, in_k, in_page⟩ := (owned.block b).1 inside
      rwa [Option.some.inj (in_bin.symm.trans in_k)]
    · intro in_page
      have here := in_page.cxlPtrPage_eq le_rfl (Nat.lt_add_of_pos_right (initBlockSize_pos few))
      refine ⟨here, (owned.block b).2 ⟨i, ?_, ?_⟩⟩ <;> rwa [here]
  refine ⟨l, l', chain, chain', nodup, ?_, ?_⟩
  · intro b mem_b
    obtain ⟨here, outside, not_counted⟩ := uncounted b mem_b
    exact ⟨(inside b).1 ⟨here, outside⟩, h.places.unused_of_uncounted not_counted⟩
  · have split : {b | InPage page i b} =
        {b | cxlPtrPage b = page ∧ (place b).Counted} ∪ {b | b ∈ l ++ l'} := by
      ext b
      constructor
      · intro in_page
        obtain ⟨here, outside⟩ := (inside b).2 in_page
        by_cases counted : (place b).Counted
        · exact .inl ⟨here, counted⟩
        · refine .inr ((listed b).2 ?_)
          rcases at_b : place b with _ | (p | p | _ | _) | _ | _ | _ | _ <;>
            rw [at_b] at counted outside
          · exact absurd rfl outside
          · have fits : cxlPtrPage b = p := h.places.fits b _ at_b
            exact .inl (by rw [← fits, here])
          · have fits : cxlPtrPage b = p := h.places.fits b _ at_b
            exact .inr (by rw [← fits, here])
          all_goals exact absurd trivial counted
      · rintro (⟨here, counted⟩ | mem_b)
        · refine (inside b).1 ⟨here, ?_⟩
          intro outside
          rw [outside] at counted
          exact counted
        · obtain ⟨here, outside, -⟩ := uncounted b mem_b
          exact (inside b).1 ⟨here, outside⟩
    have disjoint : Disjoint {b | cxlPtrPage b = page ∧ (place b).Counted} {b | b ∈ l ++ l'} :=
      Set.disjoint_left.2 fun b counted mem_b => (uncounted b mem_b).2.2 counted.2
    have finite : {b | cxlPtrPage b = page ∧ (place b).Counted}.Finite :=
      (finite_page isPage).subset fun _ counted => counted.1
    rw [owned.used, size, countAt_eq, ← ncard_inPage isPage few, split,
      Set.ncard_union_eq disjoint finite (l ++ l').finite_toSet,
      ← ncard_of_list nodup fun _ => Iff.rfl]

/-- One of the 64 blocks has been handed out. -/
theorem used_add_length_first : ∃ s, Reachable (step 0) Careful State.init s ∧ s.used firstPage = 1 ∧
    ∃ l, Chain s.blockNext 0 (s.free firstPage) l ∧ l.length = 63 := by
  obtain ⟨s, reached, last⟩ := exists_run firstAlloc
    (fun s => s.slot 1 = .running ∧ firstPage ∈ s.pages 1 65 ∧ s.used firstPage = 1 ∧
      s.blockSize firstPage = 1024 ∧ s.localFree firstPage = 0) (by decide +kernel)
  obtain ⟨running, mem, used, size, empty⟩ := last
  obtain ⟨l, l', chain, chain', -, -, sum⟩ := used_add_length reached running mem
  rw [empty, chain_null] at chain'
  rw [used, size, chain', List.append_nil] at sum
  have count : pageSize / 1024 = 64 := by decide
  exact ⟨s, reached, used, l, chain, by omega⟩

end CxlShm.Handover
