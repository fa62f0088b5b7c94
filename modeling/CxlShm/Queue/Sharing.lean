import CxlShm.Queue.SenderSweep

/-!
# Sharing the messages of a dead sender

Every message that is in flight when the sweep of a dead sender's queue begins is returned to the receiver
or released by the sweep, once, as long as the two stay off each other's slot in the second loop
(`messages_shared`).  The invariant gives each slot a phase, which says who has done what with its
message; `h` counts the messages that the receiver has taken off the queue.
-/

namespace CxlShm.Queue.SenderSweep

open Function Reachability

/-! ## Slots -/

/-- What has become of the message of a slot: it has been left alone, the receiver has dropped the slot's
reference to it, has cleared the slot, has returned it; the sweep has dropped the reference, has cleared
the slot. -/
inductive Phase
  | waiting
  | receiving
  | received
  | returned
  | sweeping
  | swept
  deriving DecidableEq, Repr

namespace Phase

/-- The slot still holds the message. -/
def full : Phase → Bool
  | .waiting | .receiving | .sweeping => true
  | .received | .returned | .swept => false

/-- The receiver has dropped the reference. -/
def taken : Phase → Bool
  | .receiving | .received | .returned => true
  | .waiting | .sweeping | .swept => false

/-- The sweep has dropped the reference. -/
def dropped : Phase → Bool
  | .sweeping | .swept => true
  | .waiting | .receiving | .received | .returned => false

/-- The receiver is at work on it. -/
def busy : Phase → Bool
  | .receiving | .received => true
  | .waiting | .returned | .sweeping | .swept => false

end Phase

/-- The slots look as their phases say. -/
structure Contents (s₀ s : State) (phase : ℕ → Phase) (i : ℕ) : Prop where
  buffer : s.buffer i = if (phase i).full then s₀.buffer i else 0
  byReceiver : s.byReceiver i = if (phase i).taken then [s₀.buffer i] else []
  bySweep : s.bySweep i = if (phase i).dropped then [s₀.buffer i] else []
  returned : s.returned i = if phase i = .returned then [s₀.buffer i] else []

/-- The slot that the receiver's call has changed, and how far. -/
def Recv.works (start : ℕ) : Recv → Option (ℕ × Phase)
  | .unlinkStore _ x => some (x, .receiving)
  | .loadStart _ => some (start, .received)
  | .storeStart _ x | .loadPptr _ x => some (x, .received)
  | _ => none

/-- The slot whose reference the sweep has dropped. -/
def Sweep.stores : Sweep → Option ℕ
  | .store _ i => some i
  | _ => none

section

variable (s₀ : State) (h : ℕ) (phase : ℕ → Phase) (attached : Prop)

/-- What the receiver knows, when `h` messages have been taken off the queue. -/
def RecvOk : Recv → Prop
  | .idle | .loadReceiverId | .loadReceiverQueue | .storeReceiverNext _ | .storeReceiverQueue
  | .storeReceiverId => True
  | .testStart => attached
  | .testEnd x => attached ∧ x = slot s₀ h
  | .bufferStart => attached ∧ h < between s₀
  | .testBuffer x => attached ∧ h < between s₀ ∧ x = slot s₀ h
  | .alloc | .linkStart => attached ∧ h < between s₀ ∧ phase (slot s₀ h) = .waiting
  | .linkBuffer x =>
    attached ∧ h < between s₀ ∧ phase (slot s₀ h) = .waiting ∧ x = slot s₀ h
  | .linkCas o | .linkStore o | .unlinkStart o =>
    attached ∧ h < between s₀ ∧ phase (slot s₀ h) = .waiting ∧ o = s₀.buffer (slot s₀ h)
  | .unlinkBuffer pptr x =>
    attached ∧ h < between s₀ ∧ phase (slot s₀ h) = .waiting ∧ x = slot s₀ h ∧ pptr = s₀.buffer x
  | .unlinkCas pptr x o =>
    attached ∧ h < between s₀ ∧ phase (slot s₀ h) = .waiting ∧ x = slot s₀ h ∧ pptr = s₀.buffer x ∧
      o = s₀.buffer x
  | .unlinkStore pptr x =>
    attached ∧ h < between s₀ ∧ phase (slot s₀ h) = .receiving ∧ x = slot s₀ h ∧ pptr = s₀.buffer x
  | .loadStart pptr =>
    attached ∧ h < between s₀ ∧ phase (slot s₀ h) = .received ∧ pptr = s₀.buffer (slot s₀ h)
  | .storeStart pptr x =>
    attached ∧ h < between s₀ ∧ phase (slot s₀ h) = .received ∧ x = slot s₀ h ∧ pptr = s₀.buffer x
  | .loadPptr pptr x =>
    attached ∧ ∃ k < h, x = slot s₀ k ∧ phase x = .received ∧ pptr = s₀.buffer x

/-- The sweep has not touched a message in flight. -/
def Untouched : Prop := ∀ k < between s₀, (phase (slot s₀ k)).dropped = false

/-- The slots at distances less than `d` are clear. -/
def Clear (d : ℕ) : Prop := ∀ k < d, (phase (slot s₀ k)).full = false

/-- Where the sweep finds something to drop: in the slot behind the messages in flight, or in the second
loop in one of them. -/
def DropsAt : Bool → ℕ → Prop
  | false, i => Untouched s₀ phase ∧ i = slot s₀ (between s₀)
  | true, i => ∃ d < between s₀, Clear s₀ phase d ∧ i = slot s₀ d

/-- What the sweep knows. -/
def SweepOk : Sweep → Prop
  | .begin => Untouched s₀ phase
  | .test false i => Untouched s₀ phase ∧ ∃ c, between s₀ ≤ c ∧
      (c = between s₀ ∨ c < messageBufferSize + h) ∧ i = slot s₀ c
  | .check false i => Untouched s₀ phase ∧ ∃ c, between s₀ < c ∧ c ≤ messageBufferSize + h ∧
      i = slot s₀ c
  | .test true i => ∃ d < between s₀, Clear s₀ phase d ∧ i = slot s₀ d
  | .check true i => ∃ d ≤ between s₀, Clear s₀ phase d ∧ i = slot s₀ d
  | .testRef second i | .loadRef second i | .arg second i =>
    DropsAt s₀ phase second i ∧ phase i = .waiting ∧ s₀.buffer i ≠ 0
  | .loadCnt second i o | .cas second i o =>
    DropsAt s₀ phase second i ∧ phase i = .waiting ∧ s₀.buffer i ≠ 0 ∧ o = s₀.buffer i
  | .store second i => DropsAt s₀ phase second i ∧ phase i = .sweeping
  | .receiverId i => Untouched s₀ phase ∧ ∃ d ≤ h, i = slot s₀ d
  | .senderId | .done => Clear s₀ phase (between s₀) ∨ attached ∧ Untouched s₀ phase

end

/-- The queue, when `h` messages have been taken off it. -/
structure Inv (p : Endpoints) (s₀ s : State) (h : ℕ) (phase : ℕ → Phase) : Prop where
  start : s.start = slot s₀ h
  end_ : s.end_ = s₀.end_
  le : h ≤ between s₀
  attached : 0 < h → s.receiverId ≠ 0
  contents : ∀ i < messageBufferSize, Contents s₀ s phase i
  before : ∀ k < h, phase (slot s₀ k) = .received ∨ phase (slot s₀ k) = .returned
  after : ∀ k, h ≤ k → k < between s₀ → phase (slot s₀ k) ≠ .returned
  works : ∀ i < messageBufferSize, (phase i).busy →
    s.receiver.works s.start = some (i, phase i)
  stores : ∀ i < messageBufferSize, phase i = .sweeping → s.sweep.stores = some i
  recv : RecvOk s₀ h phase (s.receiverId ≠ 0) s.receiver
  sweep : SweepOk s₀ h phase (s.receiverId ≠ 0) s.sweep
  apart : ∀ b i, s.sweep.holds = some (b, i) → s.receiver.Holds → s.start ≠ i
  counted : ∀ o ≠ 0, pending s o ≤ s.refCnt o ∧ s.refCnt o < 2 ^ 16

variable {p : Endpoints} {s₀ s s' : State} {h h' i j k : ℕ} {phase phase' : ℕ → Phase}

/-! ## Distances -/

theorem slot_lt : slot s k < messageBufferSize := Nat.mod_lt _ (by decide)

theorem between_lt : between s < messageBufferSize := Nat.mod_lt _ (by decide)

theorem slot_inj (hj : j < messageBufferSize) (hk : k < messageBufferSize) (same : slot s j = slot s k) :
    j = k := by
  simp only [slot, messageBufferSize] at hj hk same
  omega

theorem slot_succ : (slot s k + 1) % messageBufferSize = slot s (k + 1) := by
  simp only [slot, messageBufferSize]
  omega

theorem slot_add_size : slot s (messageBufferSize + k) = slot s k := by
  simp only [slot, messageBufferSize]
  omega

theorem Start.end_eq (start : Start p s) : s.end_ = slot s (between s) := by
  have := start.start
  have := start.end_
  simp only [slot, between, messageBufferSize] at *
  omega

theorem Start.start_eq (start : Start p s) : s.start = slot s 0 := by
  have := start.start
  simp only [slot, messageBufferSize] at *
  omega

/-! ## What the parties know, when the other one moves -/

theorem RecvOk.congr {attached : Prop} {r : Recv} (ok : RecvOk s₀ h phase attached r)
    (held : r.Holds → phase' (slot s₀ h) = phase (slot s₀ h))
    (busy : ∀ i, (phase i).busy → phase' i = phase i) : RecvOk s₀ h phase' attached r := by
  cases r with
  | alloc | linkStart | linkBuffer x | linkCas o | linkStore o | unlinkStart o | unlinkBuffer o x
  | unlinkCas o x r | unlinkStore o x =>
    simp only [RecvOk] at ok ⊢
    rw [held trivial]
    exact ok
  | loadStart o =>
    obtain ⟨attached, some, here, rest⟩ := ok
    exact ⟨attached, some, (busy _ (by rw [here]; rfl)).trans here, rest⟩
  | storeStart o x =>
    obtain ⟨attached, some, here, rest⟩ := ok
    exact ⟨attached, some, (busy _ (by rw [here]; rfl)).trans here, rest⟩
  | loadPptr o x =>
    obtain ⟨attached, k, below, same, here, rest⟩ := ok
    exact ⟨attached, k, below, same, (busy _ (by rw [here]; rfl)).trans here, rest⟩
  | idle | loadReceiverId | loadReceiverQueue | storeReceiverNext | storeReceiverQueue
  | storeReceiverId | testStart | testEnd | bufferStart | testBuffer => exact ok

theorem DropsAt.mono {second : Bool} (drops : DropsAt s₀ phase second i)
    (clear : ∀ i, (phase i).full = false → (phase' i).full = false)
    (dropped : ∀ k < between s₀, (phase (slot s₀ k)).dropped = false →
      (phase' (slot s₀ k)).dropped = false) : DropsAt s₀ phase' second i := by
  cases second with
  | false => exact ⟨fun k below => dropped k below (drops.1 k below), drops.2⟩
  | true =>
    obtain ⟨d, below, cleared, here⟩ := drops
    exact ⟨d, below, fun k small => clear _ (cleared k small), here⟩

theorem SweepOk.mono {attached attached' : Prop} {w : Sweep} (ok : SweepOk s₀ h phase attached w)
    (le : h ≤ h') (attach : attached → attached')
    (held : ∀ b i, w.holds = some (b, i) → phase' i = phase i)
    (clear : ∀ i, (phase i).full = false → (phase' i).full = false)
    (dropped : ∀ k < between s₀, (phase (slot s₀ k)).dropped = false →
      (phase' (slot s₀ k)).dropped = false) : SweepOk s₀ h' phase' attached' w := by
  have untouched : Untouched s₀ phase → Untouched s₀ phase' :=
    fun old k below => dropped k below (old k below)
  have cleared : ∀ {d}, Clear s₀ phase d → Clear s₀ phase' d :=
    fun old k below => clear _ (old k below)
  cases w with
  | begin => exact untouched ok
  | test second i =>
    cases second with
    | false =>
      obtain ⟨old, c, from_end, last, here⟩ := ok
      exact ⟨untouched old, c, from_end, last.imp_right (by omega), here⟩
    | true =>
      obtain ⟨d, below, old, here⟩ := ok
      exact ⟨d, below, cleared old, here⟩
  | check second i =>
    cases second with
    | false =>
      obtain ⟨old, c, from_end, last, here⟩ := ok
      exact ⟨untouched old, c, from_end, by omega, here⟩
    | true =>
      obtain ⟨d, below, old, here⟩ := ok
      exact ⟨d, below, cleared old, here⟩
  | testRef second i | loadRef second i | arg second i =>
    obtain ⟨drops, waiting, used⟩ := ok
    exact ⟨drops.mono clear dropped, (held second i rfl).trans waiting, used⟩
  | loadCnt second i o | cas second i o =>
    obtain ⟨drops, waiting, used⟩ := ok
    exact ⟨drops.mono clear dropped, (held second i rfl).trans waiting, used⟩
  | store second i =>
    obtain ⟨drops, sweeping⟩ := ok
    exact ⟨drops.mono clear dropped, (held second i rfl).trans sweeping⟩
  | receiverId i =>
    obtain ⟨old, d, below, here⟩ := ok
    exact ⟨untouched old, d, by omega, here⟩
  | senderId | done => exact ok.imp cleared (And.imp attach untouched)

/-! ## Steps that change no slot -/

/-- The two states have the same indices and slots. -/
structure Same (s s' : State) : Prop where
  start : s'.start = s.start
  end_ : s'.end_ = s.end_
  buffer : s'.buffer = s.buffer
  byReceiver : s'.byReceiver = s.byReceiver
  bySweep : s'.bySweep = s.bySweep
  returned : s'.returned = s.returned

theorem Same.pending_eq (same : Same s s') (o : Offset) : pending s' o = pending s o := by
  simp only [pending, same.buffer, same.byReceiver, same.bySweep]

theorem Same.contents (same : Same s s') (contents : Contents s₀ s phase i) :
    Contents s₀ s' phase i := by
  refine ⟨?_, ?_, ?_, ?_⟩
  · rw [same.buffer]
    exact contents.buffer
  · rw [same.byReceiver]
    exact contents.byReceiver
  · rw [same.bySweep]
    exact contents.bySweep
  · rw [same.returned]
    exact contents.returned

/-- An access of the receiver that leaves the slots alone. -/
theorem Inv.recvMove (inv : Inv p s₀ s h phase) (same : Same s s') (sweep : s'.sweep = s.sweep)
    (attached : s.receiverId ≠ 0 → s'.receiverId ≠ 0)
    (recv : RecvOk s₀ h phase (s'.receiverId ≠ 0) s'.receiver)
    (works : s'.receiver.works s.start = s.receiver.works s.start)
    (apart : s'.receiver.Holds → ∀ b i, s.sweep.holds = some (b, i) → s.start ≠ i)
    (counted : ∀ o ≠ 0, pending s o ≤ s'.refCnt o ∧ s'.refCnt o < 2 ^ 16) : Inv p s₀ s' h phase where
  start := same.start.trans inv.start
  end_ := same.end_.trans inv.end_
  le := inv.le
  attached some := attached (inv.attached some)
  contents i small := same.contents (inv.contents i small)
  before := inv.before
  after := inv.after
  works i small busy := by
    rw [same.start, works]
    exact inv.works i small busy
  stores i small here := by
    rw [sweep]
    exact inv.stores i small here
  recv := recv
  sweep := by
    rw [sweep]
    exact inv.sweep.mono (Nat.le_refl h) attached (fun _ _ _ => rfl) (fun _ => id) fun _ _ => id
  apart b i held holds := by
    rw [sweep] at held
    rw [same.start]
    exact apart holds b i held
  counted o used := by
    rw [same.pending_eq]
    exact counted o used

/-- An access of the sweep that leaves the slots alone. -/
theorem Inv.sweepMove (inv : Inv p s₀ s h phase) (same : Same s s')
    (receiver : s'.receiver = s.receiver) (receiverId : s'.receiverId = s.receiverId)
    (refCnt : s'.refCnt = s.refCnt)
    (sweep : SweepOk s₀ h phase (s.receiverId ≠ 0) s'.sweep)
    (stores : s'.sweep.stores = s.sweep.stores)
    (apart : s.receiver.Holds → ∀ b i, s'.sweep.holds = some (b, i) → s.start ≠ i) :
    Inv p s₀ s' h phase where
  start := same.start.trans inv.start
  end_ := same.end_.trans inv.end_
  le := inv.le
  attached some := by
    rw [receiverId]
    exact inv.attached some
  contents i small := same.contents (inv.contents i small)
  before := inv.before
  after := inv.after
  works i small busy := by
    rw [receiver, same.start]
    exact inv.works i small busy
  stores i small here := by
    rw [stores]
    exact inv.stores i small here
  recv := by
    rw [receiver, receiverId]
    exact inv.recv
  sweep := by
    rw [receiverId]
    exact sweep
  apart b i held holds := by
    rw [receiver] at holds
    rw [same.start]
    exact apart holds b i held
  counted o used := by
    rw [same.pending_eq, refCnt]
    exact inv.counted o used

/-! ## Steps that change one slot -/

/-- The two states differ in slot `x` only. -/
structure SameBut (x : ℕ) (s s' : State) : Prop where
  start : s'.start = s.start
  end_ : s'.end_ = s.end_
  receiverId : s'.receiverId = s.receiverId
  buffer : ∀ i ≠ x, s'.buffer i = s.buffer i
  byReceiver : ∀ i ≠ x, s'.byReceiver i = s.byReceiver i
  bySweep : ∀ i ≠ x, s'.bySweep i = s.bySweep i
  returned : ∀ i ≠ x, s'.returned i = s.returned i

theorem SameBut.contents {x : ℕ} {ph : Phase} (same : SameBut x s s') (other : i ≠ x)
    (contents : Contents s₀ s phase i) : Contents s₀ s' (update phase x ph) i := by
  have kept : update phase x ph i = phase i := update_of_ne other _ _
  refine ⟨?_, ?_, ?_, ?_⟩ <;> rw [kept]
  · rw [same.buffer i other]
    exact contents.buffer
  · rw [same.byReceiver i other]
    exact contents.byReceiver
  · rw [same.bySweep i other]
    exact contents.bySweep
  · rw [same.returned i other]
    exact contents.returned

/-- The receiver takes slot `x` to its next phase. -/
theorem Inv.recvPhase (inv : Inv p s₀ s h phase) {x : ℕ} {ph : Phase} (same : SameBut x s s')
    (sweep : s'.sweep = s.sweep) (here : Contents s₀ s' (update phase x ph) x)
    (alone : ∀ i < messageBufferSize, i ≠ x → (phase i).busy = false)
    (before : ∀ k < h, slot s₀ k = x → ph = .received ∨ ph = .returned)
    (after : ∀ k, h ≤ k → k < between s₀ → slot s₀ k = x → ph ≠ .returned)
    (works : ph.busy → s'.receiver.works s.start = some (x, ph))
    (free : ∀ b, s.sweep.holds ≠ some (b, x)) (clear : (phase x).full = false → ph.full = false)
    (dropped : ph.dropped = false)
    (recv : RecvOk s₀ h (update phase x ph) (s.receiverId ≠ 0) s'.receiver)
    (holds : s'.receiver.Holds → s.receiver.Holds)
    (counted : ∀ o ≠ 0, pending s' o ≤ s'.refCnt o ∧ s'.refCnt o < 2 ^ 16) :
    Inv p s₀ s' h (update phase x ph) where
  start := same.start.trans inv.start
  end_ := same.end_.trans inv.end_
  le := inv.le
  attached some := by
    rw [same.receiverId]
    exact inv.attached some
  contents i small := by
    by_cases this_slot : i = x
    · rw [this_slot]
      exact here
    · exact same.contents this_slot (inv.contents i small)
  before k below := by
    by_cases this_slot : slot s₀ k = x
    · rw [this_slot, update_self]
      exact before k below this_slot
    · rw [update_of_ne this_slot]
      exact inv.before k below
  after k from_h below := by
    by_cases this_slot : slot s₀ k = x
    · rw [this_slot, update_self]
      exact after k from_h below this_slot
    · rw [update_of_ne this_slot]
      exact inv.after k from_h below
  works i small busy := by
    by_cases this_slot : i = x
    · rw [this_slot, update_self] at busy ⊢
      rw [same.start]
      exact works busy
    · rw [update_of_ne this_slot, alone i small this_slot] at busy
      cases busy
  stores i small sweeping := by
    by_cases this_slot : i = x
    · rw [this_slot, update_self] at sweeping
      rw [sweeping] at dropped
      cases dropped
    · rw [update_of_ne this_slot] at sweeping
      rw [sweep]
      exact inv.stores i small sweeping
  recv := by
    rw [same.receiverId]
    exact recv
  sweep := by
    rw [same.receiverId, sweep]
    refine inv.sweep.mono (Nat.le_refl h) id ?_ ?_ ?_
    · intro b i held
      refine update_of_ne ?_ _ _
      rintro rfl
      exact free b held
    · intro i empty
      by_cases this_slot : i = x
      · rw [this_slot] at empty ⊢
        rw [update_self]
        exact clear empty
      · rw [update_of_ne this_slot]
        exact empty
    · intro k _ old
      by_cases this_slot : slot s₀ k = x
      · rw [this_slot, update_self]
        exact dropped
      · rw [update_of_ne this_slot]
        exact old
  apart b i held receiving := by
    rw [sweep] at held
    rw [same.start]
    exact inv.apart b i held (holds receiving)
  counted := counted

/-- The sweep takes slot `x` to its next phase. -/
theorem Inv.sweepPhase (inv : Inv p s₀ s h phase) {x : ℕ} {ph : Phase} (same : SameBut x s s')
    (receiver : s'.receiver = s.receiver) (here : Contents s₀ s' (update phase x ph) x)
    (alone : ∀ i < messageBufferSize, i ≠ x → phase i ≠ .sweeping)
    (mine : phase x = .waiting ∨ phase x = .sweeping) (next : ph.dropped = true)
    (stores : ph = .sweeping → s'.sweep.stores = some x) (away : s.receiver.Holds → s.start ≠ x)
    (sweep : SweepOk s₀ h (update phase x ph) (s.receiverId ≠ 0) s'.sweep)
    (holds : ∀ b i, s'.sweep.holds = some (b, i) → s.sweep.holds = some (b, i))
    (counted : ∀ o ≠ 0, pending s' o ≤ s'.refCnt o ∧ s'.refCnt o < 2 ^ 16) :
    Inv p s₀ s' h (update phase x ph) where
  start := same.start.trans inv.start
  end_ := same.end_.trans inv.end_
  le := inv.le
  attached some := by
    rw [same.receiverId]
    exact inv.attached some
  contents i small := by
    by_cases this_slot : i = x
    · rw [this_slot]
      exact here
    · exact same.contents this_slot (inv.contents i small)
  before k below := by
    have old := inv.before k below
    have other : slot s₀ k ≠ x := by
      intro this_slot
      rw [this_slot] at old
      rcases mine with mine | mine <;> simp [mine] at old
    rw [update_of_ne other]
    exact old
  after k from_h below := by
    by_cases this_slot : slot s₀ k = x
    · rw [this_slot, update_self]
      rintro rfl
      cases next
    · rw [update_of_ne this_slot]
      exact inv.after k from_h below
  works i small busy := by
    by_cases this_slot : i = x
    · rw [this_slot, update_self] at busy
      cases ph <;> cases next <;> cases busy
    · rw [update_of_ne this_slot] at busy ⊢
      rw [receiver, same.start]
      exact inv.works i small busy
  stores i small sweeping := by
    by_cases this_slot : i = x
    · rw [this_slot, update_self] at sweeping
      rw [this_slot]
      exact stores sweeping
    · rw [update_of_ne this_slot] at sweeping
      exact absurd sweeping (alone i small this_slot)
  recv := by
    rw [same.receiverId, receiver]
    refine inv.recv.congr (fun receiving => ?_) fun i busy => ?_
    · have other := away receiving
      rw [inv.start] at other
      exact update_of_ne other _ _
    · refine update_of_ne ?_ _ _
      rintro rfl
      rcases mine with mine | mine <;> simp [mine, Phase.busy] at busy
  sweep := by
    rw [same.receiverId]
    exact sweep
  apart b i held receiving := by
    rw [receiver] at receiving
    rw [same.start]
    exact inv.apart b i (holds b i held) receiving
  counted := counted

/-! ## Counts -/

theorem pending_le {o : Offset} (fewer : ∀ i < messageBufferSize,
    s'.buffer i = o → s'.byReceiver i = [] → s'.bySweep i = [] →
      s.buffer i = o ∧ s.byReceiver i = [] ∧ s.bySweep i = []) : pending s' o ≤ pending s o := by
  refine Finset.card_le_card fun i mem => ?_
  simp only [Finset.mem_filter, Finset.mem_range] at mem ⊢
  exact ⟨mem.1, fewer i mem.1 mem.2.1 mem.2.2.1 mem.2.2.2⟩

theorem pending_lt {o : Offset} (fewer : ∀ i < messageBufferSize,
    s'.buffer i = o → s'.byReceiver i = [] → s'.bySweep i = [] →
      s.buffer i = o ∧ s.byReceiver i = [] ∧ s.bySweep i = [])
    (small : j < messageBufferSize) (held : s.buffer j = o) (byReceiver : s.byReceiver j = [])
    (bySweep : s.bySweep j = []) (gone : s'.byReceiver j ≠ [] ∨ s'.bySweep j ≠ []) :
    pending s' o < pending s o := by
  refine Finset.card_lt_card (Finset.ssubset_iff_of_subset (fun i mem => ?_) |>.2 ⟨j, ?_, ?_⟩)
  · simp only [Finset.mem_filter, Finset.mem_range] at mem ⊢
    exact ⟨mem.1, fewer i mem.1 mem.2.1 mem.2.2.1 mem.2.2.2⟩
  · simp only [Finset.mem_filter, Finset.mem_range]
    exact ⟨small, held, byReceiver, bySweep⟩
  · simp only [Finset.mem_filter, Finset.mem_range]
    rintro ⟨-, -, none, none'⟩
    exact gone.elim (fun some => some none) fun some => some none'

/-- A reference of a slot is dropped with its count. -/
theorem counted_dec {o : Offset} (old : ∀ o ≠ 0, pending s o ≤ s.refCnt o ∧ s.refCnt o < 2 ^ 16)
    (refCnt : s'.refCnt = s.decRefCnt o) (buffer : s'.buffer = s.buffer)
    (byReceiver : ∀ i, s'.byReceiver i = [] → s.byReceiver i = [])
    (bySweep : ∀ i, s'.bySweep i = [] → s.bySweep i = [])
    (small : j < messageBufferSize) (held : s.buffer j = o) (none : s.byReceiver j = [])
    (none' : s.bySweep j = []) (gone : s'.byReceiver j ≠ [] ∨ s'.bySweep j ≠ []) :
    ∀ o' ≠ 0, pending s' o' ≤ s'.refCnt o' ∧ s'.refCnt o' < 2 ^ 16 := by
  intro o' used
  have fewer : ∀ i < messageBufferSize, s'.buffer i = o' → s'.byReceiver i = [] → s'.bySweep i = [] →
      s.buffer i = o' ∧ s.byReceiver i = [] ∧ s.bySweep i = [] := by
    intro i _ here r w
    rw [buffer] at here
    exact ⟨here, byReceiver i r, bySweep i w⟩
  obtain ⟨le, bound⟩ := old o' used
  rw [refCnt, State.decRefCnt]
  by_cases this : o' = o
  · subst this
    have less := pending_lt fewer small held none none' gone
    rw [update_self]
    omega
  · have le' := pending_le fewer
    rw [update_of_ne this]
    omega

/-! ## The receiver -/

theorem Inv.buffer_eq (inv : Inv p s₀ s h phase) (small : i < messageBufferSize)
    (full : (phase i).full = true) : s.buffer i = s₀.buffer i := by
  rw [(inv.contents i small).buffer, if_pos full]

/-- A slot in which something is found has not been cleared. -/
theorem Inv.full_of_found (inv : Inv p s₀ s h phase) (small : i < messageBufferSize)
    (found : s.buffer i ≠ 0) : (phase i).full = true ∧ s₀.buffer i ≠ 0 := by
  rw [(inv.contents i small).buffer] at found
  split at found
  · next full => exact ⟨full, found⟩
  · exact absurd rfl found

/-- Unless its call is at work on a slot, the receiver has no slot in its hands. -/
theorem Inv.alone (inv : Inv p s₀ s h phase) {x : ℕ}
    (works : ∀ i ph, s.receiver.works s.start = some (i, ph) → i = x) (small : i < messageBufferSize)
    (other : i ≠ x) : (phase i).busy = false := by
  by_contra busy
  exact other (works i _ (inv.works i small (by simpa using busy)))

/-- While the receiver holds the slot at `q->start`, the sweep does not. -/
theorem Inv.free (inv : Inv p s₀ s h phase) (holds : s.receiver.Holds) {x : ℕ} (here : x = slot s₀ h)
    (b : Bool) : s.sweep.holds ≠ some (b, x) := by
  intro held
  apply inv.apart b x held holds
  rw [inv.start, here]

theorem SweepOk.drops {attached : Prop} {w : Sweep} {b : Bool} (ok : SweepOk s₀ h phase attached w)
    (holds : w.holds = some (b, i)) : DropsAt s₀ phase b i := by
  cases w with
  | testRef second x | loadRef second x | loadCnt second x o | arg second x | cas second x o
  | store second x =>
    obtain ⟨rfl, rfl⟩ := Prod.mk.inj (Option.some.inj holds)
    exact ok.1
  | begin | test | check | receiverId | senderId | done => cases holds

theorem SweepOk.held {attached : Prop} {w : Sweep} {b : Bool} (ok : SweepOk s₀ h phase attached w)
    (holds : w.holds = some (b, i)) : phase i = .waiting ∨ phase i = .sweeping := by
  cases w with
  | testRef second x | loadRef second x | loadCnt second x o | arg second x | cas second x o =>
    obtain ⟨rfl, rfl⟩ := Prod.mk.inj (Option.some.inj holds)
    exact .inl ok.2.1
  | store second x =>
    obtain ⟨rfl, rfl⟩ := Prod.mk.inj (Option.some.inj holds)
    exact .inr ok.2
  | begin | test | check | receiverId | senderId | done => cases holds

/-- What the sweep drops before its second loop is not a message in flight. -/
theorem Inv.ne_of_first (inv : Inv p s₀ s h phase) (some_message : h < between s₀)
    (held : s.sweep.holds = some (false, i)) : slot s₀ h ≠ i := by
  intro same
  have behind : i = slot s₀ (between s₀) := (inv.sweep.drops held).2
  have := slot_inj (Nat.lt_trans some_message between_lt) between_lt (same.trans behind)
  omega

/-- The message at `q->start` waits, unless the sweep is dropping it. -/
theorem Inv.waiting_of_found (inv : Inv p s₀ s h phase) (some_message : h < between s₀)
    (idle : s.receiver.works s.start = none) (found : s.buffer (slot s₀ h) ≠ 0)
    (free : s.sweep.holds ≠ some (true, slot s₀ h)) : phase (slot s₀ h) = .waiting := by
  obtain ⟨full, -⟩ := inv.full_of_found slot_lt found
  cases here : phase (slot s₀ h) with
  | waiting => rfl
  | receiving =>
    have works := inv.works _ slot_lt (by rw [here]; rfl)
    rw [idle] at works
    cases works
  | sweeping =>
    have stores := inv.stores _ slot_lt here
    cases at_store : s.sweep with
    | store second i =>
      rw [at_store] at stores free
      obtain rfl := Option.some.inj stores
      cases second with
      | true => exact absurd rfl free
      | false =>
        have held : s.sweep.holds = some (false, slot s₀ h) := by rw [at_store]; rfl
        exact absurd rfl (inv.ne_of_first some_message held)
    | _ =>
      rw [at_store] at stores
      cases stores
  | received | returned | swept =>
    rw [here] at full
    cases full

/-- The receiver drops the reference of the slot. -/
theorem Inv.unlinkCas (inv : Inv p s₀ s h phase)
    (here : s.receiver = .unlinkCas (s₀.buffer (slot s₀ h)) (slot s₀ h) (s₀.buffer (slot s₀ h)))
    (attached : s.receiverId ≠ 0) (some_message : h < between s₀)
    (waiting : phase (slot s₀ h) = .waiting)
    (run : s' = { s with
      refCnt := s.decRefCnt (s₀.buffer (slot s₀ h))
      byReceiver := update s.byReceiver (slot s₀ h)
        (s.byReceiver (slot s₀ h) ++ [s₀.buffer (slot s₀ h)])
      receiver := .unlinkStore (s₀.buffer (slot s₀ h)) (slot s₀ h) }) :
    Inv p s₀ s' h (update phase (slot s₀ h) .receiving) := by
  obtain ⟨x, at_x⟩ : ∃ x, slot s₀ h = x := ⟨_, rfl⟩
  rw [at_x] at here waiting run ⊢
  have small : x < messageBufferSize := at_x ▸ slot_lt
  have holds : s.receiver.Holds := by rw [here]; trivial
  obtain ⟨buffer, byReceiver, bySweep, returned⟩ := inv.contents x small
  simp only [waiting, Phase.full, Phase.taken, Phase.dropped, if_true, Bool.false_eq_true, if_false,
    reduceCtorEq] at buffer byReceiver bySweep returned
  subst run
  refine inv.recvPhase ⟨rfl, rfl, rfl, fun _ _ => rfl, fun i other => update_of_ne other _ _,
    fun _ _ => rfl, fun _ _ => rfl⟩ rfl ?_ ?_ ?_ ?_ ?_ ?_ ?_ rfl ?_ ?_ ?_
  · refine ⟨?_, ?_, ?_, ?_⟩
    · rw [update_self]
      exact buffer
    · rw [update_self]
      show update s.byReceiver x _ x = _
      rw [update_self, byReceiver]
      rfl
    · rw [update_self]
      exact bySweep
    · rw [update_self]
      exact returned
  · intro i below other
    refine inv.alone (fun i ph works => ?_) below other
    rw [here] at works
    cases works
  · intro k below same
    have := slot_inj (by have := between_lt (s := s₀); omega)
      (Nat.lt_trans some_message between_lt) (same.trans at_x.symm)
    omega
  · exact fun _ _ _ _ => Phase.noConfusion
  · exact fun _ => rfl
  · exact inv.free holds at_x.symm
  · intro empty
    rw [waiting] at empty
    cases empty
  · refine ⟨attached, some_message, ?_, at_x.symm, rfl⟩
    rw [at_x, update_self]
  · exact fun _ => holds
  · refine counted_dec inv.counted rfl rfl (fun i none => ?_) (fun _ => id) small buffer byReceiver
      bySweep (.inl ?_)
    · by_cases this_slot : i = x
      · rw [this_slot]
        exact byReceiver
      · exact (update_of_ne this_slot _ s.byReceiver).symm.trans none
    · show update s.byReceiver x _ x ≠ []
      rw [update_self]
      exact List.append_ne_nil_of_right_ne_nil _ (List.cons_ne_nil _ _)

/-- The receiver clears the slot. -/
theorem Inv.unlinkStore (inv : Inv p s₀ s h phase)
    (here : s.receiver = .unlinkStore (s₀.buffer (slot s₀ h)) (slot s₀ h))
    (attached : s.receiverId ≠ 0) (some_message : h < between s₀)
    (receiving : phase (slot s₀ h) = .receiving)
    (run : s' = { s with
      buffer := update s.buffer (slot s₀ h) 0
      receiver := .loadStart (s₀.buffer (slot s₀ h)) }) :
    Inv p s₀ s' h (update phase (slot s₀ h) .received) := by
  obtain ⟨x, at_x⟩ : ∃ x, slot s₀ h = x := ⟨_, rfl⟩
  rw [at_x] at here receiving run ⊢
  have holds : s.receiver.Holds := by rw [here]; trivial
  obtain ⟨-, byReceiver, bySweep, returned⟩ := inv.contents x (at_x ▸ slot_lt)
  simp only [receiving, Phase.taken, Phase.dropped, if_true, Bool.false_eq_true, if_false,
    reduceCtorEq] at byReceiver bySweep returned
  subst run
  refine inv.recvPhase ⟨rfl, rfl, rfl, fun i other => update_of_ne other _ _, fun _ _ => rfl,
    fun _ _ => rfl, fun _ _ => rfl⟩ rfl ?_ ?_ ?_ ?_ ?_ ?_ ?_ rfl ?_ ?_ ?_
  · refine ⟨?_, ?_, ?_, ?_⟩ <;> rw [update_self]
    · exact update_self x 0 s.buffer
    · exact byReceiver
    · exact bySweep
    · exact returned
  · intro i below other
    refine inv.alone (fun i ph works => ?_) below other
    rw [here] at works
    exact (Prod.mk.inj (Option.some.inj works)).1.symm
  · exact fun _ _ _ => .inl rfl
  · exact fun _ _ _ _ => Phase.noConfusion
  · intro _
    show some (s.start, Phase.received) = _
    rw [inv.start, at_x]
  · exact inv.free holds at_x.symm
  · exact fun _ => rfl
  · refine ⟨attached, some_message, ?_, ?_⟩
    · rw [at_x, update_self]
    · rw [at_x]
  · exact False.elim
  · intro o used
    obtain ⟨le, bound⟩ := inv.counted o used
    refine ⟨le_trans (pending_le fun i _ found none none' => ?_) le, bound⟩
    have other : i ≠ x := by
      rintro rfl
      exact used (found.symm.trans (update_self i 0 s.buffer))
    exact ⟨(update_of_ne other 0 s.buffer).symm.trans found, none, none'⟩

/-- The receiver moves on. -/
theorem Inv.storeStart (inv : Inv p s₀ s h phase)
    (here : s.receiver = .storeStart (s₀.buffer (slot s₀ h)) (slot s₀ h))
    (attached : s.receiverId ≠ 0) (some_message : h < between s₀)
    (received : phase (slot s₀ h) = .received)
    (run : s' = { s with
      start := (slot s₀ h + 1) % messageBufferSize
      receiver := .loadPptr (s₀.buffer (slot s₀ h)) (slot s₀ h) }) :
    Inv p s₀ s' (h + 1) phase := by
  subst run
  refine ⟨slot_succ, inv.end_, some_message, fun _ => attached, fun i small => ?_, fun k below => ?_,
    fun k from_h => inv.after k (Nat.le_of_succ_le from_h), fun i small busy => ?_, inv.stores, ?_, ?_,
    fun _ _ _ => False.elim, inv.counted⟩
  · obtain ⟨buffer, byReceiver, bySweep, returned⟩ := inv.contents i small
    exact ⟨buffer, byReceiver, bySweep, returned⟩
  · rcases Nat.lt_succ_iff_lt_or_eq.1 below with old | rfl
    · exact inv.before k old
    · exact .inl received
  · have works := inv.works i small busy
    rw [here] at works
    exact works
  · exact ⟨attached, h, Nat.lt_succ_self h, rfl, received, rfl⟩
  · exact inv.sweep.mono (Nat.le_succ h) id (fun _ _ _ => rfl) (fun _ => id) fun _ _ => id

/-- The receiver returns the message. -/
theorem Inv.loadPptr (inv : Inv p s₀ s h phase)
    (here : s.receiver = .loadPptr (s₀.buffer (slot s₀ k)) (slot s₀ k)) (below : k < h)
    (received : phase (slot s₀ k) = .received)
    (run : s' = { s with
      returned := update s.returned (slot s₀ k) (s.returned (slot s₀ k) ++ [s₀.buffer (slot s₀ k)])
      receiver := .idle }) :
    Inv p s₀ s' h (update phase (slot s₀ k) .returned) := by
  obtain ⟨x, at_x⟩ : ∃ x, slot s₀ k = x := ⟨_, rfl⟩
  rw [at_x] at here received run ⊢
  obtain ⟨buffer, byReceiver, bySweep, returned⟩ := inv.contents x (at_x ▸ slot_lt)
  simp only [received, Phase.full, Phase.taken, Phase.dropped, if_true, Bool.false_eq_true, if_false,
    reduceCtorEq] at buffer byReceiver bySweep returned
  subst run
  refine inv.recvPhase ⟨rfl, rfl, rfl, fun _ _ => rfl, fun _ _ => rfl, fun _ _ => rfl,
    fun i other => update_of_ne other _ _⟩ rfl ?_ ?_ ?_ ?_ ?_ ?_ ?_ rfl ?_ ?_ inv.counted
  · refine ⟨?_, ?_, ?_, ?_⟩ <;> rw [update_self]
    · exact buffer
    · exact byReceiver
    · exact bySweep
    · show update s.returned x _ x = _
      rw [update_self, returned]
      rfl
  · intro i small other
    refine inv.alone (fun i ph works => ?_) small other
    rw [here] at works
    exact (Prod.mk.inj (Option.some.inj works)).1.symm
  · exact fun _ _ _ => .inr rfl
  · intro j from_h inside same
    have := between_lt (s := s₀)
    have := slot_inj (by omega) (by omega) (same.trans at_x.symm)
    omega
  · exact fun busy => by cases busy
  · intro b held
    rcases inv.sweep.held held with waiting | sweeping
    · rw [received] at waiting
      cases waiting
    · rw [received] at sweeping
      cases sweeping
  · exact fun _ => rfl
  · trivial
  · exact False.elim

/-- An access of the receiver. -/
theorem Inv.recvStep (inv : Inv p s₀ s h phase) (start : Start p s₀) (run : s.recvStep p = some s')
    (ok : Apart s .recv s') : ∃ h' phase', Inv p s₀ s' h' phase' := by
  have recv := inv.recv
  have apart : s.receiver.Holds → ∀ b i, s.sweep.holds = some (b, i) → s.start ≠ i :=
    fun holds b i held => inv.apart b i held holds
  cases here : s.receiver with
  | idle => simp [State.recvStep, here] at run
  | loadReceiverId =>
    simp only [State.recvStep, here, Option.some.injEq] at run
    subst run
    refine ⟨h, phase, inv.recvMove ⟨rfl, rfl, rfl, rfl, rfl, rfl⟩ rfl id ?_ ?_ ?_ inv.counted⟩
    · split
      · trivial
      · next attached => exact attached
    · rw [here]
      split <;> rfl
    · split <;> exact False.elim
  | loadReceiverQueue | storeReceiverNext v | storeReceiverQueue =>
    simp only [State.recvStep, here, Option.some.injEq] at run
    subst run
    refine ⟨h, phase, inv.recvMove ⟨rfl, rfl, rfl, rfl, rfl, rfl⟩ rfl id trivial ?_ False.elim
      inv.counted⟩
    rw [here]
    rfl
  | storeReceiverId =>
    simp only [State.recvStep, here, Option.some.injEq] at run
    subst run
    have attached : p.receiver ≠ 0 := Nat.ne_of_gt start.id
    refine ⟨h, phase, inv.recvMove ⟨rfl, rfl, rfl, rfl, rfl, rfl⟩ rfl (fun _ => attached) attached ?_
      False.elim inv.counted⟩
    rw [here]
    rfl
  | testStart =>
    rw [here] at recv
    simp only [State.recvStep, here, Option.some.injEq] at run
    subst run
    refine ⟨h, phase, inv.recvMove ⟨rfl, rfl, rfl, rfl, rfl, rfl⟩ rfl id ⟨recv, inv.start⟩ ?_ False.elim
      inv.counted⟩
    rw [here]
    rfl
  | testEnd x =>
    rw [here] at recv
    obtain ⟨attached, rfl⟩ := recv
    simp only [State.recvStep, here, Option.some.injEq] at run
    subst run
    refine ⟨h, phase, inv.recvMove ⟨rfl, rfl, rfl, rfl, rfl, rfl⟩ rfl id ?_ ?_ ?_ inv.counted⟩
    · split
      · trivial
      · next more =>
        refine ⟨attached, Nat.lt_of_le_of_ne inv.le ?_⟩
        rintro rfl
        rw [inv.end_, start.end_eq] at more
        exact more rfl
    · rw [here]
      split <;> rfl
    · split <;> exact False.elim
  | bufferStart =>
    rw [here] at recv
    obtain ⟨attached, some_message⟩ := recv
    simp only [State.recvStep, here, Option.some.injEq] at run
    subst run
    refine ⟨h, phase, inv.recvMove ⟨rfl, rfl, rfl, rfl, rfl, rfl⟩ rfl id
      ⟨attached, some_message, inv.start⟩ ?_ False.elim inv.counted⟩
    rw [here]
    rfl
  | testBuffer x =>
    rw [here] at recv
    obtain ⟨attached, some_message, rfl⟩ := recv
    simp only [State.recvStep, here, Option.some.injEq] at run
    subst run
    by_cases empty : s.buffer (slot s₀ h) = 0
    · refine ⟨h, phase, inv.recvMove ⟨rfl, rfl, rfl, rfl, rfl, rfl⟩ rfl id ?_ ?_ ?_ inv.counted⟩
      · rw [if_pos empty]
        trivial
      · rw [if_pos empty, here]
        rfl
      · rw [if_pos empty]
        exact False.elim
    · have free := ok.recv _ rfl here empty
      have waiting := inv.waiting_of_found some_message (by rw [here]; rfl) empty free
      refine ⟨h, phase, inv.recvMove ⟨rfl, rfl, rfl, rfl, rfl, rfl⟩ rfl id ?_ ?_ ?_ inv.counted⟩
      · rw [if_neg empty]
        exact ⟨attached, some_message, waiting⟩
      · rw [if_neg empty, here]
        rfl
      · rintro - b i held
        rw [inv.start]
        cases b with
        | true =>
          rintro rfl
          exact free held
        | false => exact inv.ne_of_first some_message held
  | alloc =>
    rw [here] at recv
    simp only [State.recvStep, here, Option.some.injEq] at run
    subst run
    refine ⟨h, phase, inv.recvMove ⟨rfl, rfl, rfl, rfl, rfl, rfl⟩ rfl id recv ?_
      (fun _ => apart (by rw [here]; trivial)) inv.counted⟩
    rw [here]
    rfl
  | linkStart =>
    rw [here] at recv
    obtain ⟨attached, some_message, waiting⟩ := recv
    simp only [State.recvStep, here, Option.some.injEq] at run
    subst run
    refine ⟨h, phase, inv.recvMove ⟨rfl, rfl, rfl, rfl, rfl, rfl⟩ rfl id
      ⟨attached, some_message, waiting, inv.start⟩ ?_ (fun _ => apart (by rw [here]; trivial))
      inv.counted⟩
    rw [here]
    rfl
  | linkBuffer x =>
    rw [here] at recv
    obtain ⟨attached, some_message, waiting, rfl⟩ := recv
    simp only [State.recvStep, here, Option.some.injEq] at run
    subst run
    have message := inv.buffer_eq (slot_lt (s := s₀) (k := h)) (by rw [waiting]; rfl)
    refine ⟨h, phase, inv.recvMove ⟨rfl, rfl, rfl, rfl, rfl, rfl⟩ rfl id
      ⟨attached, some_message, waiting, message⟩ ?_ (fun _ => apart (by rw [here]; trivial))
      inv.counted⟩
    rw [here]
    rfl
  | linkCas o =>
    rw [here] at recv
    simp only [State.recvStep, here, Option.some.injEq] at run
    subst run
    refine ⟨h, phase, inv.recvMove ⟨rfl, rfl, rfl, rfl, rfl, rfl⟩ rfl id recv ?_
      (fun _ => apart (by rw [here]; trivial)) fun o' used => ?_⟩
    · rw [here]
      rfl
    · obtain ⟨le, bound⟩ := inv.counted o' used
      have room := ok.link o rfl here
      show pending s o' ≤ s.incRefCnt o o' ∧ s.incRefCnt o o' < 2 ^ 16
      rw [State.incRefCnt]
      by_cases this : o' = o
      · subst this
        rw [update_self]
        omega
      · rw [update_of_ne this]
        exact ⟨le, bound⟩
  | linkStore o =>
    rw [here] at recv
    simp only [State.recvStep, here, Option.some.injEq] at run
    subst run
    refine ⟨h, phase, inv.recvMove ⟨rfl, rfl, rfl, rfl, rfl, rfl⟩ rfl id recv ?_
      (fun _ => apart (by rw [here]; trivial)) inv.counted⟩
    rw [here]
    rfl
  | unlinkStart o =>
    rw [here] at recv
    obtain ⟨attached, some_message, waiting, rfl⟩ := recv
    simp only [State.recvStep, here, Option.some.injEq] at run
    subst run
    refine ⟨h, phase, inv.recvMove ⟨rfl, rfl, rfl, rfl, rfl, rfl⟩ rfl id
      ⟨attached, some_message, waiting, inv.start, by rw [inv.start]⟩ ?_
      (fun _ => apart (by rw [here]; trivial)) inv.counted⟩
    rw [here]
    rfl
  | unlinkBuffer o x =>
    rw [here] at recv
    obtain ⟨attached, some_message, waiting, rfl, rfl⟩ := recv
    simp only [State.recvStep, here, Option.some.injEq] at run
    subst run
    have message := inv.buffer_eq (slot_lt (s := s₀) (k := h)) (by rw [waiting]; rfl)
    refine ⟨h, phase, inv.recvMove ⟨rfl, rfl, rfl, rfl, rfl, rfl⟩ rfl id
      ⟨attached, some_message, waiting, rfl, rfl, message⟩ ?_
      (fun _ => apart (by rw [here]; trivial)) inv.counted⟩
    rw [here]
    rfl
  | unlinkCas o x r =>
    rw [here] at recv
    obtain ⟨attached, some_message, waiting, rfl, rfl, rfl⟩ := recv
    exact ⟨h, _, inv.unlinkCas here attached some_message waiting (by
      simpa only [State.recvStep, here, Option.some.injEq] using run.symm)⟩
  | unlinkStore o x =>
    rw [here] at recv
    obtain ⟨attached, some_message, receiving, rfl, rfl⟩ := recv
    exact ⟨h, _, inv.unlinkStore here attached some_message receiving (by
      simpa only [State.recvStep, here, Option.some.injEq] using run.symm)⟩
  | loadStart o =>
    rw [here] at recv
    obtain ⟨attached, some_message, received, rfl⟩ := recv
    simp only [State.recvStep, here, Option.some.injEq] at run
    subst run
    refine ⟨h, phase, inv.recvMove ⟨rfl, rfl, rfl, rfl, rfl, rfl⟩ rfl id
      ⟨attached, some_message, received, inv.start, by rw [inv.start]⟩ ?_ False.elim inv.counted⟩
    rw [here]
    rfl
  | storeStart o x =>
    rw [here] at recv
    obtain ⟨attached, some_message, received, rfl, rfl⟩ := recv
    exact ⟨h + 1, phase, inv.storeStart here attached some_message received (by
      simpa only [State.recvStep, here, Option.some.injEq] using run.symm)⟩
  | loadPptr o x =>
    rw [here] at recv
    obtain ⟨attached, k, below, rfl, received, rfl⟩ := recv
    exact ⟨h, _, inv.loadPptr here below received (by
      simpa only [State.recvStep, here, Option.some.injEq] using run.symm)⟩

/-! ## The sweep -/

theorem RecvOk.lt_of_holds {attached : Prop} {r : Recv} (ok : RecvOk s₀ h phase attached r)
    (holds : r.Holds) : h < between s₀ := by
  cases r with
  | alloc | linkStart | linkBuffer x | linkCas o | linkStore o | unlinkStart o | unlinkBuffer o x
  | unlinkCas o x r | unlinkStore o x => exact ok.2.1
  | idle | loadReceiverId | loadReceiverQueue | storeReceiverNext | storeReceiverQueue
  | storeReceiverId | testStart | testEnd | bufferStart | testBuffer | loadStart | storeStart
  | loadPptr => exact holds.elim

/-- The receiver does not hold the slot behind the messages in flight. -/
theorem Inv.start_ne_end (inv : Inv p s₀ s h phase) (holds : s.receiver.Holds) :
    s.start ≠ slot s₀ (between s₀) := by
  have some_message := inv.recv.lt_of_holds holds
  intro same
  rw [inv.start] at same
  have := slot_inj (Nat.lt_trans some_message between_lt) between_lt same
  omega

/-- A message that the sweep finds has been left alone, if the receiver is not taking it. -/
theorem Inv.waiting_of_test (inv : Inv p s₀ s h phase) (small : i < messageBufferSize)
    (found : s.buffer i ≠ 0) (idle : s.sweep.stores = none)
    (free : s.receiver.Holds → s.start ≠ i) : phase i = .waiting ∧ s₀.buffer i ≠ 0 := by
  obtain ⟨full, used⟩ := inv.full_of_found small found
  refine ⟨?_, used⟩
  cases here : phase i with
  | waiting => rfl
  | receiving =>
    have works := inv.works i small (by rw [here]; rfl)
    have recv := inv.recv
    cases at_slot : s.receiver with
    | unlinkStore o x =>
      rw [at_slot] at works recv
      obtain ⟨rfl, -⟩ := Prod.mk.inj (Option.some.inj works)
      have holds : s.receiver.Holds := by rw [at_slot]; trivial
      exact absurd (inv.start.trans recv.2.2.2.1.symm) (free holds)
    | _ => simp [at_slot, here, Recv.works] at works
  | sweeping =>
    have stores := inv.stores i small here
    rw [idle] at stores
    cases stores
  | received | returned | swept =>
    rw [here] at full
    cases full

theorem Inv.clear_of_empty (inv : Inv p s₀ s h phase) (small : i < messageBufferSize)
    (empty : s.buffer i = 0) (used : s₀.buffer i ≠ 0) : (phase i).full = false := by
  by_contra full
  rw [inv.buffer_eq small (by simpa using full)] at empty
  exact used empty

/-- In its first loop the sweep finds nothing, but behind the messages in flight. -/
theorem Inv.behind_of_found (inv : Inv p s₀ s h phase) (start : Start p s₀) {c : ℕ}
    (from_end : between s₀ ≤ c) (last : c = between s₀ ∨ c < messageBufferSize + h)
    (found : s.buffer (slot s₀ c) ≠ 0) : c = between s₀ := by
  rcases last with here | before
  · exact here
  by_contra beyond
  obtain ⟨full, used⟩ := inv.full_of_found slot_lt found
  by_cases wrapped : c < messageBufferSize
  · exact used (start.empty c wrapped (by omega))
  · obtain ⟨k, rfl⟩ := Nat.exists_eq_add_of_le (Nat.le_of_not_lt wrapped)
    rw [slot_add_size] at full
    rcases inv.before k (by omega) with received | returned
    · rw [received] at full
      cases full
    · rw [returned] at full
      cases full

/-- The reference of a message that waits is counted. -/
theorem Inv.refCnt_ne_zero (inv : Inv p s₀ s h phase) (small : i < messageBufferSize)
    (waiting : phase i = .waiting) (used : s₀.buffer i ≠ 0) : s.refCnt (s₀.buffer i) ≠ 0 := by
  obtain ⟨buffer, byReceiver, bySweep, -⟩ := inv.contents i small
  simp only [waiting, Phase.full, Phase.taken, Phase.dropped, if_true, Bool.false_eq_true,
    if_false] at buffer byReceiver bySweep
  have some : 0 < pending s (s₀.buffer i) := by
    refine Finset.card_pos.2 ⟨i, ?_⟩
    simp only [Finset.mem_filter, Finset.mem_range]
    exact ⟨small, buffer, byReceiver, bySweep⟩
  have := (inv.counted _ used).1
  omega

theorem DropsAt.lt {second : Bool} (drops : DropsAt s₀ phase second i) : i < messageBufferSize := by
  cases second with
  | false => exact drops.2 ▸ slot_lt
  | true =>
    obtain ⟨d, -, -, rfl⟩ := drops
    exact slot_lt

/-- The sweep goes on behind a slot that it has dropped. -/
theorem DropsAt.next {attached : Prop} {second : Bool} (drops : DropsAt s₀ phase second i)
    (clear : (phase i).full = false) :
    SweepOk s₀ h phase attached (.check second ((i + 1) % messageBufferSize)) := by
  have few := between_lt (s := s₀)
  cases second with
  | false =>
    obtain ⟨untouched, rfl⟩ := drops
    exact ⟨untouched, between s₀ + 1, Nat.lt_succ_self _, by omega, slot_succ⟩
  | true =>
    obtain ⟨d, below, cleared, rfl⟩ := drops
    refine ⟨d + 1, below, fun k small => ?_, slot_succ⟩
    rcases Nat.lt_succ_iff_lt_or_eq.1 small with old | rfl
    · exact cleared k old
    · exact clear

theorem DropsAt.sweepPhase {second : Bool} {ph : Phase} (drops : DropsAt s₀ phase second i)
    (inside : ∀ k < between s₀, slot s₀ k = i → second = true)
    (clear : (phase i).full = false → ph.full = false) :
    DropsAt s₀ (update phase i ph) second i := by
  cases second with
  | false =>
    obtain ⟨untouched, here⟩ := drops
    refine ⟨fun k below => ?_, here⟩
    have other : slot s₀ k ≠ i := fun same => Bool.noConfusion (inside k below same)
    rw [update_of_ne other]
    exact untouched k below
  | true =>
    obtain ⟨d, below, cleared, here⟩ := drops
    refine ⟨d, below, fun k small => ?_, here⟩
    by_cases same : slot s₀ k = i
    · rw [same, update_self]
      exact clear (same ▸ cleared k small)
    · rw [update_of_ne same]
      exact cleared k small

/-- Before its second loop the sweep is behind the messages in flight. -/
theorem DropsAt.second_of_inside {second : Bool} (drops : DropsAt s₀ phase second i)
    (below : k < between s₀) (same : slot s₀ k = i) : second = true := by
  cases second with
  | false =>
    have := slot_inj (Nat.lt_trans below between_lt) between_lt (same.trans drops.2)
    omega
  | true => rfl

/-- The sweep drops the reference of the slot. -/
theorem Inv.cas {second : Bool} (inv : Inv p s₀ s h phase)
    (here : s.sweep = .cas second i (s₀.buffer i)) (drops : DropsAt s₀ phase second i)
    (waiting : phase i = .waiting)
    (run : s' = { s with
      refCnt := s.decRefCnt (s₀.buffer i)
      bySweep := update s.bySweep i (s.bySweep i ++ [s₀.buffer i])
      sweep := .store second i }) :
    Inv p s₀ s' h (update phase i .sweeping) := by
  have held : s.sweep.holds = some (second, i) := by rw [here]; rfl
  obtain ⟨buffer, byReceiver, bySweep, returned⟩ := inv.contents i drops.lt
  simp only [waiting, Phase.full, Phase.taken, Phase.dropped, if_true, Bool.false_eq_true, if_false,
    reduceCtorEq] at buffer byReceiver bySweep returned
  subst run
  refine inv.sweepPhase ⟨rfl, rfl, rfl, fun _ _ => rfl, fun _ _ => rfl,
    fun j other => update_of_ne other _ _, fun _ _ => rfl⟩ rfl ?_ ?_ (.inl waiting) rfl (fun _ => rfl)
    (inv.apart second i held) ?_ ?_ ?_
  · refine ⟨?_, ?_, ?_, ?_⟩ <;> rw [update_self]
    · exact buffer
    · exact byReceiver
    · show update s.bySweep i _ i = _
      rw [update_self, bySweep]
      rfl
    · exact returned
  · intro j small _ sweeping
    have stores := inv.stores j small sweeping
    rw [here] at stores
    cases stores
  · refine ⟨drops.sweepPhase (fun k => drops.second_of_inside) fun empty => ?_, update_self _ _ _⟩
    rw [waiting] at empty
    cases empty
  · intro b j holds
    obtain ⟨rfl, rfl⟩ := Prod.mk.inj (Option.some.inj holds)
    exact held
  · refine counted_dec inv.counted rfl rfl (fun _ => id) (fun j none => ?_) drops.lt buffer byReceiver
      bySweep (.inr ?_)
    · by_cases this_slot : j = i
      · rw [this_slot]
        exact bySweep
      · exact (update_of_ne this_slot _ s.bySweep).symm.trans none
    · show update s.bySweep i _ i ≠ []
      rw [update_self]
      exact List.append_ne_nil_of_right_ne_nil _ (List.cons_ne_nil _ _)

/-- The sweep clears the slot. -/
theorem Inv.store {second : Bool} (inv : Inv p s₀ s h phase) (here : s.sweep = .store second i)
    (drops : DropsAt s₀ phase second i) (sweeping : phase i = .sweeping)
    (run : s' = { s with buffer := update s.buffer i 0 }.advance second i) :
    Inv p s₀ s' h (update phase i .swept) := by
  have held : s.sweep.holds = some (second, i) := by rw [here]; rfl
  obtain ⟨-, byReceiver, bySweep, returned⟩ := inv.contents i drops.lt
  simp only [sweeping, Phase.taken, Phase.dropped, if_true, Bool.false_eq_true, if_false,
    reduceCtorEq] at byReceiver bySweep returned
  subst run
  refine inv.sweepPhase ⟨rfl, rfl, rfl, fun j other => update_of_ne other _ _, fun _ _ => rfl,
    fun _ _ => rfl, fun _ _ => rfl⟩ rfl ?_ ?_ (.inr sweeping) rfl nofun (inv.apart second i held) ?_
    (fun _ _ => nofun) ?_
  · refine ⟨?_, ?_, ?_, ?_⟩ <;> rw [update_self]
    · exact update_self i 0 s.buffer
    · exact byReceiver
    · exact bySweep
    · exact returned
  · intro j small other sweeping'
    have stores := inv.stores j small sweeping'
    rw [here] at stores
    exact other (Option.some.inj stores).symm
  · refine DropsAt.next (drops.sweepPhase (fun k => drops.second_of_inside) fun _ => rfl) ?_
    rw [update_self]
    rfl
  · intro o used
    obtain ⟨le, bound⟩ := inv.counted o used
    refine ⟨le_trans (pending_le fun j _ found none none' => ?_) le, bound⟩
    have other : j ≠ i := by
      rintro rfl
      exact used (found.symm.trans (update_self j 0 s.buffer))
    exact ⟨(update_of_ne other 0 s.buffer).symm.trans found, none, none'⟩

/-- An access of the sweep. -/
theorem Inv.sweepStep (inv : Inv p s₀ s h phase) (start : Start p s₀) (run : s.sweepStep = some s')
    (ok : Apart s .sweep s') : ∃ phase', Inv p s₀ s' h phase' := by
  have sweep := inv.sweep
  have few := between_lt (s := s₀)
  cases here : s.sweep with
  | begin =>
    rw [here] at sweep
    simp only [State.sweepStep, here, Option.some.injEq] at run
    subst run
    refine ⟨phase, inv.sweepMove ⟨rfl, rfl, rfl, rfl, rfl, rfl⟩ rfl rfl rfl ?_ ?_ ?_⟩
    · exact ⟨sweep, between s₀, Nat.le_refl _, .inl rfl, inv.end_.trans start.end_eq⟩
    · rw [here]
      rfl
    · exact fun _ _ _ => nofun
  | test second i =>
    rw [here] at sweep
    simp only [State.sweepStep, here] at run
    have idle : s.sweep.stores = none := by rw [here]; rfl
    split at run
    · next found =>
      obtain rfl := Option.some.inj run
      have place : i < messageBufferSize ∧ DropsAt s₀ phase second i ∧
          (s.receiver.Holds → s.start ≠ i) := by
        cases second with
        | false =>
          obtain ⟨untouched, c, from_end, last, rfl⟩ := sweep
          obtain rfl := inv.behind_of_found start from_end last found
          exact ⟨slot_lt, ⟨untouched, rfl⟩, inv.start_ne_end⟩
        | true =>
          obtain ⟨d, below, cleared, rfl⟩ := sweep
          exact ⟨slot_lt, ⟨d, below, cleared, rfl⟩, ok.sweep _ rfl here found⟩
      obtain ⟨small, drops, free⟩ := place
      obtain ⟨waiting, used⟩ := inv.waiting_of_test small found idle free
      refine ⟨phase, inv.sweepMove ⟨rfl, rfl, rfl, rfl, rfl, rfl⟩ rfl rfl rfl ⟨drops, waiting, used⟩
        idle.symm ?_⟩
      rintro holds b j held
      obtain ⟨-, rfl⟩ := Prod.mk.inj (Option.some.inj held)
      exact free holds
    · next empty =>
      obtain rfl := Option.some.inj run
      have empty : s.buffer i = 0 := by simpa using empty
      refine ⟨phase, inv.sweepMove ⟨rfl, rfl, rfl, rfl, rfl, rfl⟩ rfl rfl rfl ?_ idle.symm
        fun _ _ _ => nofun⟩
      cases second with
      | false =>
        obtain ⟨untouched, c, from_end, last, rfl⟩ := sweep
        exact ⟨untouched, c + 1, by omega, by omega, slot_succ⟩
      | true =>
        obtain ⟨d, below, cleared, rfl⟩ := sweep
        have clear := inv.clear_of_empty slot_lt empty (start.full d below)
        exact DropsAt.next ⟨d, below, cleared, rfl⟩ clear
  | testRef second i =>
    rw [here] at sweep
    obtain ⟨drops, waiting, used⟩ := sweep
    have message := inv.buffer_eq drops.lt (by rw [waiting]; rfl)
    simp only [State.sweepStep, here] at run
    rw [if_neg (by rw [message]; exact used)] at run
    obtain rfl := Option.some.inj run
    refine ⟨phase, inv.sweepMove ⟨rfl, rfl, rfl, rfl, rfl, rfl⟩ rfl rfl rfl ⟨drops, waiting, used⟩ ?_ ?_⟩
    · rw [here]
      rfl
    · exact fun holds b j held => inv.apart b j (by rw [here]; exact held) holds
  | loadRef second i =>
    rw [here] at sweep
    obtain ⟨drops, waiting, used⟩ := sweep
    have message := inv.buffer_eq drops.lt (by rw [waiting]; rfl)
    simp only [State.sweepStep, here, Option.some.injEq] at run
    subst run
    refine ⟨phase, inv.sweepMove ⟨rfl, rfl, rfl, rfl, rfl, rfl⟩ rfl rfl rfl
      ⟨drops, waiting, used, message⟩ ?_ ?_⟩
    · rw [here]
      rfl
    · exact fun holds b j held => inv.apart b j (by rw [here]; exact held) holds
  | loadCnt second i o =>
    rw [here] at sweep
    obtain ⟨drops, waiting, used, rfl⟩ := sweep
    simp only [State.sweepStep, here] at run
    rw [if_neg (inv.refCnt_ne_zero drops.lt waiting used)] at run
    obtain rfl := Option.some.inj run
    refine ⟨phase, inv.sweepMove ⟨rfl, rfl, rfl, rfl, rfl, rfl⟩ rfl rfl rfl ⟨drops, waiting, used⟩ ?_ ?_⟩
    · rw [here]
      rfl
    · exact fun holds b j held => inv.apart b j (by rw [here]; exact held) holds
  | arg second i =>
    rw [here] at sweep
    obtain ⟨drops, waiting, used⟩ := sweep
    have message := inv.buffer_eq drops.lt (by rw [waiting]; rfl)
    simp only [State.sweepStep, here, Option.some.injEq] at run
    subst run
    refine ⟨phase, inv.sweepMove ⟨rfl, rfl, rfl, rfl, rfl, rfl⟩ rfl rfl rfl
      ⟨drops, waiting, used, message⟩ ?_ ?_⟩
    · rw [here]
      rfl
    · exact fun holds b j held => inv.apart b j (by rw [here]; exact held) holds
  | cas second i o =>
    rw [here] at sweep
    obtain ⟨drops, waiting, used, rfl⟩ := sweep
    exact ⟨_, inv.cas here drops waiting (by
      simpa only [State.sweepStep, here, Option.some.injEq] using run.symm)⟩
  | store second i =>
    rw [here] at sweep
    obtain ⟨drops, sweeping⟩ := sweep
    exact ⟨_, inv.store here drops sweeping (by
      simpa only [State.sweepStep, here, Option.some.injEq] using run.symm)⟩
  | check second i =>
    rw [here] at sweep
    cases second with
    | false =>
      obtain ⟨untouched, c, from_end, last, rfl⟩ := sweep
      simp only [State.sweepStep, here, Option.some.injEq] at run
      subst run
      refine ⟨phase, inv.sweepMove ⟨rfl, rfl, rfl, rfl, rfl, rfl⟩ rfl rfl rfl ?_ ?_ ?_⟩
      · split
        · next other =>
          refine ⟨untouched, c, Nat.le_of_lt from_end, .inr ?_, rfl⟩
          refine Nat.lt_of_le_of_ne last ?_
          rintro rfl
          rw [slot_add_size, inv.start] at other
          exact other rfl
        · next same =>
          refine ⟨untouched, h, Nat.le_refl h, ?_⟩
          rw [← inv.start]
          exact not_not.1 same
      · rw [here]
        split <;> rfl
      · split <;> exact fun _ _ _ => nofun
    | true =>
      obtain ⟨d, below, cleared, rfl⟩ := sweep
      simp only [State.sweepStep, here, Option.some.injEq] at run
      subst run
      refine ⟨phase, inv.sweepMove ⟨rfl, rfl, rfl, rfl, rfl, rfl⟩ rfl rfl rfl ?_ ?_ ?_⟩
      · rw [inv.end_, start.end_eq]
        split
        · next other =>
          refine ⟨d, Nat.lt_of_le_of_ne below ?_, cleared, rfl⟩
          rintro rfl
          exact other rfl
        · next same =>
          have last : d = between s₀ := slot_inj (by omega) few (not_not.1 same)
          exact .inl (last ▸ cleared)
      · rw [here]
        split <;> rfl
      · split <;> exact fun _ _ _ => nofun
  | receiverId i =>
    rw [here] at sweep
    obtain ⟨untouched, d, below, rfl⟩ := sweep
    simp only [State.sweepStep, here, Option.some.injEq] at run
    subst run
    refine ⟨phase, inv.sweepMove ⟨rfl, rfl, rfl, rfl, rfl, rfl⟩ rfl rfl rfl ?_ ?_ ?_⟩
    · split
      · next nobody =>
        -- nobody has taken a message off the queue
        have none : h = 0 := by
          by_contra some
          exact inv.attached (Nat.pos_of_ne_zero some) nobody
        refine ⟨0, Nat.zero_le _, fun _ absurd => (Nat.not_lt_zero _ absurd).elim, ?_⟩
        rw [show d = 0 by omega]
      · next attached => exact .inr ⟨attached, untouched⟩
    · rw [here]
      split <;> rfl
    · split <;> exact fun _ _ _ => nofun
  | senderId =>
    rw [here] at sweep
    simp only [State.sweepStep, here, Option.some.injEq] at run
    subst run
    refine ⟨phase, inv.sweepMove ⟨rfl, rfl, rfl, rfl, rfl, rfl⟩ rfl rfl rfl sweep ?_
      fun _ _ _ => nofun⟩
    rw [here]
    rfl
  | done => simp [State.sweepStep, here] at run

/-! ## Runs -/

theorem Start.inv (start : Start p s) : Inv p s s 0 fun _ => .waiting where
  start := start.start_eq
  end_ := rfl
  le := Nat.zero_le _
  attached := nofun
  contents i _ := by
    refine ⟨rfl, ?_, ?_, ?_⟩
    · exact start.byReceiver i
    · exact start.bySweep i
    · exact start.returned i
  before _ := nofun
  after _ _ _ := nofun
  works _ _ := nofun
  stores _ _ := nofun
  recv := by
    rw [start.receiver]
    trivial
  sweep := by
    rw [start.sweep]
    exact fun _ _ => rfl
  apart b i held := by
    rw [start.sweep] at held
    cases held
  counted := start.counted

theorem Inv.step {a : Action} (inv : Inv p s₀ s h phase) (start : Start p s₀)
    (run : s.step p a = some s') (ok : Apart s a s') : ∃ h' phase', Inv p s₀ s' h' phase' := by
  cases a with
  | unwrap =>
    simp only [State.step] at run
    split at run
    · next here =>
      obtain rfl := Option.some.inj run
      refine ⟨h, phase, inv.recvMove ⟨rfl, rfl, rfl, rfl, rfl, rfl⟩ rfl id trivial ?_ False.elim
        inv.counted⟩
      rw [here]
      rfl
    · cases run
  | recv => exact inv.recvStep start run ok
  | sweep =>
    obtain ⟨phase', inv'⟩ := inv.sweepStep start run ok
    exact ⟨h, phase', inv'⟩
  | others o c =>
    obtain rfl := Option.some.inj run
    obtain ⟨le, bound⟩ := ok.others o c rfl
    refine ⟨h, phase, inv.recvMove ⟨rfl, rfl, rfl, rfl, rfl, rfl⟩ rfl id inv.recv rfl
      (fun holds b i held => inv.apart b i held holds) fun o' used => ?_⟩
    show pending s o' ≤ update s.refCnt o c o' ∧ update s.refCnt o c o' < 2 ^ 16
    by_cases this : o' = o
    · rw [this, update_self]
      exact ⟨le, bound⟩
    · rw [update_of_ne this]
      exact inv.counted o' used

theorem inv_of_reachable (start : Start p s₀) (reached : Reachable (State.step p) Apart s₀ s) :
    ∃ h phase, Inv p s₀ s h phase := by
  induction reached with
  | start => exact ⟨0, _, start.inv⟩
  | next _ run ok ih =>
    obtain ⟨h, phase, inv⟩ := ih
    exact inv.step start run ok

/-- The message has been returned or released, and the reference of the slot dropped, at most once. -/
def AtMostOnce (m : Offset) (s : State) (i : ℕ) : Prop :=
  (s.returned i ++ s.bySweep i = [] ∨ s.returned i ++ s.bySweep i = [m]) ∧
    (s.byReceiver i ++ s.bySweep i = [] ∨ s.byReceiver i ++ s.bySweep i = [m])

/-- The message has been returned by `cxl_unwrap` or released by the sweep, and the reference of the slot
has been dropped once, by the same party. -/
def Settled (m : Offset) (s : State) (i : ℕ) : Prop :=
  s.buffer i = 0 ∧ (s.returned i = [m] ∧ s.byReceiver i = [m] ∧ s.bySweep i = [] ∨
    s.returned i = [] ∧ s.byReceiver i = [] ∧ s.bySweep i = [m])

/-- The message is still in flight, to a receiver that finds a message in every slot before it. -/
def Waits (m : Offset) (s : State) (i : ℕ) : Prop :=
  s.receiverId ≠ 0 ∧ InFlight s i ∧ s.buffer i = m ∧ s.byReceiver i = [] ∧
    ∀ j, InFlight s j → s.buffer j ≠ 0

theorem Inv.atMostOnce (inv : Inv p s₀ s h phase) (small : i < messageBufferSize) :
    AtMostOnce (s₀.buffer i) s i := by
  obtain ⟨-, byReceiver, bySweep, returned⟩ := inv.contents i small
  rw [AtMostOnce, byReceiver, bySweep, returned]
  cases phase i with
  | waiting => exact ⟨.inl rfl, .inl rfl⟩
  | receiving | received => exact ⟨.inl rfl, .inr rfl⟩
  | returned | sweeping | swept => exact ⟨.inr rfl, .inr rfl⟩

/-- When both are at rest, no message is half-way. -/
theorem Inv.rest (inv : Inv p s₀ s h phase) (receiver : s.receiver = .idle) (sweep : s.sweep = .done)
    (small : i < messageBufferSize) :
    phase i = .waiting ∨ phase i = .returned ∨ phase i = .swept := by
  cases here : phase i with
  | waiting => exact .inl rfl
  | returned => exact .inr (.inl rfl)
  | swept => exact .inr (.inr rfl)
  | receiving | received =>
    have works := inv.works i small (by rw [here]; rfl)
    rw [receiver] at works
    cases works
  | sweeping =>
    have stores := inv.stores i small here
    rw [sweep] at stores
    cases stores

/-- The messages in flight are those that have not been taken off the queue. -/
theorem Inv.inFlight_iff (inv : Inv p s₀ s h phase) (start : Start p s₀) :
    InFlight s i ↔ ∃ k, h ≤ k ∧ k < between s₀ ∧ i = slot s₀ k := by
  have small := between_lt (s := s₀)
  have le := inv.le
  have shift : ∀ k, slot s k = slot s₀ (h + k) := by
    intro k
    simp only [slot, inv.start, messageBufferSize]
    omega
  have count : between s = between s₀ - h := by
    have := start.start
    have := start.end_
    simp only [between, slot, inv.start, inv.end_, messageBufferSize] at *
    omega
  constructor
  · rintro ⟨k, below, rfl⟩
    exact ⟨h + k, Nat.le_add_right h k, by omega, shift k⟩
  · rintro ⟨k, from_h, below, rfl⟩
    refine ⟨k - h, by omega, ?_⟩
    rw [shift, Nat.add_sub_cancel' from_h]

/-- **The sweep and the receiver share the messages**, each message once, if in the second loop of the
sweep they stay off each other's slot. -/
theorem messages_shared (start : Start p s₀) (reached : Reachable (State.step p) Apart s₀ s)
    (sent : InFlight s₀ i) : AtMostOnce (s₀.buffer i) s i ∧
      (s.receiver = .idle → s.sweep = .done →
        Settled (s₀.buffer i) s i ∨ Waits (s₀.buffer i) s i) := by
  obtain ⟨h, phase, inv⟩ := inv_of_reachable start reached
  obtain ⟨k, below, rfl⟩ := sent
  refine ⟨inv.atMostOnce slot_lt, fun receiver sweep => ?_⟩
  obtain ⟨buffer, byReceiver, bySweep, returned⟩ := inv.contents (slot s₀ k) slot_lt
  rw [Settled, buffer, byReceiver, bySweep, returned]
  rcases inv.rest receiver sweep (slot_lt (k := k)) with waiting | done | swept
  · right
    have at_end := inv.sweep
    rw [sweep] at at_end
    rcases at_end with clear | ⟨attached, untouched⟩
    · have empty := clear k below
      rw [waiting] at empty
      cases empty
    have from_h : h ≤ k := by
      by_contra before
      rcases inv.before k (Nat.lt_of_not_le before) with off | off <;>
      · rw [off] at waiting
        cases waiting
    refine ⟨attached, (inv.inFlight_iff start).2 ⟨k, from_h, below, rfl⟩, ?_, ?_, ?_⟩
    · rw [buffer, waiting]
      rfl
    · rw [byReceiver, waiting]
      rfl
    · rintro j in_flight
      obtain ⟨d, from_h', below', rfl⟩ := (inv.inFlight_iff start).1 in_flight
      have full : (phase (slot s₀ d)).full = true := by
        rcases inv.rest receiver sweep (slot_lt (k := d)) with waits | back | gone
        · rw [waits]
          rfl
        · exact absurd back (inv.after d from_h' below')
        · have kept := untouched d below'
          rw [gone] at kept
          cases kept
      rw [inv.buffer_eq slot_lt full]
      exact start.full d below'
  · left
    rw [done]
    exact ⟨rfl, .inl ⟨rfl, rfl, rfl⟩⟩
  · left
    rw [swept]
    exact ⟨rfl, .inr ⟨rfl, rfl, rfl⟩⟩

theorem pending_eq_zero {o : Offset} (unused : ∀ i, s.buffer i ≠ o) : pending s o = 0 :=
  Finset.card_eq_zero.2 (Finset.filter_eq_empty_iff.2 fun i _ held => unused i held.1)

/-- A queue of client 1 with one message to client 2, who has not attached yet. -/
def oneMessage : State where
  start := 0
  end_ := 1
  senderId := 1
  receiverId := 0
  receiverNext := 0
  receiverQueue := 0
  buffer i := if i = 0 then 64 else 0
  refCnt o := if o = 64 then 1 else 0
  receiver := .idle
  sweep := .begin
  byReceiver _ := []
  bySweep _ := []
  returned _ := []

theorem start_oneMessage : Start ⟨1, 2, 128⟩ oneMessage where
  receiver := rfl
  sweep := rfl
  id := by decide
  start := by decide
  end_ := by decide
  full := by decide
  empty := by decide
  counted o used := by
    by_cases sent : o = 64
    · subst sent
      decide
    · have none : pending oneMessage o = 0 := by
        refine pending_eq_zero fun i => ?_
        simp only [oneMessage]
        split
        · exact Ne.symm sent
        · exact Ne.symm used
      rw [none]
      exact ⟨Nat.zero_le _, by simp [oneMessage, sent]⟩
  byReceiver _ := rfl
  bySweep _ := rfl
  returned _ := rfl

/-- As `oneMessage`, with a second message behind it. -/
def twoMessages : State :=
  { oneMessage with
    end_ := 2
    buffer := fun i => if i = 0 then 64 else if i = 1 then 192 else 0
    refCnt := fun o => if o = 64 ∨ o = 192 then 1 else 0 }

theorem start_twoMessages : Start ⟨1, 2, 128⟩ twoMessages where
  receiver := rfl
  sweep := rfl
  id := by decide
  start := by decide
  end_ := by decide
  full := by decide
  empty := by decide
  counted o used := by
    by_cases sent : o = 64 ∨ o = 192
    · rcases sent with rfl | rfl <;> decide
    · have none : pending twoMessages o = 0 := by
        refine pending_eq_zero fun i => ?_
        simp only [twoMessages]
        split_ifs
        · exact fun first => sent (.inl first.symm)
        · exact fun second => sent (.inr second.symm)
        · exact Ne.symm used
      rw [none]
      exact ⟨Nat.zero_le _, by simp [twoMessages, sent]⟩
  byReceiver _ := rfl
  bySweep _ := rfl
  returned _ := rfl

/-- Counts stay below `2 ^ 16`, and other references are not looked at. -/
def linkCheck (s : State) (a : Action) (_ : State) : Bool :=
  match a, s.receiver with
  | .others _ _, _ => false
  | .recv, .linkCas o => s.refCnt o + 1 < 2 ^ 16
  | _, _ => true

/-- Moreover the second loop of the sweep does not look at a message at `q->start`, and the receiver
looks at none while the sweep is dropping one. -/
def apartCheck (s : State) (a : Action) (s' : State) : Bool :=
  linkCheck s a s' &&
    match a with
    | .sweep =>
      match s.sweep with
      | .test true i => s.buffer i = 0 ∨ s.start ≠ i
      | _ => true
    | .recv =>
      match s.receiver with
      | .testBuffer _ => s.sweep.holds = none
      | _ => true
    | _ => true

theorem link_of_check {o : Offset} (passed : linkCheck s .recv s' = true)
    (here : s.receiver = .linkCas o) : s.refCnt o + 1 < 2 ^ 16 := by
  simp only [linkCheck, here] at passed
  exact of_decide_eq_true passed

theorem apart_of_apartCheck {a : Action} (passed : apartCheck s a s' = true) : Apart s a s' := by
  simp only [apartCheck, Bool.and_eq_true] at passed
  obtain ⟨counts, stays_off⟩ := passed
  refine ⟨?_, ?_, ?_, ?_⟩
  · rintro i rfl here found -
    simp only [here, decide_eq_true_eq] at stays_off
    exact stays_off.resolve_left found
  · rintro i rfl here - held
    simp only [here, decide_eq_true_eq] at stays_off
    rw [stays_off] at held
    cases held
  · rintro o rfl here
    exact link_of_check counts here
  · rintro o c rfl
    cases counts

/-- Client 2 attaches inside the second loop of the sweep and takes the first message; the sweep drops
the second before the call returns. -/
theorem messages_shared_overlapping : ∃ s, s.returned 0 = [64] ∧ s.bySweep 1 = [192] ∧
    (AtMostOnce 64 s 0 ∧ (Settled 64 s 0 ∨ Waits 64 s 0)) ∧
      AtMostOnce 192 s 1 ∧ (Settled 192 s 1 ∨ Waits 192 s 1) := by
  let actions : List Action := List.replicate 31 .sweep ++ .unwrap :: List.replicate 18 .recv ++
    List.replicate 8 .sweep ++ List.replicate 3 .recv ++ List.replicate 3 .sweep
  have run : (checkedRun (State.step ⟨1, 2, 128⟩) apartCheck twoMessages actions).any
      (fun s => s.receiver = .idle ∧ s.sweep = .done ∧ s.returned 0 = [64] ∧
        s.bySweep 1 = [192]) = true := by
    decide +kernel
  obtain ⟨s, reached, last⟩ := exists_reachable_of_checkedRun (J := fun _ => True)
    (fun _ _ _ _ _ passed => ⟨trivial, apart_of_apartCheck passed⟩) trivial run
  simp only [Bool.decide_and, Bool.and_eq_true, decide_eq_true_eq] at last
  obtain ⟨receiver, sweep, returned, dropped⟩ := last
  have first := messages_shared start_twoMessages reached (i := 0) ⟨0, by decide, by decide⟩
  have second := messages_shared start_twoMessages reached (i := 1) ⟨1, by decide, by decide⟩
  exact ⟨s, returned, dropped, ⟨first.1, first.2 receiver sweep⟩, second.1, second.2 receiver sweep⟩

/-- Client 2 attaches when the sweep has seen that nobody has, and takes the message while the sweep is
about to drop it: it is returned and released, and its count falls to 0 under the new `RootRef`. -/
theorem message_returned_and_released : ∃ s, Start ⟨1, 2, 128⟩ oneMessage ∧ InFlight oneMessage 0 ∧
    Reachable (State.step ⟨1, 2, 128⟩) (fun s a s' => linkCheck s a s' = true) oneMessage s ∧
    s.returned 0 = [64] ∧ s.bySweep 0 = [64] ∧ s.byReceiver 0 = [64] ∧ s.refCnt 64 = 0 := by
  let actions : List Action := List.replicate 38 .sweep ++ .unwrap :: List.replicate 21 .recv ++ [.sweep]
  have run : (checkedRun (State.step ⟨1, 2, 128⟩) linkCheck oneMessage actions).any
      (fun s => s.returned 0 = [64] ∧ s.bySweep 0 = [64] ∧ s.byReceiver 0 = [64] ∧
        s.refCnt 64 = 0) = true := by
    decide +kernel
  have sound : ∀ s a s', True → State.step ⟨1, 2, 128⟩ s a = some s' → linkCheck s a s' = true →
      True ∧ linkCheck s a s' = true := fun _ _ _ _ _ passed => ⟨trivial, passed⟩
  obtain ⟨s, reached, last⟩ := exists_reachable_of_checkedRun sound trivial run
  simp only [decide_eq_true_eq] at last
  exact ⟨s, start_oneMessage, ⟨0, by decide, by decide⟩, reached, last⟩

end CxlShm.Queue.SenderSweep
