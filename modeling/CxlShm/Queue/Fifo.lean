import CxlShm.Lib.Reachability
import CxlShm.Lib.Ring
import CxlShm.Queue.Machine

/-!
# The queue is first in, first out

The invariant of a queue counts absolutely: `h` messages have been consumed and the `sent_to` calls
that returned true are numbered from `0`, so that message `n` is in slot `n % 16` from the store of
the link until the store of the unlink (`Ring.Window`).  Each endpoint tests the indices at
different times; what it has learnt from a test stays true because the other endpoint only moves its
own index away from it.
-/

namespace CxlShm.Queue

open Reachability

/-- The object a `sent_to` call is about. -/
def SendTo.object : SendTo → Offset
  | .testEnd o | .testStart o _ | .lapEnd o | .lapStart o _ | .slotEnd o | .link o | .loadEnd o
  | .storeEnd o _ | .returned o _ => o
  | .idle | .loadPptr _ => 0

/-- The `RootRef` a `cxl_unwrap` call has allocated. -/
def Unwrap.tbr : Unwrap → Option ℕ
  | .linkStart k | .linkBuffer k _ | .link k | .unlinkStart k | .unlinkBuffer k _ | .unlink k
  | .loadStart k | .storeStart k _ | .loadPptr k => some k
  | .idle | .loadReceiverId | .loadReceiverQueue | .storeReceiverNext _ | .storeReceiverQueue
  | .storeReceiverId | .testStart | .testEnd _ | .bufferStart | .testBuffer _ | .alloc
  | .returned _ => none

/-- What the rest of the system does: the `CXLRef` passed to `sent_to` holds an object, an endpoint
runs one function at a time, and nobody else stores into the slots or into the `RootRef` that a
`cxl_unwrap` under way has allocated. -/
def Undisturbed (p : Endpoints) (s : State) (a : Action) (s' : State) : Prop :=
  match a with
  | .send _ => ∀ r, s.sender = .loadPptr r → s.pptr r ≠ 0
  | .others b =>
    (s.sender ≠ .idle → b.client ≠ some p.sender) ∧
      (s.receiver ≠ .idle → b.client ≠ some p.receiver) ∧
      (∀ i, s'.buffer i = s.buffer i) ∧ ∀ k, s.receiver.tbr = some k → s'.pptr k = s.pptr k
  | .sentTo _ | .unwrap | .recv _ _ => True

/-! ## The invariant -/

/-- The activation is past its store. -/
def pastStore (k : Control QueueLoc) : Bool :=
  match k with
  | .call c => c.pc = .bumpEra ∨ c.pc = .free
  | .absent | .starting | .idle | .alloc _ | .clearing _ => false

/-- The sender has stored the message and has yet to advance `q->end`. -/
def stored (p : Endpoints) (s : State) : Bool :=
  match s.sender with
  | .link _ => pastStore (s.base.ctl p.sender)
  | .loadEnd _ | .storeEnd _ _ => true
  | .idle | .loadPptr _ | .testEnd _ | .testStart _ _ | .lapEnd _ | .lapStart _ _ | .slotEnd _
  | .returned _ _ => false

/-- The receiver has cleared the slot and has yet to advance `q->start`. -/
def cleared (p : Endpoints) (s : State) : Bool :=
  match s.receiver with
  | .unlink _ => pastStore (s.base.ctl p.receiver)
  | .loadStart _ | .storeStart _ _ => true
  | .idle | .loadReceiverId | .loadReceiverQueue | .storeReceiverNext _ | .storeReceiverQueue
  | .storeReceiverId | .testStart | .testEnd _ | .bufferStart | .testBuffer _ | .alloc | .linkStart _
  | .linkBuffer _ _ | .link _ | .unlinkStart _ | .unlinkBuffer _ _ | .loadPptr _ | .returned _ =>
    false

/-- Message `n`, where the one under way comes after those that have been sent. -/
def item (s : State) (n : ℕ) : Offset := (sent s ++ [s.sender.object]).getD n 0

/-- What the sender knows, when `h` messages have been consumed. -/
def SendOk (p : Endpoints) (h : ℕ) (s : State) : Prop :=
  let n := (sent s).length
  match s.sender with
  | .idle | .loadPptr _ => True
  | .testEnd o => o ≠ 0
  | .testStart o e => o ≠ 0 ∧ e = n % messageBufferSize
  | .lapEnd o => o ≠ 0 ∧ (n < h + 15 ∨ n % messageBufferSize + 1 ≠ h % messageBufferSize)
  | .lapStart o e => o ≠ 0 ∧ e = n % messageBufferSize ∧
      (n < h + 15 ∨ n % messageBufferSize + 1 ≠ h % messageBufferSize)
  | .slotEnd o | .loadEnd o => o ≠ 0 ∧ n < h + 15
  | .link o => o ≠ 0 ∧ n < h + 15 ∧ ∃ c, s.base.ctl p.sender = .call c ∧ c.func = .linkRef ∧
      c.ref = .slot (n % messageBufferSize) ∧ c.refed = o ∧ c.pc ≠ .free
  | .storeEnd o e => o ≠ 0 ∧ n < h + 15 ∧ e = n % messageBufferSize
  | .returned _ _ => False

/-- What the receiver knows, when `h` messages have been consumed. -/
def RecvOk (p : Endpoints) (h : ℕ) (s : State) : Prop :=
  let n := (sent s).length
  let front := (sent s).getD h 0
  match s.receiver with
  | .idle | .loadReceiverId | .loadReceiverQueue | .storeReceiverNext _ | .storeReceiverQueue
  | .storeReceiverId | .testStart => True
  | .testEnd i => i = h % messageBufferSize
  | .bufferStart | .alloc | .linkStart _ => h < n
  | .testBuffer i | .linkBuffer _ i => h < n ∧ i = h % messageBufferSize
  | .link k => h < n ∧ ∃ c, s.base.ctl p.receiver = .call c ∧ c.func = .linkRef ∧ c.ref = .root k ∧
      c.refed = front ∧ c.pc ≠ .free ∧ (c.pc = .bumpEra → s.pptr k = front)
  | .unlinkStart k | .loadStart k => h < n ∧ s.pptr k = front
  | .unlinkBuffer k i | .storeStart k i => h < n ∧ s.pptr k = front ∧ i = h % messageBufferSize
  | .unlink k => h < n ∧ s.pptr k = front ∧ ∃ c, s.base.ctl p.receiver = .call c ∧
      c.func = .unlinkRef ∧ c.ref = .slot (h % messageBufferSize)
  | .loadPptr k => 0 < h ∧ s.pptr k = (sent s).getD (h - 1) 0
  | .returned _ => False

/-- The messages whose `RootRef` is about to be returned. -/
def returning (s : State) : ℕ :=
  match s.receiver with
  | .loadPptr _ => 1
  | _ => 0

/-- No access that changes a slot or an index is behind the call. -/
def SendTo.quiet : SendTo → Bool
  | .loadPptr _ | .testEnd _ | .testStart _ _ | .lapEnd _ | .lapStart _ _ | .slotEnd _ => true
  | .idle | .link _ | .loadEnd _ | .storeEnd _ _ | .returned _ _ => false

def Unwrap.quiet : Unwrap → Bool
  | .loadReceiverId | .loadReceiverQueue | .storeReceiverNext _ | .storeReceiverQueue
  | .storeReceiverId | .testStart | .testEnd _ | .bufferStart | .testBuffer _ => true
  | .idle | .alloc | .linkStart _ | .linkBuffer _ _ | .link _ | .unlinkStart _ | .unlinkBuffer _ _
  | .unlink _ | .loadStart _ | .storeStart _ _ | .loadPptr _ | .returned _ => false

/-- The invariant of a queue from which `h` messages have been consumed. -/
structure Fifo (p : Endpoints) (h : ℕ) (s : State) : Prop where
  start : s.start = h % messageBufferSize
  end_ : s.end_ = (sent s).length % messageBufferSize
  le : h ≤ (sent s).length
  lap : (sent s).length ≤ h + 15
  nonzero : ∀ o ∈ sent s, o ≠ 0
  window : Ring.Window messageBufferSize s.buffer 0 (item s)
    (h + (cleared p s).toNat) ((sent s).length + (stored p s).toNat)
  send : SendOk p h s
  recv : RecvOk p h s
  results : received s = (sent s).take (h - returning s)
  sendQuiet : s.sender.quiet → s.sendWrote = false
  recvQuiet : s.receiver.quiet → s.unwrapWrote = false
  refused : ∀ r ∈ s.sends, r.ok = false → r.wrote = false
  empty : ∀ r ∈ s.unwraps, r.result = none → r.wrote = false

theorem Created.fifo (p : Endpoints) {s : State} (h : Created s) : Fifo p 0 s where
  start := h.start
  end_ := by simp [h.end_, sent, h.sends]
  le := Nat.zero_le _
  lap := by simp [sent, h.sends]
  nonzero := by simp [sent, h.sends]
  window := by
    refine ⟨?_, ?_, ?_, ?_⟩
    · simp [cleared, h.receiver]
    · simp [sent, h.sends, stored, h.sender, messageBufferSize]
    · simp [sent, h.sends, stored, h.sender]
    · intro n _ hn
      simp only [cleared, h.receiver, Bool.toNat_false, Nat.zero_add] at hn
      rw [Nat.mod_eq_of_lt hn]
      exact h.buffer n hn
  send := by simp [SendOk, h.sender]
  recv := by simp [RecvOk, h.receiver]
  results := by simp [received, h.unwraps, sent, h.sends]
  sendQuiet := by simp [h.sender, SendTo.quiet]
  recvQuiet := by simp [h.receiver, Unwrap.quiet]
  refused := by simp [h.sends]
  empty := by simp [h.unwraps]

/-! ## Frames -/

/-- The endpoint is inside `link_reference` or `unlink_reference`. -/
def SendTo.calling : SendTo → Bool
  | .link _ => true
  | _ => false

def Unwrap.calling : Unwrap → Bool
  | .link _ | .unlink _ => true
  | _ => false

/-- What the receiver knows is not touched by more messages. -/
theorem RecvOk.frame {p : Endpoints} {h : ℕ} {s s' : State} (ok : RecvOk p h s)
    (le : h ≤ (sent s).length) (receiver : s'.receiver = s.receiver) (more : sent s <+: sent s')
    (pptr : ∀ k, s.receiver.tbr = some k → s'.pptr k = s.pptr k)
    (ctl : s.receiver.calling → s'.base.ctl p.receiver = s.base.ctl p.receiver) :
    RecvOk p h s' := by
  have longer := more.length_le
  have same : ∀ i < (sent s).length, (sent s').getD i 0 = (sent s).getD i 0 := by
    intro i hi
    obtain ⟨rest, hrest⟩ := more
    rw [← hrest, List.getD_append _ _ _ _ hi]
  unfold RecvOk at ok ⊢
  rw [receiver]
  cases hr : s.receiver with
  | idle | loadReceiverId | loadReceiverQueue | storeReceiverNext | storeReceiverQueue
  | storeReceiverId | testStart => trivial
  | testEnd => simpa only [hr] using ok
  | returned => simp only [hr] at ok
  | bufferStart | alloc | linkStart => simp only [hr] at ok ⊢; omega
  | testBuffer | linkBuffer => simp only [hr] at ok ⊢; omega
  | link k =>
    simp only [hr] at ok ⊢
    obtain ⟨some, c, hc, func, ref, refed, pc, done⟩ := ok
    rw [ctl (by rw [hr]; rfl), same h some, pptr k (by rw [hr]; rfl)]
    exact ⟨by omega, c, hc, func, ref, refed, pc, done⟩
  | unlinkStart k | loadStart k =>
    simp only [hr] at ok ⊢
    rw [same h ok.1, pptr k (by rw [hr]; rfl)]
    exact ⟨by omega, ok.2⟩
  | unlinkBuffer k i | storeStart k i =>
    simp only [hr] at ok ⊢
    rw [same h ok.1, pptr k (by rw [hr]; rfl)]
    exact ⟨by omega, ok.2⟩
  | unlink k =>
    simp only [hr] at ok ⊢
    rw [ctl (by rw [hr]; rfl), same h ok.1, pptr k (by rw [hr]; rfl)]
    exact ⟨by omega, ok.2⟩
  | loadPptr k =>
    simp only [hr] at ok ⊢
    rw [same (h - 1) (by omega), pptr k (by rw [hr]; rfl)]
    exact ok

/-- What the sender knows is not touched by messages being consumed. -/
theorem SendOk.frame {p : Endpoints} {h h' : ℕ} {s s' : State} (ok : SendOk p h s)
    (lap : (sent s).length ≤ h + 15) (sender : s'.sender = s.sender) (sends : sent s' = sent s)
    (more : h ≤ h') (ctl : s.sender.calling → s'.base.ctl p.sender = s.base.ctl p.sender) :
    SendOk p h' s' := by
  unfold SendOk at ok ⊢
  rw [sender, sends]
  cases hs : s.sender with
  | idle | loadPptr => trivial
  | testEnd | testStart => simpa only [hs] using ok
  | returned => simp only [hs] at ok
  | lapEnd o =>
    simp only [hs, messageBufferSize] at ok ⊢
    exact ⟨ok.1, by omega⟩
  | lapStart o e =>
    simp only [hs, messageBufferSize] at ok ⊢
    exact ⟨ok.1, ok.2.1, by omega⟩
  | slotEnd | loadEnd =>
    simp only [hs] at ok ⊢
    exact ⟨ok.1, by omega⟩
  | storeEnd =>
    simp only [hs] at ok ⊢
    exact ⟨ok.1, by omega, ok.2.2⟩
  | link o =>
    simp only [hs] at ok ⊢
    obtain ⟨null, room, c, hc, rest⟩ := ok
    rw [ctl (by rw [hs]; rfl)]
    exact ⟨null, by omega, c, hc, rest⟩

/-- The two endpoints are never inside the protocol under one thread id. -/
theorem Fifo.distinct {p : Endpoints} {h : ℕ} {s : State} (inv : Fifo p h s)
    (sending : s.sender.calling) (receiving : s.receiver.calling) : p.sender ≠ p.receiver := by
  intro same
  have send := inv.send
  have recv := inv.recv
  unfold SendOk at send
  unfold RecvOk at recv
  cases hs : s.sender <;> simp only [hs, SendTo.calling, Bool.false_eq_true] at sending send
  cases hr : s.receiver <;> simp only [hr, Unwrap.calling, Bool.false_eq_true] at receiving recv
  · obtain ⟨-, -, c, hc, -, ref, -⟩ := send
    obtain ⟨-, c', hc', -, ref', -⟩ := recv
    rw [same, hc'] at hc
    cases hc
    cases ref.symm.trans ref'
  · obtain ⟨-, -, c, hc, func, -⟩ := send
    obtain ⟨-, -, c', hc', func', -⟩ := recv
    rw [same, hc'] at hc
    cases hc
    cases func.symm.trans func'

theorem Fifo.busy {p : Endpoints} {h : ℕ} {s : State} (inv : Fifo p h s)
    (receiving : s.receiver.calling) : s.base.ctl p.receiver ≠ .idle := by
  have recv := inv.recv
  unfold RecvOk at recv
  cases hr : s.receiver <;> simp only [hr, Unwrap.calling, Bool.false_eq_true] at receiving recv
  · obtain ⟨-, c, hc, -⟩ := recv
    simp [hc]
  · obtain ⟨-, -, c, hc, -⟩ := recv
    simp [hc]

theorem Fifo.sendBusy {p : Endpoints} {h : ℕ} {s : State} (inv : Fifo p h s)
    (sending : s.sender.calling) : s.base.ctl p.sender ≠ .idle := by
  have send := inv.send
  unfold SendOk at send
  cases hs : s.sender <;> simp only [hs, SendTo.calling, Bool.false_eq_true] at sending send
  obtain ⟨-, -, c, hc, -⟩ := send
  simp [hc]

theorem cleared_congr {p : Endpoints} {s s' : State} (receiver : s'.receiver = s.receiver)
    (ctl : s.receiver.calling → s'.base.ctl p.receiver = s.base.ctl p.receiver) :
    cleared p s' = cleared p s := by
  unfold cleared
  rw [receiver]
  cases hr : s.receiver with
  | unlink k => simp only [ctl (by rw [hr]; rfl)]
  | _ => rfl

theorem stored_congr {p : Endpoints} {s s' : State} (sender : s'.sender = s.sender)
    (ctl : s.sender.calling → s'.base.ctl p.sender = s.base.ctl p.sender) :
    stored p s' = stored p s := by
  unfold stored
  rw [sender]
  cases hs : s.sender with
  | link o => simp only [ctl (by rw [hs]; rfl)]
  | _ => rfl

theorem item_of_lt {s : State} {n : ℕ} (hn : n < (sent s).length) :
    item s n = (sent s).getD n 0 :=
  List.getD_append _ _ _ _ hn

theorem item_length (s : State) : item s (sent s).length = s.sender.object := by
  simp [item]

theorem buffer_update (s : State) (j : ℕ) (o : Offset) :
    (fun i => Function.update s.base.mem.loc (.slot j) o (.slot i)) =
      Function.update s.buffer j o := by
  funext i
  by_cases hi : i = j <;> simp [hi, State.buffer]

/-! ## Steps of the sender -/

section Sender

variable {p : Endpoints} {h : ℕ} {s s' : State}

/-- The invariant after a step of the sender, from what the step does to the sender's part. -/
theorem Fifo.ofSend (inv : Fifo p h s) (start : s'.start = s.start)
    (receiver : s'.receiver = s.receiver) (unwraps : s'.unwraps = s.unwraps)
    (unwrapWrote : s'.unwrapWrote = s.unwrapWrote)
    (end_ : s'.end_ = (sent s').length % messageBufferSize) (more : sent s <+: sent s')
    (lap : (sent s').length ≤ h + 15) (nonzero : ∀ o ∈ sent s', o ≠ 0)
    (window : Ring.Window messageBufferSize s'.buffer 0 (item s')
      (h + (cleared p s).toNat) ((sent s').length + (stored p s').toNat))
    (pptr : ∀ k, s'.pptr k = s.pptr k)
    (ctl : s.receiver.calling → s'.base.ctl p.receiver = s.base.ctl p.receiver)
    (send : SendOk p h s') (quiet : s'.sender.quiet → s'.sendWrote = false)
    (refused : ∀ r ∈ s'.sends, r.ok = false → r.wrote = false) : Fifo p h s' where
  start := start.trans inv.start
  end_ := end_
  le := inv.le.trans more.length_le
  lap := lap
  nonzero := nonzero
  window := by rwa [cleared_congr receiver ctl]
  send := send
  recv := inv.recv.frame inv.le receiver more (fun k _ => pptr k) ctl
  results := by
    have same : returning s' = returning s := by simp only [returning, receiver]
    have shorter : h - returning s ≤ (sent s).length := (Nat.sub_le _ _).trans inv.le
    obtain ⟨rest, hrest⟩ := more
    rw [same, ← hrest, List.take_append_of_le_length shorter, ← inv.results]
    simp only [received, unwraps]
  sendQuiet := quiet
  recvQuiet := by
    rw [receiver, unwrapWrote]
    exact inv.recvQuiet
  refused := refused
  empty := by
    rw [unwraps]
    exact inv.empty

/-- The window of a step of the sender that writes no slot. -/
theorem Fifo.sameWindow (inv : Fifo p h s) (buffer : ∀ i, s'.buffer i = s.buffer i)
    (sends : sent s' = sent s) (same : stored p s' = stored p s)
    (object : stored p s = true → s'.sender.object = s.sender.object) :
    Ring.Window messageBufferSize s'.buffer 0 (item s')
      (h + (cleared p s).toNat) ((sent s').length + (stored p s').toNat) := by
  rw [sends, same]
  refine inv.window.congr (fun i _ => buffer i) fun n _ hn => ?_
  by_cases earlier : n < (sent s).length
  · rw [item_of_lt (sends ▸ earlier), item_of_lt earlier, sends]
  · cases stores : stored p s with
    | false =>
      rw [stores] at hn
      exact absurd hn earlier
    | true => rw [item, item, sends, object stores]

/-- The window after the store of the message. -/
theorem Fifo.pushWindow (inv : Fifo p h s) {o : Offset} (before : stored p s = false)
    (after : stored p s' = true) (room : (sent s).length < h + 15)
    (buffer : s'.buffer = Function.update s.buffer ((sent s).length % messageBufferSize) o)
    (sends : sent s' = sent s) (object : s.sender.object = o) (object' : s'.sender.object = o) :
    Ring.Window messageBufferSize s'.buffer 0 (item s')
      (h + (cleared p s).toNat) ((sent s').length + (stored p s').toNat) := by
  have window := inv.window
  rw [before] at window
  have pushed := window.push (by simp only [messageBufferSize, Bool.toNat_false]; omega)
  simp only [Bool.toNat_false, Nat.add_zero, item_length, object] at pushed
  have items : item s' = item s := by
    funext n
    simp only [item, sends, object, object']
  rw [sends, after, buffer, items]
  exact pushed

/-- A step of the sender that only moves registers, or returns false. -/
theorem Fifo.sendMove (inv : Fifo p h s) (base : s'.base = s.base) (start : s'.start = s.start)
    (end_ : s'.end_ = s.end_) (receiver : s'.receiver = s.receiver)
    (unwraps : s'.unwraps = s.unwraps) (unwrapWrote : s'.unwrapWrote = s.unwrapWrote)
    (sends : sent s' = sent s) (same : stored p s' = stored p s)
    (object : stored p s = true → s'.sender.object = s.sender.object)
    (send : SendOk p h s') (quiet : s'.sender.quiet → s'.sendWrote = false)
    (refused : ∀ r ∈ s'.sends, r.ok = false → r.wrote = false) : Fifo p h s' := by
  refine inv.ofSend start receiver unwraps unwrapWrote ?_ (sends ▸ List.prefix_refl _)
    (sends ▸ inv.lap) (sends ▸ inv.nonzero)
    (inv.sameWindow (fun i => by simp only [State.buffer, base]) sends same object)
    (fun k => by simp only [State.pptr, base]) (fun _ => by rw [base]) send quiet refused
  rw [end_, sends]
  exact inv.end_

theorem touched_of_eq (start : s'.start = s.start) (end_ : s'.end_ = s.end_)
    (buffer : ∀ i, s'.buffer i = s.buffer i) : s.touched s' = false := by
  simp [State.touched, start, end_, buffer]

theorem sent_append (s : State) (r : SendRecord) :
    sent { s with sends := s.sends ++ [r] } =
      if r.ok then sent s ++ [r.offset] else sent s := by
  cases ok : r.ok <;> simp [sent, ok]

/-- A call that returns false before its link. -/
theorem Fifo.refuse (inv : Fifo p h s) (quiet : s.sender.quiet = true)
    (stores : stored p s = false) (o : Offset) :
    Fifo p h (s.noteSend { s with sender := .returned o false }) := by
  have still : s.touched { s with sender := .returned o false } = false :=
    touched_of_eq rfl rfl fun _ => rfl
  have booked : s.noteSend { s with sender := .returned o false } =
      { s with sender := .idle, sends := s.sends ++ [⟨o, false, false⟩] } := by
    simp only [State.noteSend, still]
    simp only [inv.sendQuiet quiet, Bool.or_false]
  rw [booked]
  have sends : sent { s with sender := .idle, sends := s.sends ++ [⟨o, false, false⟩] } = sent s :=
    sent_append _ _
  refine inv.sendMove rfl rfl rfl rfl rfl rfl sends ?_ ?_ trivial (fun h => by cases h) ?_
  · rw [stores]
    rfl
  · rw [stores]
    simp
  · intro r hr
    rcases List.mem_append.1 hr with old | new
    · exact inv.refused r old
    · rw [List.mem_singleton.1 new]
      exact fun _ => rfl

/-- The test of the indices fails only when there is room. -/
theorem room_of_tests {n h : ℕ} (lap : n ≤ h + 15)
    (first : n < h + 15 ∨ n % 16 + 1 ≠ h % 16)
    (second : (n % 16 + (2 ^ 64 - h % 16)) % 2 ^ 64 ≠ 15) : n < h + 15 := by
  omega

theorem Fifo.sendStep (inv : Fifo p h s) {weak : Bool} (hs : s.sendStep p weak = some s')
    (load : ∀ r, s.sender = .loadPptr r → s.pptr r ≠ 0) : Fifo p h (s.noteSend s') := by
  have ok := inv.send
  have quiet := inv.sendQuiet
  unfold SendOk at ok
  unfold State.sendStep at hs
  have still : ∀ x : SendTo, s.touched { s with sender := x } = false := fun x =>
    touched_of_eq rfl rfl fun _ => rfl
  cases hk : s.sender with
  | idle | returned => simp [hk] at hs
  | loadPptr r =>
    simp only [hk, Option.some.injEq] at hs
    subst hs
    simp only [State.noteSend, still, Bool.or_false]
    refine inv.sendMove rfl rfl rfl rfl rfl rfl rfl ?_ ?_ (load r hk) ?_ inv.refused <;>
      simp [stored, hk, SendTo.quiet, quiet]
  | testEnd o =>
    simp only [hk, Option.some.injEq] at hs ok
    subst hs
    simp only [State.noteSend, still, Bool.or_false]
    refine inv.sendMove rfl rfl rfl rfl rfl rfl rfl ?_ ?_ ⟨ok, inv.end_⟩ ?_ inv.refused <;>
      simp [stored, hk, SendTo.quiet, quiet]
  | testStart o e =>
    simp only [hk, Option.some.injEq] at hs ok
    subst hs
    by_cases full : (e + 1) % 2 ^ 64 = s.start
    · rw [if_pos full]
      exact inv.refuse (by rw [hk]; rfl) (by simp [stored, hk]) o
    · rw [if_neg full]
      simp only [State.noteSend, still, Bool.or_false]
      have room : (sent s).length % messageBufferSize + 1 ≠ h % messageBufferSize := by
        rw [ok.2, inv.start] at full
        simp only [messageBufferSize] at full ⊢
        omega
      refine inv.sendMove rfl rfl rfl rfl rfl rfl rfl ?_ ?_ ⟨ok.1, .inr room⟩ ?_ inv.refused <;>
        simp [stored, hk, SendTo.quiet, quiet]
  | lapEnd o =>
    simp only [hk, Option.some.injEq] at hs ok
    subst hs
    simp only [State.noteSend, still, Bool.or_false]
    refine inv.sendMove rfl rfl rfl rfl rfl rfl rfl ?_ ?_ ⟨ok.1, inv.end_, ok.2⟩ ?_ inv.refused <;>
      simp [stored, hk, SendTo.quiet, quiet]
  | lapStart o e =>
    simp only [hk, Option.some.injEq] at hs ok
    subst hs
    by_cases full : (e + (2 ^ 64 - s.start)) % 2 ^ 64 = messageBufferSize - 1
    · rw [if_pos full]
      exact inv.refuse (by rw [hk]; rfl) (by simp [stored, hk]) o
    · rw [if_neg full]
      simp only [State.noteSend, still, Bool.or_false]
      have room : (sent s).length < h + 15 := by
        rw [ok.2.1, inv.start] at full
        exact room_of_tests inv.lap ok.2.2 full
      refine inv.sendMove rfl rfl rfl rfl rfl rfl rfl ?_ ?_ ⟨ok.1, room⟩ ?_ inv.refused <;>
        simp [stored, hk, SendTo.quiet, quiet]
  | loadEnd o =>
    simp only [hk, Option.some.injEq] at hs ok
    subst hs
    simp only [State.noteSend, still, Bool.or_false]
    refine inv.sendMove rfl rfl rfl rfl rfl rfl rfl ?_ ?_ ⟨ok.1, ok.2, inv.end_⟩ ?_ inv.refused <;>
      simp [stored, hk, SendTo.quiet, SendTo.object]
  | slotEnd o =>
    simp only [hk, Option.map_eq_some_iff] at hs ok
    obtain ⟨b, hb, rfl⟩ := hs
    obtain ⟨idle, rfl⟩ := enter_eq_some hb
    simp only [State.noteSend]
    refine inv.ofSend rfl rfl rfl rfl inv.end_ (List.prefix_refl _) inv.lap inv.nonzero
      (inv.sameWindow (fun _ => rfl) rfl ?_ ?_) (fun _ => rfl) ?_ ?_ (fun h => by cases h) inv.refused
    · simp [stored, hk, State.setCtl, CxlShm.State.setCtl, pastStore]
    · simp [stored, hk]
    · intro receiving
      refine Function.update_of_ne ?_ _ _
      intro same
      exact inv.busy receiving (same ▸ idle)
    · exact ⟨ok.1, ok.2, _, Function.update_self _ _ _, rfl,
        congrArg QueueLoc.slot inv.end_, rfl, by simp⟩
  | link o =>
    simp only [hk, Option.map_eq_some_iff] at hs ok
    obtain ⟨null, room, c, hc, func, ref, refed, notFree⟩ := ok
    obtain ⟨b, hb, rfl⟩ := hs
    rw [step_run_call hc, Option.some.injEq] at hb
    subst hb
    have last : c.last = false := by simp [Call.last, func]
    have receiving : s.receiver.calling →
        (s.base.runCall p.sender c weak).ctl p.receiver = s.base.ctl p.receiver := fun calling =>
      ctl_of_other (step_run_call hc) fun u hu => by
        obtain rfl := Option.some.inj hu
        exact (inv.distinct (by rw [hk]; rfl) calling).symm
    by_cases ends : c.ends
    · -- the increment of the era ends the link
      have pc : c.pc = .bumpEra := ends.elim And.left fun free => absurd free notFree
      have idle := runCall_ends s.base p.sender weak ends
      have loc : (s.base.runCall p.sender c weak).mem.loc = s.base.mem.loc := by
        rw [runCall_loc, if_neg (by simp [pc])]
      simp only [idle, if_true, State.noteSend]
      refine inv.ofSend rfl rfl rfl rfl inv.end_ (List.prefix_refl _) inv.lap inv.nonzero
        (inv.sameWindow (fun i => congrFun loc _) rfl ?_ ?_) (fun _ => congrFun loc _) receiving
        ⟨null, room⟩ (fun h => by cases h) inv.refused
      · simp [stored, hk, hc, pastStore, pc]
      · simp [hk, SendTo.object]
    · obtain ⟨c', hc', func', ref', refed', bump, free⟩ :=
        runCall_next s.base p.sender weak ends
      have notBump : c.pc ≠ .bumpEra := fun pc => ends (.inl ⟨pc, last⟩)
      have send : c'.func = .linkRef ∧ c'.ref = .slot ((sent s).length % messageBufferSize) ∧
          c'.refed = o ∧ c'.pc ≠ .free :=
        ⟨func'.trans func, ref'.trans ref, refed'.trans refed, fun h => notBump (free.1 h)⟩
      simp only [hc', reduceCtorEq, if_false, State.noteSend]
      by_cases pc : c.pc = .storeRef
      · -- the store of the message
        have loc : (s.base.runCall p.sender c weak).mem.loc = Function.update s.base.mem.loc
            (.slot ((sent s).length % messageBufferSize)) o := by
          rw [runCall_loc, if_pos pc, ref, Call.newRef, func, refed]
        have before : stored p s = false := by simp [stored, hk, hc, pastStore, pc]
        refine inv.ofSend rfl rfl rfl rfl inv.end_ (List.prefix_refl _) inv.lap inv.nonzero
          (inv.pushWindow before ?_ room ?_ rfl (by rw [hk, SendTo.object]) rfl)
          (fun k => ?_) receiving ⟨null, room, c', hc', send⟩ (fun h => by cases h) inv.refused
        · simp [stored, hc', pastStore, bump, pc]
        · rw [← buffer_update]
          funext i
          exact congrFun loc _
        · simp only [State.pptr, loc]
          exact Function.update_of_ne (by simp) _ _
      · have loc : (s.base.runCall p.sender c weak).mem.loc = s.base.mem.loc := by
          rw [runCall_loc, if_neg pc]
        refine inv.ofSend rfl rfl rfl rfl inv.end_ (List.prefix_refl _) inv.lap inv.nonzero
          (inv.sameWindow (fun i => congrFun loc _) rfl ?_ ?_) (fun _ => congrFun loc _) receiving
          ⟨null, room, c', hc', send⟩ (fun h => by cases h) inv.refused
        · simp [stored, hk, hc, hc', pastStore, bump, pc, free, notBump, notFree]
        · simp [hk, SendTo.object]
  | storeEnd o e =>
    simp only [hk, Option.some.injEq] at hs ok
    obtain ⟨null, room, rfl⟩ := ok
    subst hs
    simp only [State.noteSend]
    generalize hw : (s.sendWrote || s.touched _) = w
    have sends : sent { s with
        end_ := ((sent s).length % messageBufferSize + 1) % messageBufferSize, sender := .idle,
        sends := s.sends ++ [⟨o, true, w⟩] } = sent s ++ [o] := by
      simp [sent]
    refine inv.ofSend rfl rfl rfl rfl ?_ (sends ▸ List.prefix_append _ _) ?_ ?_ ?_ (fun _ => rfl)
      (fun _ => rfl) trivial (fun h => by cases h) ?_
    · rw [sends, List.length_append, List.length_singleton]
      simp only [messageBufferSize]
      omega
    · rw [sends, List.length_append, List.length_singleton]
      omega
    · rw [sends]
      intro x hx
      rcases List.mem_append.1 hx with old | new
      · exact inv.nonzero x old
      · rw [List.mem_singleton.1 new]
        exact null
    · have window := inv.window
      have before : stored p s = true := by simp [stored, hk]
      rw [before] at window
      rw [sends, List.length_append, List.length_singleton]
      refine window.congr (fun _ _ => rfl) fun n _ hn => ?_
      have here : n < (sent s ++ [o]).length := by simpa using hn
      simp only [item, sends, hk, SendTo.object]
      exact List.getD_append _ _ _ _ here
    · intro r hr
      rcases List.mem_append.1 hr with old | new
      · exact inv.refused r old
      · rw [List.mem_singleton.1 new]
        simp

end Sender

/-! ## Steps of the receiver -/

section Receiver

variable {p : Endpoints} {h h' : ℕ} {s s' : State}

/-- The invariant after a step of the receiver, from what the step does to the receiver's part. -/
theorem Fifo.ofRecv (inv : Fifo p h s) (end_ : s'.end_ = s.end_) (sender : s'.sender = s.sender)
    (sends : s'.sends = s.sends) (sendWrote : s'.sendWrote = s.sendWrote)
    (start : s'.start = h' % messageBufferSize) (more : h ≤ h') (le : h' ≤ (sent s).length)
    (window : Ring.Window messageBufferSize s'.buffer 0 (item s)
      (h' + (cleared p s').toNat) ((sent s).length + (stored p s).toNat))
    (ctl : s.sender.calling → s'.base.ctl p.sender = s.base.ctl p.sender)
    (recv : RecvOk p h' s') (results : received s' = (sent s).take (h' - returning s'))
    (quiet : s'.receiver.quiet → s'.unwrapWrote = false)
    (empty : ∀ r ∈ s'.unwraps, r.result = none → r.wrote = false) : Fifo p h' s' := by
  have same : sent s' = sent s := by simp only [sent, sends]
  have items : item s' = item s := by
    funext n
    simp only [item, same, sender]
  refine ⟨start, ?_, same ▸ le, ?_, same ▸ inv.nonzero, ?_, ?_, recv, same ▸ results, ?_, quiet, ?_,
    empty⟩
  · rw [end_, same]
    exact inv.end_
  · rw [same]
    exact inv.lap.trans (by omega)
  · rwa [items, same, stored_congr sender ctl]
  · exact inv.send.frame inv.lap sender same more ctl
  · rw [sender, sendWrote]
    exact inv.sendQuiet
  · rw [sends]
    exact inv.refused

/-- The window of a step of the receiver that writes no slot. -/
theorem Fifo.keptWindow (inv : Fifo p h s) (buffer : ∀ i, s'.buffer i = s.buffer i)
    (same : cleared p s' = cleared p s) : Ring.Window messageBufferSize s'.buffer 0 (item s)
      (h + (cleared p s').toNat) ((sent s).length + (stored p s).toNat) := by
  rw [same]
  exact inv.window.congr (fun i _ => buffer i) fun _ _ _ => rfl

theorem Fifo.keptResults (inv : Fifo p h s) (unwraps : s'.unwraps = s.unwraps)
    (ret : returning s' = returning s) : received s' = (sent s).take (h - returning s') := by
  rw [ret, ← inv.results]
  simp only [received, unwraps]

/-- The window after the slot of the oldest message has been cleared. -/
theorem Fifo.popWindow (inv : Fifo p h s) (before : cleared p s = false)
    (after : cleared p s' = true) (some : h < (sent s).length)
    (buffer : s'.buffer = Function.update s.buffer (h % messageBufferSize) 0) :
    Ring.Window messageBufferSize s'.buffer 0 (item s)
      (h + (cleared p s').toNat) ((sent s).length + (stored p s).toNat) := by
  have window := inv.window
  rw [before, Bool.toNat_false, Nat.add_zero] at window
  rw [after, buffer]
  exact window.pop (by omega)

/-- A step of the receiver that only moves registers, or returns null. -/
theorem Fifo.recvMove (inv : Fifo p h s) (base : s'.base = s.base) (start : s'.start = s.start)
    (end_ : s'.end_ = s.end_) (sender : s'.sender = s.sender) (sends : s'.sends = s.sends)
    (sendWrote : s'.sendWrote = s.sendWrote) (same : cleared p s' = cleared p s)
    (recv : RecvOk p h s') (results : received s' = received s)
    (ret : returning s' = returning s) (quiet : s'.receiver.quiet → s'.unwrapWrote = false)
    (empty : ∀ r ∈ s'.unwraps, r.result = none → r.wrote = false) : Fifo p h s' := by
  refine inv.ofRecv end_ sender sends sendWrote (start.trans inv.start) le_rfl inv.le
    (inv.keptWindow (fun i => by simp only [State.buffer, base]) same) (fun _ => by rw [base]) recv
    ?_ quiet empty
  rw [results, ret]
  exact inv.results

/-- A call that returns null before it allocates. -/
theorem Fifo.recvNull (inv : Fifo p h s) (quiet : s.receiver.quiet = true)
    (clear : cleared p s = false) (ret : returning s = 0) :
    Fifo p h (s.noteRecv { s with receiver := .returned none }) := by
  have still : s.touched { s with receiver := .returned none } = false :=
    touched_of_eq rfl rfl fun _ => rfl
  have booked : s.noteRecv { s with receiver := .returned none } =
      { s with receiver := .idle, unwraps := s.unwraps ++ [⟨none, false⟩] } := by
    simp only [State.noteRecv, still]
    simp only [inv.recvQuiet quiet, Bool.or_false]
  rw [booked]
  refine inv.recvMove rfl rfl rfl rfl rfl rfl ?_ trivial ?_ ?_ (fun h => by cases h) ?_
  · rw [clear]
    rfl
  · simp [received]
  · rw [ret]
    rfl
  · intro r hr
    rcases List.mem_append.1 hr with old | new
    · exact inv.empty r old
    · rw [List.mem_singleton.1 new]
      exact fun _ => rfl

/-- An entry of the receiver into a function leaves the sender's activation alone. -/
theorem Fifo.sender_of_enter (inv : Fifo p h s) (idle : s.base.ctl p.receiver = .idle)
    {k : Control QueueLoc} (sending : s.sender.calling) :
    (s.base.setCtl p.receiver k).ctl p.sender = s.base.ctl p.sender := by
  refine Function.update_of_ne ?_ _ _
  intro same
  exact inv.sendBusy sending (same ▸ idle)

theorem Fifo.sender_of_run (inv : Fifo p h s) (weak : Bool) {c : Call QueueLoc}
    (hc : s.base.ctl p.receiver = .call c) (receiving : s.receiver.calling)
    (sending : s.sender.calling) :
    (s.base.runCall p.receiver c weak).ctl p.sender = s.base.ctl p.sender :=
  ctl_of_other (step_run_call hc) fun u hu => by
    obtain rfl := Option.some.inj hu
    exact inv.distinct sending receiving

/-- The message at the front is in its slot until the receiver clears it. -/
theorem Fifo.front (inv : Fifo p h s) (some : h < (sent s).length) (clear : cleared p s = false) :
    s.buffer (h % messageBufferSize) = (sent s).getD h 0 := by
  rw [← item_of_lt some]
  exact inv.window.full h (by simp [clear]) (by omega)

/-- Booking an access that neither returns nor changes a slot or an index. -/
theorem Fifo.recvBooked (start : s'.start = s.start) (end_ : s'.end_ = s.end_)
    (buffer : ∀ i, s'.buffer i = s.buffer i) (goes : ∀ r, s'.receiver ≠ .returned r)
    (inv : Fifo p h { s' with unwrapWrote := s.unwrapWrote }) : Fifo p h (s.noteRecv s') := by
  have booked : s.noteRecv s' = { s' with unwrapWrote := s.unwrapWrote } := by
    unfold State.noteRecv
    rw [touched_of_eq start end_ buffer]
    cases hr : s'.receiver with
    | returned r => exact absurd hr (goes r)
    | _ => simp
  rwa [booked]

/-- Booking an access that does not return. -/
theorem Fifo.recvWrote (goes : ∀ r, s'.receiver ≠ .returned r)
    (inv : ∀ w, Fifo p h { s' with unwrapWrote := w }) : Fifo p h (s.noteRecv s') := by
  have booked : s.noteRecv s' = { s' with unwrapWrote := s.unwrapWrote || s.touched s' } := by
    unfold State.noteRecv
    cases hr : s'.receiver with
    | returned r => exact absurd hr (goes r)
    | _ => simp
  rw [booked]
  exact inv _

theorem Fifo.recvStep (inv : Fifo p h s) {weak : Bool} {tbr : ℕ}
    (hs : s.recvStep p weak tbr = some s') : ∃ h', Fifo p h' (s.noteRecv s') := by
  have ok := inv.recv
  have quiet := inv.recvQuiet
  unfold RecvOk at ok
  unfold State.recvStep at hs
  cases hk : s.receiver with
  | idle | returned => simp [hk] at hs
  | loadReceiverId =>
    simp only [hk, Option.some.injEq] at hs
    subst hs
    refine ⟨h, ?_⟩
    by_cases new : s.receiverId = 0
    · rw [if_pos new]
      refine .recvBooked rfl rfl (fun _ => rfl) (by simp) ?_
      refine inv.recvMove rfl rfl rfl rfl rfl rfl ?_ trivial rfl ?_ ?_ inv.empty <;>
        simp [cleared, returning, hk, Unwrap.quiet, quiet]
    · rw [if_neg new]
      refine .recvBooked rfl rfl (fun _ => rfl) (by simp) ?_
      refine inv.recvMove rfl rfl rfl rfl rfl rfl ?_ trivial rfl ?_ ?_ inv.empty <;>
        simp [cleared, returning, hk, Unwrap.quiet, quiet]
  | loadReceiverQueue | storeReceiverNext v | storeReceiverQueue | storeReceiverId =>
    simp only [hk, Option.some.injEq] at hs
    subst hs
    refine ⟨h, ?_⟩
    refine .recvBooked rfl rfl (fun _ => rfl) (by simp) ?_
    refine inv.recvMove rfl rfl rfl rfl rfl rfl ?_ trivial rfl ?_ ?_ inv.empty <;>
      simp [cleared, returning, hk, Unwrap.quiet, quiet]
  | testStart =>
    simp only [hk, Option.some.injEq] at hs
    subst hs
    refine ⟨h, ?_⟩
    refine .recvBooked rfl rfl (fun _ => rfl) (by simp) ?_
    refine inv.recvMove rfl rfl rfl rfl rfl rfl ?_ inv.start rfl ?_ ?_ inv.empty <;>
      simp [cleared, returning, hk, Unwrap.quiet, quiet]
  | testEnd i =>
    simp only [hk, Option.some.injEq] at hs ok
    subst hs
    refine ⟨h, ?_⟩
    by_cases none : i = s.end_
    · rw [if_pos none]
      exact inv.recvNull (by rw [hk]; rfl) (by simp [cleared, hk]) (by simp [returning, hk])
    · rw [if_neg none]
      refine .recvBooked rfl rfl (fun _ => rfl) (by simp) ?_
      have some : h < (sent s).length := by
        have le := inv.le
        rw [ok, inv.end_] at none
        exact lt_of_le_of_ne le fun same => none (by rw [← same])
      refine inv.recvMove rfl rfl rfl rfl rfl rfl ?_ some rfl ?_ ?_ inv.empty <;>
        simp [cleared, returning, hk, Unwrap.quiet, quiet]
  | bufferStart =>
    simp only [hk, Option.some.injEq] at hs ok
    subst hs
    refine ⟨h, ?_⟩
    refine .recvBooked rfl rfl (fun _ => rfl) (by simp) ?_
    refine inv.recvMove rfl rfl rfl rfl rfl rfl ?_ ⟨ok, inv.start⟩ rfl ?_ ?_ inv.empty <;>
      simp [cleared, returning, hk, Unwrap.quiet, quiet]
  | testBuffer i =>
    simp only [hk, Option.some.injEq] at hs ok
    subst hs
    refine ⟨h, ?_⟩
    by_cases none : s.buffer i = 0
    · rw [if_pos none]
      exact inv.recvNull (by rw [hk]; rfl) (by simp [cleared, hk]) (by simp [returning, hk])
    · rw [if_neg none]
      refine .recvBooked rfl rfl (fun _ => rfl) (by simp) ?_
      refine inv.recvMove rfl rfl rfl rfl rfl rfl ?_ ok.1 rfl ?_ (fun h => by cases h) inv.empty <;>
        simp [cleared, returning, hk]
  | alloc =>
    simp only [hk, Option.some.injEq] at hs ok
    subst hs
    refine ⟨h, ?_⟩
    have buffer : ∀ i, Function.update s.base.mem.loc (.root tbr) 0 (.slot i) = s.buffer i := fun i =>
      Function.update_of_ne (by simp) _ _
    refine .recvBooked rfl rfl buffer (by simp) ?_
    refine inv.ofRecv rfl rfl rfl rfl inv.start le_rfl inv.le (inv.keptWindow buffer ?_)
      (fun _ => rfl) ok (inv.keptResults rfl ?_) (fun h => by cases h) inv.empty <;> simp [cleared, returning, hk]
  | linkStart k =>
    simp only [hk, Option.some.injEq] at hs ok
    subst hs
    refine ⟨h, ?_⟩
    refine .recvBooked rfl rfl (fun _ => rfl) (by simp) ?_
    refine inv.recvMove rfl rfl rfl rfl rfl rfl ?_ ⟨ok, inv.start⟩ rfl ?_ (fun h => by cases h) inv.empty <;>
      simp [cleared, returning, hk]
  | linkBuffer k i =>
    simp only [hk, Option.map_eq_some_iff] at hs ok
    obtain ⟨some, rfl⟩ := ok
    obtain ⟨b, hb, rfl⟩ := hs
    obtain ⟨idle, rfl⟩ := enter_eq_some hb
    have front := inv.front some (by simp [cleared, hk])
    refine ⟨h, ?_⟩
    refine .recvBooked rfl rfl (fun _ => rfl) (by simp) ?_
    refine inv.ofRecv rfl rfl rfl rfl inv.start le_rfl inv.le (inv.keptWindow (fun _ => rfl) ?_)
      (inv.sender_of_enter idle) ⟨some, _, Function.update_self _ _ _, rfl, rfl, front, by simp, by simp⟩
      (inv.keptResults rfl ?_) (fun h => by cases h) inv.empty <;> simp [cleared, returning, hk]
  | link k =>
    simp only [hk, Option.map_eq_some_iff] at hs ok
    obtain ⟨some, c, hc, func, ref, refed, notFree, done⟩ := ok
    obtain ⟨b, hb, rfl⟩ := hs
    rw [step_run_call hc, Option.some.injEq] at hb
    subst hb
    have last : c.last = false := by simp [Call.last, func]
    have sending := inv.sender_of_run weak hc (by rw [hk]; rfl)
    -- the link stores into a `RootRef`
    have buffer : ∀ i, (s.base.runCall p.receiver c weak).mem.loc (.slot i) = s.buffer i := by
      intro i
      rw [runCall_loc, ref]
      split
      · exact Function.update_of_ne (by simp) _ _
      · rfl
    refine ⟨h, ?_⟩
    by_cases ends : c.ends
    · have pc : c.pc = .bumpEra := ends.elim And.left fun free => absurd free notFree
      have loc : (s.base.runCall p.receiver c weak).mem.loc = s.base.mem.loc := by
        rw [runCall_loc, if_neg (by simp [pc])]
      simp only [runCall_ends s.base p.receiver weak ends, if_true]
      refine .recvBooked rfl rfl buffer (by simp) ?_
      refine inv.ofRecv rfl rfl rfl rfl inv.start le_rfl inv.le (inv.keptWindow buffer ?_) sending
        ⟨some, (congrFun loc _).trans (done pc)⟩ (inv.keptResults rfl ?_) (fun h => by cases h) inv.empty <;>
        simp [cleared, returning, hk]
    · obtain ⟨c', hc', func', ref', refed', bump, free⟩ :=
        runCall_next s.base p.receiver weak ends
      have notBump : c.pc ≠ .bumpEra := fun pc => ends (.inl ⟨pc, last⟩)
      simp only [hc', reduceCtorEq, if_false]
      refine .recvBooked rfl rfl buffer (by simp) ?_
      refine inv.ofRecv rfl rfl rfl rfl inv.start le_rfl inv.le (inv.keptWindow buffer ?_) sending
        ⟨some, c', hc', func'.trans func, ref'.trans ref, refed'.trans refed,
          fun h => notBump (free.1 h), fun pc' => ?_⟩ (inv.keptResults rfl ?_) (fun h => by cases h) inv.empty
      · simp [cleared, hk]
      · change (s.base.runCall p.receiver c weak).mem.loc (.root k) = _
        rw [runCall_loc, if_pos (bump.1 pc'), ref, Function.update_self, Call.newRef, func, refed]
        rfl
      · simp [returning, hk]
  | unlinkStart k =>
    simp only [hk, Option.some.injEq] at hs ok
    subst hs
    refine ⟨h, ?_⟩
    refine .recvBooked rfl rfl (fun _ => rfl) (by simp) ?_
    refine inv.recvMove rfl rfl rfl rfl rfl rfl ?_ ⟨ok.1, ok.2, inv.start⟩ rfl ?_ (fun h => by cases h) inv.empty <;>
      simp [cleared, returning, hk]
  | unlinkBuffer k i =>
    simp only [hk, Option.map_eq_some_iff] at hs ok
    obtain ⟨some, pptr, rfl⟩ := ok
    obtain ⟨b, hb, rfl⟩ := hs
    obtain ⟨idle, rfl⟩ := enter_eq_some hb
    refine ⟨h, ?_⟩
    refine .recvBooked rfl rfl (fun _ => rfl) (by simp) ?_
    refine inv.ofRecv rfl rfl rfl rfl inv.start le_rfl inv.le (inv.keptWindow (fun _ => rfl) ?_)
      (inv.sender_of_enter idle) ⟨some, pptr, _, Function.update_self _ _ _, rfl, rfl⟩
      (inv.keptResults rfl ?_) (fun h => by cases h) inv.empty <;>
      simp [cleared, returning, hk, CxlShm.State.setCtl, pastStore]
  | unlink k =>
    simp only [hk, Option.map_eq_some_iff] at hs ok
    obtain ⟨some, pptr, c, hc, func, ref⟩ := ok
    obtain ⟨b, hb, rfl⟩ := hs
    rw [step_run_call hc, Option.some.injEq] at hb
    subst hb
    have sending := inv.sender_of_run weak hc (by rw [hk]; rfl)
    -- the unlink stores into the slot
    have root : ∀ k, (s.base.runCall p.receiver c weak).mem.loc (.root k) = s.pptr k := by
      intro k
      rw [runCall_loc, ref]
      split
      · exact Function.update_of_ne (by simp) _ _
      · rfl
    refine ⟨h, .recvWrote ?_ fun w => ?_⟩
    · dsimp only
      split <;> simp
    by_cases ends : c.ends
    · have past : pastStore (.call c) = true := by
        rcases ends with ⟨pc, -⟩ | pc <;> simp [pastStore, pc]
      have loc : (s.base.runCall p.receiver c weak).mem.loc = s.base.mem.loc := by
        rw [runCall_loc, if_neg]
        rcases ends with ⟨pc, -⟩ | pc <;> simp [pc]
      simp only [runCall_ends s.base p.receiver weak ends, if_true]
      refine inv.ofRecv rfl rfl rfl rfl inv.start le_rfl inv.le
        (inv.keptWindow (fun _ => congrFun loc _) ?_) sending ⟨some, (root k).trans pptr⟩
        (inv.keptResults rfl ?_) (fun h => by cases h) inv.empty <;> simp [cleared, returning, hk, hc, past]
    · obtain ⟨c', hc', func', ref', -, bump, free⟩ :=
        runCall_next s.base p.receiver weak ends
      have recv : h < (sent s).length ∧ (s.base.runCall p.receiver c weak).mem.loc (.root k) =
          (sent s).getD h 0 ∧ ∃ c', (s.base.runCall p.receiver c weak).ctl p.receiver = .call c' ∧
            c'.func = .unlinkRef ∧ c'.ref = .slot (h % messageBufferSize) :=
        ⟨some, (root k).trans pptr, c', hc', func'.trans func, ref'.trans ref⟩
      simp only [hc', reduceCtorEq, if_false]
      by_cases pc : c.pc = .storeRef
      · -- the slot is cleared
        have before : cleared p s = false := by simp [cleared, hk, hc, pastStore, pc]
        have buffer : (fun i => (s.base.runCall p.receiver c weak).mem.loc (.slot i)) =
            Function.update s.buffer (h % messageBufferSize) 0 := by
          rw [runCall_loc, if_pos pc, ref, Call.newRef, func]
          exact buffer_update s _ 0
        refine inv.ofRecv rfl rfl rfl rfl inv.start le_rfl inv.le (inv.popWindow before ?_ some buffer)
          sending recv (inv.keptResults rfl ?_) (fun h => by cases h) inv.empty
        · simp [cleared, hc', pastStore, bump, pc]
        · simp [returning, hk]
      · have loc : (s.base.runCall p.receiver c weak).mem.loc = s.base.mem.loc := by
          rw [runCall_loc, if_neg pc]
        have notFree : c.pc ≠ .free := fun free => ends (.inr free)
        refine inv.ofRecv rfl rfl rfl rfl inv.start le_rfl inv.le
          (inv.keptWindow (fun _ => congrFun loc _) ?_) sending recv
          (inv.keptResults rfl ?_) (fun h => by cases h) inv.empty
        · simp [cleared, hk, hc, hc', pastStore, bump, pc, free, notFree]
        · simp [returning, hk]
  | loadStart k =>
    simp only [hk, Option.some.injEq] at hs ok
    subst hs
    refine ⟨h, ?_⟩
    refine .recvBooked rfl rfl (fun _ => rfl) (by simp) ?_
    refine inv.recvMove rfl rfl rfl rfl rfl rfl ?_ ⟨ok.1, ok.2, inv.start⟩ rfl ?_ (fun h => by cases h) inv.empty <;>
      simp [cleared, returning, hk]
  | storeStart k i =>
    simp only [hk, Option.some.injEq] at hs ok
    obtain ⟨some, pptr, rfl⟩ := ok
    subst hs
    refine ⟨h + 1, .recvWrote (by simp) fun w => ?_⟩
    refine inv.ofRecv rfl rfl rfl rfl ?_ (Nat.le_succ h) some ?_ (fun _ => rfl)
      ⟨Nat.succ_pos h, pptr⟩ ?_ (fun h => by cases h) inv.empty
    · simp only [messageBufferSize]
      omega
    · have window := inv.window
      simp only [cleared, hk, Bool.toNat_true] at window
      exact window
    · have results := inv.results
      simp only [returning, hk] at results
      exact results
  | loadPptr k =>
    simp only [hk, Option.some.injEq] at hs ok
    obtain ⟨pos, pptr⟩ := ok
    subst hs
    refine ⟨h, ?_⟩
    simp only [State.noteRecv]
    generalize (s.unwrapWrote || s.touched _) = w
    refine inv.ofRecv rfl rfl rfl rfl inv.start le_rfl inv.le (inv.keptWindow (fun _ => rfl) ?_)
      (fun _ => rfl) trivial ?_ (fun h => by cases h) ?_
    · simp [cleared, hk]
    · have results := inv.results
      have le := inv.le
      have more : received { s with receiver := .idle, unwraps := s.unwraps ++ [⟨some (s.pptr k), w⟩] } =
          received s ++ [s.pptr k] := by
        simp [received]
      simp only [returning, hk] at results
      refine more.trans ?_
      rw [results, pptr, returning, Nat.sub_zero]
      obtain ⟨n, rfl⟩ := Nat.exists_eq_succ_of_ne_zero pos.ne'
      rw [Nat.succ_eq_add_one, Nat.add_sub_cancel, List.take_add_one,
        List.getElem?_eq_getElem (by omega), Option.toList_some,
        List.getD_eq_getElem _ _ (by omega)]
    · intro r hr
      rcases List.mem_append.1 hr with old | new
      · exact inv.empty r old
      · rw [List.mem_singleton.1 new]
        simp

end Receiver

/-! ## Runs -/

/-- A step of somebody else. -/
theorem Fifo.others {p : Endpoints} {h : ℕ} {s : State} (inv : Fifo p h s) {a : CxlShm.Action QueueLoc}
    {b : CxlShm.State QueueLoc} (hb : s.base.step a = some b)
    (ok : Undisturbed p s (.others a) { s with base := b }) : Fifo p h { s with base := b } := by
  obtain ⟨notSender, notReceiver, buffer, pptr⟩ := ok
  have sending : s.sender.calling → b.ctl p.sender = s.base.ctl p.sender := fun calling =>
    ctl_of_other hb fun u hu same => by
      refine notSender ?_ (same ▸ hu)
      intro idle
      simp [idle, SendTo.calling] at calling
  have receiving : s.receiver.calling → b.ctl p.receiver = s.base.ctl p.receiver := fun calling =>
    ctl_of_other hb fun u hu same => by
      refine notReceiver ?_ (same ▸ hu)
      intro idle
      simp [idle, Unwrap.calling] at calling
  refine ⟨inv.start, inv.end_, inv.le, inv.lap, inv.nonzero, ?_,
    inv.send.frame inv.lap rfl rfl le_rfl sending,
    inv.recv.frame inv.le rfl (List.prefix_refl _) pptr receiving, inv.results, inv.sendQuiet,
    inv.recvQuiet, inv.refused, inv.empty⟩
  have sameStored : stored p { s with base := b } = stored p s := stored_congr rfl sending
  have sameCleared : cleared p { s with base := b } = cleared p s := cleared_congr rfl receiving
  rw [sameStored, sameCleared]
  exact inv.window.congr (fun i _ => buffer i) fun _ _ _ => rfl

theorem Fifo.step {p : Endpoints} {h : ℕ} {s s' : State} {a : Action} (inv : Fifo p h s)
    (hs : s.step p a = some s') (ok : Undisturbed p s a s') : ∃ h', Fifo p h' s' := by
  cases a with
  | sentTo r =>
    simp only [State.step] at hs
    split at hs <;> cases hs
    rename_i idle
    refine ⟨h, inv.sendMove rfl rfl rfl rfl rfl rfl rfl ?_ ?_ trivial (fun _ => rfl) inv.refused⟩ <;>
      simp [stored, idle.1]
  | unwrap =>
    simp only [State.step] at hs
    split at hs <;> cases hs
    rename_i idle
    refine ⟨h, inv.recvMove rfl rfl rfl rfl rfl rfl ?_ trivial rfl ?_ (fun _ => rfl) inv.empty⟩ <;>
      simp [cleared, returning, idle.1]
  | send weak =>
    simp only [State.step, Option.map_eq_some_iff] at hs
    obtain ⟨s₁, hs, rfl⟩ := hs
    exact ⟨h, inv.sendStep hs ok⟩
  | recv weak tbr =>
    simp only [State.step, Option.map_eq_some_iff] at hs
    obtain ⟨s₁, hs, rfl⟩ := hs
    exact inv.recvStep hs
  | others a =>
    simp only [State.step, Option.map_eq_some_iff] at hs
    obtain ⟨b, hb, rfl⟩ := hs
    exact ⟨h, inv.others hb ok⟩

theorem fifo_of_reachable {p : Endpoints} {s₀ s : State} (created : Created s₀)
    (h : Reachable (State.step p) (Undisturbed p) s₀ s) : ∃ n, Fifo p n s :=
  h.invariant (I := fun s => ∃ n, Fifo p n s) ⟨0, created.fifo p⟩
    fun _ _ _ ⟨_, inv⟩ hs ok => inv.step hs ok

/-- The slot that a `sent_to` call is about to store into is empty. -/
theorem Fifo.slot_empty {p : Endpoints} {h : ℕ} {s : State} (inv : Fifo p h s) {o : Offset}
    {c : Call QueueLoc} (sender : s.sender = .link o) (hc : s.base.ctl p.sender = .call c)
    (pc : c.pc = .storeRef) : s.base.mem.loc c.ref = 0 := by
  have send := inv.send
  unfold SendOk at send
  rw [sender] at send
  obtain ⟨-, room, c', hc', -, ref, -⟩ := send
  obtain rfl : c = c' := by simpa using hc.symm.trans hc'
  have before : stored p s = false := by simp [stored, sender, hc, pastStore, pc]
  rw [ref]
  exact inv.window.free (sent s).length (by simp [before])
    (by simp only [messageBufferSize]; omega)

/-- **First in, first out.**  At every moment the objects in the `RootRef`s that `cxl_unwrap` has
returned are a prefix of the objects of the `sent_to` calls that returned true; at most 15 messages
are in flight; `sent_to` stores into empty slots only; and a call that returns false or null has
changed neither a slot nor an index. -/
theorem received_prefix_sent {p : Endpoints} {s₀ s : State} (created : Created s₀)
    (h : Reachable (State.step p) (Undisturbed p) s₀ s) :
    received s <+: sent s ∧ inFlight s ≤ messageBufferSize - 1 ∧
      (∀ o c, s.sender = .link o → s.base.ctl p.sender = .call c → c.pc = .storeRef →
        s.base.mem.loc c.ref = 0) ∧
      (∀ r ∈ s.sends, r.ok = false → r.wrote = false) ∧
      ∀ r ∈ s.unwraps, r.result = none → r.wrote = false := by
  obtain ⟨n, inv⟩ := fifo_of_reachable created h
  refine ⟨?_, ?_, fun o c => inv.slot_empty, inv.refused, inv.empty⟩
  · rw [inv.results]
    exact List.take_prefix _ _
  · refine inv.window.card_le.trans ?_
    have send := inv.send
    have lap := inv.lap
    simp only [messageBufferSize]
    cases stores : stored p s with
    | false =>
      simp only [Bool.toNat_false]
      omega
    | true =>
      -- the message being stored is not yet counted by `q->end`, but there is room for it
      have room : (sent s).length < n + 15 := by
        unfold SendOk at send
        unfold stored at stores
        cases hs : s.sender <;> simp [hs] at send stores <;> omega
      simp only [Bool.toNat_true]
      omega

/-- One message through the queue: client 1 sends its object `8`, client 2 receives it. -/
theorem received_prefix_sent_one : ∃ s₀ s, Created s₀ ∧
    Reachable (State.step ⟨1, 2, 64⟩) (Undisturbed ⟨1, 2, 64⟩) s₀ s ∧ received s = [8] ∧
      received s <+: sent s := by
  let base : CxlShm.State QueueLoc :=
    { CxlShm.State.init with
      mem :=
        { refInfo := fun _ => packRefInfo 1 1 1
          eraArray := fun _ => 1
          loc := fun r => if r = .root 0 then 8 else 0
          redo := fun _ _ => none }
      ctl := fun t => if t = 1 ∨ t = 2 then .idle else .absent }
  let s₀ : State := ⟨base, 0, 0, 0, 0, 0, .idle, .idle, false, false, [], []⟩
  have created : Created s₀ := ⟨rfl, rfl, fun _ _ => rfl, rfl, rfl, rfl, rfl, rfl⟩
  let actions : List Action := .sentTo 0 :: List.replicate 15 (.send false) ++
    .unwrap :: List.replicate 31 (.recv false 1)
  let check : State → Action → State → Bool := fun s a _ =>
    match a with
    | .send _ => match s.sender with
      | .loadPptr r => s.pptr r ≠ 0
      | _ => true
    | .others _ => false
    | .sentTo _ | .unwrap | .recv _ _ => true
  have sound : ∀ s a s', True → State.step ⟨1, 2, 64⟩ s a = some s' → check s a s' = true →
      True ∧ Undisturbed ⟨1, 2, 64⟩ s a s' := by
    rintro s (r | _ | weak | ⟨weak, tbr⟩ | a) s' - - passed
    · exact ⟨trivial, trivial⟩
    · exact ⟨trivial, trivial⟩
    · refine ⟨trivial, fun r loading => ?_⟩
      simpa [check, loading] using passed
    · exact ⟨trivial, trivial⟩
    · cases passed
  have run : (checkedRun (State.step ⟨1, 2, 64⟩) check s₀ actions).any
      (fun s => received s = [8]) = true := by
    decide +kernel
  obtain ⟨s, hs, last⟩ := exists_reachable_of_checkedRun sound trivial run
  exact ⟨s₀, s, created, hs, by simpa using last, (received_prefix_sent created hs).1⟩

end CxlShm.Queue
