import CxlShm.Lib.Counting
import CxlShm.Lib.Reachability
import CxlShm.Reference.Machine

/-!
# Registration

A thread registers by claiming a thread-local state: `thread_init` goes through the vector from its
start and tries to exchange the id 0 of each slot for the thread's own packed id, and the monitor
gives the slot of a dead thread back by the opposite exchange.  Three facts that the scan does not
check are what exclusion and the bound on thread ids rest on (`registration_of_careful`): the packed
id of a thread is not 0, an exchange on a free slot does not fail, and never are more than
`MAX_THREAD` threads between the start of `thread_init` and their recovery.  Slots can be taken and
given back while a thread goes by, so that the scan has to be followed slot by slot: whoever scans at
slot `i` has at most `MAX_THREAD - i` threads, itself among them, at the slots from `i` on.
-/

namespace CxlShm.Registration

open Counting Reachability

/-- `pack_machine_process_id`, in 64 bits. -/
def packMachineProcessId (machineId processId : ℕ) : ℕ :=
  (machineId * 2 ^ 16 + processId) % 2 ^ 64

/-- What `get_mac` can return: six bytes, or -1 when there is no socket. -/
def IsMac (m : ℕ) : Prop := m < 2 ^ 48 ∨ m = 2 ^ 64 - 1

instance (m : ℕ) : Decidable (IsMac m) := inferInstanceAs (Decidable (_ ∨ _))

/-- The `tls_id` of the thread that `gettid` says is `tid`; the process id is cut to 16 bits. -/
def tlsId (machineId tid : ℕ) : ℕ := packMachineProcessId machineId (tid % 2 ^ 16)

/-- Where a thread is.  Slots are numbered from 0. -/
inductive Progress
  | outside
  /-- in the loop of `thread_init`, about to try the slot `i` -/
  | scanning (id i : ℕ)
  /-- in the rest of `thread_init` -/
  | claimed (i : ℕ)
  | returned (i : ℕ)
  /-- the monitor has given its slot back -/
  | recovered
  deriving DecidableEq, Repr

/-- The thread owns the slot `i`. -/
def Progress.holds (p : Progress) (i : ℕ) : Bool := p = .claimed i ∨ p = .returned i

/-- The thread is at one of the slots from `i` on: it scans there, or owns one of them. -/
def Progress.From (i : ℕ) : Progress → Prop
  | .scanning _ j | .claimed j | .returned j => i ≤ j
  | .outside | .recovered => False

/-- The thread is between the start of `thread_init` and its recovery. -/
def Progress.Present (p : Progress) : Prop := p ≠ .outside ∧ p ≠ .recovered

/-- `tls_offset` of the slot `i`. -/
def tlsOffset (i : ℕ) : ℕ := threadLocalVecStart + i * sizeofThreadLocalState

/-- `thread_id`, computed from `tls_offset`. -/
def threadId (i : ℕ) : ℕ := (tlsOffset i - threadLocalVecStart) / sizeofThreadLocalState + 1

/-- `packed_machine_process_id` of each slot, the threads, and the slot that the monitor is
recovering with the id it has read there. -/
structure State where
  packedId : ℕ → ℕ
  thread : ℕ → Progress
  monitor : Option (ℕ × ℕ)

/-- Zeroed memory. -/
def State.init : State where
  packedId _ := 0
  thread _ := .outside
  monitor := none

inductive Action
  /-- thread `a` calls `thread_init` -/
  | threadInit (a machineId tid : ℕ)
  /-- `compare_exchange_weak(tls_no_use, tls_id)` of thread `a`, which may fail for no reason -/
  | cas (a : ℕ) (weak : Bool)
  /-- the rest of `thread_init` -/
  | finish (a : ℕ)
  /-- the monitor finds slot `i` in use and begins to recover its thread -/
  | check (i : ℕ)
  /-- the last loop of `recovery_garbage_collection` -/
  | release (weak : Bool)
  deriving DecidableEq, Repr

namespace State

variable (s : State)

def setThread (a : ℕ) (p : Progress) : State :=
  { s with thread := Function.update s.thread a p }

/-- The step function. -/
def step : Action → Option State
  | .threadInit a machineId tid =>
    if s.thread a = .outside ∧ IsMac machineId ∧ 0 < tid then
      some (s.setThread a (.scanning (tlsId machineId tid) 0))
    else none
  | .cas a weak =>
    match s.thread a with
    | .scanning id i =>
      if s.packedId i = 0 ∧ weak = false then
        some ({ s with packedId := Function.update s.packedId i id }.setThread a (.claimed i))
      else some (s.setThread a (.scanning id (i + 1)))
    | _ => none
  | .finish a =>
    match s.thread a with
    | .claimed i => some (s.setThread a (.returned i))
    | _ => none
  | .check i =>
    if s.monitor = none ∧ i < maxThread ∧ s.packedId i ≠ 0 then
      some { s with monitor := some (i, s.packedId i) }
    else none
  | .release weak =>
    match s.monitor with
    | some (i, id) =>
      if s.packedId i = id ∧ weak = false then
        some { packedId := Function.update s.packedId i 0
               thread := fun a => if (s.thread a).holds i then .recovered else s.thread a
               monitor := none }
      else some s
    | none => none

end State

/-- No two threads that have returned hold the same slot. -/
def Exclusive (s : State) : Prop :=
  ∀ a b i j, s.thread a = .returned i → s.thread b = .returned j → tlsOffset i = tlsOffset j → a = b

/-- Returned ids are those of the era array, and the slots are slots of the vector. -/
def InRange (s : State) : Prop :=
  ∀ a i, s.thread a = .returned i → (1 ≤ threadId i ∧ threadId i ≤ maxThread) ∧
    (0 ≤ eraIndex (threadId i) (threadId i) ∧
      eraIndex (threadId i) (threadId i) < maxThread * maxThread) ∧
    tlsOffset i + sizeofThreadLocalState ≤ threadLocalVecStart + maxThread * sizeofThreadLocalState

/-- A thread's packed id is not the one of a free slot, at most `MAX_THREAD` threads are there at a
time, and no exchange fails for no reason. -/
def Careful (_ : State) : Action → State → Prop
  | .threadInit _ machineId tid, s' =>
    tlsId machineId tid ≠ 0 ∧ count Progress.Present s'.thread ≤ maxThread
  | .cas _ weak, _ => weak = false
  | .finish _, _ | .check _, _ | .release _, _ => True

/-! ## Slots and ids -/

@[simp] theorem threadId_eq (i : ℕ) : threadId i = i + 1 := by
  simp [threadId, tlsOffset, sizeofThreadLocalState]

theorem tlsOffset_inj {i j : ℕ} (h : tlsOffset i = tlsOffset j) : i = j := by
  have := congrArg (fun o => (o - threadLocalVecStart) / sizeofThreadLocalState + 1) h
  change threadId i = threadId j at this
  simpa using this

/-- An id of the range addresses the era array and the vector. -/
theorem inRange_of_lt {i : ℕ} (h : i < maxThread) : (1 ≤ threadId i ∧ threadId i ≤ maxThread) ∧
    (0 ≤ eraIndex (threadId i) (threadId i) ∧
      eraIndex (threadId i) (threadId i) < maxThread * maxThread) ∧
    tlsOffset i + sizeofThreadLocalState ≤
      threadLocalVecStart + maxThread * sizeofThreadLocalState := by
  rw [threadId_eq]
  have row : eraIndex (i + 1) (i + 1) = i * 1024 + i := by
    simp [eraIndex, maxThread]
  rw [row]
  simp only [tlsOffset, maxThread, sizeofThreadLocalState] at h ⊢
  omega

/-! ## One step -/

theorem holds_iff {p : Progress} {i : ℕ} : p.holds i = true ↔ p = .claimed i ∨ p = .returned i := by
  simp [Progress.holds]

theorem from_zero {p : Progress} : p.From 0 ↔ p.Present := by
  cases p <;> simp [Progress.From, Progress.Present]

theorem Progress.From.mono {p : Progress} {i j : ℕ} (h : p.From j) (before : i ≤ j) : p.From i := by
  cases p with
  | outside => exact h
  | recovered => exact h
  | scanning id k => exact before.trans h
  | claimed k => exact before.trans h
  | returned k => exact before.trans h

theorem from_of_holds {p : Progress} {i j : ℕ} (h : p.holds j) : p.From i ↔ i ≤ j := by
  rcases holds_iff.1 h with rfl | rfl <;> exact Iff.rfl

theorem claimed_holds {i j : ℕ} : (Progress.claimed i).holds j = true ↔ j = i := by
  simp [Progress.holds, eq_comm]

/-- Each slot is marked exactly while it has a holder, and has one only; the ids that will be written
are marks. -/
structure Owned (s : State) : Prop where
  marked : ∀ i, s.packedId i ≠ 0 ↔ ∃ a, (s.thread a).holds i
  unique : ∀ a b i, (s.thread a).holds i → (s.thread b).holds i → a = b
  mark : ∀ a id i, s.thread a = .scanning id i → id ≠ 0

/-- Whoever scans at slot `i` finds a free one from there on. -/
structure Spaced (thread : ℕ → Progress) : Prop where
  finite : FiniteOn (Progress.From 0) thread
  room : ∀ a id j i, thread a = .scanning id j → i ≤ j →
    count (Progress.From i) thread + i ≤ maxThread
  bound : ∀ a i, (thread a).holds i → i < maxThread

theorem owned_init : Owned State.init := by
  constructor <;> simp [State.init, Progress.holds]

theorem spaced_init : Spaced State.init.thread where
  finite := by simp [FiniteOn, State.init, Progress.From]
  room a id j i scanning := by cases scanning
  bound a i held := by cases held

namespace Spaced

variable {thread thread' : ℕ → Progress} {a b id j : ℕ} {p : Progress}

theorem finiteOn (h : Spaced thread) (i : ℕ) : FiniteOn (Progress.From i) thread :=
  h.finite.mono fun _ here => here.mono (Nat.zero_le i)

/-- No thread gets ahead, and none begins to scan. -/
theorem of_le (h : Spaced thread) (less : ∀ a i, (thread' a).From i → (thread a).From i)
    (scans : ∀ a id j, thread' a = .scanning id j → thread a = .scanning id j)
    (bound : ∀ a i, (thread' a).holds i → i < maxThread) : Spaced thread' where
  finite := Set.Finite.subset h.finite fun a here => less a 0 here
  room a id j i scanning before := by
    have fewer : count (Progress.From i) thread' ≤ count (Progress.From i) thread :=
      count_le_of_injOn (h.finiteOn i) (fun a => a) (fun a here => less a i here)
        fun _ _ _ _ same => same
    have room := h.room a id j i (scans a id j scanning) before
    omega
  bound := bound

/-- A thread starts at slot 0. -/
theorem start (h : Spaced thread) (outside : thread a = .outside)
    (few : count Progress.Present (Function.update thread a (.scanning id 0)) ≤ maxThread) :
    Spaced (Function.update thread a (.scanning id 0)) where
  finite := h.finite.update a _
  room b id' j i scanning before := by
    by_cases first : i = 0
    · rw [first, count_congr fun a => from_zero]
      exact few
    · have other : b ≠ a := by
        rintro rfl
        rw [Function.update_self] at scanning
        cases scanning
        omega
      rw [Function.update_of_ne other] at scanning
      have same : (Progress.scanning id 0).From i ↔ (thread a).From i := by
        rw [outside]
        exact iff_of_false (fun here => first (Nat.le_zero.1 here)) fun absurd => absurd
      rw [count_update_of_iff same]
      exact h.room b id' j i scanning before
  bound b i held := by
    by_cases same : b = a
    · subst same
      rw [Function.update_self] at held
      cases held
    · rw [Function.update_of_ne same] at held
      exact h.bound b i held

/-- A thread goes on to the next slot, because slot `j` has a holder: this one it leaves behind. -/
theorem pass (h : Spaced thread) (scanning : thread a = .scanning id j) (held : (thread b).holds j) :
    Spaced (Function.update thread a (.scanning id (j + 1))) where
  finite := h.finite.update a _
  room c id' k i scanning' before := by
    have ahead : ∀ x, (Function.update thread a (.scanning id (j + 1)) x).From i →
        i ≤ j + 1 → (thread x).From (min i j) := by
      intro x here small
      by_cases same : x = a
      · subst same
        rw [scanning]
        exact Nat.min_le_right i j
      · rw [Function.update_of_ne same] at here
        exact here.mono (Nat.min_le_left i j)
    rcases Nat.lt_trichotomy i (j + 1) with below | here | above
    · -- nothing changes for the slots up to `j`
      have same : (Progress.scanning id (j + 1)).From i ↔ (thread a).From i := by
        rw [scanning]
        exact iff_of_true (Nat.le_of_lt below) (Nat.le_of_lt_succ below)
      rw [count_update_of_iff same]
      exact h.room a id j i scanning (Nat.le_of_lt_succ below)
    · subst here
      have fewer : count (Progress.From (j + 1)) (Function.update thread a (.scanning id (j + 1))) <
          count (Progress.From j) thread := by
        refine count_lt_of_injOn (h.finiteOn j) (fun x => x) ?_ (fun _ _ _ _ same => same)
          ((from_of_holds held).2 le_rfl) ?_
        · intro x later
          have from_j := ahead x later le_rfl
          rwa [Nat.min_eq_right (Nat.le_succ j)] at from_j
        · rintro x later rfl
          have other : x ≠ a := by
            rintro rfl
            rw [scanning] at held
            cases held
          rw [Function.update_of_ne other, from_of_holds held] at later
          omega
      have room := h.room a id j j scanning le_rfl
      omega
    · have other : c ≠ a := by
        rintro rfl
        rw [Function.update_self] at scanning'
        cases scanning'
        omega
      rw [Function.update_of_ne other] at scanning'
      have same : (Progress.scanning id (j + 1)).From i ↔ (thread a).From i := by
        rw [scanning]
        exact iff_of_false (Nat.not_le.2 above) (Nat.not_le.2 (by omega))
      rw [count_update_of_iff same]
      exact h.room c id' k i scanning' before
  bound c i held' := by
    by_cases same : c = a
    · subst same
      rw [Function.update_self] at held'
      cases held'
    · rw [Function.update_of_ne same] at held'
      exact h.bound c i held'

/-- A thread does not scan beyond the vector. -/
theorem inside (h : Spaced thread) (scanning : thread a = .scanning id j) : j < maxThread := by
  have room := h.room a id j j scanning le_rfl
  have here : (thread a).From j := by
    rw [scanning]
    exact le_refl j
  have some := count_pos (h.finiteOn j) here
  omega

/-- A thread stops scanning at a slot, or goes on from there. -/
theorem settle (h : Spaced thread) (less : ∀ i, p.From i → (thread a).From i)
    (stays : ∀ id j, p ≠ .scanning id j) (bound : ∀ i, p.holds i → i < maxThread) :
    Spaced (Function.update thread a p) := by
  apply h.of_le
  · intro b i here
    by_cases same : b = a
    · subst same
      rw [Function.update_self] at here
      exact less i here
    · rwa [Function.update_of_ne same] at here
  · intro b id j scanning
    by_cases same : b = a
    · subst same
      rw [Function.update_self] at scanning
      exact absurd scanning (stays id j)
    · rwa [Function.update_of_ne same] at scanning
  · intro b i held
    by_cases same : b = a
    · subst same
      rw [Function.update_self] at held
      exact bound i held
    · rw [Function.update_of_ne same] at held
      exact h.bound b i held

/-- Threads whose slots are given back. -/
theorem release (h : Spaced thread) (i : ℕ) :
    Spaced fun a => if (thread a).holds i then .recovered else thread a := by
  apply h.of_le
  · intro a k here
    by_cases gone : (thread a).holds i
    · rw [if_pos gone] at here
      cases here
    · rwa [if_neg gone] at here
  · intro a id j scanning
    by_cases gone : (thread a).holds i
    · rw [if_pos gone] at scanning
      cases scanning
    · rwa [if_neg gone] at scanning
  · intro a k held
    by_cases gone : (thread a).holds i
    · rw [if_pos gone] at held
      cases held
    · rw [if_neg gone] at held
      exact h.bound a k held

end Spaced

section Step

variable {s s' : State}

/-- A thread that moves without taking a slot. -/
theorem Owned.setThread (hs : Owned s) {a : ℕ} {p : Progress}
    (keeps : ∀ i, p.holds i = (s.thread a).holds i) (mark : ∀ id i, p = .scanning id i → id ≠ 0) :
    Owned (s.setThread a p) := by
  have same : ∀ b i, ((s.setThread a p).thread b).holds i = (s.thread b).holds i := by
    intro b i
    by_cases same : b = a
    · subst same
      simpa [State.setThread] using keeps i
    · simp [State.setThread, same]
  refine ⟨fun i => ?_, fun b c i hb hc => ?_, fun b id i scanning => ?_⟩
  · simp only [same]
    exact hs.marked i
  · rw [same] at hb hc
    exact hs.unique b c i hb hc
  · by_cases same : b = a
    · subst same
      exact mark id i (by simpa [State.setThread] using scanning)
    · exact hs.mark b id i (by simpa [State.setThread, same] using scanning)

/-- A free slot is taken. -/
theorem Owned.claim (hs : Owned s) {a id i : ℕ} (scanning : s.thread a = .scanning id i)
    (free : s.packedId i = 0) :
    Owned ({ s with packedId := Function.update s.packedId i id }.setThread a (.claimed i)) := by
  have only : ∀ b j, ((({ s with packedId := Function.update s.packedId i id } : State).setThread a
      (.claimed i)).thread b).holds j ↔ b = a ∧ j = i ∨ b ≠ a ∧ j ≠ i ∧ (s.thread b).holds j := by
    intro b j
    by_cases same : b = a
    · subst same
      simp only [State.setThread, Function.update_self, claimed_holds, true_and, ne_eq, not_true,
        false_and, or_false]
    · have apart : (s.thread b).holds j → j ≠ i := by
        rintro held rfl
        exact absurd free ((hs.marked j).2 ⟨b, held⟩)
      simpa [State.setThread, same] using apart
  constructor
  · intro j
    by_cases here : j = i
    · subst here
      refine iff_of_true ?_ ⟨a, (only a j).2 (.inl ⟨rfl, rfl⟩)⟩
      simpa [State.setThread] using hs.mark a id j scanning
    · have kept : ∀ b, (s.thread b).holds j → b ≠ a := by
        rintro b held rfl
        rw [scanning] at held
        cases held
      simp only [State.setThread, ne_eq, here, not_false_eq_true, Function.update_of_ne]
      rw [← ne_eq, hs.marked j]
      constructor
      · rintro ⟨b, held⟩
        exact ⟨b, (only b j).2 (.inr ⟨kept b held, here, held⟩)⟩
      · rintro ⟨b, held⟩
        rcases (only b j).1 held with ⟨-, same⟩ | ⟨-, -, before⟩
        · exact absurd same here
        · exact ⟨b, before⟩
  · intro b c j hb hc
    rcases (only b j).1 hb with ⟨rfl, rfl⟩ | ⟨-, other, before⟩
    · rcases (only c j).1 hc with ⟨rfl, -⟩ | ⟨-, other, -⟩
      · rfl
      · exact absurd rfl other
    · rcases (only c j).1 hc with ⟨-, same⟩ | ⟨-, -, before'⟩
      · exact absurd same other
      · exact hs.unique b c j before before'
  · intro b id' j scan
    by_cases same : b = a
    · subst same
      simp [State.setThread] at scan
    · exact hs.mark b id' j (by simpa [State.setThread, same] using scan)

/-- A slot is given back. -/
theorem Owned.release (hs : Owned s) (i : ℕ) (m : Option (ℕ × ℕ)) :
    Owned { packedId := Function.update s.packedId i 0
            thread := fun a => if (s.thread a).holds i then .recovered else s.thread a
            monitor := m } := by
  have one : ∀ {p : Progress} {j : ℕ}, p.holds i → p.holds j → j = i := by
    intro p j hi hj
    rcases holds_iff.1 hi with rfl | rfl <;> simpa [Progress.holds, eq_comm] using hj
  have rest : ∀ a j, (if (s.thread a).holds i then Progress.recovered else s.thread a).holds j ↔
      j ≠ i ∧ (s.thread a).holds j := by
    intro a j
    by_cases gone : (s.thread a).holds i
    · rw [if_pos gone]
      refine iff_of_false (by simp [Progress.holds]) fun both => both.1 (one gone both.2)
    · rw [if_neg gone]
      exact ⟨fun held => ⟨fun same => gone (same ▸ held), held⟩, fun both => both.2⟩
  constructor
  · intro j
    simp only [rest]
    by_cases here : j = i
    · simp [here]
    · simpa [here] using hs.marked j
  · intro a b j ha hb
    exact hs.unique a b j ((rest a j).1 ha).2 ((rest b j).1 hb).2
  · intro a id j scanning
    by_cases gone : (s.thread a).holds i
    · simp [gone] at scanning
    · exact hs.mark a id j (by simpa [gone] using scanning)

/-- One step of a careful run. -/
theorem Owned.step (hs : Owned s) (space : Spaced s.thread) {a : Action} (step : s.step a = some s')
    (careful : Careful s a s') : Owned s' ∧ Spaced s'.thread := by
  cases a with
  | threadInit a m tid =>
    simp only [State.step, Option.ite_none_right_eq_some, Option.some.injEq] at step
    obtain ⟨⟨outside, -⟩, rfl⟩ := step
    obtain ⟨mark, few⟩ := careful
    constructor
    · apply hs.setThread
      · simp [Progress.holds, outside]
      · rintro id i ⟨⟩
        exact mark
    · exact space.start outside few
  | cas a weak =>
    obtain rfl : weak = false := careful
    simp only [State.step] at step
    split at step
    · rename_i id i scanning
      split_ifs at step with free <;> cases step
      · refine ⟨hs.claim scanning free.1, space.settle ?_ (by simp) ?_⟩
        · intro k here
          rw [scanning]
          exact here
        · rintro k held
          obtain rfl := claimed_holds.1 held
          exact space.inside scanning
      · have taken : s.packedId i ≠ 0 := fun none => free ⟨none, trivial⟩
        obtain ⟨b, held⟩ := (hs.marked i).1 taken
        refine ⟨hs.setThread ?_ ?_, space.pass scanning held⟩
        · simp [Progress.holds, scanning]
        · rintro id' j ⟨⟩
          exact hs.mark a id i scanning
    · cases step
  | finish a =>
    simp only [State.step] at step
    split at step
    · rename_i i claimed
      cases step
      refine ⟨hs.setThread ?_ (by simp), space.settle ?_ (by simp) ?_⟩
      · simp [Progress.holds, claimed]
      · intro k here
        rw [claimed]
        exact here
      · intro k held
        apply space.bound a k
        rw [claimed]
        simpa [Progress.holds] using held
    · cases step
  | check i =>
    simp only [State.step, Option.ite_none_right_eq_some, Option.some.injEq] at step
    obtain ⟨-, rfl⟩ := step
    exact ⟨⟨hs.marked, hs.unique, hs.mark⟩, space⟩
  | release weak =>
    simp only [State.step] at step
    split at step
    · rename_i i id _
      split_ifs at step <;> cases step
      · exact ⟨hs.release i none, space.release i⟩
      · exact ⟨hs, space⟩
    · cases step

end Step

/-! ## Runs -/

/-- Threads have slots of their own and ids in range, in every state of every run in which no packed
id is 0, no exchange fails for no reason, and at most `MAX_THREAD` threads are there at a time. -/
theorem registration_of_careful {s : State} (h : Reachable State.step Careful State.init s) :
    Exclusive s ∧ InRange s := by
  have both : Owned s ∧ Spaced s.thread := h.invariant (I := fun s => Owned s ∧ Spaced s.thread)
    ⟨owned_init, spaced_init⟩ fun _ _ _ before step careful => before.1.step before.2 step careful
  constructor
  · intro a b i j ha hb same
    obtain rfl := tlsOffset_inj same
    exact both.1.unique a b i (holds_iff.2 (.inr ha)) (holds_iff.2 (.inr hb))
  · intro a i returned
    exact inRange_of_lt (both.2.bound a i (holds_iff.2 (.inr returned)))

/-- `Careful`, computed, for the threads 0, 1 and 2. -/
def threeCheck (_ : State) (a : Action) (_ : State) : Bool :=
  match a with
  | .threadInit a machineId tid => tlsId machineId tid ≠ 0 ∧ a < 3
  | .cas _ weak => weak = false
  | .finish _ | .check _ | .release _ => true

/-- The other threads do not start. -/
theorem careful_of_threeCheck {s s' : State} {a : Action} (rest : ∀ x ≥ 3, s.thread x = .outside)
    (step : s.step a = some s') (passed : threeCheck s a s' = true) :
    (∀ x ≥ 3, s'.thread x = .outside) ∧ Careful s a s' := by
  have still : ∀ x ≥ 3, s'.thread x = .outside := by
    intro x other
    have before := rest x other
    cases a with
    | threadInit a m tid =>
      simp only [State.step, Option.ite_none_right_eq_some, Option.some.injEq] at step
      obtain ⟨-, rfl⟩ := step
      have small := (of_decide_eq_true passed).2
      simpa [State.setThread, show x ≠ a by omega] using before
    | cas a weak =>
      have self : x ≠ a ∨ s.step (.cas a weak) = none := by
        by_cases same : x = a
        · subst same
          simp [State.step, before]
        · exact .inl same
      have other := self.resolve_right (by simp [step])
      simp only [State.step] at step
      split at step
      · split_ifs at step <;> cases step <;> simpa [State.setThread, other] using before
      · cases step
    | finish a =>
      have self : x ≠ a ∨ s.step (.finish a) = none := by
        by_cases same : x = a
        · subst same
          simp [State.step, before]
        · exact .inl same
      have other := self.resolve_right (by simp [step])
      simp only [State.step] at step
      split at step <;> cases step
      simpa [State.setThread, other] using before
    | check i =>
      simp only [State.step, Option.ite_none_right_eq_some, Option.some.injEq] at step
      obtain ⟨-, rfl⟩ := step
      exact before
    | release weak =>
      simp only [State.step] at step
      split at step
      · split_ifs at step <;> cases step
        · simp [before, Progress.holds]
        · exact before
      · cases step
  refine ⟨still, ?_⟩
  cases a with
  | threadInit a m tid =>
    refine ⟨(of_decide_eq_true passed).1, ?_⟩
    have subset : {x | (s'.thread x).Present} ⊆ (Finset.range 3 : Set ℕ) := by
      intro x present
      by_contra outside
      have other : 3 ≤ x := by simpa using outside
      exact present.1 (still x other)
    have few := Set.ncard_le_ncard subset (Finset.finite_toSet _)
    rw [Set.ncard_coe_finset, Finset.card_range] at few
    exact few.trans (by decide)
  | cas a weak => exact of_decide_eq_true (p := weak = false) passed
  | finish a => trivial
  | check i => trivial
  | release weak => trivial

/-- The threads 0 and 1 register at the same time, the monitor recovers thread 0, and thread 2 gets its
slot. -/
theorem registration_of_three : ∃ s, Reachable State.step Careful State.init s ∧
    (s.thread 0 = .recovered ∧ s.thread 1 = .returned 1 ∧ s.thread 2 = .returned 0) ∧
    Exclusive s ∧ InRange s := by
  have run : (checkedRun State.step threeCheck State.init
      [.threadInit 0 0 1, .threadInit 1 0 2, .cas 0 false, .cas 1 false, .cas 1 false, .finish 0,
        .finish 1, .check 0, .release false, .threadInit 2 0 3, .cas 2 false, .finish 2]).any
      (fun s => s.thread 0 = .recovered ∧ s.thread 1 = .returned 1 ∧ s.thread 2 = .returned 0) =
      true := by
    decide
  obtain ⟨s, reached, last⟩ := exists_reachable_of_checkedRun
    (J := fun s => ∀ x ≥ 3, s.thread x = .outside)
    (fun _ _ _ rest step passed => careful_of_threeCheck rest step passed) (fun _ _ => rfl) run
  exact ⟨s, reached, of_decide_eq_true last, registration_of_careful reached⟩

/-! ## More threads than slots -/

/-- Any run. -/
def Anyhow (_ : State) (_ : Action) (_ : State) : Prop := True

/-- The first `n` slots are taken, and the threads from `n` on have not started. -/
structure Filled (n : ℕ) (s : State) : Prop where
  reached : Reachable State.step Anyhow State.init s
  taken : ∀ i < n, s.packedId i ≠ 0
  free : ∀ i, n ≤ i → s.packedId i = 0
  outside : ∀ a, n ≤ a → s.thread a = .outside

/-- The scan passes the slots that are taken. -/
theorem Filled.scan {n : ℕ} {s : State} (hs : Filled n s) {i : ℕ} (hi : i ≤ n) :
    Reachable State.step Anyhow State.init (s.setThread n (.scanning 1 i)) := by
  induction i with
  | zero =>
    refine hs.reached.next (a := .threadInit n 0 1) ?_ trivial
    simp [State.step, hs.outside n le_rfl, IsMac, tlsId, packMachineProcessId]
  | succ i ih =>
    refine (ih (by omega)).next (a := .cas n false) ?_ trivial
    simp [State.step, State.setThread, hs.taken i hi]

/-- The thread `n` takes the slot `n`. -/
theorem Filled.register {n : ℕ} {s : State} (hs : Filled n s) :
    ∃ s', Filled (n + 1) s' ∧ s'.thread n = .returned n := by
  have claim : Reachable State.step Anyhow State.init
      ({ s with packedId := Function.update s.packedId n 1 }.setThread n (.claimed n)) :=
    (hs.scan le_rfl).next (a := .cas n false)
      (by simp [State.step, State.setThread, hs.free n le_rfl]) trivial
  have finish : Reachable State.step Anyhow State.init
      ({ s with packedId := Function.update s.packedId n 1 }.setThread n (.returned n)) :=
    claim.next (a := .finish n) (by simp [State.step, State.setThread]) trivial
  refine ⟨_, ⟨finish, ?_, ?_, ?_⟩, by simp [State.setThread]⟩
  · intro i hi
    by_cases same : i = n
    · simp [State.setThread, same]
    · simpa [State.setThread, same] using hs.taken i (by omega)
  · intro i hi
    simpa [State.setThread, show i ≠ n by omega] using hs.free i (by omega)
  · intro a ha
    simpa [State.setThread, show a ≠ n by omega] using hs.outside a (by omega)

theorem exists_filled (n : ℕ) : ∃ s, Filled n s := by
  induction n with
  | zero => exact ⟨State.init, .start, by simp, fun _ _ => rfl, fun _ _ => rfl⟩
  | succ n ih =>
    obtain ⟨s, hs⟩ := ih
    obtain ⟨s', hs', -⟩ := hs.register
    exact ⟨s', hs'⟩

/-- Two threads whose `gettid` is a multiple of 65536, on machines where `get_mac` returns 0, hold
the same slot; and the thread that registers after 1024 others gets an id beyond `MAX_THREAD`. -/
theorem shared_or_out_of_range :
    (¬ ∀ s, Reachable State.step Anyhow State.init s → Exclusive s) ∧
      ¬ ∀ s, Reachable State.step Anyhow State.init s → InRange s := by
  constructor
  · intro exclusive
    have run : (checkedRun State.step (fun _ _ _ => true) State.init
        [.threadInit 0 0 65536, .cas 0 false, .finish 0,
          .threadInit 1 0 131072, .cas 1 false, .finish 1]).any
        (fun s => s.thread 0 = .returned 0 ∧ s.thread 1 = .returned 0) = true := by
      decide
    have sound : ∀ s a s', True → State.step s a = some s' → true = true → True ∧ Anyhow s a s' :=
      fun _ _ _ _ _ _ => ⟨trivial, trivial⟩
    obtain ⟨s, hs, both⟩ := exists_reachable_of_checkedRun sound trivial run
    simp only [decide_eq_true_eq] at both
    exact absurd (exclusive s hs 0 1 0 0 both.1 both.2 rfl) (by decide)
  · intro inRange
    obtain ⟨s, hs⟩ := exists_filled maxThread
    obtain ⟨s', hs', returned⟩ := hs.register
    have bound := (inRange s' hs'.reached maxThread maxThread returned).1.2
    simp at bound

end CxlShm.Registration
