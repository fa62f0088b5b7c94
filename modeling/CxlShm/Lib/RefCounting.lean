import CxlShm.Lib.Counting

/-!
# Reference counting with deferred stores

Threads raise and lower the count of an object in one atomic step and update the location that
holds the reference in a later one.  Between the two the count and the locations disagree by the
number of threads that are in between; `Inv.balance` is the exact equation, for any number of
threads, locations and objects.  An object ends its life when its count reaches zero; the thread
that lowered it last drops it, once (`Inv.dropper`, `Life.next`).
-/

namespace RefCounting

open Counting

/-- Where a thread stands with respect to one reference.  `last` records that the thread took the
count to zero, `stored` that the location of a new object is already written. -/
inductive Phase (L O : Type*)
  | idle
  | linking (r : L) (o : O)
  | linked (r : L) (o : O)
  | unlinking (r : L) (o : O)
  | unlinked (r : L) (o : O) (last : Bool)
  | dropping (o : O)
  | creating (r : L) (o : O) (stored : Bool)

/-- Counts, liveness, contents of the locations, and the phase of each thread. -/
structure State (T L O : Type*) where
  count : O → ℕ
  live : O → Prop
  loc : L → Option O
  phase : T → Phase L O

/-- What an observer of one object's life sees. -/
inductive Event (T O : Type*)
  | create (t : T) (o : O)
  | last (t : T) (o : O)
  | drop (t : T) (o : O)

variable {T L O : Type*}

namespace Phase

/-- The location a thread has reserved: nobody else starts on it before the store. -/
def claims (r : L) : Phase L O → Prop
  | linking r' _ | linked r' _ | unlinking r' _ | unlinked r' _ _ | creating r' _ _ => r' = r
  | idle | dropping _ => False

/-- The count of `o` is raised, the location not yet stored. -/
def Raised (o : O) : Phase L O → Prop
  | linked _ o' => o' = o
  | _ => False

/-- The location holds `o` but stands for no counted reference. -/
def Pinned (o : O) : Phase L O → Prop
  | unlinked _ o' _ => o' = o
  | creating _ o' stored => o' = o ∧ stored = true
  | _ => False

/-- The thread took the count of `o` to zero and has yet to drop `o`. -/
def Drops (o : O) : Phase L O → Prop
  | unlinked _ o' last => o' = o ∧ last = true
  | dropping o' => o' = o
  | _ => False

/-- The thread is building `o`. -/
def Creates (o : O) : Phase L O → Prop
  | creating _ o' _ => o' = o
  | _ => False

/-- What the reserved location holds. -/
def Expects (loc : L → Option O) : Phase L O → Prop
  | linking r _ | linked r _ => loc r = none
  | unlinking r o | unlinked r o _ => loc r = some o
  | creating r o stored => loc r = if stored then some o else none
  | idle | dropping _ => True

end Phase

/-- No thread has reserved `r`. -/
def Free (s : State T L O) (r : L) : Prop := ∀ t, ¬ (s.phase t).claims r

section Step

variable [DecidableEq T] [DecidableEq L] [DecidableEq O]

/-- One step, with what an observer of lives sees of it. -/
inductive Step : State T L O → Option (Event T O) → State T L O → Prop
  | beginLink {s t r o} : s.phase t = .idle → s.loc r = none → Free s r →
      Step s none { s with phase := Function.update s.phase t (.linking r o) }
  | raise {s t r o} : s.phase t = .linking r o → s.live o → 0 < s.count o →
      Step s none { s with
        count := Function.update s.count o (s.count o + 1)
        phase := Function.update s.phase t (.linked r o) }
  | store {s t r o} : s.phase t = .linked r o →
      Step s none { s with
        loc := Function.update s.loc r (some o)
        phase := Function.update s.phase t .idle }
  | beginUnlink {s t r o} : s.phase t = .idle → s.loc r = some o → Free s r →
      Step s none { s with phase := Function.update s.phase t (.unlinking r o) }
  | lower {s t r o} : s.phase t = .unlinking r o → s.count o ≠ 1 →
      Step s none { s with
        count := Function.update s.count o (s.count o - 1)
        phase := Function.update s.phase t (.unlinked r o false) }
  | lowerLast {s t r o} : s.phase t = .unlinking r o → s.count o = 1 →
      Step s (some (.last t o)) { s with
        count := Function.update s.count o 0
        phase := Function.update s.phase t (.unlinked r o true) }
  | clear {s t r o} : s.phase t = .unlinked r o false →
      Step s none { s with
        loc := Function.update s.loc r none
        phase := Function.update s.phase t .idle }
  | clearLast {s t r o} : s.phase t = .unlinked r o true →
      Step s none { s with
        loc := Function.update s.loc r none
        phase := Function.update s.phase t (.dropping o) }
  | drop {s t o} : s.phase t = .dropping o →
      Step s (some (.drop t o)) { s with
        live := Function.update s.live o False
        phase := Function.update s.phase t .idle }
  | beginCreate {s t r o} : s.phase t = .idle → s.loc r = none → Free s r → ¬ s.live o →
      (∀ u, ¬ (s.phase u).Creates o) →
      Step s none { s with phase := Function.update s.phase t (.creating r o false) }
  | storeNew {s t r o} : s.phase t = .creating r o false →
      Step s none { s with
        loc := Function.update s.loc r (some o)
        phase := Function.update s.phase t (.creating r o true) }
  | create {s t r o} : s.phase t = .creating r o true →
      Step s (some (.create t o)) { s with
        count := Function.update s.count o 1
        live := Function.update s.live o True
        phase := Function.update s.phase t .idle }

end Step

/-! ## The invariant -/

open Classical in
/-- The count of an object, zero when it is not alive. -/
noncomputable def weight (s : State T L O) (o : O) : ℕ := if s.live o then s.count o else 0

theorem weight_of_live {s : State T L O} {o : O} (h : s.live o) : weight s o = s.count o :=
  if_pos h

theorem weight_of_not_live {s : State T L O} {o : O} (h : ¬ s.live o) : weight s o = 0 :=
  if_neg h

theorem live_of_weight_pos {s : State T L O} {o : O} (h : 0 < weight s o) :
    s.live o ∧ 0 < s.count o := by
  by_cases live : s.live o
  · exact ⟨live, weight_of_live live ▸ h⟩
  · rw [weight_of_not_live live] at h
    exact absurd h (Nat.lt_irrefl 0)

theorem weight_congr {s s' : State T L O} {o : O} (live : s'.live o ↔ s.live o)
    (same : s'.count o = s.count o) : weight s' o = weight s o := by
  unfold weight
  rw [same]
  by_cases h : s.live o
  · rw [if_pos h, if_pos (live.2 h)]
  · rw [if_neg h, if_neg fun h' => h (live.1 h')]

/-- The invariant of every run that starts in a state satisfying it. -/
structure Inv (s : State T L O) : Prop where
  expects : ∀ t, (s.phase t).Expects s.loc
  exclusive : ∀ t u r, (s.phase t).claims r → (s.phase u).claims r → t = u
  fresh : ∀ t o, (s.phase t).Creates o → ¬ s.live o
  oneCreator : ∀ t u o, (s.phase t).Creates o → (s.phase u).Creates o → t = u
  drops : ∀ t o, (s.phase t).Drops o → s.live o ∧ s.count o = 0
  oneDropper : ∀ t u o, (s.phase t).Drops o → (s.phase u).Drops o → t = u
  dropper : ∀ o, s.live o → s.count o = 0 → ∃ t, (s.phase t).Drops o
  finiteLoc : ∀ o, FiniteOn (· = some o) s.loc
  finitePhase : FiniteOn (· ≠ Phase.idle) s.phase
  balance : ∀ o, weight s o + count (Phase.Pinned o) s.phase =
    count (· = some o) s.loc + count (Phase.Raised o) s.phase

namespace Inv

variable {s : State T L O}

theorem finitePinned (h : Inv s) (o : O) : FiniteOn (Phase.Pinned o) s.phase :=
  h.finitePhase.mono fun φ hφ => by rintro rfl; exact hφ

theorem finiteRaised (h : Inv s) (o : O) : FiniteOn (Phase.Raised o) s.phase :=
  h.finitePhase.mono fun φ hφ => by rintro rfl; exact hφ

/-- A pinned thread's location holds the object. -/
theorem loc_of_pinned {φ : Phase L O} {loc : L → Option O} {o : O} (hφ : φ.Expects loc)
    (hp : φ.Pinned o) : ∃ r, φ.claims r ∧ loc r = some o := by
  cases φ <;> simp_all [Phase.Pinned, Phase.Expects, Phase.claims]

/-- A location nobody has pinned that holds `o` is one more than the pinned ones. -/
theorem pinned_lt (h : Inv s) {r : L} {o : O} (holds : s.loc r = some o)
    (unpinned : ∀ t, (s.phase t).Pinned o → ¬ (s.phase t).claims r) :
    count (Phase.Pinned o) s.phase < count (· = some o) s.loc := by
  classical
  have place : ∀ t, ∃ x, (s.phase t).Pinned o → (s.phase t).claims x ∧ s.loc x = some o := by
    intro t
    by_cases hp : (s.phase t).Pinned o
    · obtain ⟨x, hx⟩ := loc_of_pinned (h.expects t) hp
      exact ⟨x, fun _ => hx⟩
    · exact ⟨r, fun hp' => absurd hp' hp⟩
  choose e he using place
  refine count_lt_of_injOn (h.finiteLoc o) e (fun t ht => (he t ht).2) ?_ holds ?_
  · intro t u ht hu same
    exact h.exclusive t u (e t) (he t ht).1 (same ▸ (he u hu).1)
  · intro t ht same
    exact unpinned t ht (same ▸ (he t ht).1)

/-- An announced unlink is of a live object with a positive count. -/
theorem live_of_unlinking (h : Inv s) {t : T} {r : L} {o : O}
    (ht : s.phase t = .unlinking r o) : s.live o ∧ 0 < s.count o := by
  have holds : s.loc r = some o := by simpa [Phase.Expects, ht] using h.expects t
  have more := h.pinned_lt holds fun u hu hr => by
    have same : u = t := h.exclusive u t r hr (by simp [ht, Phase.claims])
    rw [same, ht] at hu
    exact hu
  have := h.balance o
  exact live_of_weight_pos (by omega)

end Inv

/-! ## What a step keeps -/

/-- A store outside the reserved location leaves a phase's expectation alone. -/
theorem Phase.Expects.update_loc [DecidableEq L] {φ : Phase L O} {loc : L → Option O}
    (h : φ.Expects loc) {r : L} (other : ¬ φ.claims r) (v : Option O) :
    φ.Expects (Function.update loc r v) := by
  cases φ <;> simp_all [Phase.Expects, Phase.claims]

theorem exists_drops_update [DecidableEq T] {phase : T → Phase L O} {t : T} {φ : Phase L O} {x : O}
    (h : ∃ w, (phase w).Drops x) (keep : (phase t).Drops x → φ.Drops x) :
    ∃ w, (Function.update phase t φ w).Drops x := by
  obtain ⟨w, hw⟩ := h
  refine ⟨w, ?_⟩
  by_cases hwt : w = t
  · subst hwt
    simpa using keep hw
  · simpa [hwt] using hw

/-- A step leaves the terms of an object alone that it does not concern. -/
theorem Inv.balance_frame [DecidableEq T] {s s' : State T L O} (h : Inv s) {x : O} {t : T} {φ : Phase L O}
    (weight_eq : weight s' x = weight s x) (phase : s'.phase = Function.update s.phase t φ)
    (pinned : φ.Pinned x ↔ (s.phase t).Pinned x) (raised : φ.Raised x ↔ (s.phase t).Raised x)
    (loc : count (· = some x) s'.loc = count (· = some x) s.loc) :
    weight s' x + count (Phase.Pinned x) s'.phase =
      count (· = some x) s'.loc + count (Phase.Raised x) s'.phase := by
  rw [weight_eq, phase, loc, count_update_of_iff pinned, count_update_of_iff raised]
  exact h.balance x

section Preservation

variable [DecidableEq T] [DecidableEq L] [DecidableEq O]
variable {s s' : State T L O} {e : Option (Event T O)}

theorem Inv.exclusive_step (h : Inv s) (hs : Step s e s') :
    ∀ t u r, (s'.phase t).claims r → (s'.phase u).claims r → t = u := by
  have exclusive := h.exclusive
  cases hs <;> intro a b x ha hb <;> grind [Phase.claims, Free]

theorem Inv.expects_step (h : Inv s) (hs : Step s e s') : ∀ t, (s'.phase t).Expects s'.loc := by
  have exclusive := h.exclusive
  have expects := h.expects
  intro a
  cases hs with
  | @store t r o ht | @clear t r o ht | @clearLast t r o ht | @storeNew t r o ht =>
    by_cases hat : a = t
    · subst hat
      simp [Phase.Expects]
    · have other : ¬ (s.phase a).claims r := fun ha =>
        hat (exclusive a t r ha (by simp [ht, Phase.claims]))
      simpa [hat] using (expects a).update_loc other _
  | _ => grind [Phase.Expects]

theorem Inv.creators_step (h : Inv s) (hs : Step s e s') :
    (∀ t o, (s'.phase t).Creates o → ¬ s'.live o) ∧
      ∀ t u o, (s'.phase t).Creates o → (s'.phase u).Creates o → t = u := by
  have fresh := h.fresh
  have one := h.oneCreator
  constructor <;> cases hs <;> intros <;> grind [Phase.Creates]

theorem Inv.droppers_step (h : Inv s) (hs : Step s e s') :
    (∀ t o, (s'.phase t).Drops o → s'.live o ∧ s'.count o = 0) ∧
      ∀ t u o, (s'.phase t).Drops o → (s'.phase u).Drops o → t = u := by
  have drops := h.drops
  have one := h.oneDropper
  have fresh := h.fresh
  have positive := fun t r o => h.live_of_unlinking (t := t) (r := r) (o := o)
  constructor <;> cases hs <;> intros <;> grind [Phase.Drops, Phase.Creates]

theorem Inv.dropper_step (h : Inv s) (hs : Step s e s') :
    ∀ o, s'.live o → s'.count o = 0 → ∃ t, (s'.phase t).Drops o := by
  intro x live zero
  cases hs with
  | @lowerLast t r o ht one =>
    by_cases hx : x = o
    · exact ⟨t, by simp [hx, Phase.Drops]⟩
    · refine exists_drops_update (h.dropper x live (by simpa [hx] using zero)) ?_
      simp [ht, Phase.Drops]
  | @raise t r o ht _ _ | @create t r o ht | @drop t o ht =>
    have hx : x ≠ o := by rintro rfl; simp at live zero
    refine exists_drops_update (h.dropper x (by simpa [hx] using live) (by simpa [hx] using zero)) ?_
    simp [ht, Phase.Drops, hx.symm]
  | @lower t r o ht two =>
    have hx : x ≠ o := by
      rintro rfl
      have pos := (h.live_of_unlinking ht).2
      simp only [Function.update_self] at zero
      omega
    refine exists_drops_update (h.dropper x live (by simpa [hx] using zero)) ?_
    simp [ht, Phase.Drops]
  | @beginLink t r o ht | @beginUnlink t r o ht | @beginCreate t r o ht | @store t r o ht
  | @clear t r o ht | @clearLast t r o ht | @storeNew t r o ht =>
    refine exists_drops_update (h.dropper x live zero) ?_
    simp [ht, Phase.Drops]

theorem Inv.finite_step (h : Inv s) (hs : Step s e s') :
    (∀ o, FiniteOn (· = some o) s'.loc) ∧ FiniteOn (· ≠ Phase.idle) s'.phase := by
  have loc := h.finiteLoc
  have phase := h.finitePhase
  cases hs <;> exact ⟨fun o => by first | exact loc o | exact (loc o).update _ _, phase.update _ _⟩

theorem Inv.balance_step (h : Inv s) (hs : Step s e s') (x : O) :
    weight s' x + count (Phase.Pinned x) s'.phase =
      count (· = some x) s'.loc + count (Phase.Raised x) s'.phase := by
  have start := h.balance x
  have finP := h.finitePinned x
  have finR := h.finiteRaised x
  have finL := h.finiteLoc x
  cases hs with
  | @beginLink t r o ht | @beginUnlink t r o ht | @beginCreate t r o ht =>
    exact h.balance_frame rfl rfl (by simp [ht, Phase.Pinned]) (by simp [ht, Phase.Raised]) rfl
  | @raise t r o ht live pos =>
    by_cases hx : x = o
    · subst hx
      have gain := count_update_gain (b := Phase.linked r x) finR (a := t)
        (by simp [ht, Phase.Raised]) (by simp [Phase.Raised])
      rw [weight_of_live live] at start
      rw [weight_of_live, count_update_of_iff (p := Phase.Pinned x) (by simp [ht, Phase.Pinned])]
      · dsimp only
        rw [gain, Function.update_self]
        omega
      · exact live
    · exact h.balance_frame (weight_congr Iff.rfl (by simp [hx])) rfl (by simp [ht, Phase.Pinned])
        (by simp [ht, Phase.Raised, Ne.symm hx]) rfl
  | @store t r o ht =>
    have empty : s.loc r = none := by simpa [ht, Phase.Expects] using h.expects t
    by_cases hx : x = o
    · subst hx
      have lose := count_update_lose (b := Phase.idle) finR (a := t) (by simp [ht, Phase.Raised])
        (by simp [Phase.Raised])
      have gain := count_update_gain (b := some x) finL (a := r) (by simp [empty]) rfl
      change weight s x + _ = _
      rw [count_update_of_iff (p := Phase.Pinned x) (by simp [ht, Phase.Pinned])]
      dsimp only
      omega
    · exact h.balance_frame rfl rfl (by simp [ht, Phase.Pinned])
        (by simp [ht, Phase.Raised, Ne.symm hx])
        (count_update_of_iff (by simp [empty, Ne.symm hx]))
  | @lower t r o ht _ | @lowerLast t r o ht _ =>
    obtain ⟨live, pos⟩ := h.live_of_unlinking ht
    by_cases hx : x = o
    · subst hx
      have gain := fun last => count_update_gain (b := Phase.unlinked r x last) finP (a := t)
        (by simp [ht, Phase.Pinned]) (by simp [Phase.Pinned])
      rw [weight_of_live live] at start
      rw [weight_of_live, count_update_of_iff (p := Phase.Raised x) (by simp [ht, Phase.Raised])]
      · dsimp only
        rw [gain, Function.update_self]
        omega
      · exact live
    · exact h.balance_frame (weight_congr Iff.rfl (by simp [hx])) rfl
        (by simp [ht, Phase.Pinned, Ne.symm hx]) (by simp [ht, Phase.Raised]) rfl
  | @clear t r o ht | @clearLast t r o ht =>
    have full : s.loc r = some o := by simpa [ht, Phase.Expects] using h.expects t
    by_cases hx : x = o
    · subst hx
      have loseL := count_update_lose (b := none) finL full (by simp)
      have loseP := fun (φ : Phase L O) (hφ : ¬ φ.Pinned x) =>
        count_update_lose (b := φ) finP (a := t) (by simp [ht, Phase.Pinned]) hφ
      change weight s x + _ = _
      rw [count_update_of_iff (p := Phase.Raised x) (by simp [ht, Phase.Raised])]
      dsimp only
      first
        | have := loseP Phase.idle (by simp [Phase.Pinned]); omega
        | have := loseP (Phase.dropping x) (by simp [Phase.Pinned]); omega
    · exact h.balance_frame rfl rfl (by simp [ht, Phase.Pinned, Ne.symm hx])
        (by simp [ht, Phase.Raised])
        (count_update_of_iff (by simp [full, Ne.symm hx]))
  | @drop t o ht =>
    refine h.balance_frame ?_ rfl (by simp [ht, Phase.Pinned]) (by simp [ht, Phase.Raised]) rfl
    by_cases hx : x = o
    · subst hx
      obtain ⟨live, zero⟩ := h.drops t x (by simp [ht, Phase.Drops])
      rw [weight_of_live live, zero, weight_of_not_live]
      simp
    · exact weight_congr (by simp [hx]) rfl
  | @storeNew t r o ht =>
    have empty : s.loc r = none := by simpa [ht, Phase.Expects] using h.expects t
    by_cases hx : x = o
    · subst hx
      have gainP := count_update_gain (b := Phase.creating r x true) finP (a := t)
        (by simp [ht, Phase.Pinned]) (by simp [Phase.Pinned])
      have gainL := count_update_gain (b := some x) finL (a := r) (by simp [empty]) rfl
      change weight s x + _ = _
      rw [count_update_of_iff (p := Phase.Raised x) (by simp [ht, Phase.Raised])]
      dsimp only
      omega
    · exact h.balance_frame rfl rfl (by simp [ht, Phase.Pinned, Ne.symm hx])
        (by simp [ht, Phase.Raised]) (count_update_of_iff (by simp [empty, Ne.symm hx]))
  | @create t r o ht =>
    by_cases hx : x = o
    · subst hx
      have dead := h.fresh t x (by simp [ht, Phase.Creates])
      have lose := count_update_lose (b := Phase.idle) finP (a := t)
        (by simp [ht, Phase.Pinned]) (by simp [Phase.Pinned])
      rw [weight_of_not_live dead] at start
      rw [weight_of_live, count_update_of_iff (p := Phase.Raised x) (by simp [ht, Phase.Raised])]
      · dsimp only
        rw [Function.update_self]
        omega
      · simp
    · exact h.balance_frame (weight_congr (by simp [hx]) (by simp [hx])) rfl
        (by simp [ht, Phase.Pinned, Ne.symm hx]) (by simp [ht, Phase.Raised]) rfl

theorem Inv.step (h : Inv s) (hs : Step s e s') : Inv s' where
  expects := h.expects_step hs
  exclusive := h.exclusive_step hs
  fresh := (h.creators_step hs).1
  oneCreator := (h.creators_step hs).2
  drops := (h.droppers_step hs).1
  oneDropper := (h.droppers_step hs).2
  dropper := h.dropper_step hs
  finiteLoc := (h.finite_step hs).1
  finitePhase := (h.finite_step hs).2
  balance := h.balance_step hs

end Preservation

/-! ## Lives -/

/-- The life of one object: it is created, some thread takes its count to zero, and the same
thread drops it. -/
inductive Life (T : Type*)
  | absent
  | alive
  | dying (t : T)

/-- The object an event is about. -/
def Event.obj : Event T O → O
  | create _ o => o
  | last _ o => o
  | drop _ o => o

/-- The automaton of the life of `o`; events about other objects are skipped. -/
def Life.next [DecidableEq T] [DecidableEq O] (o : O) (l : Life T) (e : Event T O) :
    Option (Life T) :=
  if e.obj = o then
    match l, e with
    | absent, .create _ _ => some alive
    | alive, .last t _ => some (dying t)
    | dying t, .drop u _ => if t = u then some absent else none
    | _, _ => none
  else some l

/-- The life of `o` in a state. -/
def LifeAt (s : State T L O) (o : O) : Life T → Prop
  | .absent => ¬ s.live o
  | .alive => s.live o ∧ 0 < s.count o
  | .dying t => (s.phase t).Drops o

theorem LifeAt.frame {s s' : State T L O} {o : O} {l : Life T} (h : LifeAt s o l)
    (live : s'.live o ↔ s.live o) (same : 0 < s.count o → 0 < s'.count o)
    (drops : ∀ t, (s.phase t).Drops o → (s'.phase t).Drops o) : LifeAt s' o l := by
  cases l with
  | absent => exact fun h' => h (live.1 h')
  | alive => exact ⟨live.2 h.1, same h.2⟩
  | dying t => exact drops t h

theorem LifeAt.eq_absent_iff {s : State T L O} (inv : Inv s) {o : O} {l : Life T}
    (h : LifeAt s o l) : l = .absent ↔ ¬ s.live o := by
  cases l with
  | absent => exact ⟨fun _ => h, fun _ => rfl⟩
  | alive => exact ⟨by simp, fun dead => absurd h.1 dead⟩
  | dying t => exact ⟨by simp, fun dead => absurd (inv.drops t o h).1 dead⟩

theorem LifeAt.eq_dying_iff {s : State T L O} (inv : Inv s) {o : O} {l : Life T}
    (h : LifeAt s o l) (t : T) : l = .dying t ↔ (s.phase t).Drops o := by
  cases l with
  | absent => exact ⟨by simp, fun drops => absurd (inv.drops t o drops).1 h⟩
  | alive => exact ⟨by simp, fun drops => absurd (inv.drops t o drops).2 (Nat.pos_iff_ne_zero.1 h.2)⟩
  | dying u =>
    constructor
    · rintro ⟨⟩
      exact h
    · intro drops
      rw [inv.oneDropper u t o h drops]

theorem drops_update [DecidableEq T] {phase : T → Phase L O} {t : T} {φ : Phase L O} {x : O}
    (keep : (phase t).Drops x → φ.Drops x) (w : T) (h : (phase w).Drops x) :
    (Function.update phase t φ w).Drops x := by
  by_cases hwt : w = t
  · subst hwt
    simpa using keep h
  · simpa [hwt] using h

theorem Life.next_of_ne [DecidableEq T] [DecidableEq O] {o : O} {e : Event T O} (h : e.obj ≠ o)
    (l : Life T) : [e].foldlM (Life.next o) l = some l := by
  simp [Life.next, h]

/-- Every step is permitted by the automaton of every object. -/
theorem Inv.life_step [DecidableEq T] [DecidableEq L] [DecidableEq O] {s s' : State T L O}
    {e : Option (Event T O)} (h : Inv s) (hs : Step s e s') {o : O} {l : Life T}
    (hl : LifeAt s o l) : ∃ l', e.toList.foldlM (Life.next o) l = some l' ∧ LifeAt s' o l' := by
  cases hs with
  | @beginLink t r x ht | @beginUnlink t r x ht | @beginCreate t r x ht | @store t r x ht
  | @clear t r x ht | @clearLast t r x ht | @storeNew t r x ht =>
    exact ⟨l, rfl, hl.frame Iff.rfl id (drops_update (by simp [ht, Phase.Drops]))⟩
  | @raise t r x ht live pos =>
    refine ⟨l, rfl, hl.frame Iff.rfl ?_ (drops_update (by simp [ht, Phase.Drops]))⟩
    intro positive
    by_cases hx : o = x <;> simp [hx, positive]
  | @lower t r x ht two =>
    refine ⟨l, rfl, hl.frame Iff.rfl ?_ (drops_update (by simp [ht, Phase.Drops]))⟩
    intro positive
    by_cases hx : o = x
    · subst hx
      simp only [Function.update_self]
      omega
    · simpa [hx] using positive
  | @lowerLast t r x ht one =>
    by_cases hx : x = o
    · subst hx
      cases l with
      | absent => exact absurd (h.live_of_unlinking ht).1 hl
      | alive => exact ⟨.dying t, by simp [Life.next, Event.obj], by simp [LifeAt, Phase.Drops]⟩
      | dying u => simp [(h.drops u x hl).2] at one
    · exact ⟨l, Life.next_of_ne (e := .last t x) hx l, hl.frame Iff.rfl (by simp [Ne.symm hx])
        (drops_update (by simp [ht, Phase.Drops]))⟩
  | @drop t x ht =>
    have drops : (s.phase t).Drops x := by simp [ht, Phase.Drops]
    by_cases hx : x = o
    · subst hx
      cases l with
      | absent => exact absurd (h.drops t x drops).1 hl
      | alive => exact absurd (h.drops t x drops).2 (Nat.pos_iff_ne_zero.1 hl.2)
      | dying u =>
        obtain rfl := h.oneDropper t u x drops hl
        exact ⟨.absent, by simp [Life.next, Event.obj], by simp [LifeAt]⟩
    · exact ⟨l, Life.next_of_ne (e := .drop t x) hx l, hl.frame (by simp [Ne.symm hx]) id
        (drops_update (by simp [ht, Phase.Drops, hx]))⟩
  | @create t r x ht =>
    have dead := h.fresh t x (by simp [ht, Phase.Creates])
    by_cases hx : x = o
    · subst hx
      cases l with
      | absent => exact ⟨.alive, by simp [Life.next, Event.obj], by simp [LifeAt]⟩
      | alive => exact absurd hl.1 dead
      | dying u => exact absurd (h.drops u x hl).1 dead
    · exact ⟨l, Life.next_of_ne (e := .create t x) hx l, hl.frame (by simp [Ne.symm hx]) (by simp [Ne.symm hx])
        (drops_update (by simp [ht, Phase.Drops]))⟩

end RefCounting
