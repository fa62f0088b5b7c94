import Mathlib.Data.Fintype.Card
import CxlShm.Lib.Reachability
import CxlShm.Reference.Callers

/-!
# Runs of a few clients

The promises of the callers quantify over all clients and all locations.  When there are finitely
many locations and only the clients of a finite set have registered, they can be computed, and a
list of actions that passes the test is a permitted run (`exists_reachable_of_trial`).
-/

namespace CxlShm

open Counting Reachability

variable {Loc : Type}

instance Phase.decidableClaims [DecidableEq Loc] (r : Loc) :
    (φ : RefCounting.Phase Loc Offset) → Decidable (φ.claims r)
  | .linking r' _ | .linked r' _ | .unlinking r' _ | .unlinked r' _ _ | .creating r' _ _ =>
    inferInstanceAs (Decidable (r' = r))
  | .idle | .dropping _ => inferInstanceAs (Decidable False)

instance Phase.decidableCreates (o : Offset) :
    (φ : RefCounting.Phase Loc Offset) → Decidable (φ.Creates o)
  | .creating _ o' _ => inferInstanceAs (Decidable (o' = o))
  | .idle | .dropping _ | .linking _ _ | .linked _ _ | .unlinking _ _ | .unlinked _ _ _ =>
    inferInstanceAs (Decidable False)

theorem linkPending_call (o : Offset) (c : Call Loc) :
    LinkPending o (.call c) ↔ c.func = .linkRef ∧ c.pc = .storeRef ∧ c.refed = o := by
  simp [LinkPending]

theorem unlinkPending_call (o : Offset) (c : Call Loc) :
    UnlinkPending o (.call c) ↔ c.func = .unlinkRef ∧ c.pc = .storeRef ∧ c.refed = o := by
  simp [UnlinkPending]

instance decidableLinkPending (o : Offset) : (k : Control Loc) → Decidable (LinkPending o k)
  | .call c => decidable_of_iff _ (linkPending_call o c).symm
  | .absent | .starting | .idle | .alloc _ | .clearing _ => isFalse (by simp [LinkPending])

instance decidableUnlinkPending (o : Offset) : (k : Control Loc) → Decidable (UnlinkPending o k)
  | .call c => decidable_of_iff _ (unlinkPending_call o c).symm
  | .absent | .starting | .idle | .alloc _ | .clearing _ => isFalse (by simp [UnlinkPending])

/-- Clients outside `clients` have at most claimed a thread id. -/
def OnlyClients (clients : Finset ℕ) (s : State Loc) : Prop :=
  ∀ t, t ∉ clients → s.ctl t = .absent ∨ s.ctl t = .starting

section

variable [Fintype Loc] (clients : Finset ℕ)

/-- The references to `o`, computed. -/
def referencesOf (s : State Loc) (o : Offset) : ℕ :=
  (Finset.univ.filter fun r => s.mem.loc r = o).card +
    (clients.filter fun t => LinkPending o (s.ctl t)).card -
    (clients.filter fun t => UnlinkPending o (s.ctl t)).card

/-- `KeepsAlive` for one client. -/
def aliveIn (s : State Loc) : Control Loc → Bool
  | .call c => c.func = .linkRef → c.pc.announced → s.allocated c.refed ∧ 0 < referencesOf clients s c.refed
  | .absent | .starting | .idle | .alloc _ | .clearing _ => true

/-- `Disciplined`, for the clients in question. -/
def disciplinedIn [DecidableEq Loc] (s : State Loc) : Action Loc → Bool
  | .link _ r o => o ≠ 0 ∧ s.mem.loc r = 0 ∧ ∀ t ∈ clients, ¬ (s.ctl t).phase.claims r
  | .unlink _ r o => o ≠ 0 ∧ s.mem.loc r = o ∧ ∀ t ∈ clients, ¬ (s.ctl t).phase.claims r
  | .malloc _ r b => b ≠ 0 ∧ s.mem.loc r = 0 ∧ (∀ t ∈ clients, ¬ (s.ctl t).phase.claims r) ∧
      s.allocated b = false ∧ ∀ t ∈ clients, ¬ (s.ctl t).phase.Creates b
  | .threadInit _ | .mallocGeneric _ | .run _ _ | .reuse _ _ => true

/-- `WithinRows`, computed. -/
def withinRows : Action Loc → Bool
  | .threadInit t => t ≤ maxThread
  | .link _ _ _ | .unlink _ _ _ | .malloc _ _ _ | .mallocGeneric _ | .run _ _ | .reuse _ _ => true

/-- `NoWrap`, computed. -/
def noWrap (s : State Loc) : Action Loc → Bool
  | .run t _ => (s.ctl t).bumps → s.mem.era t t + 1 < 2 ^ 32
  | .threadInit _ | .link _ _ _ | .unlink _ _ _ | .malloc _ _ _ | .mallocGeneric _ | .reuse _ _ => true

/-- The test of a step. -/
def trial [DecidableEq Loc] (s : State Loc) (a : Action Loc) (s' : State Loc) : Bool :=
  (∀ t, a.client = some t → t ∈ clients) ∧ disciplinedIn clients s a ∧
    (∀ t ∈ clients, aliveIn clients s' (s'.ctl t)) ∧ withinRows a ∧ noWrap s a

variable {clients}

omit [Fintype Loc] in
theorem count_clients {s : State Loc} (only : OnlyClients clients s) {p : Control Loc → Prop}
    [DecidablePred p] (absent : ¬ p .absent) (starting : ¬ p .starting) :
    count p s.ctl = (clients.filter fun t => p (s.ctl t)).card := by
  have same : {t | p (s.ctl t)} = ↑(clients.filter fun t => p (s.ctl t)) := by
    ext t
    by_cases ht : t ∈ clients
    · simp [ht]
    · rcases only t ht with out | out <;> simp [ht, out, absent, starting]
  rw [count, same, Set.ncard_coe_finset]

theorem count_locations (f : Loc → Offset) (o : Offset) :
    count (· = o) f = (Finset.univ.filter fun r => f r = o).card := by
  have same : {r | f r = o} = ↑(Finset.univ.filter fun r => f r = o) := by simp
  rw [count, same, Set.ncard_coe_finset]

theorem references_eq_referencesOf {s : State Loc} (only : OnlyClients clients s) (o : Offset) :
    references s o = referencesOf clients s o := by
  rw [references, referencesOf, count_locations,
    count_clients only (by simp [LinkPending]) (by simp [LinkPending]),
    count_clients only (by simp [UnlinkPending]) (by simp [UnlinkPending])]

/-- With few locations and few clients there are few references. -/
theorem bounded_of_few {s : State Loc} (only : OnlyClients clients s)
    (few : Fintype.card Loc + clients.card ≤ 65535) : Bounded s := by
  intro o _
  have locations := Finset.card_filter_le (Finset.univ : Finset Loc) fun r => s.mem.loc r = o
  have pending := Finset.card_filter_le clients fun t => LinkPending o (s.ctl t)
  rw [Finset.card_univ] at locations
  rw [references_eq_referencesOf only, referencesOf]
  omega

omit [Fintype Loc] in
theorem OnlyClients.step [DecidableEq Loc] {s s' : State Loc} {a : Action Loc} (only : OnlyClients clients s)
    (hs : s.step a = some s') (mem : ∀ t, a.client = some t → t ∈ clients) :
    OnlyClients clients s' := by
  intro u hu
  have other : ∀ t, a.client = some t → u ≠ t := by
    rintro t ht rfl
    exact hu (mem _ ht)
  have keep : s'.ctl u = s.ctl u := ctl_of_other hs other
  rw [keep]
  exact only u hu

/-- A step that passes the test is orderly. -/
theorem orderly_of_trial [DecidableEq Loc] (few : Fintype.card Loc + clients.card ≤ 65535)
    {s s' : State Loc} {a : Action Loc} (only : OnlyClients clients s) (hs : s.step a = some s')
    (passed : trial clients s a s' = true) :
    OnlyClients clients s' ∧ Orderly s a s' ∧ ∀ t, a.client = some t → t ∈ clients := by
  simp only [trial, Bool.decide_and, Bool.and_eq_true, decide_eq_true_eq] at passed
  obtain ⟨mem, disciplined, alive, within, wrap⟩ := passed
  have only' := only.step hs mem
  have idle : ∀ t, t ∉ clients → (s.ctl t).phase = .idle := fun t out => by
    rcases only t out with out | out <;> rw [out] <;> rfl
  have unused : ∀ r, (∀ t ∈ clients, ¬ (s.ctl t).phase.claims r) → Unused s r := by
    intro r inside t
    by_cases ht : t ∈ clients
    · exact inside t ht
    · rw [idle t ht]
      exact id
  refine ⟨only', ⟨⟨?_, ?_, bounded_of_few only' few⟩, ?_, ?_⟩, mem⟩
  · cases a with
    | link t r o | unlink t r o =>
      simp only [disciplinedIn, decide_eq_true_eq] at disciplined
      exact ⟨disciplined.1, disciplined.2.1, unused r disciplined.2.2⟩
    | malloc t r b =>
      simp only [disciplinedIn, decide_eq_true_eq] at disciplined
      obtain ⟨null, empty, inside, dead, own⟩ := disciplined
      refine ⟨null, empty, unused r inside, dead, fun u => ?_⟩
      by_cases hu : u ∈ clients
      · exact own u hu
      · rw [idle u hu]
        exact id
    | threadInit _ | mallocGeneric _ | run _ _ | reuse _ _ => trivial
  · intro t c hc func announced
    have ht : t ∈ clients := by
      by_contra out
      rcases only' t out with out | out <;> rw [out] at hc <;> cases hc
    have here := alive t ht
    rw [hc] at here
    rw [references_eq_referencesOf only']
    simp only [aliveIn, decide_eq_true_eq] at here
    exact here func announced
  · rintro t rfl
    simpa [withinRows] using within
  · cases a with
    | run t weak =>
      simp only [noWrap, decide_eq_true_eq] at wrap
      exact wrap
    | threadInit _ | link _ _ _ | unlink _ _ _ | malloc _ _ _ | mallocGeneric _ | reuse _ _ =>
      trivial

end

/-! ## Many clients -/

/-- The first `n` clients have claimed their thread ids. -/
def claimed (n : ℕ) : State Loc :=
  { State.init with ctl := fun t => if 0 < t ∧ t ≤ n then .starting else .absent }

theorem claimed_ctl (n t : ℕ) :
    (claimed n : State Loc).ctl t = if 0 < t ∧ t ≤ n then .starting else .absent := rfl

theorem onlyClients_claimed (clients : Finset ℕ) (n : ℕ) :
    OnlyClients clients (claimed n : State Loc) := by
  intro t _
  by_cases ht : 0 < t ∧ t ≤ n
  · exact .inr (if_pos ht)
  · exact .inl (if_neg ht)

theorem permitted_claimed (n : ℕ) :
    Permitted (claimed n : State Loc) (.threadInit (n + 1)) (claimed (n + 1)) := by
  refine ⟨trivial, fun t c hc => ?_, fun _ live => by cases live⟩
  rw [claimed_ctl] at hc
  split at hc <;> cases hc

theorem step_claimed [DecidableEq Loc] (n : ℕ) :
    (claimed n : State Loc).step (.threadInit (n + 1)) = some (claimed (n + 1)) := by
  have absent : (claimed n : State Loc).ctl (n + 1) = .absent := by
    rw [claimed_ctl, if_neg (by omega)]
  have earlier : ∀ u < n + 1, 0 < u → ((claimed n : State Loc).ctl u).registered := by
    intro u hu pos
    rw [claimed_ctl, if_pos (by omega)]
    rfl
  have next : (claimed n : State Loc).setCtl (n + 1) .starting = claimed (n + 1) := by
    simp only [claimed, State.setCtl, State.mk.injEq, true_and, and_true]
    funext u
    by_cases hu : u = n + 1
    · subst hu
      simp
    · rw [Function.update_of_ne hu]
      have same : (0 < u ∧ u ≤ n) ↔ 0 < u ∧ u ≤ n + 1 := by omega
      simp only [same]
  simp only [State.step, absent]
  rw [if_pos ⟨Nat.succ_pos n, earlier⟩, next]

/-- The clients claim their ids one after the other. -/
theorem reachable_claimed [DecidableEq Loc] {ok : State Loc → Action Loc → State Loc → Prop} (n : ℕ)
    (each : ∀ k < n, ok (claimed k) (.threadInit (k + 1)) (claimed (k + 1))) :
    Reachable State.step ok State.init (claimed n) := by
  induction n with
  | zero =>
    have none : (claimed 0 : State Loc) = State.init := by
      simp only [claimed, State.init, State.mk.injEq, true_and, and_true]
      funext t
      exact if_neg (by omega)
    rw [none]
    exact .start
  | succ n ih =>
    exact (ih fun k hk => each k (by omega)).next (step_claimed n) (each n (by omega))

/-- A list of actions that passes the test ends in a state of a run whose steps are orderly. -/
theorem exists_reachable_of_trial [DecidableEq Loc] [Fintype Loc] {clients : Finset ℕ}
    (ok : State Loc → Action Loc → State Loc → Prop) (few : Fintype.card Loc + clients.card ≤ 65535)
    (orderly : ∀ s a s', Orderly s a s' → (∀ t, a.client = some t → t ∈ clients) → ok s a s') {n : ℕ}
    (each : ∀ k < n, ok (claimed k) (.threadInit (k + 1)) (claimed (k + 1)))
    {as : List (Action Loc)} {P : State Loc → Bool}
    (run : (checkedRun State.step (trial clients) (claimed n) as).any P = true) :
    ∃ s, Reachable State.step ok State.init s ∧ P s = true := by
  have sound : ∀ (s : State Loc) (a : Action Loc) (s' : State Loc), OnlyClients clients s →
      State.step s a = some s' → trial clients s a s' = true →
      OnlyClients clients s' ∧ ok s a s' := by
    intro s a s' only hs passed
    obtain ⟨only', permitted, mem⟩ := orderly_of_trial few only hs passed
    exact ⟨only', orderly s a s' permitted mem⟩
  obtain ⟨s, reached, last⟩ :=
    exists_reachable_of_checkedRun sound (onlyClients_claimed clients n) run
  exact ⟨s, (reachable_claimed n each).trans reached, last⟩

end CxlShm
