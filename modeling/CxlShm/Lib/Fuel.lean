import CxlShm.Lib.Chain
import CxlShm.Lib.Ring

/-!
# Programs with a bound

A loop or a recursion of a program is a function that gets a bound and fails when the bound is used
up.  `Ends run a` says that the program ends with `a`: every bound that is large enough gives `a`.
The rules below put such programs together; a loop keeps an invariant that says what has been done
so far.
-/

namespace Fuel

open Linked

variable {α β σ ι : Type*}

/-- Every bound that is large enough gives `a`. -/
def Ends (run : ℕ → Option α) (a : α) : Prop := ∃ k, ∀ fuel ≥ k, run fuel = some a

variable {run : ℕ → Option α} {a b : α}

theorem Ends.pure (a : α) : Ends (fun _ => some a) a := ⟨0, fun _ _ => rfl⟩

theorem Ends.bind {next : ℕ → α → Option β} {b : β} (h : Ends run a)
    (h' : Ends (fun n => next n a) b) : Ends (fun n => (run n).bind (next n)) b := by
  obtain ⟨k, ends⟩ := h
  obtain ⟨k', ends'⟩ := h'
  refine ⟨max k k', fun fuel enough => ?_⟩
  have first := ends fuel (le_trans (le_max_left k k') enough)
  have second := ends' fuel (le_trans (le_max_right k k') enough)
  simp only [first, Option.bind_some, second]

theorem Ends.map {b : β} {f : α → β} (h : Ends run a) (value : f a = b) :
    Ends (fun n => (run n).map f) b := by
  obtain ⟨k, ends⟩ := h
  refine ⟨k, fun fuel enough => ?_⟩
  simp only [ends fuel enough, Option.map_some, value]

/-- Only what large bounds give matters. -/
theorem Ends.of_eq {run' : ℕ → Option α} (h : Ends run a) (k : ℕ)
    (same : ∀ fuel ≥ k, run' fuel = run fuel) : Ends run' a := by
  obtain ⟨k', ends⟩ := h
  refine ⟨max k k', fun fuel enough => ?_⟩
  rw [same fuel (Nat.le_trans (Nat.le_max_left k k') enough)]
  exact ends fuel (Nat.le_trans (Nat.le_max_right k k') enough)

/-! ## Loops over a list -/

/-- A loop over a list; `P` is what holds when a part of the list is done. -/
theorem ends_foldlM {f : ℕ → σ → ι → Option σ} {P : List ι → σ → Prop} {l : List ι} {s : σ}
    (start : P [] s)
    (step : ∀ done x rest s, l = done ++ x :: rest → P done s →
      ∃ s', Ends (fun n => f n s x) s' ∧ P (done ++ [x]) s') :
    ∃ s', Ends (fun n => l.foldlM (f n) s) s' ∧ P l s' := by
  suffices rounds : ∀ rest done s, l = done ++ rest → P done s →
      ∃ s', Ends (fun n => rest.foldlM (f n) s) s' ∧ P l s' from rounds l [] s rfl start
  intro rest
  induction rest with
  | nil =>
    intro done s split here
    rw [List.append_nil] at split
    exact ⟨s, .pure s, split ▸ here⟩
  | cons x rest ih =>
    intro done s split here
    obtain ⟨s₁, first, after⟩ := step done x rest s split here
    obtain ⟨s₂, others, last⟩ := ih (done ++ [x]) s₁ (by rw [split, List.append_assoc]; rfl) after
    exact ⟨s₂, first.bind others, last⟩

/-- `while(x != null) { next = link(x); body(x); x = next; }` -/
def walk [DecidableEq ι] (link : σ → ι → ι) (null : ι) (body : σ → ι → Option σ) :
    ℕ → ι → σ → Option σ
  | 0, _, _ => none
  | n + 1, x, s => if x = null then some s else (body s x).bind (walk link null body n (link s x))

/-- A loop along the links, which the body leaves alone where it has still to go. -/
theorem ends_walk [DecidableEq ι] {link : σ → ι → ι} {null x : ι} {body : ℕ → σ → ι → Option σ}
    {P : List ι → σ → Prop} {next : ι → ι} {l : List ι} {s : σ} (chain : Chain next null x l)
    (start : P [] s)
    (links : ∀ done y rest s, l = done ++ y :: rest → P done s → link s y = next y)
    (step : ∀ done y rest s, l = done ++ y :: rest → P done s →
      ∃ s', Ends (fun n => body n s y) s' ∧ P (done ++ [y]) s') :
    ∃ s', Ends (fun n => walk link null (body n) n x s) s' ∧ P l s' := by
  suffices rounds : ∀ rest done x s, Chain next null x rest → l = done ++ rest → P done s →
      ∃ s', (∃ k, ∀ n ≥ k, ∀ m ≥ k, walk link null (body n) m x s = some s') ∧ P l s' by
    obtain ⟨s', ⟨k, ends⟩, last⟩ := rounds l [] x s chain rfl start
    exact ⟨s', ⟨k, fun n enough => ends n enough n enough⟩, last⟩
  intro rest
  induction rest with
  | nil =>
    intro done x s chain split here
    rw [List.append_nil] at split
    refine ⟨s, ⟨1, fun n _ m some => ?_⟩, split ▸ here⟩
    obtain ⟨m, rfl⟩ := Nat.exists_eq_add_of_le' some
    exact if_pos chain
  | cons y rest ih =>
    intro done x s chain split here
    obtain ⟨rfl, some, chain⟩ := chain
    obtain ⟨s₁, ⟨k, first⟩, after⟩ := step done x rest s split here
    obtain ⟨s₂, ⟨k', others⟩, last⟩ :=
      ih (done ++ [x]) (next x) s₁ chain (by rw [split, List.append_assoc]; rfl) after
    refine ⟨s₂, ⟨max k k' + 1, fun n enough m enough' => ?_⟩, last⟩
    obtain ⟨m, rfl⟩ := Nat.exists_eq_add_of_le' (Nat.one_le_of_lt enough')
    have now : body n s x = .some s₁ := first n (by omega)
    rw [walk, if_neg some, now, Option.bind_some, links done x rest s split here]
    exact others n (by omega) m (by omega)

/-! ## Loops around a ring -/

section Ring

variable {N : ℕ}

/-- `do { body(i); i = (i + 1) % N; } while(i != stop);` -/
def doRing (N stop : ℕ) (body : σ → ℕ → Option σ) : ℕ → ℕ → σ → Option σ
  | 0, _, _ => none
  | n + 1, i, s =>
    (body s i).bind fun s =>
      if (i + 1) % N = stop then some s else doRing N stop body n ((i + 1) % N) s

/-- `while(i != stop) { body(i); i = (i + 1) % N; }` -/
def whileRing (N stop : ℕ) (body : σ → ℕ → Option σ) (n i : ℕ) (s : σ) : Option σ :=
  if i = stop then some s else doRing N stop body n i s

/-- The `d` slots from `i` on. -/
def ringFrom (N i d : ℕ) : List ℕ := (List.range d).map fun k => (i + k) % N

theorem ringFrom_succ (N i d : ℕ) : ringFrom N i (d + 1) = i % N :: ringFrom N ((i + 1) % N) d := by
  simp only [ringFrom, List.range_succ_eq_map, List.map_cons, List.map_map, Nat.add_zero]
  congr 1
  apply List.map_congr_left
  intro k _
  simp only [Function.comp, Nat.mod_add_mod]
  congr 1
  omega

/-- A slot is among the `d` slots from `a` on if it is less than `d` behind `a`. -/
theorem mem_ringFrom {a d i : ℕ} (lt : a < N) (few : d ≤ N) :
    i ∈ ringFrom N a d ↔ i < N ∧ (i + N - a) % N < d := by
  simp only [ringFrom, List.mem_map, List.mem_range]
  constructor
  · rintro ⟨k, hk, rfl⟩
    refine ⟨Nat.mod_lt _ (by omega), ?_⟩
    by_cases wraps : a + k < N
    · rw [Nat.mod_eq_of_lt wraps, show a + k + N - a = k + N by omega, Nat.add_mod_right,
        Nat.mod_eq_of_lt (by omega)]
      exact hk
    · have round : (a + k) % N = a + k - N := by
        rw [Nat.mod_eq_sub_mod (Nat.not_lt.1 wraps), Nat.mod_eq_of_lt (by omega)]
      rw [round, show a + k - N + N - a = k by omega, Nat.mod_eq_of_lt (by omega)]
      exact hk
  · rintro ⟨below, behind⟩
    refine ⟨(i + N - a) % N, behind, ?_⟩
    rw [Nat.add_mod_mod, show a + (i + N - a) = i + N by omega, Nat.add_mod_right,
      Nat.mod_eq_of_lt below]

/-- The rounds of the loop. -/
theorem doRing_eq {stop : ℕ} {body : σ → ℕ → Option σ} (d : ℕ) : ∀ {n i : ℕ} {s : σ}, i < N →
    d < N → (i + d + 1) % N = stop → d + 1 ≤ n →
    doRing N stop body n i s = (ringFrom N i (d + 1)).foldlM body s := by
  induction d with
  | zero =>
    intro n i s lt _ stops enough
    obtain ⟨n, rfl⟩ := Nat.exists_eq_add_of_le' enough
    rw [ringFrom_succ, Nat.mod_eq_of_lt lt]
    simp only [doRing, List.foldlM_cons]
    cases body s i with
    | none => rfl
    | some s' => simp [ringFrom, stops]
  | succ d ih =>
    intro n i s lt few stops enough
    obtain ⟨n, rfl⟩ := Nat.exists_eq_add_of_le' (Nat.one_le_of_lt enough)
    have goes : (i + 1) % N ≠ stop := by
      rw [← stops]
      exact Ring.mod_ne (by omega) (by omega)
    rw [ringFrom_succ, Nat.mod_eq_of_lt lt, doRing, List.foldlM_cons]
    cases body s i with
    | none => rfl
    | some s' =>
      simp only [Option.bind_some, if_neg goes]
      apply ih (Nat.mod_lt _ (by omega)) (by omega) _ (by omega)
      rw [← stops, Nat.add_assoc, Nat.mod_add_mod]
      congr 1
      omega

theorem whileRing_eq {stop d n i : ℕ} {body : σ → ℕ → Option σ} {s : σ} (lt : i < N) (few : d < N)
    (stops : (i + d) % N = stop) (enough : d ≤ n) :
    whileRing N stop body n i s = (ringFrom N i d).foldlM body s := by
  cases d with
  | zero =>
    rw [Nat.add_zero, Nat.mod_eq_of_lt lt] at stops
    exact if_pos stops
  | succ d =>
    have goes : i ≠ stop := by
      rw [← stops]
      intro same
      exact Ring.mod_ne (show i < i + (d + 1) by omega) (by omega) ((Nat.mod_eq_of_lt lt).trans same)
    rw [whileRing, if_neg goes]
    exact doRing_eq d lt (by omega) stops enough

end Ring

end Fuel
