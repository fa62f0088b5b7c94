import Mathlib.Data.Finset.Card
import Mathlib.Data.Finset.Range
import Mathlib.Algebra.Order.Group.Nat
import Mathlib.Order.Interval.Finset.Nat

/-!
# Ring buffers with absolute positions

A ring of `N` slots is described by the sequence of all items that were ever put into it: the item
at position `n` of the sequence lives in slot `n % N`.  `Window` says that the slots hold the items
at the positions from `lo` up to `hi` and are empty otherwise.  Putting in the next item moves `hi`,
taking out the oldest moves `lo`; indices never have to be unwrapped.
-/

namespace Ring

variable {V : Type*} {N : ℕ} {slot : ℕ → V} {empty : V} {item : ℕ → V} {lo hi : ℕ}

/-- The slots hold exactly the items at the positions in `[lo, hi)`. -/
structure Window (N : ℕ) (slot : ℕ → V) (empty : V) (item : ℕ → V) (lo hi : ℕ) : Prop where
  le : lo ≤ hi
  fits : hi ≤ lo + N
  full : ∀ n, lo ≤ n → n < hi → slot (n % N) = item n
  free : ∀ n, hi ≤ n → n < lo + N → slot (n % N) = empty

/-- Positions less than `N` apart are in different slots. -/
theorem mod_ne {n m : ℕ} (lt : n < m) (near : m < n + N) : n % N ≠ m % N := by
  intro same
  have step : (m - n) % N = 0 := Nat.sub_mod_eq_zero_of_mod_eq same.symm
  rw [Nat.mod_eq_of_lt (by omega)] at step
  omega

theorem Window.congr (h : Window N slot empty item lo hi) {slot' item' : ℕ → V}
    (slots : ∀ i < N, slot' i = slot i) (items : ∀ n, lo ≤ n → n < hi → item' n = item n) :
    Window N slot' empty item' lo hi where
  le := h.le
  fits := h.fits
  full n hlo hhi := by
    have pos : 0 < N := by have := h.fits; omega
    rw [slots _ (Nat.mod_lt _ pos), items n hlo hhi]
    exact h.full n hlo hhi
  free n hhi hlo := by
    have pos : 0 < N := by have := h.le; omega
    rw [slots _ (Nat.mod_lt _ pos)]
    exact h.free n hhi hlo

/-- The next item goes into the first free slot. -/
theorem Window.push (h : Window N slot empty item lo hi) (room : hi < lo + N) :
    Window N (Function.update slot (hi % N) (item hi)) empty item lo (hi + 1) where
  le := h.le.trans (Nat.le_succ hi)
  fits := room
  full n hlo hhi := by
    by_cases last : n = hi
    · rw [last, Function.update_self]
    · rw [Function.update_of_ne (mod_ne (by omega) (by omega))]
      exact h.full n hlo (by omega)
  free n hhi hlo := by
    have := h.le
    rw [Function.update_of_ne (mod_ne (by omega) (by omega)).symm]
    exact h.free n (by omega) hlo

/-- The oldest item is taken out. -/
theorem Window.pop (h : Window N slot empty item lo hi) (some : lo < hi) :
    Window N (Function.update slot (lo % N) empty) empty item (lo + 1) hi where
  le := some
  fits := h.fits.trans (by omega)
  full n hlo hhi := by
    have := h.fits
    rw [Function.update_of_ne (mod_ne (by omega) (by omega)).symm]
    exact h.full n (by omega) hhi
  free n hhi hlo := by
    have := h.fits
    by_cases last : n = lo + N
    · rw [last, Nat.add_mod_right, Function.update_self]
    · rw [Function.update_of_ne (mod_ne (by omega) (by omega)).symm]
      exact h.free n hhi (by omega)

/-- No more slots are in use than there are positions in the window. -/
theorem Window.card_le [DecidableEq V] (h : Window N slot empty item lo hi) :
    ((Finset.range N).filter fun i => slot i ≠ empty).card ≤ hi - lo := by
  have covered : ((Finset.range N).filter fun i => slot i ≠ empty) ⊆
      (Finset.Ico lo hi).image (· % N) := by
    intro i hi'
    simp only [Finset.mem_filter, Finset.mem_range] at hi'
    obtain ⟨lt, used⟩ := hi'
    -- the position in `[lo, lo + N)` that lives in slot `i`
    have place : ∃ n, lo ≤ n ∧ n < lo + N ∧ n % N = i := by
      by_cases wrapped : lo % N ≤ i
      · refine ⟨lo / N * N + i, ?_, ?_, ?_⟩
        · have := Nat.div_add_mod' lo N
          omega
        · have := Nat.div_add_mod' lo N
          omega
        · rw [Nat.mul_add_mod_self_right, Nat.mod_eq_of_lt lt]
      · refine ⟨(lo / N + 1) * N + i, ?_, ?_, ?_⟩
        · have := Nat.div_add_mod' lo N
          have := Nat.mod_lt lo (by omega : N > 0)
          rw [Nat.add_mul]
          omega
        · have := Nat.div_add_mod' lo N
          rw [Nat.add_mul]
          omega
        · rw [Nat.mul_add_mod_self_right, Nat.mod_eq_of_lt lt]
    obtain ⟨n, hlo, hn, rfl⟩ := place
    refine Finset.mem_image.2 ⟨n, Finset.mem_Ico.2 ⟨hlo, ?_⟩, rfl⟩
    by_contra late
    exact used (h.free n (by omega) hn)
  calc _ ≤ ((Finset.Ico lo hi).image (· % N)).card := Finset.card_le_card covered
    _ ≤ (Finset.Ico lo hi).card := Finset.card_image_le
    _ = hi - lo := Nat.card_Ico lo hi

end Ring
