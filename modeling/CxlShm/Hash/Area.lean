import CxlShm.Hash.Index

/-!
# The area of the hash index

`put` computes its bucket from the id of the client and `get` from the top byte of the key; neither
is compared with the size of the area, which has 64 partitions.  The accesses of a call are followed
through the loop: the first word it reads is the bucket, the others are links of elements.
-/

namespace CxlShm.Hash

open Linked

/-- The words that the loop of `put` and `get` reads as `*entry`, in order. -/
def entries (m : Mem ℕ) (key : ℕ) : ℕ → ℕ → List ℕ
  | 0, _ => []
  | fuel + 1, entry =>
    entry :: if m.loc entry = 0 then []
      else if m.loc (m.loc entry + sizeofCXLObj) = key then []
      else entries m key fuel (m.loc entry + sizeofCXLObj + 16)

/-- A word of an element that the loop came to: its value or its link. -/
def OfElement (m : Mem ℕ) (key fuel entry a : ℕ) : Prop :=
  ∃ c ∈ entries m key fuel entry, m.loc c ≠ 0 ∧
    (a = m.loc c + sizeofCXLObj + 8 ∨ a = m.loc c + sizeofCXLObj + 16)

/-- A word that `put` uses as a bucket: it is the first one that the loop reads, or it is written and
belongs neither to an element nor to the new block. -/
def PutUses (t key a : ℕ) : Prop :=
  ∃ m fuel, (entries m key fuel (bucket (t - 1) key)).head? = some a ∨
    ∃ value block m', put t m key value block fuel = some m' ∧ m'.loc a ≠ m.loc a ∧
      ¬ OfElement m key fuel (bucket (t - 1) key) a ∧
      ¬ (block ≤ a ∧ a + 8 ≤ block + elementSize)

/-- The first word that `get` reads. -/
def GetUses (key a : ℕ) : Prop :=
  ∃ m fuel, (entries m key fuel (bucket (key >>> 56) key)).head? = some a

/-- A word of the hash area. -/
def InArea (a : ℕ) : Prop := hashTableStart ≤ a ∧ a + 8 ≤ segmentsAreaStart

/-- No other client uses the word, or a part of it, for any key. -/
def OnlyOf (t a : ℕ) : Prop :=
  ∀ t' key' a', 1 ≤ t' → t' ≤ maxThread → t' ≠ t → PutUses t' key' a' → a + 8 ≤ a' ∨ a' + 8 ≤ a

instance (a : ℕ) : Decidable (InArea a) := inferInstanceAs (Decidable (_ ∧ _))

variable {m m' : Mem ℕ} {t key value block fuel entry a d : ℕ}

theorem head?_entries (h : (entries m key fuel entry).head? = some a) : a = entry := by
  cases fuel with
  | zero => cases h
  | succ fuel => exact (Option.some.inj h).symm

/-- The word at which the loop ends is one that it read: the first one, or the link of an element. -/
theorem walk_last (h : walk m key fuel entry = some (.last a)) :
    a = entry ∨ OfElement m key fuel entry a := by
  induction fuel generalizing entry with
  | zero => cases h
  | succ fuel ih =>
    rw [walk] at h
    by_cases empty : m.loc entry = 0
    · rw [if_pos empty] at h
      cases h
      exact .inl rfl
    · by_cases found : m.loc (m.loc entry + sizeofCXLObj) = key
      · rw [if_neg empty, if_pos found] at h
        cases h
      · rw [if_neg empty, if_neg found] at h
        have read : entries m key (fuel + 1) entry =
            entry :: entries m key fuel (m.loc entry + sizeofCXLObj + 16) := by
          rw [entries, if_neg empty, if_neg found]
        right
        rcases ih h with rfl | ⟨c, mem, some, link⟩
        · exact ⟨entry, by rw [read]; exact List.mem_cons_self, empty, .inr rfl⟩
        · exact ⟨c, by rw [read]; exact List.mem_cons_of_mem entry mem, some, link⟩

theorem walk_data (h : walk m key fuel entry = some (.data d)) :
    OfElement m key fuel entry (d + 8) := by
  induction fuel generalizing entry with
  | zero => cases h
  | succ fuel ih =>
    rw [walk] at h
    by_cases empty : m.loc entry = 0
    · rw [if_pos empty] at h
      cases h
    · by_cases found : m.loc (m.loc entry + sizeofCXLObj) = key
      · rw [if_neg empty, if_pos found] at h
        cases h
        exact ⟨entry, List.mem_cons_self, empty, .inl rfl⟩
      · rw [if_neg empty, if_neg found] at h
        obtain ⟨c, mem, some, value⟩ := ih h
        refine ⟨c, ?_, some, value⟩
        rw [entries, if_neg empty, if_neg found]
        exact List.mem_cons_of_mem entry mem

/-- Besides words of elements and of the new block, `put` writes its bucket only. -/
theorem put_writes (h : put t m key value block fuel = some m') (changed : m'.loc a ≠ m.loc a) :
    a = bucket (t - 1) key ∨ OfElement m key fuel (bucket (t - 1) key) a ∨
      block ≤ a ∧ a + 8 ≤ block + elementSize := by
  rw [put] at h
  cases ended : walk m key fuel (bucket (t - 1) key) with
  | none => simp [ended] at h
  | some found =>
    cases found with
    | data d =>
      simp only [ended, Option.some.injEq] at h
      subst h
      have here : a = d + 8 := by
        by_contra other
        apply changed
        exact Function.update_of_ne other _ _
      rw [here]
      exact .inr (.inl (walk_data ended))
    | last entry =>
      simp only [ended] at h
      obtain ⟨m₁, linked, words⟩ := linkReference_loc t (newElement t m key value block) entry block
      rw [linked] at h
      obtain rfl := Option.some.inj h
      by_cases here : a = entry
      · rw [here]
        rcases walk_last ended with bucket | element
        · exact .inl bucket
        · exact .inr (.inl element)
      · right
        right
        rw [words, Function.update_of_ne here, newElement_loc] at changed
        have size : elementSize = 48 := rfl
        by_contra outside
        rw [if_neg (by omega), if_neg (by omega), if_neg (by omega), if_neg (by omega)] at changed
        exact changed rfl

/-- The word that `put` uses as a bucket is that of the client's id and the key. -/
theorem putUses_iff : PutUses t key a ↔ a = bucket (t - 1) key := by
  constructor
  · rintro ⟨m, fuel, first | ⟨value, block, m', done, changed, element, new⟩⟩
    · exact head?_entries first
    · exact ((put_writes done changed).resolve_right (not_or.2 ⟨element, new⟩))
  · rintro rfl
    exact ⟨CxlShm.State.init.mem, 1, .inl rfl⟩

theorem getUses_iff : GetUses key a ↔ a = bucket (key >>> 56) key := by
  constructor
  · rintro ⟨m, fuel, first⟩
    exact head?_entries first
  · rintro rfl
    exact ⟨CxlShm.State.init.mem, 1, rfl⟩

/-- The offset of a bucket in its partition. -/
theorem bucket_eq (partition key : ℕ) : ∃ i, i < 131072 ∧
    bucket partition key = 67108864 + 1048576 * partition + 8 * i := by
  refine ⟨key &&& ((1 <<< 17) - 1), ?_, ?_⟩
  · rw [Nat.one_shiftLeft, Nat.and_two_pow_sub_one_eq_mod]
    exact Nat.mod_lt _ (by decide)
  · rw [bucket, Nat.mul_comm partition]
    rfl

theorem inArea_bucket (partition key : ℕ) : InArea (bucket partition key) ↔ partition < 64 := by
  obtain ⟨i, small, here⟩ := bucket_eq partition key
  rw [here]
  change 67108864 ≤ _ ∧ _ ≤ 134217728 ↔ _
  omega

/-- The partitions of different clients lie apart. -/
theorem onlyOf_bucket (from_one : 1 ≤ t) : OnlyOf t (bucket (t - 1) key) := by
  intro t' key' a' from_one' _ other used
  obtain ⟨i, small, here⟩ := bucket_eq (t - 1) key
  obtain ⟨i', small', here'⟩ := bucket_eq (t' - 1) key'
  rw [putUses_iff.1 used, here, here']
  omega

/-- A client's `put` stays in the hash area, in a partition of its own, if and only if the client is
one of the first 64; `get` reads a bucket of the area if and only if the top byte of the key is one
of the first 64. -/
theorem buckets_in_area_iff (t key : ℕ) (from_one : 1 ≤ t) (_ : t ≤ maxThread) :
    ((∀ a, PutUses t key a → InArea a ∧ OnlyOf t a) ↔ t ≤ 64) ∧
      ((∀ a, GetUses key a → InArea a) ↔ key >>> 56 < 64) := by
  constructor
  · constructor
    · intro inside
      have here := (inside _ (putUses_iff.2 rfl)).1
      rw [inArea_bucket] at here
      omega
    · intro few a used
      rw [putUses_iff.1 used, inArea_bucket]
      exact ⟨by omega, onlyOf_bucket from_one⟩
  · constructor
    · intro inside
      exact (inArea_bucket _ key).1 (inside _ (getUses_iff.2 rfl))
    · intro small a used
      rw [getUses_iff.1 used, inArea_bucket]
      exact small

/-- The last client that fits, and a key of the last partition. -/
theorem buckets_in_area_iff_last :
    ((∀ a, PutUses 64 (63 <<< 56) a → InArea a ∧ OnlyOf 64 a) ↔ 64 ≤ 64) ∧
      ((∀ a, GetUses (63 <<< 56) a → InArea a) ↔ (63 <<< 56) >>> 56 < 64) :=
  buckets_in_area_iff 64 (63 <<< 56) (by decide) (by decide)

/-- Client 65 puts the key 0: its bucket is the first word of the first segment, whose header it
overwrites with the offset of the new element. -/
theorem header_is_bucket :
    (∃ m', put 65 CxlShm.State.init.mem 0 1 firstBlock 1 = some m' ∧
        m'.loc segmentsAreaStart = firstBlock) ∧
      ¬ ∀ a, PutUses 65 0 a → InArea a ∧ OnlyOf 65 a := by
  constructor
  · have empty : walk CxlShm.State.init.mem 0 1 (bucket (65 - 1) 0) =
        some (.last segmentsAreaStart) := by
      decide
    obtain ⟨m', linked, words⟩ := linkReference_loc 65
      (newElement 65 CxlShm.State.init.mem 0 1 firstBlock) segmentsAreaStart firstBlock
    refine ⟨m', ?_, by rw [words, Function.update_self]⟩
    rw [put, empty]
    exact linked
  · intro claim
    have inside := (claim _ (putUses_iff.2 rfl)).1
    revert inside
    decide

end CxlShm.Hash
