import CxlShm.Lib.Chain
import CxlShm.Lib.Reachability
import CxlShm.Reference.Machine

/-!
# The hash index

`put` and `get` keep key-value pairs in chains of objects.  A bucket is a word of the table area: the
area has a partition of 1 MiB for each of the first 64 clients, and the low 17 bits of the key select
the word.  `put` takes the partition of the calling client, `get` that of the top byte of the key.

The words of the memory are `Mem.loc`, with the address of a word as its location; the calls of a run
do not overlap.  The allocator is left open: a `put` gets a block that overlaps no element, and what
else is written outside the table and the elements is a step of its own.  As long as `get` is asked
for keys of the first 64 partitions only, the index is a map (`index_is_map`); other keys have their
buckets inside the segments, where anything may stand (`get_beyond_table`).
-/

namespace CxlShm.Hash

open Linked Reachability

/-- The offset of the key in an element, from the start of its block; the value and the link to the
next element follow. -/
def keyOffset : ℕ := sizeofCXLObj

/-- The size of an element: `CXLObj` and three words. -/
def elementSize : ℕ := sizeofCXLObj + 24

/-- The word of the table for a key in a partition. -/
def bucket (partition key : ℕ) : ℕ :=
  hashTableStart + partition * hashTableSize + 8 * (key &&& ((1 <<< 17) - 1))

/-- How a walk ends: at an element with the key (`data`, as the source calls the address of the key
in the element), or at a word that is 0. -/
inductive Found
  | data (d : ℕ)
  | last (entry : ℕ)
  deriving DecidableEq, Repr

/-- `while(*entry != 0)`, with a bound on the iterations. -/
def walk (m : Mem ℕ) (key : ℕ) : ℕ → ℕ → Option Found
  | 0, _ => none
  | fuel + 1, entry =>
    if m.loc entry = 0 then some (.last entry)
    else if m.loc (m.loc entry + sizeofCXLObj) = key then some (.data (m.loc entry + sizeofCXLObj))
    else walk m key fuel (m.loc entry + sizeofCXLObj + 16)

/-- `get`, with what it returns and what it leaves in `value`. -/
def get (m : Mem ℕ) (key value fuel : ℕ) : Option (Bool × ℕ) :=
  match walk m key fuel (bucket (key >>> 56) key) with
  | none => none
  | some (.data d) => some (true, m.loc (d + 8))
  | some (.last _) => some (false, value)

/-- An activation that nobody interferes with, with a bound on the accesses. -/
def runAlone (t : ℕ) : ℕ → Mem ℕ → Call ℕ → Option (Mem ℕ)
  | 0, _, _ => none
  | fuel + 1, m, c =>
    match c.exec t m false with
    | (m', none) => some m'
    | (m', some c') => runAlone t fuel m' c'

/-- `link_reference(ref, refed)` by itself; it takes at most eight accesses. -/
def linkReference (t : ℕ) (m : Mem ℕ) (ref refed : ℕ) : Option (Mem ℕ) :=
  runAlone t 8 m ⟨.linkRef, ref, refed, .loadInfo, 0, 0⟩

/-- The stores of `put` into a new element. -/
def newElement (t : ℕ) (m : Mem ℕ) (key value : ℕ) (block : ℕ) : Mem ℕ :=
  ((((m.setRefInfo block (packRefInfo t 0 (m.era t t))).setLoc (block + 16) 0).setLoc
    (block + keyOffset) key).setLoc (block + keyOffset + 8) value).setLoc (block + keyOffset + 16) 0

/-- `put` by client `t`, which the allocator gives `block` if it asks for one. -/
def put (t : ℕ) (m : Mem ℕ) (key value : ℕ) (block : ℕ) (fuel : ℕ) :
    Option (Mem ℕ) :=
  match walk m key fuel (bucket (t - 1) key) with
  | none => none
  | some (.data d) => some (m.setLoc (d + 8) value)
  | some (.last entry) => linkReference t (newElement t m key value block) entry block

/-! ## Runs -/

/-- The memory, the elements handed out so far, and what was put last under each key. -/
structure State where
  mem : Mem ℕ
  elements : List ℕ
  last : ℕ → Option ℕ

/-- What happens next: a `put`, or a store of somebody outside the index. -/
inductive Action
  | put (t key value : ℕ) (block : ℕ) (fuel : ℕ)
  | store (a : ℕ) (w : ℕ)

namespace State

/-- A zeroed table. -/
def init : State where
  mem := CxlShm.State.init.mem
  elements := []
  last _ := none

variable (s : State)

/-- The block lies in the segments and overlaps no element. -/
def Fresh (block : ℕ) : Prop :=
  segmentsAreaStart ≤ block ∧ ∀ e ∈ s.elements, block + elementSize ≤ e ∨ e + elementSize ≤ block

/-- The word is neither in the table nor in an element. -/
def Outside (a : ℕ) : Prop :=
  (a + 8 ≤ hashTableStart ∨ segmentsAreaStart ≤ a) ∧
    ∀ e ∈ s.elements, a + 8 ≤ e ∨ e + elementSize ≤ a

/-- The elements after a `put`: the block is taken if the walk finds no element. -/
def handOut (t key : ℕ) (block : ℕ) (fuel : ℕ) : List ℕ :=
  match walk s.mem key fuel (bucket (t - 1) key) with
  | some (.last _) => block :: s.elements
  | some (.data _) | none => s.elements

/-- The step function. -/
def step : Action → Option State
  | .put t key value block fuel =>
    match put t s.mem key value block fuel with
    | none => none
    | some m =>
      some
        { mem := m
          elements := s.handOut t key block fuel
          last := Function.update s.last key (some value) }
  | .store a w => some { s with mem := s.mem.setLoc a w }

end State

/-- Clients 1 to 64 put keys with their own top byte, and elements do not overlap what others use. -/
def Partitioned (s : State) : Action → State → Prop
  | .put t key _ block _, _ => 1 ≤ t ∧ t ≤ 64 ∧ key >>> 56 = t - 1 ∧ s.Fresh block
  | .store a _, _ => s.Outside a

instance (s : State) (block : ℕ) : Decidable (s.Fresh block) :=
  inferInstanceAs (Decidable (_ ∧ _))

instance (s : State) (a : ℕ) : Decidable (s.Outside a) := inferInstanceAs (Decidable (_ ∧ _))

instance (s s' : State) : (a : Action) → Decidable (Partitioned s a s')
  | .put _ _ _ _ _ => inferInstanceAs (Decidable (_ ∧ _ ∧ _ ∧ _))
  | .store a _ => inferInstanceAs (Decidable (s.Outside a))

/-! ## One call -/

/-- By itself, `link_reference` returns, and of the words it writes the location only. -/
theorem linkReference_loc (t : ℕ) (m : Mem ℕ) (ref refed : ℕ) :
    ∃ m', linkReference t m ref refed = some m' ∧ m'.loc = Function.update m.loc ref refed := by
  unfold linkReference
  by_cases saw : m.era t (getLcidFromInfo (m.refInfo refed)) < getLenumFromInfo (m.refInfo refed)
  · simp [runAlone, Call.exec, Call.afterInfo, Call.afterEra, Call.afterEle, Call.sawCid, Call.sawEra,
      Call.last, Call.newRef, Mem.setEra, Mem.setRedo, Mem.setRefInfo, Mem.setLoc, Mem.bumpEra, saw]
  · simp [runAlone, Call.exec, Call.afterInfo, Call.afterEra, Call.afterEle, Call.sawCid, Call.sawEra,
      Call.last, Call.newRef, Mem.setEra, Mem.setRedo, Mem.setRefInfo, Mem.setLoc, Mem.bumpEra, saw]

/-- The word that links an element to the next one. -/
def nextCell (b : ℕ) : ℕ := b + sizeofCXLObj + 16

/-- Where the walk along a chain ends. -/
def locate (m : Mem ℕ) (key : ℕ) : ℕ → List ℕ → Found
  | c, [] => .last c
  | _, b :: l => if m.loc (b + sizeofCXLObj) = key then .data (b + sizeofCXLObj)
    else locate m key (nextCell b) l

/-- What a chain has under a key. -/
def lookup (m : Mem ℕ) (key : ℕ) : List ℕ → Option ℕ
  | [] => none
  | b :: l => if m.loc (b + sizeofCXLObj) = key then some (m.loc (b + sizeofCXLObj + 8))
    else lookup m key l

section

variable {m m' : Mem ℕ} {key : ℕ} {c : ℕ} {l : List ℕ}

/-- The walk over a chain ends, within one iteration more than the chain has elements. -/
theorem walk_eq_locate (key : ℕ) (h : Path m.loc nextCell 0 c l) {fuel : ℕ} (enough : l.length < fuel) :
    walk m key fuel c = some (locate m key c l) := by
  induction l generalizing c fuel with
  | nil =>
    obtain ⟨fuel, rfl⟩ : ∃ n, fuel = n + 1 := ⟨fuel - 1, by simp at enough; omega⟩
    simp [walk, locate, path_nil.1 h]
  | cons b l ih =>
    obtain ⟨fuel, rfl⟩ : ∃ n, fuel = n + 1 := ⟨fuel - 1, by simp at enough; omega⟩
    obtain ⟨rfl, different, rest⟩ := path_cons.1 h
    simp only [List.length_cons, Nat.add_lt_add_iff_right] at enough
    by_cases found : m.loc (m.loc c + sizeofCXLObj) = key
    · simp [walk, locate, different, found]
    · simp only [walk, locate, different, found, if_false]
      exact ih rest enough

/-- More iterations change nothing. -/
theorem walk_mono {found : Found} {fuel fuel' : ℕ} (h : walk m key fuel c = some found)
    (more : fuel ≤ fuel') : walk m key fuel' c = some found := by
  induction fuel generalizing c fuel' with
  | zero => cases h
  | succ n ih =>
    obtain ⟨n', rfl⟩ : ∃ k, fuel' = k + 1 := ⟨fuel' - 1, by omega⟩
    by_cases zero : m.loc c = 0
    · simpa [walk, zero] using h
    · by_cases found : m.loc (m.loc c + sizeofCXLObj) = key
      · simpa [walk, zero, found] using h
      · simp only [walk, zero, found, if_false] at h ⊢
        exact ih h (Nat.le_of_succ_le_succ more)

/-- A walk over a chain can only end where the chain says. -/
theorem locate_of_walk (h : Path m.loc nextCell 0 c l) {fuel : ℕ} {found : Found}
    (ended : walk m key fuel c = some found) : found = locate m key c l := by
  have whole := walk_eq_locate key h (Nat.lt_succ_self l.length)
  have longer := walk_mono ended (le_max_left fuel (l.length + 1))
  rw [walk_mono whole (le_max_right fuel (l.length + 1))] at longer
  exact (Option.some.inj longer).symm

theorem lookup_of_data {d : ℕ} (h : locate m key c l = .data d) :
    ∃ b ∈ l, d = b + sizeofCXLObj ∧ m.loc d = key ∧ lookup m key l = some (m.loc (d + 8)) := by
  induction l generalizing c with
  | nil => cases h
  | cons b l ih =>
    by_cases found : m.loc (b + sizeofCXLObj) = key
    · simp only [locate, found, if_true, Found.data.injEq] at h
      subst h
      exact ⟨b, List.mem_cons_self, rfl, found, by simp [lookup, found]⟩
    · simp only [locate, found, if_false] at h
      obtain ⟨b', mem, rest⟩ := ih h
      exact ⟨b', List.mem_cons_of_mem b mem, by simpa [lookup, found] using rest⟩

theorem lookup_of_last {entry : ℕ} (h : locate m key c l = .last entry) :
    entry = lastCell nextCell c l ∧ lookup m key l = none := by
  induction l generalizing c with
  | nil =>
    cases h
    exact ⟨rfl, rfl⟩
  | cons b l ih =>
    by_cases found : m.loc (b + sizeofCXLObj) = key
    · simp [locate, found] at h
    · simp only [locate, found, if_false] at h
      simpa [lookup, found, lastCell] using ih h

/-- The keys of a chain, and the values under one of them, decide what it has under that key. -/
theorem lookup_congr (keys : ∀ b ∈ l, m'.loc (b + sizeofCXLObj) = m.loc (b + sizeofCXLObj))
    (values : ∀ b ∈ l, m.loc (b + sizeofCXLObj) = key →
      m'.loc (b + sizeofCXLObj + 8) = m.loc (b + sizeofCXLObj + 8)) :
    lookup m' key l = lookup m key l := by
  induction l with
  | nil => rfl
  | cons b l ih =>
    have rest := ih (fun x mem => keys x (List.mem_cons_of_mem b mem))
      (fun x mem => values x (List.mem_cons_of_mem b mem))
    simp only [lookup, keys b List.mem_cons_self, rest]
    split
    · rw [values b List.mem_cons_self ‹_›]
    · rfl

/-- A store of the value into the element that was found. -/
theorem lookup_of_store {d : ℕ} (h : locate m key c l = .data d) {value : ℕ}
    (keys : ∀ b ∈ l, m'.loc (b + sizeofCXLObj) = m.loc (b + sizeofCXLObj))
    (stored : m'.loc (d + 8) = value) : lookup m' key l = some value := by
  induction l generalizing c with
  | nil => cases h
  | cons b l ih =>
    simp only [lookup, keys b List.mem_cons_self]
    by_cases found : m.loc (b + sizeofCXLObj) = key
    · simp only [locate, found, if_true, Found.data.injEq] at h
      subst h
      simp [found, stored]
    · simp only [locate, found, if_false] at h ⊢
      exact ih h fun x mem => keys x (List.mem_cons_of_mem b mem)

theorem lookup_append (l' : List ℕ) :
    lookup m key (l ++ l') = (lookup m key l).or (lookup m key l') := by
  induction l with
  | nil => rfl
  | cons b l ih =>
    by_cases found : m.loc (b + sizeofCXLObj) = key <;> simp [lookup, found, ih]

end

/-! ## The invariant -/

/-- The word of the table that `get` starts from. -/
def home (key : ℕ) : ℕ := bucket (key >>> 56) key

theorem home_bounds {key : ℕ} (h : key >>> 56 < 64) :
    hashTableStart ≤ home key ∧ home key + 8 ≤ segmentsAreaStart := by
  have low : key &&& ((1 <<< 17) - 1) < 2 ^ 17 := by
    rw [Nat.one_shiftLeft, Nat.and_two_pow_sub_one_eq_mod]
    exact Nat.mod_lt _ (by norm_num)
  have table : hashTableStart = 2 ^ 26 := rfl
  have partition : hashTableSize = 2 ^ 20 := rfl
  have segments : segmentsAreaStart = 2 ^ 27 := rfl
  rw [home, bucket, table, partition, segments]
  omega

/-- The elements lie apart in the segments, and every bucket has the chain of the keys put there. -/
structure IndexInv (s : State) : Prop where
  above : ∀ e ∈ s.elements, segmentsAreaStart ≤ e
  apart : ∀ e ∈ s.elements, ∀ e' ∈ s.elements, e = e' ∨ e + elementSize ≤ e' ∨ e' + elementSize ≤ e
  chain : ∀ key, key >>> 56 < 64 → ∃ l, Path s.mem.loc nextCell 0 (home key) l ∧
    (∀ b ∈ l, b ∈ s.elements ∧ home (s.mem.loc (b + sizeofCXLObj)) = home key) ∧
    lookup s.mem key l = s.last key

theorem IndexInv.init : IndexInv State.init where
  above _ h := by cases h
  apart _ h := by cases h
  chain _ _ := ⟨[], rfl, fun _ h => (by cases h), rfl⟩

section

variable {s : State}

/-- A word that is no bucket and in no element can change. -/
theorem IndexInv.store (h : IndexInv s) {a : ℕ} (outside : s.Outside a) (w : ℕ) :
    IndexInv { s with mem := s.mem.setLoc a w } := by
  obtain ⟨table, elements⟩ := outside
  have inside : ∀ e ∈ s.elements, ∀ i < elementSize, (s.mem.setLoc a w).loc (e + i) = s.mem.loc (e + i) := by
    intro e he i hi
    refine Function.update_of_ne ?_ _ _
    have := elements e he
    omega
  refine ⟨h.above, h.apart, fun key small => ?_⟩
  obtain ⟨l, path, keys, held⟩ := h.chain key small
  have start : (s.mem.setLoc a w).loc (home key) = s.mem.loc (home key) := by
    refine Function.update_of_ne ?_ _ _
    have := home_bounds small
    omega
  refine ⟨l, path.congr start fun b hb => ?_, fun b hb => ?_, ?_⟩
  · exact inside b (keys b hb).1 (sizeofCXLObj + 16) (by decide)
  · rw [inside b (keys b hb).1 sizeofCXLObj (by decide)]
    exact keys b hb
  · rw [← held]
    apply lookup_congr
    · exact fun b hb => inside b (keys b hb).1 sizeofCXLObj (by decide)
    · exact fun b hb _ => inside b (keys b hb).1 (sizeofCXLObj + 8) (by decide)

/-- An update in place. -/
theorem IndexInv.update (h : IndexInv s) {key : ℕ} (small : key >>> 56 < 64) {l : List ℕ}
    (path : Path s.mem.loc nextCell 0 (home key) l)
    (keys : ∀ b ∈ l, b ∈ s.elements ∧ home (s.mem.loc (b + sizeofCXLObj)) = home key)
    {d : ℕ} (found : locate s.mem key (home key) l = .data d) (value : ℕ) :
    IndexInv { s with
      mem := s.mem.setLoc (d + 8) value
      last := Function.update s.last key (some value) } := by
  obtain ⟨b, mem, rfl, hasKey, -⟩ := lookup_of_data found
  have hb := (keys b mem).1
  have aboveB := h.above b hb
  have size : elementSize = 48 := rfl
  have header : sizeofCXLObj = 24 := rfl
  have other : ∀ e ∈ s.elements, ∀ i < elementSize, i ≠ sizeofCXLObj + 8 ∨ e ≠ b →
      (s.mem.setLoc (b + sizeofCXLObj + 8) value).loc (e + i) = s.mem.loc (e + i) := by
    intro e he i hi different
    refine Function.update_of_ne ?_ _ _
    have := h.apart e he b hb
    omega
  refine ⟨h.above, h.apart, fun key' small' => ?_⟩
  obtain ⟨l', path', keys', held⟩ := h.chain key' small'
  have start : (s.mem.setLoc (b + sizeofCXLObj + 8) value).loc (home key') = s.mem.loc (home key') := by
    refine Function.update_of_ne ?_ _ _
    have := home_bounds small'
    omega
  have sameKeys : ∀ e ∈ l', (s.mem.setLoc (b + sizeofCXLObj + 8) value).loc (e + sizeofCXLObj) =
      s.mem.loc (e + sizeofCXLObj) := fun e he =>
    other e (keys' e he).1 sizeofCXLObj (by decide) (.inl (by decide))
  refine ⟨l', path'.congr start fun e he => ?_, fun e he => ?_, ?_⟩
  · exact other e (keys' e he).1 (sizeofCXLObj + 16) (by decide) (.inl (by decide))
  · rw [sameKeys e he]
    exact keys' e he
  · by_cases same : key' = key
    · subst same
      obtain rfl : l = l' := path.unique path'
      show lookup _ key' l = Function.update s.last key' (some value) key'
      rw [Function.update_self]
      exact lookup_of_store found sameKeys (Function.update_self _ _ _)
    · refine Eq.trans ?_ (held.trans (Function.update_of_ne same _ _).symm)
      refine lookup_congr sameKeys fun e he its => ?_
      refine other e (keys' e he).1 (sizeofCXLObj + 8) (by decide) (.inr ?_)
      rintro rfl
      exact same (its.symm.trans hasKey)

section

variable (t : ℕ) (m : Mem ℕ) (key value block : ℕ)

/-- The words of a new element, and the others. -/
theorem newElement_loc (a : ℕ) : (newElement t m key value block).loc a =
    if a = block + 40 then 0 else if a = block + 32 then value else if a = block + 24 then key
      else if a = block + 16 then 0 else m.loc a := by
  simp only [newElement, Mem.setLoc, Mem.setRefInfo, Function.update_apply]
  rfl

end

/-- A new element at the end of the chain. -/
theorem IndexInv.append (h : IndexInv s) {t key block : ℕ} (small : key >>> 56 < 64)
    (fresh : s.Fresh block) {l : List ℕ} (path : Path s.mem.loc nextCell 0 (home key) l)
    (keys : ∀ b ∈ l, b ∈ s.elements ∧ home (s.mem.loc (b + sizeofCXLObj)) = home key)
    {entry : ℕ} (found : locate s.mem key (home key) l = .last entry) (value : ℕ) {m : Mem ℕ}
    (linked : m.loc = Function.update (newElement t s.mem key value block).loc entry block) :
    IndexInv
      { mem := m
        elements := block :: s.elements
        last := Function.update s.last key (some value) } := by
  obtain ⟨rfl, none⟩ := lookup_of_last found
  obtain ⟨aboveBlock, apartBlock⟩ := fresh
  have size : elementSize = 48 := rfl
  have header : sizeofCXLObj = 24 := rfl
  have cell : ∀ b, nextCell b = b + 40 := fun b => rfl
  have base := home_bounds small
  have word := newElement_loc t s.mem key value block
  generalize newElement t s.mem key value block = new at linked word
  -- what the element is written over is of no chain
  have oldWord : ∀ e ∈ s.elements, ∀ i < elementSize, new.loc (e + i) = s.mem.loc (e + i) := by
    intro e he i hi
    have := apartBlock e he
    rw [word, if_neg (by omega), if_neg (by omega), if_neg (by omega), if_neg (by omega)]
  have oldHome : ∀ key', key' >>> 56 < 64 → new.loc (home key') = s.mem.loc (home key') := by
    intro key' small'
    have := home_bounds small'
    rw [word, if_neg (by omega), if_neg (by omega), if_neg (by omega), if_neg (by omega)]
  have notIn : block ∉ s.elements := by
    intro again
    have := apartBlock block again
    omega
  -- the link goes into the bucket, or into the link of an old element
  have entryAt : lastCell nextCell (home key) l = home key ∨
      ∃ e ∈ l, e ∈ s.elements ∧ lastCell nextCell (home key) l = e + 40 := by
    rcases lastCell_eq (home key) l with same | ⟨e, he, same⟩
    · exact .inl same
    · exact .inr ⟨e, he, (keys e he).1, same⟩
  have kept : ∀ a, a ≠ lastCell nextCell (home key) l → m.loc a = new.loc a := fun a ha => by
    rw [linked, Function.update_of_ne ha]
  have keptIn : ∀ e, e ∈ s.elements ∨ e = block → ∀ i, i = 24 ∨ i = 32 → m.loc (e + i) = new.loc (e + i) := by
    intro e he i hi
    apply kept
    rcases entryAt with same | ⟨e', -, he', same⟩
    · have : segmentsAreaStart ≤ e := he.elim (h.above e) fun new => new ▸ aboveBlock
      omega
    · rcases he with he | rfl
      · have := h.apart e he e' he'
        omega
      · have := apartBlock e' he'
        omega
  have oldKey : ∀ e ∈ s.elements, m.loc (e + sizeofCXLObj) = s.mem.loc (e + sizeofCXLObj) := fun e he =>
    (keptIn e (.inl he) 24 (.inl rfl)).trans (oldWord e he 24 (by decide))
  have oldValue : ∀ e ∈ s.elements, m.loc (e + sizeofCXLObj + 8) = s.mem.loc (e + sizeofCXLObj + 8) :=
    fun e he => (keptIn e (.inl he) 32 (.inr rfl)).trans (oldWord e he 32 (by decide))
  have newKey : m.loc (block + sizeofCXLObj) = key :=
    (keptIn block (.inr rfl) 24 (.inl rfl)).trans (by simp [word])
  have newValue : m.loc (block + sizeofCXLObj + 8) = value :=
    (keptIn block (.inr rfl) 32 (.inr rfl)).trans (by simp [word])
  refine ⟨?_, ?_, fun key' small' => ?_⟩
  · intro e he
    rcases List.mem_cons.1 he with rfl | he
    · exact aboveBlock
    · exact h.above e he
  · intro e he e' he'
    rcases List.mem_cons.1 he with rfl | old <;> rcases List.mem_cons.1 he' with rfl | old'
    · exact .inl rfl
    · exact .inr (apartBlock e' old')
    · exact .inr (apartBlock e old).symm
    · exact h.apart e old e' old'
  obtain ⟨l', path', keys', held⟩ := h.chain key' small'
  have sameLookup : lookup m key' l' = lookup s.mem key' l' :=
    lookup_congr (fun e he => oldKey e (keys' e he).1) fun e he _ => oldValue e (keys' e he).1
  by_cases bucket : home key' = home key
  · rw [bucket] at path' keys'
    obtain rfl : l = l' := path.unique path'
    have path₁ : Path new.loc nextCell 0 (home key) l :=
      path.congr (oldHome key small) fun e he => oldWord e (keys e he).1 40 (by decide)
    have whole := path₁.append (x := block) (by omega) (by rw [word]; exact if_pos rfl)
      (fun e he => ?_) (fun e _ e' _ same => ?_) fun again => notIn (keys block again).1
    · refine ⟨l ++ [block], ?_, fun e he => ?_, ?_⟩
      · rw [bucket]
        show Path m.loc nextCell 0 (home key) (l ++ [block])
        rwa [linked]
      · rcases List.mem_append.1 he with old | last
        · have hits := keys e old
          exact ⟨List.mem_cons_of_mem _ hits.1, by rw [oldKey e hits.1, hits.2, bucket]⟩
        · obtain rfl := List.mem_singleton.1 last
          exact ⟨List.mem_cons_self, by rw [newKey, bucket]⟩
      · show lookup m key' (l ++ [block]) = Function.update s.last key (some value) key'
        rw [lookup_append, sameLookup]
        by_cases same : key' = key
        · subst same
          rw [none, Function.update_self, Option.none_or]
          simp [lookup, newKey, newValue]
        · have other : ¬ key = key' := fun back => same back.symm
          rw [held, Function.update_of_ne same]
          simp [lookup, newKey, other]
    · have : segmentsAreaStart ≤ e := by
        rcases List.mem_cons.1 he with rfl | he
        · exact aboveBlock
        · exact h.above e (keys e he).1
      rw [cell]
      omega
    · rw [cell, cell] at same
      omega
  · have start : m.loc (home key') = s.mem.loc (home key') := by
      refine (kept _ fun same => ?_).trans (oldHome key' small')
      rcases entryAt with first | ⟨e, -, he, last⟩
      · exact bucket (same.trans first)
      · have := home_bounds small'
        have := h.above e he
        omega
    refine ⟨l', path'.congr start fun e he => ?_, fun e he => ?_, ?_⟩
    · refine (kept _ fun same => ?_).trans (oldWord e (keys' e he).1 40 (by decide))
      rw [cell] at same
      rcases entryAt with first | ⟨e', inChain, -, last⟩
      · have := h.above e (keys' e he).1
        omega
      · obtain rfl : e = e' := by omega
        exact bucket ((keys' e he).2.symm.trans (keys e inChain).2)
    · have hits := keys' e he
      exact ⟨List.mem_cons_of_mem _ hits.1, by rw [oldKey e hits.1, hits.2]⟩
    · show lookup m key' l' = Function.update s.last key (some value) key'
      have other : key' ≠ key := fun same => bucket (by rw [same])
      rw [sameLookup, held, Function.update_of_ne other]

theorem IndexInv.step (h : IndexInv s) {a : Action} {s' : State} (hs : s.step a = some s')
    (ok : Partitioned s a s') : IndexInv s' := by
  cases a with
  | put t key value block fuel =>
    obtain ⟨first, few, own, fresh⟩ := ok
    have small : key >>> 56 < 64 := by omega
    have start : bucket (t - 1) key = home key := by rw [home, own]
    obtain ⟨l, path, keys, -⟩ := h.chain key small
    simp only [State.step, put, State.handOut, start] at hs
    cases ended : walk s.mem key fuel (home key) with
    | none => simp [ended] at hs
    | some found =>
      have at_end := locate_of_walk path ended
      cases found with
      | data d =>
        simp only [ended, Option.some.injEq] at hs
        subst hs
        exact h.update small path keys at_end.symm value
      | last entry =>
        simp only [ended] at hs
        obtain ⟨m, linked, words⟩ :=
          linkReference_loc t (newElement t s.mem key value block) entry block
        rw [linked] at hs
        obtain rfl := Option.some.inj hs
        exact h.append small fresh path keys at_end.symm value words
  | store a w =>
    obtain rfl := Option.some.inj hs
    exact h.store ok w

theorem indexInv_of_reachable (hs : Reachable State.step Partitioned State.init s) : IndexInv s :=
  hs.invariant .init fun _ _ _ h step ok => h.step step ok

/-- What a map with `held` under the key answers. -/
def answer (held : Option ℕ) (value : ℕ) : Bool × ℕ := (held.isSome, held.getD value)

/-- `get` ends, and its answer is that of the map. -/
theorem IndexInv.get (h : IndexInv s) {key : ℕ} (small : key >>> 56 < 64) (value : ℕ) :
    ∃ n, ∀ fuel ≥ n, Hash.get s.mem key value fuel = some (answer (s.last key) value) := by
  obtain ⟨l, path, -, held⟩ := h.chain key small
  refine ⟨l.length + 1, fun fuel enough => ?_⟩
  have ended := walk_eq_locate key path enough
  rw [Hash.get, show bucket (key >>> 56) key = home key from rfl, ended, ← held]
  cases found : locate s.mem key (home key) l with
  | data d =>
    obtain ⟨-, -, -, -, value'⟩ := lookup_of_data found
    simp [value', answer]
  | last entry =>
    obtain ⟨-, none⟩ := lookup_of_last found
    simp [none, answer]

/-- `put` ends, and puts. -/
theorem IndexInv.put (h : IndexInv s) {t key : ℕ} (few : t ≤ 64) (first : 1 ≤ t)
    (own : key >>> 56 = t - 1) (value block : ℕ) :
    ∃ n, ∀ fuel ≥ n, ∃ s', s.step (.put t key value block fuel) = some s' ∧
      s'.last = Function.update s.last key (some value) := by
  have small : key >>> 56 < 64 := by omega
  obtain ⟨l, path, -, -⟩ := h.chain key small
  refine ⟨l.length + 1, fun fuel enough => ?_⟩
  have ended := walk_eq_locate key path enough
  have start : bucket (t - 1) key = home key := by rw [home, own]
  simp only [State.step, Hash.put, start, ended]
  cases found : locate s.mem key (home key) l with
  | data d => exact ⟨_, rfl, rfl⟩
  | last entry =>
    obtain ⟨m, linked, -⟩ := linkReference_loc t (newElement t s.mem key value block) entry block
    simp only [linked]
    exact ⟨_, rfl, rfl⟩

end

/-- As long as `get` is asked for keys of the first 64 partitions: every `get` ends and answers with
what was put last under its key; every `put` ends, and changes what `get` answers for its key only. -/
theorem index_is_map {s : State} (hs : Reachable State.step Partitioned State.init s) :
    (∀ key, key >>> 56 < 64 → ∀ value, ∃ n, ∀ fuel ≥ n,
      get s.mem key value fuel = some (answer (s.last key) value)) ∧
    (∀ t key value block, 1 ≤ t → t ≤ 64 → key >>> 56 = t - 1 → s.Fresh block →
      ∃ n, ∀ fuel ≥ n, ∃ s', s.step (.put t key value block fuel) = some s' ∧
        s'.last key = some value ∧ ∀ key', key' ≠ key → key' >>> 56 < 64 → ∀ value',
          ∃ n', ∀ fuel' ≥ n', get s'.mem key' value' fuel' = get s.mem key' value' fuel') := by
  have h := indexInv_of_reachable hs
  refine ⟨fun key small value => h.get small value, fun t key value block first few own fresh => ?_⟩
  obtain ⟨n, enough⟩ := h.put few first own value block
  refine ⟨n, fun fuel most => ?_⟩
  obtain ⟨s', step, last⟩ := enough fuel most
  have h' := h.step step ⟨first, few, own, fresh⟩
  refine ⟨s', step, by rw [last, Function.update_self], fun key' other small value' => ?_⟩
  obtain ⟨n₁, before⟩ := h.get small value'
  obtain ⟨n₂, after⟩ := h'.get small value'
  refine ⟨max n₁ n₂, fun fuel' both => ?_⟩
  rw [before fuel' (le_of_max_le_left both), after fuel' (le_of_max_le_right both), last,
    Function.update_of_ne other]

/-- The first two blocks of 48 bytes in the first page of the first segment. -/
def firstBlock : ℕ := segmentsAreaStart + pageSize

def secondBlock : ℕ := firstBlock + elementSize

theorem exists_of_puts {puts : List Action} {P : State → Bool}
    (run : (checkedRun State.step (fun s a s' => decide (Partitioned s a s')) State.init puts).any P =
      true) : ∃ s, Reachable State.step Partitioned State.init s ∧ P s = true := by
  have sound : ∀ s a s', True → State.step s a = some s' → decide (Partitioned s a s') = true →
      True ∧ Partitioned s a s' := fun _ _ _ _ _ passed => ⟨trivial, of_decide_eq_true passed⟩
  exact exists_reachable_of_checkedRun sound trivial run

/-- Two keys in one bucket, the first of them put again. -/
theorem index_is_map_colliding : ∃ s, Reachable State.step Partitioned State.init s ∧
    get s.mem 1 0 3 = some (true, 8) ∧ get s.mem (1 + 2 ^ 17) 0 3 = some (true, 9) ∧
    (∃ n, ∀ fuel ≥ n, get s.mem 1 0 fuel = some (answer (s.last 1) 0)) := by
  let puts : List Action := [.put 1 1 7 firstBlock 3, .put 1 (1 + 2 ^ 17) 9 secondBlock 3,
    .put 1 1 8 (secondBlock + elementSize) 3]
  have run : (checkedRun State.step (fun s a s' => decide (Partitioned s a s')) State.init puts).any
      (fun s => get s.mem 1 0 3 = some (true, 8) ∧ get s.mem (1 + 2 ^ 17) 0 3 = some (true, 9)) =
      true := by
    decide +kernel
  obtain ⟨s, hs, last⟩ := exists_of_puts run
  simp only [Bool.decide_and, Bool.and_eq_true, decide_eq_true_eq] at last
  exact ⟨s, hs, last.1, last.2, (index_is_map hs).1 1 (by decide) 0⟩

/-- Partition 64 would begin where the segments do.  Client 1 puts two values into the first two
blocks such that the value of the first is the bucket of a key of that partition, and leads to the
value of the second, which is the key: `get` finds it, though nobody has put it. -/
theorem get_beyond_table : ¬ ∀ s, Reachable State.step Partitioned State.init s →
    ∀ key, key < 2 ^ 64 → ∀ value, ∃ n, ∀ fuel ≥ n,
      get s.mem key value fuel = some (answer (s.last key) value) := by
  intro claim
  let key := 64 * 2 ^ 56 + 8196
  have run : (checkedRun State.step (fun s a s' => decide (Partitioned s a s')) State.init
      [.put 1 1 (secondBlock + 8) firstBlock 1, .put 1 2 key secondBlock 1]).any
      (fun s => s.last key = none ∧ walk s.mem key 1 (home key) = some (.data (secondBlock + 32))) =
      true := by
    decide +kernel
  obtain ⟨s, hs, last⟩ := exists_of_puts run
  simp only [Bool.decide_and, Bool.and_eq_true, decide_eq_true_eq] at last
  obtain ⟨n, answers⟩ := claim s hs key (by decide) 5
  have found := walk_mono last.2 (le_max_right n 1)
  have answered := answers (max n 1) (le_max_left n 1)
  rw [get, show bucket (key >>> 56) key = home key from rfl, found, last.1] at answered
  simp [answer] at answered

end CxlShm.Hash
