import CxlShm.Hash.Index
import CxlShm.Recovery.Clearing

/-!
# A client that stops inside `put`

`put` fills a new element, whose word it stamps with the client's era and the count 0, and then links
it with a log entry of the same era.  So the word already is what `redo_ref_cnt` takes for evidence,
as soon as the entry is there: a client that stops between the entry and the compare-exchange leaves a
bucket or a link to an object without a count, and one that stops anywhere else leaves the partition
in order (`sound_redo_iff`).

The machine is one client's partition of the table, one access of `put` at a time, with what the rest
of the system writes as steps of their own.  The allocator is left open; a block that it hands out
overlaps no element and no word that the log names, since a block that comes back to a free list is
found only after the log has been cleared.
-/

namespace CxlShm.Hash.Crash

open Linked Reachability

/-- The stores of `put` into a new element, in order. -/
inductive Word
  /-- `cxl_obj->ref_info` -/
  | info
  /-- `cxl_obj->embedded_ref_cnt` -/
  | embedded
  /-- `*data` -/
  | key
  /-- `*(data+1)` -/
  | value
  /-- `*(data+2)` -/
  | next
  deriving DecidableEq, Repr

/-- The next access of a `put`.  The walk along the chain only reads, so it is one step; `entry` is
the word it has ended at. -/
inductive Pos
  | idle
  | walk (key value : ℕ)
  /-- `*(data+1) = value` in an element with the key -/
  | found (value d : ℕ)
  /-- in `cxl_page_malloc` -/
  | alloc (key value entry : ℕ)
  /-- the `memset` of the log in `cxl_malloc_generic`, with the entries below `i` zeroed -/
  | clearing (key value entry i : ℕ)
  | fill (w : Word) (key value entry block : ℕ)
  /-- in `link_reference(*entry, block)` -/
  | link (c : Call ℕ)
  deriving DecidableEq

/-- The block that is not yet an element. -/
def Pos.block : Pos → Option ℕ
  | .fill _ _ _ _ block => some block
  | .link c => some c.refed
  | .idle | .walk _ _ | .found _ _ | .alloc _ _ _ | .clearing _ _ _ _ => none

/-- The memory, the position of the client, the elements that have been linked, and the key and the
value that `put` has last written into a block, once it has written all of its words. -/
structure State where
  mem : Mem ℕ
  pos : Pos
  elements : List ℕ
  content : ℕ → Option (ℕ × ℕ)

/-- What happens next.  `next` is the next access of `put`, `take` and `generic` are the two ways of
`cxl_page_malloc`, `crash` stops the client, redoes its slot and lets it register again.  The others
are what the client does between two puts and what other clients do. -/
inductive Action
  | put (key value : ℕ)
  | next (weak : Bool) (fuel : ℕ)
  | take (block : ℕ)
  | generic
  | crash
  | store (a w : ℕ)
  | storeInfo (o w : ℕ)
  | storeEra (x y v : ℕ)
  | ownEra (v : ℕ)
  | log (i : ℕ) (e : Option (RedoLog ℕ))
  deriving DecidableEq

namespace State

/-- Zeroed memory. -/
def init : State := ⟨CxlShm.State.init.mem, .idle, [], fun _ => none⟩

variable (t : ℕ) (s : State)

/-- A store into a new element. -/
def fillStep (w : Word) (key value entry block : ℕ) : State :=
  match w with
  | .info =>
    { s with
      mem := s.mem.setRefInfo block (packRefInfo t 0 (s.mem.era t t))
      pos := .fill .embedded key value entry block }
  | .embedded =>
    { s with mem := s.mem.setLoc (block + 16) 0, pos := .fill .key key value entry block }
  | .key =>
    { s with mem := s.mem.setLoc (block + keyOffset) key, pos := .fill .value key value entry block }
  | .value =>
    { s with
      mem := s.mem.setLoc (block + keyOffset + 8) value
      pos := .fill .next key value entry block }
  | .next =>
    { s with
      mem := s.mem.setLoc (block + keyOffset + 16) 0
      pos := .link ⟨.linkRef, entry, block, .loadInfo, 0, 0⟩
      content := Function.update s.content block (some (key, value)) }

/-- An access of `link_reference`. -/
def linkStep (c : Call ℕ) (weak : Bool) : State :=
  let (m, rest) := c.exec t s.mem weak
  { s with
    mem := m
    pos := rest.elim .idle .link
    elements := if c.pc = .storeRef then c.refed :: s.elements else s.elements }

/-- The next access of the `put`. -/
def putStep (weak : Bool) (fuel : ℕ) : Option State :=
  match s.pos with
  | .idle | .alloc _ _ _ => none
  | .walk key value =>
    match walk s.mem key fuel (bucket (t - 1) key) with
    | none => none
    | some (.data d) => some { s with pos := .found value d }
    | some (.last entry) => some { s with pos := .alloc key value entry }
  | .found value d =>
    some { s with
      mem := s.mem.setLoc (d + 8) value
      pos := .idle
      content := Function.update s.content (d - keyOffset) (some (s.mem.loc d, value)) }
  | .clearing key value entry i =>
    if i < redoCachelineCnt then
      some { s with mem := s.mem.setRedo t i none, pos := .clearing key value entry (i + 1) }
    else some { s with pos := .alloc key value entry }
  | .fill w key value entry block => some (s.fillStep t w key value entry block)
  | .link c => some (s.linkStep t c weak)

/-- The log entry of the call is there. -/
def Written (c : Call ℕ) : Prop :=
  ∃ i < redoCachelineCnt, ∃ e, s.mem.redo t i = some e ∧ e.ref = c.ref ∧ e.refed = c.refed

/-- It is the newest one, which `redo_ref_cnt` takes; so it is unless the era counter has wrapped. -/
def Selected (c : Call ℕ) : Prop :=
  ∃ e, selectRedo s.mem t = some e ∧ e.ref = c.ref ∧ e.refed = c.refed

instance (c : Call ℕ) : Decidable (Selected t s c) :=
  match h : selectRedo s.mem t with
  | none => isFalse fun ⟨e, selected, _⟩ => by rw [h] at selected; cases selected
  | some e =>
    if same : e.ref = c.ref ∧ e.refed = c.refed then isTrue ⟨e, h, same⟩
    else isFalse fun ⟨e', selected, same'⟩ => by
      rw [h] at selected
      obtain rfl := Option.some.inj selected
      exact same same'

/-- The elements after the slot has been redone, which links a new one that is counted. -/
def redoneElements : List ℕ :=
  match s.pos with
  | .link c => if c.pc = .storeRef ∧ s.Selected t c then c.refed :: s.elements else s.elements
  | .idle | .walk _ _ | .found _ _ | .alloc _ _ _ | .clearing _ _ _ _ | .fill _ _ _ _ _ => s.elements

/-- The step function, for the partition of client `t`. -/
def step : Action → Option State
  | .put key value => if s.pos = .idle then some { s with pos := .walk key value } else none
  | .next weak fuel => s.putStep t weak fuel
  | .take block =>
    match s.pos with
    | .alloc key value entry => some { s with pos := .fill .info key value entry block }
    | _ => none
  | .generic =>
    match s.pos with
    | .alloc key value entry => some { s with pos := .clearing key value entry 0 }
    | _ => none
  | .crash =>
    some { s with
      mem := (redoRefCnt s.mem t).1
      pos := .idle
      elements := s.redoneElements t }
  | .store a w => some { s with mem := s.mem.setLoc a w }
  | .storeInfo o w => some { s with mem := s.mem.setRefInfo o w }
  | .storeEra x y v => some { s with mem := s.mem.setEra x y v }
  | .ownEra v => if s.pos = .idle then some { s with mem := s.mem.setEra t t v } else none
  | .log i e => if s.pos = .idle then some { s with mem := s.mem.setRedo t i e } else none

/-- The blocks that belong to the partition. -/
def blocks : List ℕ := s.pos.block.toList ++ s.elements

/-- The word does not overlap the block. -/
def Apart (block a : ℕ) : Prop := a + 8 ≤ block ∨ block + elementSize ≤ a

/-- The word is neither in the partition nor in one of its elements. -/
def Outside (a : ℕ) : Prop :=
  (a + 8 ≤ bucket (t - 1) 0 ∨ bucket (t - 1) 0 + hashTableSize ≤ a) ∧ ∀ b ∈ s.blocks, Apart b a

/-- The block overlaps no element and no word that the log names. -/
def Free (block : ℕ) : Prop :=
  segmentsAreaStart ≤ block ∧ (∀ b ∈ s.elements, block + elementSize ≤ b ∨ b + elementSize ≤ block) ∧
    ∀ i < redoCachelineCnt, ∀ e, s.mem.redo t i = some e → Apart block e.ref

/-- Client `t` is in the `link_reference` of a `put`, has written its log entry, and has not yet
changed the count. -/
def InWindow : Prop :=
  ∃ c, s.pos = .link c ∧ c.pc ≠ .storeRef ∧ c.pc ≠ .bumpEra ∧ s.Selected t c

end State

/-- A bucket or link of the partition that is not 0 leads to an object that is counted and holds the
key and the value that `put` has written, the key being one of the bucket. -/
def Good (t : ℕ) (m : Mem ℕ) (content : ℕ → Option (ℕ × ℕ)) (start b : ℕ) : Prop :=
  1 ≤ getRefCntFromInfo (m.refInfo b) ∧
    content b = some (m.loc (b + keyOffset), m.loc (b + keyOffset + 8)) ∧
    bucket (t - 1) (m.loc (b + keyOffset)) = start

/-- Every chain of the partition ends and consists of such objects. -/
def Sound (t : ℕ) (m : Mem ℕ) (content : ℕ → Option (ℕ × ℕ)) : Prop :=
  ∀ key, ∃ l, Path m.loc nextCell 0 (bucket (t - 1) key) l ∧
    ∀ b ∈ l, Good t m content (bucket (t - 1) key) b

/-- What others promise, and when the client stops: not between the log entry of its link and the
change of the count, and after that only with this entry for the newest one. -/
def Careful (t : ℕ) (s : State) (a : Action) (_ : State) : Prop :=
  match a with
  | .take block => s.Free t block
  | .crash => ∀ c, s.pos = .link c → c.pc ≠ .bumpEra →
    if c.pc = .storeRef then s.Selected t c else ¬ s.Written t c
  | .store a _ => s.Outside t a
  | .storeInfo o _ => o ∉ s.blocks
  | .storeEra x y _ => eraIndex x y ≠ eraIndex t t
  | .ownEra v => v < 2 ^ 32
  | .log _ e => ∀ r ∈ e.map RedoLog.ref, s.Outside t r
  | .put _ _ | .next _ _ | .generic => True

/-! ## Words of the partition -/

/-- The partition of a client lies in the table, below the segments. -/
theorem bucket_bounds {t : ℕ} (few : t ≤ 64) (key : ℕ) :
    bucket (t - 1) 0 ≤ bucket (t - 1) key ∧
      bucket (t - 1) key + 8 ≤ bucket (t - 1) 0 + hashTableSize ∧
      bucket (t - 1) 0 + hashTableSize ≤ segmentsAreaStart := by
  have low : key &&& ((1 <<< 17) - 1) < 2 ^ 17 := by
    rw [Nat.one_shiftLeft, Nat.and_two_pow_sub_one_eq_mod]
    exact Nat.mod_lt _ (by norm_num)
  have table : hashTableStart = 2 ^ 26 := rfl
  have partition : hashTableSize = 2 ^ 20 := rfl
  have segments : segmentsAreaStart = 2 ^ 27 := rfl
  simp only [bucket, table, partition, segments, Nat.zero_and]
  omega

/-- The chains of the partition, and what they consist of. -/
def Chains (t : ℕ) (m : Mem ℕ) (elements : List ℕ) (content : ℕ → Option (ℕ × ℕ)) : Prop :=
  ∀ key, ∃ l, Path m.loc nextCell 0 (bucket (t - 1) key) l ∧
    ∀ b ∈ l, b ∈ elements ∧ Good t m content (bucket (t - 1) key) b

section Chains

variable {t : ℕ} {m m' : Mem ℕ} {elements elements' : List ℕ} {content content' : ℕ → Option (ℕ × ℕ)}

theorem Chains.sound (h : Chains t m elements content) : Sound t m content := by
  intro key
  obtain ⟨l, path, good⟩ := h key
  exact ⟨l, path, fun b mem => (good b mem).2⟩

/-- What is written elsewhere does not matter. -/
theorem Chains.frame (h : Chains t m elements content)
    (cells : ∀ key, m'.loc (bucket (t - 1) key) = m.loc (bucket (t - 1) key))
    (words : ∀ b ∈ elements, ∀ i < elementSize, m'.loc (b + i) = m.loc (b + i))
    (info : ∀ b ∈ elements, m'.refInfo b = m.refInfo b)
    (contents : ∀ b ∈ elements, content' b = content b) : Chains t m' elements content' := by
  intro key
  obtain ⟨l, path, good⟩ := h key
  refine ⟨l, path.congr (cells key) fun b mem => words b (good b mem).1 40 (by decide), ?_⟩
  intro b mem
  obtain ⟨listed, counted, written, own⟩ := good b mem
  have key_word := words b listed keyOffset (by decide)
  have value_word := words b listed (keyOffset + 8) (by decide)
  refine ⟨listed, ?_, ?_, ?_⟩
  · rw [info b listed]
    exact counted
  · rw [contents b listed, key_word, Nat.add_assoc, value_word, ← Nat.add_assoc]
    exact written
  · rw [key_word]
    exact own

/-- The cell that a chain ends with is a bucket or the link of an element. -/
theorem Chains.lastCell (h : Chains t m elements content) {key : ℕ} {l : List ℕ}
    (path : Path m.loc nextCell 0 (bucket (t - 1) key) l) :
    lastCell nextCell (bucket (t - 1) key) l = bucket (t - 1) key ∨
      ∃ b ∈ l, b ∈ elements ∧ lastCell nextCell (bucket (t - 1) key) l = nextCell b := by
  obtain ⟨l', path', good⟩ := h key
  obtain rfl := path.unique path'
  rcases lastCell_eq (bucket (t - 1) key) l with first | ⟨b, mem, last⟩
  · exact .inl first
  · exact .inr ⟨b, mem, (good b mem).1, last⟩

/-- The chain ends there. -/
theorem loc_lastCell {c : ℕ} {l : List ℕ} (path : Path m.loc nextCell 0 c l) :
    m.loc (Linked.lastCell nextCell c l) = 0 := by
  induction l generalizing c with
  | nil => exact path
  | cons b l ih => exact ih (path_cons.1 path).2.2

/-- A block stored into the last cell goes to the end of the chain. -/
theorem Chains.path_append (h : Chains t m elements content) (few : t ≤ 64)
    (above : ∀ b ∈ elements, segmentsAreaStart ≤ b) {key block : ℕ} {l : List ℕ}
    (path : Path m.loc nextCell 0 (bucket (t - 1) key) l) (above_block : segmentsAreaStart ≤ block)
    (fresh : block ∉ elements) (next : m.loc (nextCell block) = 0) :
    Path (m.setLoc (Linked.lastCell nextCell (bucket (t - 1) key) l) block).loc nextCell 0
      (bucket (t - 1) key) (l ++ [block]) := by
  have base : 0 < segmentsAreaStart := by decide
  have cell : ∀ b, nextCell b = b + 40 := fun b => rfl
  have below := bucket_bounds few key
  obtain ⟨l', path', good⟩ := h key
  obtain rfl := path.unique path'
  apply path.append (by omega) next
  · intro b mem
    rw [cell]
    have : segmentsAreaStart ≤ b := by
      rcases List.mem_cons.1 mem with rfl | mem
      · exact above_block
      · exact above b (good b mem).1
    omega
  · intro b _ b' _ equal
    rw [cell, cell] at equal
    omega
  · exact fun again => fresh (good block again).1

/-- A counted object whose words are written goes to the end of the chain of its key. -/
theorem Chains.append (h : Chains t m elements content) (few : t ≤ 64)
    (above : ∀ b ∈ elements, segmentsAreaStart ≤ b)
    (apart : ∀ b ∈ elements, ∀ b' ∈ elements, b = b' ∨ b + elementSize ≤ b' ∨ b' + elementSize ≤ b)
    {key block : ℕ} {l : List ℕ} (path : Path m.loc nextCell 0 (bucket (t - 1) key) l)
    (above_block : segmentsAreaStart ≤ block)
    (apart_block : ∀ b ∈ elements, block + elementSize ≤ b ∨ b + elementSize ≤ block)
    (good : Good t m content (bucket (t - 1) key) block) (next : m.loc (nextCell block) = 0) :
    Chains t (m.setLoc (Linked.lastCell nextCell (bucket (t - 1) key) l) block)
      (block :: elements) content := by
  have size : elementSize = 48 := rfl
  have offset : keyOffset = 24 := rfl
  have cell : ∀ b, nextCell b = b + 40 := fun b => rfl
  have low : ∀ key', bucket (t - 1) key' + 8 ≤ segmentsAreaStart := by
    intro key'
    obtain ⟨-, inside, below⟩ := bucket_bounds few key'
    omega
  have entry := h.lastCell path
  have fresh : block ∉ elements := by
    intro again
    have := apart_block block again
    omega
  -- the key and value words of elements are no cells
  have kept : ∀ b ∈ block :: elements, ∀ i, i = 24 ∨ i = 32 →
      (m.setLoc (Linked.lastCell nextCell (bucket (t - 1) key) l) block).loc (b + i) =
        m.loc (b + i) := by
    intro b mem i hi
    apply Function.update_of_ne
    rcases entry with first | ⟨e, -, listed, last⟩
    · have below := low key
      have : segmentsAreaStart ≤ b := by
        rcases List.mem_cons.1 mem with rfl | mem
        · exact above_block
        · exact above b mem
      omega
    · rw [last, cell]
      rcases List.mem_cons.1 mem with rfl | mem
      · have := apart_block e listed
        omega
      · have := apart b mem e listed
        omega
  have still_good : ∀ start, ∀ b ∈ block :: elements, Good t m content start b →
      Good t (m.setLoc (Linked.lastCell nextCell (bucket (t - 1) key) l) block) content start b := by
    rintro start b mem ⟨counted, written, own⟩
    have key_word := kept b mem 24 (.inl rfl)
    have value_word := kept b mem 32 (.inr rfl)
    refine ⟨counted, ?_, ?_⟩
    · rw [written]
      show some (m.loc (b + 24), m.loc (b + 32)) = some (_, _)
      rw [← key_word, ← value_word]
      rfl
    · rw [← own]
      show bucket (t - 1) (_ : ℕ) = bucket (t - 1) (m.loc (b + 24))
      rw [← key_word]
      rfl
  intro key'
  obtain ⟨l', path', good'⟩ := h key'
  by_cases same : bucket (t - 1) key' = bucket (t - 1) key
  · rw [same] at path' good' ⊢
    obtain rfl := path.unique path'
    refine ⟨l ++ [block], h.path_append few above path above_block fresh next, ?_⟩
    intro b mem
    rcases List.mem_append.1 mem with old | new
    · have hits := good' b old
      exact ⟨List.mem_cons_of_mem _ hits.1,
        still_good _ b (List.mem_cons_of_mem _ hits.1) hits.2⟩
    · obtain rfl := List.mem_singleton.1 new
      exact ⟨List.mem_cons_self, still_good _ b List.mem_cons_self good⟩
  · refine ⟨l', path'.congr ?_ ?_, ?_⟩
    · apply Function.update_of_ne
      rcases entry with first | ⟨e, -, listed, last⟩
      · rw [first]
        exact same
      · rw [last, cell]
        have := low key'
        have := above e listed
        omega
    · intro b mem
      apply Function.update_of_ne
      rcases entry with first | ⟨e, in_l, -, last⟩
      · rw [first, cell]
        have := low key
        have := above b (good' b mem).1
        omega
      · rw [last, cell, cell]
        intro equal
        obtain rfl : b = e := by omega
        obtain ⟨l'', path'', good''⟩ := h key
        obtain rfl := path.unique path''
        exact same ((good' b mem).2.2.2.symm.trans (good'' b in_l).2.2.2)
    · intro b mem
      have hits := good' b mem
      exact ⟨List.mem_cons_of_mem _ hits.1,
        still_good _ b (List.mem_cons_of_mem _ hits.1) hits.2⟩

end Chains

/-! ## The invariant -/

/-- The word holds a link of the partition, or the start of a chain. -/
def IsCell (t : ℕ) (s : State) (a : ℕ) : Prop :=
  (∃ key, a = bucket (t - 1) key) ∨ ∃ b ∈ s.elements, a = nextCell b

/-- Doing the operation of the entry again changes nothing in the partition. -/
def Harmless (t : ℕ) (s : State) (e : RedoLog ℕ) : Prop :=
  s.Outside t e.ref ∨
    e.funcId = .linkRef ∧ e.refed ≠ 0 ∧ s.mem.loc e.ref = e.refed ∧ IsCell t s e.ref

/-- The entry is that of the `put` under way, which has not yet linked its element. -/
def Own (t : ℕ) (s : State) (e : RedoLog ℕ) : Prop :=
  ∃ c, s.pos = .link c ∧ c.pc ≠ .bumpEra ∧ e.funcId = .linkRef ∧ e.ref = c.ref ∧
    e.refed = c.refed ∧ e.curEra = s.mem.era t t

/-- The word is the one that the chain of the key ends with. -/
def AtEnd (t : ℕ) (s : State) (key entry : ℕ) : Prop :=
  ∃ l, Path s.mem.loc nextCell 0 (bucket (t - 1) key) l ∧
    entry = lastCell nextCell (bucket (t - 1) key) l

/-- The block overlaps no element. -/
def Clear (s : State) (block : ℕ) : Prop :=
  segmentsAreaStart ≤ block ∧ ∀ b ∈ s.elements, block + elementSize ≤ b ∨ b + elementSize ≤ block

/-- The words of the new element before the store of `w`. -/
structure Filled (t : ℕ) (s : State) (w : Word) (key value block : ℕ) : Prop where
  info : w ≠ .info → s.mem.refInfo block = packRefInfo t 0 (s.mem.era t t)
  key : w = .value ∨ w = .next → s.mem.loc (block + keyOffset) = key
  value : w = .next → s.mem.loc (block + keyOffset + 8) = value

/-- A new element whose words are written, at the end of its chain but for the link. -/
structure Ready (t : ℕ) (s : State) (c : Call ℕ) : Prop where
  atEnd : AtEnd t s (s.mem.loc (c.refed + keyOffset)) c.ref
  clear : Clear s c.refed
  next : s.mem.loc (nextCell c.refed) = 0
  content : s.content c.refed =
    some (s.mem.loc (c.refed + keyOffset), s.mem.loc (c.refed + keyOffset + 8))

/-- What a call of `link_reference` has read and done. -/
def Linking (t : ℕ) (s : State) (c : Call ℕ) : Prop :=
  match c.pc with
  | .loadInfo => s.mem.refInfo c.refed = packRefInfo t 0 (s.mem.era t t)
  | .loadEra =>
    s.mem.refInfo c.refed = packRefInfo t 0 (s.mem.era t t) ∧ c.refInfo = s.mem.refInfo c.refed
  | .testEle | .storeRedo | .cas =>
    s.mem.refInfo c.refed = packRefInfo t 0 (s.mem.era t t) ∧ c.refInfo = s.mem.refInfo c.refed ∧
      c.curEra = s.mem.era t t
  | .storeRef => s.mem.refInfo c.refed = packRefInfo t 1 (s.mem.era t t)
  | .storeEle | .bumpEra | .free => False

/-- What the position of the client says about the memory. -/
def At (t : ℕ) (s : State) : Prop :=
  match s.pos with
  | .idle | .walk _ _ => True
  | .found _ d => ∃ b ∈ s.elements, d = b + keyOffset
  | .alloc key _ entry | .clearing key _ entry _ => AtEnd t s key entry
  | .fill w key value entry block => AtEnd t s key entry ∧ Clear s block ∧ Filled t s w key value block
  | .link c => c.func = .linkRef ∧ (c.pc = .bumpEra ∧ c.refed ∈ s.elements ∨ Ready t s c ∧ Linking t s c)

structure Inv (t : ℕ) (s : State) : Prop where
  era : s.mem.era t t < 2 ^ 32
  above : ∀ b ∈ s.elements, segmentsAreaStart ≤ b
  apart : ∀ b ∈ s.elements, ∀ b' ∈ s.elements, b = b' ∨ b + elementSize ≤ b' ∨ b' + elementSize ≤ b
  chains : Chains t s.mem s.elements s.content
  log : ∀ i < redoCachelineCnt, ∀ e, s.mem.redo t i = some e → Harmless t s e ∨ Own t s e
  pos : At t s

theorem inv_init (t : ℕ) : Inv t State.init where
  era := Nat.two_pow_pos 32
  above _ h := by cases h
  apart _ h := by cases h
  chains _ := ⟨[], rfl, fun _ h => by cases h⟩
  log _ _ _ h := by cases h
  pos := trivial

section Move

variable {t : ℕ} {s s' : State}

/-- The step changes no word of the partition and no element. -/
structure Quiet (t : ℕ) (s s' : State) : Prop where
  elements : s'.elements = s.elements
  cells : ∀ key, s'.mem.loc (bucket (t - 1) key) = s.mem.loc (bucket (t - 1) key)
  words : ∀ b ∈ s.elements, ∀ i < elementSize, s'.mem.loc (b + i) = s.mem.loc (b + i)
  info : ∀ b ∈ s.elements, s'.mem.refInfo b = s.mem.refInfo b
  content : ∀ b ∈ s.elements, s'.content b = s.content b

theorem Quiet.chains (q : Quiet t s s') (h : Inv t s) :
    Chains t s'.mem s'.elements s'.content := by
  rw [q.elements]
  exact h.chains.frame q.cells q.words q.info q.content

theorem Quiet.loc_of_isCell (q : Quiet t s s') {a : ℕ} (cell : IsCell t s a) :
    s'.mem.loc a = s.mem.loc a := by
  rcases cell with ⟨key, rfl⟩ | ⟨b, listed, rfl⟩
  · exact q.cells key
  · exact q.words b listed 40 (by decide)

theorem Quiet.isCell (q : Quiet t s s') {a : ℕ} (cell : IsCell t s a) : IsCell t s' a := by
  rcases cell with bucket | ⟨b, listed, same⟩
  · exact .inl bucket
  · exact .inr ⟨b, by rw [q.elements]; exact listed, same⟩

theorem Quiet.atEnd (q : Quiet t s s') (h : Inv t s) {key entry : ℕ} (here : AtEnd t s key entry) :
    AtEnd t s' key entry := by
  obtain ⟨l, path, rfl⟩ := here
  obtain ⟨l', path', good⟩ := h.chains key
  obtain rfl := path.unique path'
  exact ⟨l, path.congr (q.cells key) fun b mem => q.words b (good b mem).1 40 (by decide), rfl⟩

theorem Quiet.clear (q : Quiet t s s') {block : ℕ} (h : Clear s block) : Clear s' block :=
  ⟨h.1, by rw [q.elements]; exact h.2⟩

/-- An entry stays harmless as long as no block is taken over its word. -/
theorem Quiet.harmless (q : Quiet t s s') {e : RedoLog ℕ} (h : Harmless t s e)
    (free : ∀ block, s'.pos.block = some block → s.Outside t e.ref → State.Apart block e.ref) :
    Harmless t s' e := by
  rcases h with ⟨table, blocks⟩ | ⟨func, some, here, cell⟩
  · left
    refine ⟨table, ?_⟩
    intro b mem
    rcases List.mem_append.1 mem with flight | listed
    · exact free b (Option.mem_toList.1 flight) ⟨table, blocks⟩
    · rw [q.elements] at listed
      exact blocks b (List.mem_append_right _ listed)
  · exact .inr ⟨func, some, (q.loc_of_isCell cell).trans here, q.isCell cell⟩

/-- A cell of the partition is not an outside word. -/
theorem IsCell.not_outside (few : t ≤ 64) {a : ℕ} (cell : IsCell t s a) : ¬ s.Outside t a := by
  rintro ⟨table, blocks⟩
  rcases cell with ⟨key, rfl⟩ | ⟨b, listed, rfl⟩
  · have := bucket_bounds few key
    omega
  · have := blocks b (List.mem_append_right _ listed)
    simp only [State.Apart, nextCell, elementSize, sizeofCXLObj] at this
    omega

theorem Inv.isCell_of_atEnd (h : Inv t s) {key entry : ℕ} (here : AtEnd t s key entry) :
    IsCell t s entry := by
  obtain ⟨l, path, rfl⟩ := here
  rcases h.chains.lastCell path with first | ⟨b, -, listed, last⟩
  · exact .inl ⟨key, first⟩
  · exact .inr ⟨b, listed, last⟩

theorem AtEnd.loc {key entry : ℕ} (here : AtEnd t s key entry) : s.mem.loc entry = 0 := by
  obtain ⟨l, path, rfl⟩ := here
  exact loc_lastCell path

end Move

/-! ## The redo -/

section Redo

variable {t : ℕ} {s : State}

/-- The entry that is selected is one of the log. -/
theorem Inv.selected (h : Inv t s) {e : RedoLog ℕ} (selected : selectRedo s.mem t = some e) :
    Harmless t s e ∨ Own t s e := by
  obtain ⟨i, hi, same⟩ := (selectRedo_spec s.mem t).1
  rw [selected] at same
  exact h.log i hi e same.symm

/-- The word that a `put` has stamped is evidence for its entry, whatever the count. -/
theorem needRedo_of_stamp (h : Inv t s) (few : t ≤ 64) {e : RedoLog ℕ} {n : ℕ} (small : n < 2 ^ 16)
    (stamp : s.mem.refInfo e.refed = packRefInfo t n (s.mem.era t t))
    (era : e.curEra = s.mem.era t t) : needRedo s.mem t e = true := by
  have id_small : t < 2 ^ 16 := by omega
  simp only [needRedo, stamp, getLcidFromInfo_packRefInfo id_small small h.era,
    getLenumFromInfo_packRefInfo h.era, era]
  simp

/-- The redo writes a location and nothing else. -/
theorem redoRefCnt_rest (m : Mem ℕ) (t : ℕ) : (redoRefCnt m t).1.refInfo = m.refInfo ∧
    (redoRefCnt m t).1.eraArray = m.eraArray ∧ (redoRefCnt m t).1.redo = m.redo := by
  cases selected : selectRedo m t with
  | none =>
    rw [redoRefCnt_mem_of_none selected]
    exact ⟨rfl, rfl, rfl⟩
  | some e =>
    rw [redoRefCnt_mem selected]
    split <;> exact ⟨rfl, rfl, rfl⟩

/-- The redo of a harmless entry changes no word of the partition. -/
theorem quiet_redo (few : t ≤ 64)
    (harmless : ∀ e, selectRedo s.mem t = some e → Harmless t s e) {p : Pos} :
    Quiet t s { s with mem := (redoRefCnt s.mem t).1, pos := p } := by
  suffices same : (∀ key, (redoRefCnt s.mem t).1.loc (bucket (t - 1) key) =
      s.mem.loc (bucket (t - 1) key)) ∧ ∀ b ∈ s.elements, ∀ i < elementSize,
        (redoRefCnt s.mem t).1.loc (b + i) = s.mem.loc (b + i) from
    ⟨rfl, same.1, same.2, fun b _ => congrFun (redoRefCnt_rest s.mem t).1 b, fun _ _ => rfl⟩
  cases selected : selectRedo s.mem t with
  | none =>
    rw [redoRefCnt_mem_of_none selected]
    exact ⟨fun _ => rfl, fun _ _ _ _ => rfl⟩
  | some e =>
    rw [redoRefCnt_mem selected]
    split
    swap
    · exact ⟨fun _ => rfl, fun _ _ _ _ => rfl⟩
    rcases harmless e selected with ⟨table, blocks⟩ | ⟨func, -, here, -⟩
    · constructor
      · intro key
        apply Function.update_of_ne
        have := bucket_bounds few key
        omega
      · intro b listed i hi
        apply Function.update_of_ne
        have := blocks b (List.mem_append_right _ listed)
        simp only [State.Apart, elementSize, sizeofCXLObj] at this hi
        omega
    · have same : s.mem.setLoc e.ref e.newRef = s.mem := by
        rw [RedoLog.newRef, func]
        show s.mem.setLoc e.ref e.refed = s.mem
        rw [← here, Mem.setLoc, Function.update_eq_self]
      rw [same]
      exact ⟨fun _ => rfl, fun _ _ _ _ => rfl⟩

/-- The words of a new element are those of its key. -/
theorem Ready.good {c : Call ℕ} (ready : Ready t s c)
    (counted : 1 ≤ getRefCntFromInfo (s.mem.refInfo c.refed)) :
    Good t s.mem s.content (bucket (t - 1) (s.mem.loc (c.refed + keyOffset))) c.refed :=
  ⟨counted, ready.content, rfl⟩

/-- Once it is counted, the link of the new element completes the chain. -/
theorem Inv.append (h : Inv t s) (few : t ≤ 64) {c : Call ℕ} (ready : Ready t s c)
    (counted : 1 ≤ getRefCntFromInfo (s.mem.refInfo c.refed)) :
    Chains t (s.mem.setLoc c.ref c.refed) (c.refed :: s.elements) s.content := by
  obtain ⟨l, path, entry⟩ := ready.atEnd
  rw [entry]
  exact h.chains.append few h.above h.apart path ready.clear.1 ready.clear.2 (ready.good counted)
    ready.next

/-- The redo of the entry of the `put` under way stores the link. -/
theorem Inv.redo_own (h : Inv t s) (few : t ≤ 64) {c : Call ℕ} {n : ℕ} (small : n < 2 ^ 16)
    (stamp : s.mem.refInfo c.refed = packRefInfo t n (s.mem.era t t)) {e : RedoLog ℕ}
    (selected : selectRedo s.mem t = some e) (func : e.funcId = .linkRef) (ref : e.ref = c.ref)
    (refed : e.refed = c.refed) (era : e.curEra = s.mem.era t t) :
    (redoRefCnt s.mem t).1 = s.mem.setLoc c.ref c.refed := by
  rw [← refed] at stamp
  rw [redoRefCnt_mem selected, if_pos (needRedo_of_stamp h few small stamp era), RedoLog.newRef, func,
    ref]
  show s.mem.setLoc c.ref e.refed = _
  rw [refed]

theorem refCnt_stamp (h : Inv t s) {n : ℕ} (small : n < 2 ^ 16) :
    getRefCntFromInfo (packRefInfo t n (s.mem.era t t)) = n :=
  getRefCntFromInfo_packRefInfo small h.era

/-- An entry with the location and the object of the call under way is its own. -/
theorem Inv.own_of_same (h : Inv t s) (few : t ≤ 64) {c : Call ℕ} (ready : Ready t s c)
    {e : RedoLog ℕ} (found : Harmless t s e ∨ Own t s e) (ref : e.ref = c.ref) : Own t s e := by
  rcases found with harmless | own
  · have cell := h.isCell_of_atEnd ready.atEnd
    rw [← ref] at cell
    rcases harmless with outside | ⟨-, some, here, -⟩
    · exact absurd outside (cell.not_outside few)
    · rw [ref, ready.atEnd.loc] at here
      exact absurd here.symm some
  · exact own

/-- Before the change of the count the word says 0, whatever the call has read. -/
theorem Linking.uncounted {c : Call ℕ} (linking : Linking t s c) (early : c.pc ≠ .storeRef) :
    s.mem.refInfo c.refed = packRefInfo t 0 (s.mem.era t t) := by
  unfold Linking at linking
  cases pc : c.pc with
  | loadInfo => simpa only [pc] using linking
  | loadEra | testEle | storeRedo | cas =>
    simp only [pc] at linking
    exact linking.1
  | storeRef => exact absurd pc early
  | storeEle | bumpEra | free => simp [pc] at linking

theorem Linking.counted {c : Call ℕ} (linking : Linking t s c) (pc : c.pc = .storeRef) :
    s.mem.refInfo c.refed = packRefInfo t 1 (s.mem.era t t) := by
  unfold Linking at linking
  simpa only [pc] using linking

/-- A counted element is linked by the redo of its entry. -/
theorem Inv.redo_counted (h : Inv t s) (few : t ≤ 64) {c : Call ℕ} (at_link : s.pos = .link c)
    (pc : c.pc = .storeRef) {e : RedoLog ℕ} (selected : selectRedo s.mem t = some e)
    (ref : e.ref = c.ref) (refed : e.refed = c.refed) :
    (redoRefCnt s.mem t).1 = s.mem.setLoc c.ref c.refed ∧
      Chains t (redoRefCnt s.mem t).1 (c.refed :: s.elements) s.content := by
  have pos := h.pos
  rw [At, at_link] at pos
  obtain ⟨ready, stamp⟩ := pos.2.resolve_left fun done => by
    rw [pc] at done
    cases done.1
  have stamp := stamp.counted pc
  have counted : 1 ≤ getRefCntFromInfo (s.mem.refInfo c.refed) := by
    rw [stamp, refCnt_stamp h (by norm_num)]
  obtain ⟨c', -, -, func, -, -, era⟩ := h.own_of_same few ready (h.selected selected) ref
  have same := h.redo_own few (by norm_num) stamp selected func ref refed era
  exact ⟨same, by rw [same]; exact h.append few ready counted⟩

/-- Wherever the client stops, the redo of its slot leaves the partition in order unless it is in the
window. -/
theorem Inv.sound_iff (h : Inv t s) (few : t ≤ 64) :
    Sound t (redoRefCnt s.mem t).1 s.content ↔ ¬ s.InWindow t := by
  constructor
  · rintro sound ⟨c, linking, early, late, e, selected, ref, refed⟩
    have pos := h.pos
    rw [At, linking] at pos
    obtain ⟨ready, stamp⟩ := pos.2.resolve_left fun done => late done.1
    have stamp := stamp.uncounted early
    obtain ⟨c', linking', -, func, -, -, era⟩ := h.own_of_same few ready (h.selected selected) ref
    rw [h.redo_own few (by norm_num) stamp selected func ref refed era] at sound
    -- the chain now ends with an object whose count is 0
    obtain ⟨l, path, entry⟩ := ready.atEnd
    have fresh : c.refed ∉ s.elements := by
      intro again
      have := ready.clear.2 c.refed again
      simp only [elementSize, sizeofCXLObj] at this
      omega
    have whole := h.chains.path_append few h.above path ready.clear.1 fresh ready.next
    rw [← entry] at whole
    obtain ⟨l', path', good⟩ := sound (s.mem.loc (c.refed + keyOffset))
    obtain rfl := whole.unique path'
    have counted : 1 ≤ getRefCntFromInfo (s.mem.refInfo c.refed) :=
      (good c.refed (List.mem_append_right _ List.mem_cons_self)).1
    rw [stamp, refCnt_stamp h (by norm_num)] at counted
    cases counted
  · intro outside
    by_cases counted : ∃ c, s.pos = .link c ∧ c.pc = .storeRef ∧ s.Selected t c
    · obtain ⟨c, linking, pc, e, selected, ref, refed⟩ := counted
      exact (h.redo_counted few linking pc selected ref refed).2.sound
    · -- the entry is harmless, since the one of the call is not selected
      have harmless : ∀ e, selectRedo s.mem t = some e → Harmless t s e := by
        intro e selected
        rcases h.selected selected with harmless | ⟨c, linking, late, -, ref, refed, -⟩
        · exact harmless
        · by_cases pc : c.pc = .storeRef
          · exact absurd ⟨c, linking, pc, e, selected, ref, refed⟩ counted
          · exact absurd ⟨c, linking, pc, late, e, selected, ref, refed⟩ outside
      exact ((quiet_redo few harmless (p := s.pos)).chains h).sound

end Redo

/-! ## Steps -/

section Step

variable {t : ℕ} {s s' : State}

theorem Quiet.inv (q : Quiet t s s') (h : Inv t s) (era : s'.mem.era t t < 2 ^ 32)
    (log : ∀ i < redoCachelineCnt, ∀ e, s'.mem.redo t i = some e → Harmless t s' e ∨ Own t s' e)
    (pos : At t s') : Inv t s' := by
  refine ⟨era, ?_, ?_, q.chains h, log, pos⟩
  · rw [q.elements]
    exact h.above
  · rw [q.elements]
    exact h.apart

/-- Outside `link_reference` no entry is under way. -/
theorem Inv.harmless (h : Inv t s) (free : ∀ c, s.pos = .link c → c.pc = .bumpEra) {i : ℕ}
    (hi : i < redoCachelineCnt) {e : RedoLog ℕ} (here : s.mem.redo t i = some e) :
    Harmless t s e := by
  rcases h.log i hi e here with harmless | ⟨c, linking, late, -⟩
  · exact harmless
  · exact absurd (free c linking) late

/-- A step that is not in `link_reference`, neither before nor after it. -/
theorem Quiet.inv_of_free (q : Quiet t s s') (h : Inv t s)
    (free : ∀ c, s.pos = .link c → c.pc = .bumpEra) (era : s'.mem.era t t < 2 ^ 32)
    (redo : ∀ i < redoCachelineCnt, ∀ e, s'.mem.redo t i = some e →
      s.mem.redo t i = some e ∨ s'.Outside t e.ref)
    (taken : ∀ block, s'.pos.block = some block → s.pos.block = some block ∨
      ∀ i < redoCachelineCnt, ∀ e, s.mem.redo t i = some e → State.Apart block e.ref)
    (pos : At t s') : Inv t s' := by
  refine q.inv h era ?_ pos
  intro i hi e here
  left
  rcases redo i hi e here with old | outside
  · apply q.harmless (h.harmless free hi old)
    intro block flight outside
    rcases taken block flight with before | apart
    · exact outside.2 block (List.mem_append_left _ (Option.mem_toList.2 before))
    · exact apart i hi e old
  · exact .inl outside

/-- What the position says stays true while nothing under it changes. -/
theorem Quiet.pos (q : Quiet t s s') (h : Inv t s) (pos : s'.pos = s.pos)
    (era : s'.mem.era t t = s.mem.era t t)
    (flight : ∀ block, s.pos.block = some block →
      (∀ i < elementSize, s'.mem.loc (block + i) = s.mem.loc (block + i)) ∧
        s'.mem.refInfo block = s.mem.refInfo block ∧ s'.content block = s.content block) :
    At t s' := by
  have here := h.pos
  unfold At at here ⊢
  rw [pos]
  cases at_pos : s.pos with
  | idle | walk key value => trivial
  | found value d =>
    simp only [at_pos] at here ⊢
    rw [q.elements]
    exact here
  | alloc key value entry | clearing key value entry i =>
    simp only [at_pos] at here ⊢
    exact q.atEnd h here
  | fill w key value entry block =>
    simp only [at_pos] at here ⊢
    obtain ⟨words, info, -⟩ := flight block (by rw [at_pos]; rfl)
    have key_word := words keyOffset (by decide)
    have value_word := words (keyOffset + 8) (by decide)
    obtain ⟨atEnd, clear, filled⟩ := here
    refine ⟨q.atEnd h atEnd, q.clear clear, ?_, ?_, ?_⟩
    · rw [info, era]
      exact filled.info
    · rw [key_word]
      exact filled.key
    · rw [Nat.add_assoc, value_word, ← Nat.add_assoc]
      exact filled.value
  | link c =>
    simp only [at_pos] at here ⊢
    obtain ⟨words, info, content⟩ := flight c.refed (by rw [at_pos]; rfl)
    have key_word := words keyOffset (by decide)
    have value_word := words (keyOffset + 8) (by decide)
    have next_word : s'.mem.loc (nextCell c.refed) = s.mem.loc (nextCell c.refed) :=
      words 40 (by decide)
    obtain ⟨func, done | ⟨ready, linking⟩⟩ := here
    · exact ⟨func, .inl (by rw [q.elements]; exact done)⟩
    · refine ⟨func, .inr ⟨⟨?_, q.clear ready.clear, ?_, ?_⟩, ?_⟩⟩
      · rw [key_word]
        exact q.atEnd h ready.atEnd
      · rw [next_word]
        exact ready.next
      · rw [content, key_word, Nat.add_assoc, value_word, ← Nat.add_assoc]
        exact ready.content
      · unfold Linking at linking ⊢
        rw [info, era]
        exact linking

/-- A step of others, which leaves the partition, the new element, the log and the counter alone. -/
theorem Inv.others (h : Inv t s) {m : Mem ℕ}
    (cells : ∀ key, m.loc (bucket (t - 1) key) = s.mem.loc (bucket (t - 1) key))
    (words : ∀ b ∈ s.blocks, ∀ i < elementSize, m.loc (b + i) = s.mem.loc (b + i))
    (info : ∀ b ∈ s.blocks, m.refInfo b = s.mem.refInfo b) (era : m.era t t = s.mem.era t t)
    (redo : m.redo = s.mem.redo) : Inv t { s with mem := m } := by
  have listed : ∀ b ∈ s.elements, b ∈ s.blocks := fun b mem => List.mem_append_right _ mem
  have q : Quiet t s { s with mem := m } := ⟨rfl, cells, fun b mem => words b (listed b mem),
    fun b mem => info b (listed b mem), fun _ _ => rfl⟩
  refine q.inv h (by rw [era]; exact h.era) ?_ ?_
  · intro i hi e here
    rw [redo] at here
    rcases h.log i hi e here with harmless | ⟨c, linking, late, func, ref, refed, own⟩
    · left
      apply q.harmless harmless
      intro block flight outside
      exact outside.2 block (List.mem_append_left _ (Option.mem_toList.2 flight))
    · exact .inr ⟨c, linking, late, func, ref, refed, own.trans era.symm⟩
  · apply q.pos h rfl era
    intro block flight
    have mem : block ∈ s.blocks := List.mem_append_left _ (Option.mem_toList.2 flight)
    exact ⟨words block mem, info block mem, rfl⟩

/-- A store of others. -/
theorem Inv.store (h : Inv t s) (few : t ≤ 64) {a w : ℕ} (outside : s.Outside t a) :
    Inv t { s with mem := s.mem.setLoc a w } := by
  obtain ⟨table, blocks⟩ := outside
  refine h.others ?_ ?_ (fun _ _ => rfl) rfl rfl
  · intro key
    apply Function.update_of_ne
    have := bucket_bounds few key
    omega
  · intro b mem i hi
    apply Function.update_of_ne
    have := blocks b mem
    simp only [State.Apart, elementSize, sizeofCXLObj] at this hi
    omega

theorem Inv.storeInfo (h : Inv t s) {o w : ℕ} (outside : o ∉ s.blocks) :
    Inv t { s with mem := s.mem.setRefInfo o w } := by
  refine h.others (fun _ => rfl) (fun _ _ _ _ => rfl) ?_ rfl rfl
  intro b mem
  apply Function.update_of_ne
  rintro rfl
  exact outside mem

theorem Inv.storeEra (h : Inv t s) {x y v : ℕ} (other : eraIndex x y ≠ eraIndex t t) :
    Inv t { s with mem := s.mem.setEra x y v } := by
  refine h.others (fun _ => rfl) (fun _ _ _ _ => rfl) (fun _ _ => rfl) ?_ rfl
  exact Function.update_of_ne other.symm _ _

/-! ### Up to the allocation -/

/-- A change of the position only. -/
theorem Inv.setPos (h : Inv t s) (free : ∀ c, s.pos = .link c → c.pc = .bumpEra) {p : Pos}
    (none : p.block = none) (pos : At t { s with pos := p }) : Inv t { s with pos := p } := by
  have q : Quiet t s { s with pos := p } :=
    ⟨rfl, fun _ => rfl, fun _ _ _ _ => rfl, fun _ _ => rfl, fun _ _ => rfl⟩
  refine q.inv_of_free h free h.era (fun i _ e here => .inl here) ?_ pos
  intro block flight
  rw [none] at flight
  cases flight

theorem Inv.ownEra (h : Inv t s) (idle : s.pos = .idle) {v : ℕ} (small : v < 2 ^ 32) :
    Inv t { s with mem := s.mem.setEra t t v } := by
  have q : Quiet t s { s with mem := s.mem.setEra t t v } :=
    ⟨rfl, fun _ => rfl, fun _ _ _ _ => rfl, fun _ _ => rfl, fun _ _ => rfl⟩
  refine q.inv_of_free h (by simp [idle]) ?_ (fun i _ e here => .inl here) (fun _ => .inl) ?_
  · show Function.update s.mem.eraArray (eraIndex t t) v (eraIndex t t) < 2 ^ 32
    rw [Function.update_self]
    exact small
  · simp [At, idle]

/-- A write to the log, of an operation elsewhere or a zero. -/
theorem Inv.setRedo (h : Inv t s) (free : ∀ c, s.pos = .link c → c.pc = .bumpEra) {i : ℕ}
    {e : Option (RedoLog ℕ)} {p : Pos} (none : p.block = none)
    (outside : ∀ r ∈ e.map RedoLog.ref, State.Outside t { s with pos := p } r)
    (pos : At t { s with mem := s.mem.setRedo t i e, pos := p }) :
    Inv t { s with mem := s.mem.setRedo t i e, pos := p } := by
  have q : Quiet t s { s with mem := s.mem.setRedo t i e, pos := p } :=
    ⟨rfl, fun _ => rfl, fun _ _ _ _ => rfl, fun _ _ => rfl, fun _ _ => rfl⟩
  refine q.inv_of_free h free h.era ?_ ?_ pos
  · intro j _ e' here
    have entry : Function.update s.mem.redo t (Function.update (s.mem.redo t) i e) t j =
      some e' := here
    rw [Function.update_self] at entry
    by_cases same : j = i
    · subst same
      rw [Function.update_self] at entry
      exact .inr (outside e'.ref (by rw [entry]; rfl))
    · rw [Function.update_of_ne same] at entry
      exact .inl entry
  · intro block flight
    have flight : p.block = some block := flight
    rw [none] at flight
    cases flight

theorem Inv.walk (h : Inv t s) {key value fuel : ℕ} {weak : Bool} (at_walk : s.pos = .walk key value)
    (run : s.putStep t weak fuel = some s') : Inv t s' := by
  have free : ∀ c, s.pos = .link c → c.pc = .bumpEra := by
    intro c linking
    rw [at_walk] at linking
    cases linking
  simp only [State.putStep, at_walk] at run
  obtain ⟨l, path, good⟩ := h.chains key
  cases ended : Hash.walk s.mem key fuel (bucket (t - 1) key) with
  | none => simp [ended] at run
  | some found =>
    have at_end := locate_of_walk path ended
    cases found with
    | data d =>
      simp only [ended, Option.some.injEq] at run
      subst run
      obtain ⟨b, mem, rfl, -⟩ := lookup_of_data at_end.symm
      exact h.setPos free rfl ⟨b, (good b mem).1, rfl⟩
    | last entry =>
      simp only [ended, Option.some.injEq] at run
      subst run
      exact h.setPos free rfl ⟨l, path, (lookup_of_last at_end.symm).1⟩

/-- A new value for a key that is there. -/
theorem Inv.found (h : Inv t s) (few : t ≤ 64) {value d : ℕ} (at_found : s.pos = .found value d) :
    Inv t { s with
      mem := s.mem.setLoc (d + 8) value
      pos := .idle
      content := Function.update s.content (d - keyOffset) (some (s.mem.loc d, value)) } := by
  have size : elementSize = 48 := rfl
  have offset : keyOffset = 24 := rfl
  have here := h.pos
  simp only [At, at_found] at here
  obtain ⟨b, listed, rfl⟩ := here
  rw [Nat.add_sub_cancel]
  have above := h.above b listed
  have kept : ∀ a, a ≠ b + keyOffset + 8 →
      (s.mem.setLoc (b + keyOffset + 8) value).loc a = s.mem.loc a := fun a other =>
    Function.update_of_ne other _ _
  have cells : ∀ a, IsCell t s a → (s.mem.setLoc (b + keyOffset + 8) value).loc a = s.mem.loc a := by
    rintro a (⟨key, rfl⟩ | ⟨b', listed', rfl⟩)
    · apply kept
      have := bucket_bounds few key
      omega
    · apply kept
      have := h.apart b listed b' listed'
      simp only [nextCell, sizeofCXLObj]
      omega
  have keys : ∀ b' ∈ s.elements, (s.mem.setLoc (b + keyOffset + 8) value).loc (b' + keyOffset) =
      s.mem.loc (b' + keyOffset) := by
    intro b' listed'
    apply kept
    have := h.apart b listed b' listed'
    omega
  refine ⟨h.era, h.above, h.apart, ?_, ?_, trivial⟩
  · intro key
    obtain ⟨l, path, good⟩ := h.chains key
    refine ⟨l, path.congr (cells _ (.inl ⟨key, rfl⟩)) fun b' mem =>
      cells _ (.inr ⟨b', (good b' mem).1, rfl⟩), ?_⟩
    intro b' mem
    obtain ⟨listed', counted, written, own⟩ := good b' mem
    refine ⟨listed', counted, ?_, by rw [keys b' listed']; exact own⟩
    show Function.update s.content b (some (s.mem.loc (b + keyOffset), value)) b' =
      some ((s.mem.setLoc (b + keyOffset + 8) value).loc (b' + keyOffset),
        (s.mem.setLoc (b + keyOffset + 8) value).loc (b' + keyOffset + 8))
    rw [keys b' listed']
    by_cases same : b' = b
    · subst same
      have stored : (s.mem.setLoc (b' + keyOffset + 8) value).loc (b' + keyOffset + 8) = value :=
        Function.update_self _ _ _
      rw [Function.update_self, stored]
    · rw [Function.update_of_ne same, kept, written]
      have := h.apart b listed b' listed'
      omega
  · intro i hi e entry
    left
    rcases h.harmless (by simp [at_found]) hi entry with ⟨table, blocks⟩ | ⟨func, some, same, cell⟩
    · refine .inl ⟨table, ?_⟩
      intro b' mem
      exact blocks b' (by simpa [State.blocks, at_found, Pos.block] using mem)
    · exact .inr ⟨func, some, (cells _ cell).trans same, cell⟩

/-- The allocator hands out a block. -/
theorem Inv.take (h : Inv t s) {key value entry block : ℕ} (at_alloc : s.pos = .alloc key value entry)
    (free : s.Free t block) : Inv t { s with pos := .fill .info key value entry block } := by
  have q : Quiet t s { s with pos := .fill .info key value entry block } :=
    ⟨rfl, fun _ => rfl, fun _ _ _ _ => rfl, fun _ _ => rfl, fun _ _ => rfl⟩
  refine q.inv_of_free h (by simp [at_alloc]) h.era (fun i _ e here => .inl here) ?_ ?_
  · intro block' flight
    obtain rfl : block = block' := Option.some.inj flight
    exact .inr free.2.2
  · have here := h.pos
    simp only [At, at_alloc] at here
    refine ⟨here, ⟨free.1, free.2.1⟩, ?_, ?_, ?_⟩
    · exact fun different => absurd rfl different
    · rintro (absurd | absurd) <;> cases absurd
    · exact fun absurd => by cases absurd

/-! ### The new element -/

/-- A store into a block that overlaps no element changes no word of the partition. -/
theorem Clear.loc (few : t ≤ 64) {block a : ℕ} (clear : Clear s block) (low : block ≤ a)
    (high : a + 8 ≤ block + elementSize) (w : ℕ) :
    (∀ key, (s.mem.setLoc a w).loc (bucket (t - 1) key) = s.mem.loc (bucket (t - 1) key)) ∧
      ∀ b ∈ s.elements, ∀ i < elementSize, (s.mem.setLoc a w).loc (b + i) = s.mem.loc (b + i) := by
  constructor
  · intro key
    apply Function.update_of_ne
    have := bucket_bounds few key
    have := clear.1
    omega
  · intro b mem i hi
    apply Function.update_of_ne
    have := clear.2 b mem
    omega

/-- A step of `put` after which the same block is under way, with the same log and counter. -/
theorem Inv.same_block (h : Inv t s) (free : ∀ c, s.pos = .link c → c.pc = .bumpEra) {block : ℕ}
    (before : s.pos.block = some block) (after : s'.pos.block = some block) (q : Quiet t s s')
    (era : s'.mem.era t t = s.mem.era t t) (redo : s'.mem.redo = s.mem.redo) (pos : At t s') :
    Inv t s' := by
  refine q.inv_of_free h free (by rw [era]; exact h.era) ?_ ?_ pos
  · intro i _ e here
    rw [redo] at here
    exact .inl here
  · intro block' flight
    rw [after] at flight
    rw [← flight]
    exact .inl before

theorem Inv.fill (h : Inv t s) (few : t ≤ 64) {w : Word} {key value entry block : ℕ}
    (at_fill : s.pos = .fill w key value entry block) :
    Inv t (s.fillStep t w key value entry block) := by
  have offset : keyOffset = 24 := rfl
  have size : elementSize = 48 := rfl
  have here := h.pos
  simp only [At, at_fill] at here
  obtain ⟨atEnd, clear, filled⟩ := here
  have free : ∀ c, s.pos = .link c → c.pc = .bumpEra := by simp [at_fill]
  have before : s.pos.block = some block := by rw [at_fill]; rfl
  have fresh : ∀ b ∈ s.elements, b ≠ block := by
    rintro b mem rfl
    have := clear.2 b mem
    omega
  cases w with
  | info =>
    have q : Quiet t s (s.fillStep t .info key value entry block) :=
      ⟨rfl, fun _ => rfl, fun _ _ _ _ => rfl, fun b mem => Function.update_of_ne (fresh b mem) _ _,
        fun _ _ => rfl⟩
    refine h.same_block free before rfl q rfl rfl ⟨q.atEnd h atEnd, q.clear clear, ?_, ?_, ?_⟩
    · exact fun _ => Function.update_self _ _ _
    · rintro (absurd | absurd) <;> cases absurd
    · exact fun absurd => by cases absurd
  | embedded =>
    obtain ⟨cells, words⟩ := clear.loc few (a := block + 16) (by omega) (by omega) 0
    have q : Quiet t s (s.fillStep t .embedded key value entry block) :=
      ⟨rfl, cells, words, fun _ _ => rfl, fun _ _ => rfl⟩
    refine h.same_block free before rfl q rfl rfl ⟨q.atEnd h atEnd, q.clear clear, ?_, ?_, ?_⟩
    · exact fun _ => filled.info (by decide)
    · rintro (absurd | absurd) <;> cases absurd
    · exact fun absurd => by cases absurd
  | key =>
    obtain ⟨cells, words⟩ := clear.loc few (a := block + keyOffset) (by omega) (by omega) key
    have q : Quiet t s (s.fillStep t .key key value entry block) :=
      ⟨rfl, cells, words, fun _ _ => rfl, fun _ _ => rfl⟩
    refine h.same_block free before rfl q rfl rfl ⟨q.atEnd h atEnd, q.clear clear, ?_, ?_, ?_⟩
    · exact fun _ => filled.info (by decide)
    · exact fun _ => Function.update_self _ _ _
    · exact fun absurd => by cases absurd
  | value =>
    obtain ⟨cells, words⟩ := clear.loc few (a := block + keyOffset + 8) (by omega) (by omega) value
    have q : Quiet t s (s.fillStep t .value key value entry block) :=
      ⟨rfl, cells, words, fun _ _ => rfl, fun _ _ => rfl⟩
    refine h.same_block free before rfl q rfl rfl ⟨q.atEnd h atEnd, q.clear clear, ?_, ?_, ?_⟩
    · exact fun _ => filled.info (by decide)
    · intro _
      exact (Function.update_of_ne (by omega) _ _).trans (filled.key (.inl rfl))
    · exact fun _ => Function.update_self _ _ _
  | next =>
    obtain ⟨cells, words⟩ := clear.loc few (a := block + keyOffset + 16) (by omega) (by omega) 0
    have q : Quiet t s (s.fillStep t .next key value entry block) :=
      ⟨rfl, cells, words, fun _ _ => rfl, fun b mem => Function.update_of_ne (fresh b mem) _ _⟩
    have key_word : (s.fillStep t .next key value entry block).mem.loc (block + keyOffset) = key :=
      (Function.update_of_ne (by omega) _ _).trans (filled.key (.inr rfl))
    have value_word : (s.fillStep t .next key value entry block).mem.loc (block + keyOffset + 8) =
        value := (Function.update_of_ne (by omega) _ _).trans (filled.value rfl)
    refine h.same_block free before rfl q rfl rfl ⟨rfl, .inr ⟨⟨?_, q.clear clear, ?_, ?_⟩, ?_⟩⟩
    · show AtEnd t _ (State.mem _ |>.loc (block + keyOffset)) entry
      rw [key_word]
      exact q.atEnd h atEnd
    · exact Function.update_self _ _ _
    · show Function.update s.content block (some (key, value)) block = some (_, _)
      rw [Function.update_self]
      show _ = some ((s.fillStep t .next key value entry block).mem.loc (block + keyOffset),
        (s.fillStep t .next key value entry block).mem.loc (block + keyOffset + 8))
      rw [key_word, value_word]
    · exact filled.info (by decide)

/-! ### The link -/

theorem Clear.fresh {block : ℕ} (clear : Clear s block) : block ∉ s.elements := by
  intro again
  have := clear.2 block again
  simp only [elementSize, sizeofCXLObj] at this
  omega

/-- The call goes on, and the words it relies on stay. -/
theorem Inv.link_next (h : Inv t s) {c : Call ℕ} (c' : Call ℕ) (at_link : s.pos = .link c)
    (func : c'.func = .linkRef) (ref : c'.ref = c.ref) (refed : c'.refed = c.refed)
    (late : c'.pc ≠ .bumpEra) (ready : Ready t s c) {m : Mem ℕ} (loc : m.loc = s.mem.loc)
    (info : ∀ b ∈ s.elements, m.refInfo b = s.mem.refInfo b) (era : m.era t t = s.mem.era t t)
    (redo : ∀ i < redoCachelineCnt, ∀ e, m.redo t i = some e → s.mem.redo t i = some e ∨
      e.funcId = .linkRef ∧ e.ref = c.ref ∧ e.refed = c.refed ∧ e.curEra = s.mem.era t t)
    (stamp : Linking t { s with mem := m, pos := .link c' } c') :
    Inv t { s with mem := m, pos := .link c' } := by
  have q : Quiet t s { s with mem := m, pos := .link c' } :=
    ⟨rfl, fun _ => congrFun loc _, fun _ _ _ _ => congrFun loc _, info, fun _ _ => rfl⟩
  refine q.inv h (by rw [era]; exact h.era) ?_ ⟨func, .inr ⟨⟨?_, q.clear ?_, ?_, ?_⟩, stamp⟩⟩
  · intro i hi e here
    have own : e.funcId = .linkRef → e.ref = c.ref → e.refed = c.refed →
        e.curEra = s.mem.era t t → Own t { s with mem := m, pos := .link c' } e := by
      intro link same_ref same_refed stamped
      exact ⟨c', rfl, late, link, same_ref.trans ref.symm, same_refed.trans refed.symm,
        stamped.trans era.symm⟩
    rcases redo i hi e here with old | ⟨link, same_ref, same_refed, stamped⟩
    · rcases h.log i hi e old with harmless | ⟨c₀, linking, -, link, same_ref, same_refed, stamped⟩
      · left
        apply q.harmless harmless
        intro block flight outside
        have flight : c'.refed = block := Option.some.inj flight
        apply outside.2 block
        rw [← flight, refed]
        exact List.mem_append_left _ (by rw [at_link]; exact List.mem_singleton_self _)
      · right
        rw [at_link] at linking
        obtain rfl := Pos.link.inj linking
        exact own link same_ref same_refed stamped
    · exact .inr (own link same_ref same_refed stamped)
  · show AtEnd t { s with mem := m, pos := .link c' } (m.loc (c'.refed + keyOffset)) c'.ref
    rw [loc, ref, refed]
    exact q.atEnd h ready.atEnd
  · rw [refed]
    exact ready.clear
  · show m.loc (nextCell c'.refed) = 0
    rw [loc, refed]
    exact ready.next
  · show s.content c'.refed = some (m.loc (c'.refed + keyOffset), m.loc (c'.refed + keyOffset + 8))
    rw [loc, refed]
    exact ready.content

/-- The element is linked, by the client or by the redo of its slot. -/
theorem Inv.linked (h : Inv t s) (few : t ≤ 64) {c : Call ℕ} (at_link : s.pos = .link c)
    (ready : Ready t s c) (counted : 1 ≤ getRefCntFromInfo (s.mem.refInfo c.refed)) {p : Pos}
    (block : p.block = none ∨ p.block = some c.refed)
    (pos : At t ⟨s.mem.setLoc c.ref c.refed, p, c.refed :: s.elements, s.content⟩) :
    Inv t ⟨s.mem.setLoc c.ref c.refed, p, c.refed :: s.elements, s.content⟩ := by
  have base : 0 < segmentsAreaStart := by decide
  have above := ready.clear.1
  have in_blocks : ∀ b ∈ p.block.toList ++ c.refed :: s.elements, b ∈ s.blocks := by
    intro b mem
    rw [State.blocks, at_link]
    show b ∈ c.refed :: s.elements
    rcases List.mem_append.1 mem with flight | listed
    · rcases block with none | some
      · rw [none] at flight
        cases flight
      · rw [some] at flight
        rw [List.mem_singleton.1 flight]
        exact List.mem_cons_self
    · exact listed
  refine ⟨h.era, ?_, ?_, h.append few ready counted, ?_, pos⟩
  · intro b mem
    rcases List.mem_cons.1 mem with rfl | mem
    · exact above
    · exact h.above b mem
  · intro b mem b' mem'
    rcases List.mem_cons.1 mem with rfl | old <;> rcases List.mem_cons.1 mem' with rfl | old'
    · exact .inl rfl
    · exact .inr (ready.clear.2 b' old')
    · exact .inr (ready.clear.2 b old).symm
    · exact h.apart b old b' old'
  · intro i hi e here
    left
    have cell := h.isCell_of_atEnd ready.atEnd
    have wider : ∀ a, IsCell t s a →
        IsCell t ⟨s.mem.setLoc c.ref c.refed, p, c.refed :: s.elements, s.content⟩ a := by
      rintro a (bucket | ⟨b, listed, same⟩)
      · exact .inl bucket
      · exact .inr ⟨b, List.mem_cons_of_mem _ listed, same⟩
    rcases h.log i hi e here with (⟨table, blocks⟩ | ⟨func, some, held, cell'⟩) |
      ⟨c₀, linking, -, func, ref, refed, -⟩
    · exact .inl ⟨table, fun b mem => blocks b (in_blocks b mem)⟩
    · refine .inr ⟨func, some, ?_, wider _ cell'⟩
      refine (Function.update_of_ne ?_ _ _).trans held
      intro same
      rw [same, ready.atEnd.loc] at held
      exact some held.symm
    · rw [at_link] at linking
      obtain rfl := Pos.link.inj linking
      refine .inr ⟨func, ?_, ?_, by rw [ref]; exact wider _ cell⟩
      · rw [refed]
        exact Nat.ne_of_gt (Nat.lt_of_lt_of_le base above)
      · rw [ref, refed]
        exact Function.update_self _ _ _

theorem Inv.link (h : Inv t s) (few : t ≤ 64) {c : Call ℕ} (at_link : s.pos = .link c) (weak : Bool) :
    Inv t (s.linkStep t c weak) := by
  have id_small : t < 2 ^ 16 := by omega
  have here := h.pos
  simp only [At, at_link] at here
  obtain ⟨func, ⟨pc, listed⟩ | ⟨ready, linking⟩⟩ := here
  · -- the era moves on and the call returns
    have last : c.last = false := by simp [Call.last, func]
    have step : s.linkStep t c weak = { s with mem := s.mem.bumpEra t, pos := .idle } := by
      simp [State.linkStep, Call.exec, pc, last]
    rw [step]
    have q : Quiet t s { s with mem := s.mem.bumpEra t, pos := .idle } :=
      ⟨rfl, fun _ => rfl, fun _ _ _ _ => rfl, fun _ _ => rfl, fun _ _ => rfl⟩
    refine q.inv_of_free h ?_ ?_ (fun i _ e here => .inl here) (fun _ absurd => by cases absurd) trivial
    · intro c' linking
      rw [at_link] at linking
      obtain rfl := Pos.link.inj linking
      exact pc
    · show Function.update s.mem.eraArray (eraIndex t t) _ (eraIndex t t) < 2 ^ 32
      rw [Function.update_self]
      exact Nat.mod_lt _ (by norm_num)
  · unfold Linking at linking
    cases pc : c.pc with
    | loadInfo =>
      simp only [pc] at linking
      have step : s.linkStep t c weak = { s with
          pos := .link { c with refInfo := s.mem.refInfo c.refed, pc := .loadEra } } := by
        simp [State.linkStep, Call.exec, pc, Call.afterInfo, func]
      rw [step]
      exact h.link_next { c with refInfo := s.mem.refInfo c.refed, pc := .loadEra } at_link func rfl rfl
        Pc.noConfusion ready rfl (fun _ _ => rfl) rfl (fun i _ e here => .inl here) ⟨linking, rfl⟩
    | loadEra =>
      simp only [pc] at linking
      have step : s.linkStep t c weak = { s with
          pos := .link { c with curEra := s.mem.era t t, pc := .testEle } } := by
        simp [State.linkStep, Call.exec, pc, Call.afterEra, func]
      rw [step]
      exact h.link_next { c with curEra := s.mem.era t t, pc := .testEle } at_link func rfl rfl
        Pc.noConfusion ready rfl (fun _ _ => rfl) rfl (fun i _ e here => .inl here)
        ⟨linking.1, linking.2, rfl⟩
    | testEle =>
      simp only [pc] at linking
      have saw : ¬ s.mem.era t c.sawCid < c.sawEra := by
        rw [Call.sawCid, Call.sawEra, linking.2.1, linking.1,
          getLcidFromInfo_packRefInfo id_small (by norm_num) h.era,
          getLenumFromInfo_packRefInfo h.era]
        exact Nat.lt_irrefl _
      have step : s.linkStep t c weak = { s with pos := .link { c with pc := .storeRedo } } := by
        simp [State.linkStep, Call.exec, pc, saw, Call.afterEle, func]
      rw [step]
      exact h.link_next { c with pc := .storeRedo } at_link func rfl rfl Pc.noConfusion ready rfl
        (fun _ _ => rfl) rfl (fun i _ e here => .inl here) linking
    | storeRedo =>
      simp only [pc] at linking
      have step : s.linkStep t c weak = { s with
          mem := s.mem.setRedo t (c.curEra % redoCachelineCnt) (some c.redoLog)
          pos := .link { c with pc := .cas } } := by
        simp [State.linkStep, Call.exec, pc]
      rw [step]
      refine h.link_next { c with pc := .cas } at_link func rfl rfl Pc.noConfusion ready rfl
        (fun _ _ => rfl) rfl ?_ linking
      intro i _ e here
      have entry : Function.update s.mem.redo t (Function.update (s.mem.redo t)
          (c.curEra % redoCachelineCnt) (some c.redoLog)) t i = some e := here
      rw [Function.update_self] at entry
      by_cases same : i = c.curEra % redoCachelineCnt
      · rw [same, Function.update_self] at entry
        obtain rfl := Option.some.inj entry
        exact .inr ⟨func, rfl, rfl, linking.2.2⟩
      · rw [Function.update_of_ne same] at entry
        exact .inl entry
    | cas =>
      simp only [pc] at linking
      by_cases wins : weak = false ∧ s.mem.refInfo c.refed = c.refInfo
      · have step : s.linkStep t c weak = { s with
            mem := s.mem.setRefInfo c.refed (c.newRefInfo t)
            pos := .link { c with pc := .storeRef } } := by
          simp [State.linkStep, Call.exec, pc, wins.1, wins.2]
        have count : c.newRefInfo t = packRefInfo t 1 (s.mem.era t t) := by
          rw [Call.newRefInfo, func, Call.refInfoCnt, linking.2.1, linking.1, linking.2.2,
            refCnt_stamp h (by norm_num)]
        rw [step]
        refine h.link_next { c with pc := .storeRef } at_link func rfl rfl Pc.noConfusion ready rfl ?_ rfl
          (fun i _ e here => .inl here) ?_
        · intro b mem
          apply Function.update_of_ne
          rintro rfl
          exact ready.clear.fresh mem
        · show Function.update s.mem.refInfo c.refed (c.newRefInfo t) c.refed = _
          rw [Function.update_self, count]
          rfl
      · have step : s.linkStep t c weak = { s with pos := .link { c with pc := .loadInfo } } := by
          simp [State.linkStep, Call.exec, pc, wins]
        rw [step]
        exact h.link_next { c with pc := .loadInfo } at_link func rfl rfl Pc.noConfusion ready rfl
          (fun _ _ => rfl) rfl (fun i _ e here => .inl here) linking.1
    | storeRef =>
      simp only [pc] at linking
      have counted : 1 ≤ getRefCntFromInfo (s.mem.refInfo c.refed) := by
        rw [linking, refCnt_stamp h (by norm_num)]
      have step : s.linkStep t c weak = ⟨s.mem.setLoc c.ref c.refed, .link { c with pc := .bumpEra },
          c.refed :: s.elements, s.content⟩ := by
        simp [State.linkStep, Call.exec, pc, Call.newRef, func]
      rw [step]
      exact h.linked few at_link ready counted (.inr rfl)
        ⟨func, .inl ⟨rfl, List.mem_cons_self⟩⟩
    | storeEle | bumpEra | free => simp [pc] at linking

/-! ### Stopping -/

/-- The client stops outside the window, and registers again. -/
theorem Inv.crash (h : Inv t s) (few : t ≤ 64) (careful : ∀ c, s.pos = .link c → c.pc ≠ .bumpEra →
    if c.pc = .storeRef then s.Selected t c else ¬ s.Written t c) :
    Inv t { s with
      mem := (redoRefCnt s.mem t).1
      pos := .idle
      elements := s.redoneElements t } := by
  by_cases counted : ∃ c, s.pos = .link c ∧ c.pc = .storeRef
  · obtain ⟨c, linking, pc⟩ := counted
    have found := careful c linking (by rw [pc]; exact Pc.noConfusion)
    rw [if_pos pc] at found
    have elements : s.redoneElements t = c.refed :: s.elements := by
      simp only [State.redoneElements, linking]
      exact if_pos ⟨pc, found⟩
    obtain ⟨e, selected, ref, refed⟩ := found
    have pos := h.pos
    rw [At, linking] at pos
    obtain ⟨ready, stamp⟩ := pos.2.resolve_left fun done => by
      rw [pc] at done
      cases done.1
    rw [elements, (h.redo_counted few linking pc selected ref refed).1]
    refine h.linked few linking ready (p := .idle) ?_ (.inl rfl) trivial
    rw [stamp.counted pc, refCnt_stamp h (by norm_num)]
  · have harmless : ∀ i < redoCachelineCnt, ∀ e, s.mem.redo t i = some e → Harmless t s e := by
      intro i hi e here
      rcases h.log i hi e here with harmless | ⟨c, linking, late, -, ref, refed, -⟩
      · exact harmless
      · have found := careful c linking late
        rw [if_neg fun pc => counted ⟨c, linking, pc⟩] at found
        exact absurd ⟨i, hi, e, here, ref, refed⟩ found
    have elements : s.redoneElements t = s.elements := by
      unfold State.redoneElements
      split
      · next c linking => exact if_neg fun both => counted ⟨c, linking, both.1⟩
      all_goals rfl
    have selected : ∀ e, selectRedo s.mem t = some e → Harmless t s e := by
      intro e selected
      obtain ⟨i, hi, same⟩ := (selectRedo_spec s.mem t).1
      rw [selected] at same
      exact harmless i hi e same.symm
    have q := quiet_redo few selected (p := .idle)
    obtain ⟨-, era, redo⟩ := redoRefCnt_rest s.mem t
    rw [elements]
    refine q.inv h ?_ ?_ trivial
    · show (redoRefCnt s.mem t).1.eraArray _ < 2 ^ 32
      rw [era]
      exact h.era
    · intro i hi e here
      rw [redo] at here
      exact .inl (q.harmless (harmless i hi e here) fun _ absurd => by cases absurd)

theorem Inv.step (h : Inv t s) (few : t ≤ 64) {a : Action} (hs : s.step t a = some s')
    (careful : Careful t s a s') : Inv t s' := by
  cases a with
  | put key value =>
    simp only [State.step] at hs
    split at hs
    · next idle =>
      obtain rfl := Option.some.inj hs
      exact h.setPos (by simp [idle]) rfl trivial
    · cases hs
  | next weak fuel =>
    have hs : s.putStep t weak fuel = some s' := hs
    cases pos : s.pos with
    | idle | alloc key value entry => simp [State.putStep, pos] at hs
    | walk key value => exact h.walk pos hs
    | found value d =>
      simp only [State.putStep, pos, Option.some.injEq] at hs
      exact hs ▸ h.found few pos
    | clearing key value entry i =>
      have free : ∀ c, s.pos = .link c → c.pc = .bumpEra := by simp [pos]
      have here := h.pos
      simp only [At, pos] at here
      simp only [State.putStep, pos] at hs
      split at hs
      · obtain rfl := Option.some.inj hs
        exact h.setRedo free rfl (fun r mem => by cases mem) here
      · obtain rfl := Option.some.inj hs
        exact h.setPos free rfl here
    | fill w key value entry block =>
      simp only [State.putStep, pos, Option.some.injEq] at hs
      exact hs ▸ h.fill few pos
    | link c =>
      simp only [State.putStep, pos, Option.some.injEq] at hs
      exact hs ▸ h.link few pos weak
  | take block =>
    simp only [State.step] at hs
    split at hs
    · next key value entry pos =>
      obtain rfl := Option.some.inj hs
      exact h.take pos careful
    · cases hs
  | generic =>
    simp only [State.step] at hs
    split at hs
    · next key value entry pos =>
      obtain rfl := Option.some.inj hs
      have here := h.pos
      simp only [At, pos] at here
      exact h.setPos (by simp [pos]) rfl here
    · cases hs
  | crash =>
    obtain rfl := Option.some.inj hs
    exact h.crash few careful
  | store a w =>
    obtain rfl := Option.some.inj hs
    exact h.store few careful
  | storeInfo o w =>
    obtain rfl := Option.some.inj hs
    exact h.storeInfo careful
  | storeEra x y v =>
    obtain rfl := Option.some.inj hs
    exact h.storeEra careful
  | ownEra v =>
    simp only [State.step] at hs
    split at hs
    · next idle =>
      obtain rfl := Option.some.inj hs
      exact h.ownEra idle careful
    · cases hs
  | log i e =>
    simp only [State.step] at hs
    split at hs
    · next idle =>
      obtain rfl := Option.some.inj hs
      have same : { s with mem := s.mem.setRedo t i e } =
          { s with mem := s.mem.setRedo t i e, pos := .idle } := by
        rw [← idle]
      rw [same]
      refine h.setRedo (by simp [idle]) rfl ?_ trivial
      rw [← idle]
      exact careful
    · cases hs

end Step

/-- Client `t` has a partition.  In every run in which it does not stop in the window, and with what
the allocator and others promise, the redo of its slot at this moment leaves every chain of the
partition in order if and only if the client is not in the window. -/
theorem sound_redo_iff {t : ℕ} (few : t ≤ 64) {s : State}
    (reached : Reachable (State.step t) (Careful t) State.init s) :
    Sound t (redoRefCnt s.mem t).1 s.content ↔ ¬ s.InWindow t := by
  have inv : Inv t s := reached.invariant (inv_init t) fun _ _ _ h hs careful =>
    h.step few hs careful
  exact inv.sound_iff few

/-- `Careful`, for a run into an empty table that is computed. -/
def careful (s : State) : Action → State → Bool
  | .take block, _ =>
    segmentsAreaStart ≤ block ∧ s.elements = [] ∧ ∀ i < redoCachelineCnt, s.mem.redo 1 i = none
  | .ownEra v, _ => v < 2 ^ 32
  | .put _ _, _ | .next _ _, _ | .generic, _ => true
  | .crash, _ | .store _ _, _ | .storeInfo _ _, _ | .storeEra _ _ _, _ | .log _ _, _ => false

theorem careful_sound {s s' : State} {a : Action} (h : careful s a s' = true) : Careful 1 s a s' := by
  cases a with
  | take block =>
    obtain ⟨above, empty, clear⟩ := of_decide_eq_true h
    refine ⟨above, fun b mem => ?_, fun i hi e here => ?_⟩
    · rw [empty] at mem
      cases mem
    · rw [clear i hi] at here
      cases here
  | ownEra v =>
    have small : v < 2 ^ 32 := of_decide_eq_true h
    exact small
  | put key value => trivial
  | next weak fuel => trivial
  | generic => trivial
  | crash => cases h
  | store a w => cases h
  | storeInfo o w => cases h
  | storeEra x y v => cases h
  | log i e => cases h

/-- Client 1 puts its first key; `n` accesses of the `put` after the allocation. -/
def firstPut (n : ℕ) : List Action :=
  [.ownEra 1, .put 5 7, .next false 1, .take segmentsAreaStart] ++ List.replicate n (.next false 1)

theorem exists_firstPut {n : ℕ} {P : State → Bool}
    (run : (checkedRun (State.step 1) careful State.init (firstPut n)).any P = true) :
    ∃ s, Reachable (State.step 1) (Careful 1) State.init s ∧ P s = true := by
  have sound : ∀ (s : State) a s', True → s.step 1 a = some s' → careful s a s' = true →
      True ∧ Careful 1 s a s' := fun _ _ _ _ _ passed => ⟨trivial, careful_sound passed⟩
  exact exists_reachable_of_checkedRun sound trivial run

/-- After the compare-exchange the redo completes the `put`. -/
theorem sound_redo_counted : ∃ s : State, (∃ c, s.pos = .link c ∧ c.pc = .storeRef) ∧
    Sound 1 (redoRefCnt s.mem 1).1 s.content := by
  obtain ⟨s, reached, counted⟩ := exists_firstPut (n := 10) (P := fun s =>
    match s.pos with
    | .link c => c.pc = .storeRef
    | _ => false) (by decide +kernel)
  cases pos : s.pos with
  | link c =>
    have pc : c.pc = .storeRef := by simpa [pos] using counted
    refine ⟨s, ⟨c, pos, pc⟩, (sound_redo_iff (by decide) reached).2 ?_⟩
    rintro ⟨c', linking, early, -⟩
    rw [pos] at linking
    obtain rfl := Pos.link.inj linking
    exact early pc
  | idle | walk key value | found value d | alloc key value entry | clearing key value entry i
  | fill w key value entry block => simp [pos] at counted

/-- Between the log entry and the compare-exchange the redo links an object whose count is 0. -/
theorem uncounted_element_linked : ¬ ∀ s : State,
    Reachable (State.step 1) (Careful 1) State.init s → Sound 1 (redoRefCnt s.mem 1).1 s.content := by
  intro claim
  obtain ⟨s, reached, window⟩ := exists_firstPut (n := 9) (P := fun s =>
    match s.pos with
    | .link c => c.pc = .cas ∧ s.Selected 1 c
    | _ => false) (by decide +kernel)
  have inv : Inv 1 s := reached.invariant (inv_init 1) fun _ _ _ h hs careful =>
    h.step (by decide) hs careful
  cases pos : s.pos with
  | link c =>
    obtain ⟨pc, selected⟩ : c.pc = .cas ∧ s.Selected 1 c := by simpa [pos] using window
    have inside : s.InWindow 1 := ⟨c, pos, by rw [pc]; exact Pc.noConfusion,
      by rw [pc]; exact Pc.noConfusion, selected⟩
    exact (inv.sound_iff (by decide)).1 (claim s reached) inside
  | idle | walk key value | found value d | alloc key value entry | clearing key value entry i
  | fill w key value entry block => simp [pos] at window

end CxlShm.Hash.Crash
