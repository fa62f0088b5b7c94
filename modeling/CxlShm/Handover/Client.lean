import CxlShm.Handover.Owner

/-!
# The accesses of clients

Each access of a client keeps the invariant.  Those in this module leave the page records and the
queues as they are: a block is built, given up or pushed, and the chain of the segment is taken.
-/

namespace CxlShm.Handover

open Linked Function Heap Counting

variable {g t i era : ℕ} {bin : ℕ → Option ℕ} {place : Offset → Place} {s s' : State}
  {b : Offset} {v : Place} {o : Option ℕ} {info : StateFreeInfo} {special weak : Bool}

theorem Places.unlisted (off : (place b).stack = none) (none : v.stack = none) :
    update (fun x => (place x).stack) b v.stack = fun x => (place x).stack := by
  rw [none, ← off]
  exact update_eq_self _ _

/-- The block that the party has in hand. -/
theorem Places.in_hand (h : Places place s) (at_pc : s.held o = some b) : place b = .held o :=
  (h.held o b).1 at_pc

/-- The lists after a write into a block that is on none, when it stays on none. -/
theorem Places.lists_write {x : ℕ} (h : Places place s) (off : (place b).stack = none)
    (none : v.stack = none) (next : s'.blockNext = update s.blockNext b x)
    (heads : s'.heads = s.heads) :
    Stacks s'.blockNext 0 s'.heads (update (fun x => (place x).stack) b v.stack) := by
  rw [Places.unlisted off none, next, heads]
  exact h.lists.write off

theorem Places.lists_same (h : Places place s) (off : (place b).stack = none) (none : v.stack = none)
    (next : s'.blockNext = s.blockNext) (heads : s'.heads = s.heads) :
    Stacks s'.blockNext 0 s'.heads (update (fun x => (place x).stack) b v.stack) := by
  rw [Places.unlisted off none, next, heads]
  exact h.lists

/-- The heads of the lists after the word of the segment has been exchanged. -/
theorem heads_info (owned : s.segmentThreadId ≠ 0) (info : StateFreeInfo) :
    ({ s with info := info } : State).heads = update s.heads .threadFree info.threadFree := by
  obtain ⟨s', s'_eq⟩ : ∃ s', s' = ({ s with info := info } : State) := ⟨_, rfl⟩
  have chain : s'.chain = info.threadFree := by
    rw [s'_eq]
    exact if_neg owned
  have kept : s'.Kept ↔ s.Kept := by
    rw [s'_eq]
    exact Iff.rfl
  have free : s'.free = s.free := by rw [s'_eq]
  have localFree : s'.localFree = s.localFree := by rw [s'_eq]
  have tail : s'.tail = s.tail := by
    rw [s'_eq]
    rfl
  rw [← s'_eq]
  unfold State.heads
  simp only [kept, chain, free, localFree, tail]
  split
  · exact heads_chain
  · exact heads_chain

/-- A block is put in front of the chain of the segment that it has been linked to. -/
theorem Places.push (h : Places place s) (at_b : place b = .held o)
    (linked : s.linked o = some (b, info.threadFree)) (seen : s.info = info)
    (heads : s'.heads = update s.heads .threadFree b) (next : s'.blockNext = s.blockNext)
    (refInfo : s'.refInfo = s.refInfo) (object : s'.object = s.object) (rootOf : s'.rootOf = s.rootOf)
    (held' : s'.held = update s.held o none) (linked' : s'.linked = update s.linked o none)
    (born : s'.bornIn = s.bornIn) (generation : s'.generation = s.generation)
    (header : s'.segmentThreadId = s.segmentThreadId) :
    Places (update place b (.listed .threadFree)) s' := by
  have inside : place b ≠ .outside := by simp [at_b]
  have chain : s.heads .threadFree = info.threadFree := by
    have owned := h.owned inside
    unfold State.heads
    split <;> simp [Handover.heads, State.chain, owned, seen]
  refine h.release at_b (by rintro o ⟨⟩) ?_ (by rintro q ⟨⟩; trivial) (fun _ _ => by rw [object]) ?_
    (fun _ _ => by rw [rootOf]) ?_ held' linked' (fun _ _ => by rw [next]) (fun _ _ => by rw [refInfo])
    (by rintro ⟨⟩) born generation header
  · rw [next, heads]
    refine h.lists.link (h.nonzero b inside) (by simp [at_b]) ?_
    rw [chain]
    exact h.ready o b _ linked
  · rw [object]
    simp [h.object, at_b]
  · intro u
    rw [rootOf]
    simp [h.root, at_b]

namespace Inv

theorem todo (h : Inv g bin place s) (kept : s.Kept) (owner : s.segmentThreadId = t) :
    (s.pc t).Todo bin s.used := by
  rw [← owner]
  exact (h.owned kept).todo

/-- What an owning client relies on. -/
theorem todo_of_owning (h : Inv g bin place s) (owning : (s.pc t).Owning) :
    (s.pc t).Todo bin s.used :=
  h.todo (h.control.kept_of_owning owning) (h.control.owning t owning)

/-! ## A block is built -/

section Build

theorem storeTbr (h : Inv g bin place s) (at_pc : s.pc t = .storeBlock 0 b era) :
    Inv g bin (update place b (.root t))
      ({ s.setNext b 0 with rootOf := update s.rootOf b (some t) }.setPc t .idle) := by
  have at_b : place b = .held (some t) := h.places.in_hand (by simp [State.held, at_pc, Pc.held])
  have todo := h.todo_of_owning (t := t) (by rw [at_pc]; trivial)
  have running := h.control.running t (by simp [at_pc])
  have tail : Pc.idle.tail = (s.pc t).tail := by rw [at_pc]; rfl
  rw [at_pc] at todo
  refine h.move rfl ⟨⟨rfl, rfl, rfl⟩, rfl, rfl, rfl, rfl, rfl, rfl⟩ rfl ?_ running id False.elim rfl
    rfl rfl (by rw [at_b]; trivial) trivial (fun _ => todo) (fun _ => by rintro ⟨⟩)
    (by rw [at_pc]; rfl) (by simp) (fun _ _ => trivial)
  refine h.places.release at_b (by rintro o ⟨⟩) ?_ (by rintro q ⟨⟩) (fun _ _ => rfl) ?_ ?_ ?_ ?_ ?_ ?_
    (fun _ _ => rfl) (by rintro ⟨⟩) rfl rfl rfl
  · exact h.places.lists_write (by simp [at_b]) rfl rfl (heads_setPc _ tail)
  · show s.object b = true ↔ _
    simp [h.places.object, at_b]
  · intro x other
    exact update_of_ne other _ _
  · intro u
    show update s.rootOf b (some t) b = some u ↔ _
    simp
  · exact held_setPc _ t .idle
  · exact linked_setPc _ t .idle
  · intro x other
    exact update_of_ne other _ _

theorem storeMsgQueue (h : Inv g bin place s) (at_pc : s.pc t = .storeBlock i b era) :
    Inv g bin (update place b .lost) ((s.setNext b 0).setPc t .idle) := by
  have at_b : place b = .held (some t) := h.places.in_hand (by simp [State.held, at_pc, Pc.held])
  have running := h.control.running t (by simp [at_pc])
  have tail : Pc.idle.tail = (s.pc t).tail := by rw [at_pc]; rfl
  refine h.move rfl ⟨⟨rfl, rfl, rfl⟩, rfl, rfl, rfl, rfl, rfl, rfl⟩ rfl ?_ running id False.elim rfl
    rfl rfl (by rw [at_b]; trivial) trivial (fun _ => trivial) (fun _ => by rintro ⟨⟩)
    (by rw [at_pc]; rfl) (by simp) (fun _ _ => trivial)
  refine h.places.release at_b (by rintro o ⟨⟩) ?_ (by rintro q ⟨⟩) (fun _ _ => rfl) ?_
    (fun _ _ => rfl) ?_ ?_ ?_ ?_ (fun _ _ => rfl) (by rintro ⟨⟩) rfl rfl rfl
  · exact h.places.lists_write (by simp [at_b]) rfl rfl (heads_setPc _ tail)
  · show s.object b = true ↔ _
    simp [h.places.object, at_b]
  · intro u
    show s.rootOf b = some u ↔ _
    simp [h.places.root, at_b]
  · exact held_setPc _ t .idle
  · exact linked_setPc _ t .idle
  · intro x other
    exact update_of_ne other _ _

theorem storeCxlobj (h : Inv g bin place s) (at_pc : s.pc t = .storeBlock i b era) (two : 2 ≤ i) :
    Inv g bin (update place b .object)
      ({ s.setRefInfo b (packRefInfo t 1 (era % 2 ^ 32)) with
        object := update s.object b true }.setPc t .idle) := by
  have at_b : place b = .held (some t) := h.places.in_hand (by simp [State.held, at_pc, Pc.held])
  have owning : (s.pc t).Owning := by rw [at_pc]; trivial
  have kept := h.control.kept_of_owning owning
  have todo := h.todo_of_owning owning
  have running := h.control.running t (by simp [at_pc])
  have tail : Pc.idle.tail = (s.pc t).tail := by rw [at_pc]; rfl
  rw [at_pc] at todo
  obtain ⟨-, -, ⟨-, not_two⟩, -⟩ := (h.owned kept).page _ _ todo
  refine h.move rfl ⟨⟨rfl, rfl, rfl⟩, rfl, rfl, rfl, rfl, rfl, rfl⟩ rfl ?_ running id False.elim rfl
    rfl rfl (by rw [at_b]; trivial) trivial ?_ (fun gone => absurd kept gone)
    (by rw [at_pc]; rfl) (by simp) (fun _ _ => trivial)
  · refine h.places.release at_b (by rintro o ⟨⟩) ?_ (by rintro q ⟨⟩) ?_ ?_ (fun _ _ => rfl) ?_ ?_ ?_
      (fun _ _ => rfl) ?_ ?_ rfl rfl rfl
    · exact h.places.lists_same (by simp [at_b]) rfl rfl (heads_setPc _ tail)
    · intro x other
      exact update_of_ne other _ _
    · show update s.object b true b = true ↔ _
      simp
    · intro u
      show s.rootOf b = some u ↔ _
      simp [h.places.root, at_b]
    · exact held_setPc _ t .idle
    · exact linked_setPc _ t .idle
    · intro x other
      exact update_of_ne other _ _
    · intro _
      show 0 < getRefCntFromInfo (update s.refInfo b _ b)
      rw [update_self, getRefCntFromInfo_packRefInfo (by omega) (Nat.mod_lt _ (by omega))]
      omega
  · intro _
    exact ⟨i, by omega, todo⟩

end Build

/-! ## A block is freed -/

section Free

theorem memset (h : Inv g bin place s) (at_pc : s.pc t = .memset b special) :
    Inv g bin place ((s.clearBlock b).setPc t (.loadThreadId b special)) := by
  have at_b : place b = .held (some t) := h.places.in_hand (by simp [State.held, at_pc, Pc.held])
  have running := h.control.running t (by simp [at_pc])
  refine h.stay rfl ⟨⟨rfl, rfl, rfl⟩, rfl, rfl, rfl, rfl, rfl, rfl⟩ rfl ?_ running id False.elim rfl
    rfl rfl (by rw [at_pc]; rfl) (by simp) ?_
  · refine h.places.write at_b (heads_setPc _ (by rw [show (s.clearBlock b).pc = s.pc from rfl, at_pc]; rfl))
      ?_ ?_ rfl rfl ?_ (linked_setPc _ t _) (by rintro x y ⟨⟩) rfl rfl rfl
    · intro x other
      exact update_of_ne other _ _
    · intro x other
      exact update_of_ne other _ _
    · rw [held_setPc_same]
      · rfl
      · rw [show (s.clearBlock b).pc = s.pc from rfl, at_pc]
        rfl
  · intro kept owner
    have todo := h.todo kept owner
    rw [at_pc] at todo
    exact todo

theorem loadThreadId (h : Inv g bin place s) (at_pc : s.pc t = .loadThreadId b special) :
    Inv g bin place
      (s.setPc t (if s.segmentThreadId = t then .freeLocal b special else .load b)) := by
  have running := h.control.running t (by simp [at_pc])
  split
  · next owner =>
    refine h.stay rfl ⟨⟨rfl, rfl, rfl⟩, rfl, rfl, rfl, rfl, rfl, rfl⟩ rfl ?_ running id
      (fun _ => owner) rfl rfl rfl (by rw [at_pc]; rfl) (by simp) ?_
    · exact h.places.setPc (by rw [at_pc]; rfl) (by rw [at_pc]; rfl) (by rintro x y ⟨⟩)
    · intro kept _
      have todo := h.todo kept owner
      rw [at_pc] at todo
      exact todo
  · refine h.stay rfl ⟨⟨rfl, rfl, rfl⟩, rfl, rfl, rfl, rfl, rfl, rfl⟩ rfl ?_ running id False.elim rfl
      rfl rfl (by rw [at_pc]; rfl) (by simp) (fun _ _ => trivial)
    exact h.places.setPc (by rw [at_pc]; rfl) (by rw [at_pc]; rfl) (by rintro x y ⟨⟩)

/-- A block that is given up is lost. -/
theorem drop (h : Inv g bin place s) (at_b : place b = .held (some t))
    (moving : (s.pc t).moving = none) (tail : (s.pc t).tail = 0) :
    Inv g bin (update place b .lost) (s.setPc t .idle) := by
  have busy : s.pc t ≠ .idle := by
    intro idle
    have in_hand := (h.places.held (some t) b).2 at_b
    simp [State.held, idle, Pc.held] at in_hand
  have running := h.control.running t busy
  refine h.move rfl ⟨⟨rfl, rfl, rfl⟩, rfl, rfl, rfl, rfl, rfl, rfl⟩ rfl ?_ running id False.elim rfl
    rfl rfl (by rw [at_b]; trivial) trivial (fun _ => trivial) (fun _ => by rintro ⟨⟩)
    moving.symm (by simp) (fun _ _ => trivial)
  refine h.places.release at_b (by rintro o ⟨⟩) ?_ (by rintro q ⟨⟩) (fun _ _ => rfl) ?_
    (fun _ _ => rfl) ?_ ?_ ?_ (fun _ _ => rfl) (fun _ _ => rfl) (by rintro ⟨⟩) rfl rfl rfl
  · exact h.places.lists_same (by simp [at_b]) rfl rfl (heads_setPc _ tail.symm)
  · show s.object b = true ↔ _
    simp [h.places.object, at_b]
  · intro u
    show s.rootOf b = some u ↔ _
    simp [h.places.root, at_b]
  · exact held_setPc _ t .idle
  · exact linked_setPc _ t .idle

theorem loadInfo (h : Inv g bin place s) (at_pc : s.pc t = .load b) :
    Inv g bin place (s.setPc t (.storeNext b s.info)) := by
  have running := h.control.running t (by simp [at_pc])
  refine h.stay rfl ⟨⟨rfl, rfl, rfl⟩, rfl, rfl, rfl, rfl, rfl, rfl⟩ rfl ?_ running id False.elim rfl
    rfl rfl (by rw [at_pc]; rfl) (by simp) (fun _ _ => trivial)
  exact h.places.setPc (by rw [at_pc]; rfl) (by rw [at_pc]; rfl) (by rintro x y ⟨⟩)

theorem storeNext (h : Inv g bin place s) (at_pc : s.pc t = .storeNext b info) :
    Inv g bin place ((s.setNext b info.threadFree).setPc t (.cas b info)) := by
  have at_b : place b = .held (some t) := h.places.in_hand (by simp [State.held, at_pc, Pc.held])
  have running := h.control.running t (by simp [at_pc])
  have same : (s.setNext b info.threadFree).pc t = .storeNext b info := at_pc
  refine h.stay rfl ⟨⟨rfl, rfl, rfl⟩, rfl, rfl, rfl, rfl, rfl, rfl⟩ rfl ?_ running id False.elim rfl
    rfl rfl (by rw [at_pc]; rfl) (by simp) (fun _ _ => trivial)
  refine h.places.write at_b (heads_setPc _ (by rw [same]; rfl)) ?_ (fun _ _ => rfl) rfl rfl ?_
    (linked_setPc _ t _) ?_ rfl rfl rfl
  · intro x other
    exact update_of_ne other _ _
  · rw [held_setPc_same]
    · rfl
    · rw [same]
      rfl
  · rintro x y ⟨⟩
    exact update_self _ _ _

theorem retry (h : Inv g bin place s) (at_pc : s.pc t = .cas b info) :
    Inv g bin place (s.setPc t (.load b)) := by
  have running := h.control.running t (by simp [at_pc])
  refine h.stay rfl ⟨⟨rfl, rfl, rfl⟩, rfl, rfl, rfl, rfl, rfl, rfl⟩ rfl ?_ running id False.elim rfl
    rfl rfl (by rw [at_pc]; rfl) (by simp) (fun _ _ => trivial)
  exact h.places.setPc (by rw [at_pc]; rfl) (by rw [at_pc]; rfl) (by rintro x y ⟨⟩)

end Free

theorem push (h : Inv g bin place s) (at_pc : s.pc t = .cas b info) (seen : s.info = info) :
    Inv g bin (update place b (.listed .threadFree))
      ({ s with info := ⟨info.state, b⟩ }.setPc t .idle) := by
  have at_b : place b = .held (some t) := h.places.in_hand (by simp [State.held, at_pc, Pc.held])
  have running := h.control.running t (by simp [at_pc])
  refine h.move rfl ⟨⟨rfl, rfl, rfl⟩, rfl, rfl, rfl, rfl, rfl, rfl⟩ rfl ?_ running id False.elim
    (by rw [seen]; rfl) rfl rfl (by rw [at_b]; trivial) trivial (fun _ => trivial)
    (fun _ => by rintro ⟨⟩) (by rw [at_pc]; rfl) (by simp) (fun _ _ => trivial)
  refine h.places.push at_b (by simp [State.linked, at_pc, Pc.linked]) seen ?_ rfl rfl rfl rfl
    (held_setPc _ t .idle) (linked_setPc _ t .idle) rfl rfl rfl
  have same : ({ s with info := ⟨info.state, b⟩ } : State).pc t = .cas b info := at_pc
  rw [heads_setPc _ (by rw [same]; rfl)]
  exact heads_info (h.places.owned (b := b) (by simp [at_b])) _

end Inv

/-! ## References -/

theorem update_idle (idle : s.pc t = .idle) : update s.pc t .idle = s.pc := by
  rw [← idle]
  exact update_eq_self _ _

/-- A write to the count of an object that keeps it above 0. -/
theorem Places.recount {w : ℕ} (h : Places place s) (pos : 0 < getRefCntFromInfo w) :
    Places place (s.setRefInfo b w) := by
  refine h.frame rfl (fun _ _ _ => rfl) rfl rfl rfl ?_ h.ready rfl rfl id
  intro x at_x
  show 0 < getRefCntFromInfo (update s.refInfo b w x)
  by_cases here : x = b
  · rwa [here, update_self]
  · rw [update_of_ne here]
    exact h.live x at_x

theorem getRefCntFromInfo_pos (t era : ℕ) {cnt : ℕ} (pos : 0 < cnt) (small : cnt < 2 ^ 16) :
    0 < getRefCntFromInfo (packRefInfo t cnt (era % 2 ^ 32)) := by
  rwa [getRefCntFromInfo_packRefInfo small (Nat.mod_lt _ (by omega))]

/-- One reference less, and it is not the last. -/
theorem Places.dropRef (h : Places place s) (object : s.object b = true)
    (more : 0 < getRefCntFromInfo (s.refInfo b) - 1) : Places place (s.dropRef t b era) := by
  have bound := getRefCntFromInfo_lt (s.refInfo b)
  have counted := h.recount (b := b) (getRefCntFromInfo_pos t era more (by omega))
  refine counted.frame rfl (fun _ _ _ => rfl) ?_ rfl rfl counted.live counted.ready rfl rfl id
  show update s.object b (decide _) = s.object
  rw [decide_eq_true more, ← object]
  exact update_eq_self _ _

/-- The last reference goes, and the party has the block in hand. -/
theorem Places.dropLast (h : Places place s) (object : s.object b = true)
    (last : ¬ 0 < getRefCntFromInfo (s.refInfo b) - 1) (none : s.held o = none)
    (heads : s'.heads = s.heads) (next : s'.blockNext = s.blockNext)
    (refInfo : s'.refInfo = (s.dropRef t b era).refInfo)
    (object' : s'.object = (s.dropRef t b era).object) (rootOf : s'.rootOf = s.rootOf)
    (held' : s'.held = update s.held o (some b)) (linked' : s'.linked = update s.linked o Option.none)
    (born : s'.bornIn = s.bornIn) (generation : s'.generation = s.generation)
    (header : s'.segmentThreadId = s.segmentThreadId) :
    Places (update place b (.held o)) s' := by
  have at_b := (h.object b).1 object
  refine h.take none (by simp [at_b]) (by simp [at_b]) ?_ ?_ ?_ (fun _ _ => by rw [rootOf]) ?_ held'
    linked' (fun _ _ => by rw [next]) ?_ (fun _ _ => by rw [born]) ?_ generation header
  · exact h.lists_same (v := .lost) (by simp [at_b]) rfl next heads
  · intro x other
    rw [object']
    exact update_of_ne other _ _
  · rw [object']
    show update s.object b (decide _) b = false
    rw [update_self, decide_eq_false last]
  · rw [rootOf, Option.eq_none_iff_forall_ne_some]
    intro u mine
    rw [(h.root b u).1 mine] at at_b
    cases at_b
  · intro x other
    rw [refInfo]
    exact update_of_ne other _ _
  · rw [born]
    exact h.born b (by rw [at_b]; trivial)

/-- The first word of a `RootRef` is written. -/
theorem Places.storeRoot {w : ℕ} {u : ℕ} (h : Places place s)
    (root : s.rootOf b = some u) : Places place (s.setNext b w) := by
  have at_b := (h.root b u).1 root
  refine h.frame rfl ?_ rfl rfl rfl h.live ?_ rfl rfl id
  · intro x q listed
    apply update_of_ne
    rintro rfl
    rw [at_b] at listed
    cases listed
  · intro o x y at_cas
    have other : x ≠ b := by
      rintro rfl
      rw [h.in_hand (State.linked_held at_cas)] at at_b
      cases at_b
    show update s.blockNext b w x = y
    rw [update_of_ne other]
    exact h.ready o x y at_cas

namespace Inv

theorem link (h : Inv g bin place s) (ready : s.Ready t)
    (few : getRefCntFromInfo (s.refInfo b) + 1 < 2 ^ 16) :
    Inv g bin place
      (s.setRefInfo b (packRefInfo t (getRefCntFromInfo (s.refInfo b) + 1) (era % 2 ^ 32))) := by
  obtain ⟨running, idle⟩ := ready
  refine h.stay (p := .idle) (update_idle idle).symm ⟨⟨rfl, rfl, rfl⟩, rfl, rfl, rfl, rfl, rfl, rfl⟩
    rfl ?_ running id False.elim rfl rfl rfl (by rw [idle]) (by simp) (fun _ _ => trivial)
  exact h.places.recount (getRefCntFromInfo_pos t era (by omega) few)

theorem unlink (h : Inv g bin place s) (ready : s.Ready t) (object : s.object b = true)
    (more : 0 < getRefCntFromInfo (s.refInfo b) - 1) : Inv g bin place (s.dropRef t b era) := by
  obtain ⟨running, idle⟩ := ready
  refine h.stay (p := .idle) (update_idle idle).symm ⟨⟨rfl, rfl, rfl⟩, rfl, rfl, rfl, rfl, rfl, rfl⟩
    rfl ?_ running id False.elim rfl rfl rfl (by rw [idle]) (by simp) (fun _ _ => trivial)
  exact h.places.dropRef object more

theorem unlinkLast (h : Inv g bin place s) (ready : s.Ready t) (object : s.object b = true)
    (last : ¬ 0 < getRefCntFromInfo (s.refInfo b) - 1) :
    Inv g bin (update place b (.held (some t))) ((s.dropRef t b era).setPc t (.memset b false)) := by
  obtain ⟨running, idle⟩ := ready
  have at_b := (h.places.object b).1 object
  have same : (s.dropRef t b era).pc t = .idle := idle
  refine h.move rfl ⟨⟨rfl, rfl, rfl⟩, rfl, rfl, rfl, rfl, rfl, rfl⟩ rfl ?_ running id False.elim
    rfl rfl rfl (by rw [at_b]; trivial) trivial (fun _ => trivial) (fun _ => by rintro ⟨⟩)
    (by rw [idle]; rfl) (by simp) ?_
  · refine h.places.dropLast object last (by simp [State.held, idle, Pc.held]) ?_ rfl rfl rfl rfl
      (held_setPc _ t _) (linked_setPc _ t _) rfl rfl rfl
    exact heads_setPc _ (by rw [same]; rfl)
  · intro kept _
    have suits := (h.owned kept).suits b
    rw [at_b] at suits
    exact suits

theorem storeRoot {w : ℕ} (h : Inv g bin place s) (ready : s.Ready t) (root : s.rootOf b = some t) :
    Inv g bin place (s.setNext b w) := by
  obtain ⟨running, idle⟩ := ready
  refine h.stay (p := .idle) (update_idle idle).symm ⟨⟨rfl, rfl, rfl⟩, rfl, rfl, rfl, rfl, rfl, rfl⟩
    rfl ?_ running id False.elim rfl rfl rfl (by rw [idle]) (by simp) (fun _ _ => trivial)
  exact h.places.storeRoot root

theorem freeRoot (h : Inv g bin place s) (ready : s.Ready t) (root : s.rootOf b = some t) :
    Inv g bin (update place b (.held (some t)))
      ({ s with rootOf := update s.rootOf b none }.setPc t (.memset b true)) := by
  obtain ⟨running, idle⟩ := ready
  have at_b := (h.places.root b t).1 root
  have same : ({ s with rootOf := update s.rootOf b none } : State).pc t = .idle := idle
  refine h.move rfl ⟨⟨rfl, rfl, rfl⟩, rfl, rfl, rfl, rfl, rfl, rfl⟩ rfl ?_ running id False.elim
    rfl rfl rfl (by rw [at_b]; trivial) trivial (fun _ => trivial) (fun _ => by rintro ⟨⟩)
    (by rw [idle]; rfl) (by simp) ?_
  · refine h.places.take (by simp [State.held, idle, Pc.held]) (by simp [at_b]) (by simp [at_b]) ?_
      (fun _ _ => rfl) ?_ ?_ ?_ (held_setPc _ t _) (linked_setPc _ t _) (fun _ _ => rfl)
      (fun _ _ => rfl) (fun _ _ => rfl) ?_ rfl rfl
    · refine h.places.lists_same (v := .lost) (by simp [at_b]) rfl rfl ?_
      exact heads_setPc _ (by rw [same]; rfl)
    · show s.object b = false
      rw [← Bool.not_eq_true, h.places.object, at_b]
      simp
    · intro x other
      exact update_of_ne other _ _
    · exact update_self _ _ _
    · exact h.places.born b (by rw [at_b]; trivial)
  · intro kept _
    have suits := (h.owned kept).suits b
    rw [at_b] at suits
    exact suits

/-! ## The chain of the segment is taken, and the lists of a page are merged -/

/-- The queue that a page is in is the one of its bin. -/
theorem bin_of_mem (h : Inv g bin place s) {page : ℕ} (running : s.slot t = .running)
    (mem : page ∈ s.pages t i) : s.Kept ∧ s.segmentThreadId = t ∧ bin page = some i := by
  have owner := h.control.owner_of_mem running mem
  have kept := Control.kept_of_owner running owner
  rw [← owner] at mem
  exact ⟨kept, owner, (((h.owned kept).queue page i).1 mem).1⟩

/-- All blocks of one list go to another one. -/
theorem moveStack {p : Pc} (q q' : Stack) (h : Inv g bin place s) (kept : s.Kept)
    (owner : s.segmentThreadId = t) (pc : s'.pc = update s.pc t p) (same : SameRecords s s')
    (monitor : s'.monitor = s.monitor)
    (places : Places (fun b => if (place b).stack = some q then .listed q' else place b) s')
    (counted : (Place.listed q').Counted ↔ (Place.listed q).Counted) (taking : ¬ p.Taking)
    (moving : p.moving = (s.pc t).moving) (begin : p ≠ .pushFreePages)
    (todo : p.Todo bin s.used) :
    Inv g bin (fun b => if (place b).stack = some q then .listed q' else place b) s' := by
  have running : s.slot t = .running := by rwa [State.Kept, owner] at kept
  have owned := h.control.owned_of_kept kept
  refine h.client pc same monitor places running taking (fun _ => owner)
    (fun none => absurd none owned) (fun gone => absurd kept gone) ?_ ?_ ?_
    (fun gone => absurd kept gone) moving begin (fun _ _ => todo)
  · intro b
    split
    · next listed => simp [stack_eq_some.1 listed]
    · exact Iff.rfl
  · intro b
    split
    · next listed => rw [stack_eq_some.1 listed, counted]
    · exact Iff.rfl
  · intro _ b
    split
    · trivial
    · exact (h.owned kept).suits b

theorem collect {page : ℕ} {exit : Bool} (h : Inv g bin place s) (ready : s.Ready t)
    (mem : page ∈ s.pages t i) (object : exit = true → 2 ≤ i) :
    Inv g bin (fun b => if (place b).stack = some .threadFree then .listed .detached else place b)
      ({ s with info := ⟨s.info.state, 0⟩ }.setPc t (.walk page s.info.threadFree exit)) := by
  obtain ⟨running, idle⟩ := ready
  obtain ⟨kept, owner, in_bin⟩ := h.bin_of_mem running mem
  have owned := h.control.owned_of_kept kept
  refine moveStack (p := .walk page s.info.threadFree exit) .threadFree .detached h kept owner rfl
    ⟨⟨rfl, rfl, rfl⟩, rfl, rfl, rfl, rfl, rfl, rfl⟩ rfl ?_ (by simp [Place.Counted]) id
    (by rw [idle]; rfl) (by simp) ?_
  · have tail : s.tail = 0 := by
      rw [State.tail, owner, idle]
      rfl
    have heads := heads_of_kept kept
    refine h.places.moveStack .threadFree .detached (by simp) ?_ ?_ rfl rfl rfl rfl ?_ ?_ rfl rfl rfl
      (fun _ _ => trivial) (fun _ => trivial)
    · rw [heads]
      exact tail
    · have kept' : ({ s with info := ⟨s.info.state, 0⟩ }.setPc t
          (.walk page s.info.threadFree exit) : State).Kept := kept
      rw [heads_of_kept kept', heads]
      have chain : Handover.heads s.free s.localFree s.chain s.tail .threadFree = s.info.threadFree := by
        show s.chain = _
        rw [State.chain, if_neg owned]
      rw [chain]
      have tail' : ({ s with info := ⟨s.info.state, 0⟩ }.setPc t
          (.walk page s.info.threadFree exit) : State).tail = s.info.threadFree := by
        show (update s.pc t (Pc.walk page s.info.threadFree exit) s.segmentThreadId).tail = _
        rw [owner, update_self]
        rfl
      have chain' : ({ s with info := ⟨s.info.state, 0⟩ }.setPc t
          (.walk page s.info.threadFree exit) : State).chain = 0 := by
        unfold State.chain
        split <;> rfl
      rw [tail', chain']
      funext q
      cases q <;> simp [Handover.heads, State.setPc]
    · rw [held_setPc_same]
      · rfl
      · show Pc.held _ = (s.pc t).held
        rw [idle]
        rfl
    · intro o b x at_cas
      rw [linked_setPc] at at_cas
      by_cases same : o = some t
      · subst same
        rw [update_self] at at_cas
        cases at_cas
      · rw [update_of_ne same] at at_cas
        exact h.places.ready o b x at_cas
  · intro exiting
    obtain ⟨-, -, ⟨-, not_two⟩, -⟩ := (h.owned kept).page _ _ in_bin
    exact ⟨i, by have := object exiting; omega, in_bin⟩

theorem walked {page : ℕ} {exit : Bool} (h : Inv g bin place s) (at_pc : s.pc t = .walk page 0 exit) :
    Inv g bin place (s.setPc t (if exit then .loadUsed page else .merge page)) := by
  have owning : (s.pc t).Owning := by rw [at_pc]; trivial
  have owner := h.control.owning t owning
  have todo := h.todo_of_owning owning
  have running := h.control.running t (by simp [at_pc])
  rw [at_pc] at todo
  cases exit with
  | true =>
    refine h.stay rfl ⟨⟨rfl, rfl, rfl⟩, rfl, rfl, rfl, rfl, rfl, rfl⟩ rfl ?_ running id
      (fun _ => owner) rfl rfl rfl (by rw [at_pc]; rfl) (by simp) (fun _ _ => todo rfl)
    exact h.places.setPc (by rw [at_pc]; rfl) (by rw [at_pc]; rfl) (by rintro x y ⟨⟩)
  | false =>
    refine h.stay rfl ⟨⟨rfl, rfl, rfl⟩, rfl, rfl, rfl, rfl, rfl, rfl⟩ rfl ?_ running id
      (fun _ => owner) rfl rfl rfl (by rw [at_pc]; rfl) (by simp) (fun _ _ => trivial)
    exact h.places.setPc (by rw [at_pc]; rfl) (by rw [at_pc]; rfl) (by rintro x y ⟨⟩)

theorem merge {page : ℕ} (h : Inv g bin place s) (at_pc : s.pc t = .merge page)
    (empty : s.free page = 0) :
    Inv g bin (fun b => if (place b).stack = some (.localFree page) then .listed (.free page) else place b)
      ({ s with
        free := update s.free page (s.localFree page)
        localFree := update s.localFree page 0 }.setPc t .idle) := by
  have owning : (s.pc t).Owning := by rw [at_pc]; trivial
  have owner := h.control.owning t owning
  have kept := h.control.kept_of_owning owning
  refine moveStack (p := .idle) (.localFree page) (.free page) h kept owner rfl
    ⟨⟨rfl, rfl, rfl⟩, rfl, rfl, rfl, rfl, rfl, rfl⟩ rfl ?_ (by simp [Place.Counted]) id
    (by rw [at_pc]; rfl) (by simp) trivial
  have heads := heads_of_kept kept
  refine h.places.moveStack (.localFree page) (.free page) (by simp) ?_ ?_ rfl rfl rfl rfl ?_ ?_ rfl rfl
    rfl (fun _ => id) (by simp [Place.Counted])
  · rw [heads]
    exact empty
  · have kept' : ({ s with
        free := update s.free page (s.localFree page)
        localFree := update s.localFree page 0 }.setPc t .idle : State).Kept := kept
    have tail : ({ s with
        free := update s.free page (s.localFree page)
        localFree := update s.localFree page 0 }.setPc t .idle : State).tail = s.tail := by
      refine tail_setPc _ ?_
      show Pc.tail _ = (s.pc t).tail
      rw [at_pc]
      rfl
    rw [heads_of_kept kept', heads, tail, ← heads_free, ← heads_localFree]
    rfl
  · rw [held_setPc_same]
    · rfl
    · show Pc.held _ = (s.pc t).held
      rw [at_pc]
      rfl
  · intro o b x at_cas
    rw [linked_setPc] at at_cas
    by_cases same : o = some t
    · subst same
      rw [update_self] at at_cas
      cases at_cas
    · rw [update_of_ne same] at at_cas
      exact h.places.ready o b x at_cas

/-- The client is done. -/
theorem done (h : Inv g bin place s) (owning : (s.pc t).Owning) (held : (s.pc t).held = none)
    (tail : (s.pc t).tail = 0) (moving : (s.pc t).moving = none) : Inv g bin place (s.setPc t .idle) := by
  have busy : s.pc t ≠ .idle := by
    intro idle
    rw [idle] at owning
    exact owning
  refine h.stay rfl ⟨⟨rfl, rfl, rfl⟩, rfl, rfl, rfl, rfl, rfl, rfl⟩ rfl ?_ (h.control.running t busy) id
    False.elim rfl rfl rfl moving.symm (by simp) (fun _ _ => trivial)
  exact h.places.setPc held.symm tail.symm (by rintro x y ⟨⟩)

theorem loadUsed {page : ℕ} (h : Inv g bin place s) (at_pc : s.pc t = .loadUsed page) :
    Inv g bin place
      (s.setPc t (if s.used page = 0 then .removePage page false else .abandon)) := by
  have owning : (s.pc t).Owning := by rw [at_pc]; trivial
  have owner := h.control.owning t owning
  have todo := h.todo_of_owning owning
  have running := h.control.running t (by simp [at_pc])
  rw [at_pc] at todo
  split
  · next unused =>
    refine h.stay rfl ⟨⟨rfl, rfl, rfl⟩, rfl, rfl, rfl, rfl, rfl, rfl⟩ rfl ?_ running id
      (fun _ => owner) rfl rfl rfl (by rw [at_pc]; rfl) (by simp) (fun _ _ => ⟨todo, unused⟩)
    exact h.places.setPc (by rw [at_pc]; rfl) (by rw [at_pc]; rfl) (by rintro x y ⟨⟩)
  · refine h.stay rfl ⟨⟨rfl, rfl, rfl⟩, rfl, rfl, rfl, rfl, rfl, rfl⟩ rfl ?_ running id
      (fun _ => owner) rfl rfl rfl (by rw [at_pc]; rfl) (by simp) (fun _ _ => trivial)
    exact h.places.setPc (by rw [at_pc]; rfl) (by rw [at_pc]; rfl) (by rintro x y ⟨⟩)

theorem abandon (h : Inv g bin place s) (at_pc : s.pc t = .abandon) :
    Inv g bin place ({ s with info := ⟨.abandon, s.info.threadFree⟩ }.setPc t .idle) := by
  have owning : (s.pc t).Owning := by rw [at_pc]; trivial
  have kept := h.control.kept_of_owning owning
  have running := h.control.running t (by simp [at_pc])
  refine h.client rfl ⟨⟨rfl, rfl, rfl⟩, rfl, rfl, rfl, rfl, rfl, rfl⟩ rfl ?_ running id
    False.elim (fun _ => rfl) (fun gone => absurd kept gone) (fun _ => Iff.rfl) (fun _ => Iff.rfl)
    (fun _ => (h.owned kept).suits) (fun _ _ => id) (by rw [at_pc]; rfl) (by simp) (fun _ _ => trivial)
  have places := h.places.setPc (t := t) (p := .idle) (by rw [at_pc]; rfl) (by rw [at_pc]; rfl)
    (by rintro x y ⟨⟩)
  exact places.frame rfl (fun _ _ _ => rfl) rfl rfl rfl places.live places.ready rfl rfl id

/-- The client marks the segment for a queue that it leaves. -/
theorem exitQueue (h : Inv g bin place s) (ready : s.Ready t) (queues : s.pages t 1 ≠ []) :
    Inv g bin place { s with info := ⟨.abandon, s.info.threadFree⟩ } := by
  obtain ⟨running, idle⟩ := ready
  obtain ⟨page, mem⟩ := List.exists_mem_of_ne_nil _ queues
  obtain ⟨kept, -, -⟩ := h.bin_of_mem running mem
  refine h.client (p := .idle) (update_idle idle).symm
    ⟨⟨rfl, rfl, rfl⟩, rfl, rfl, rfl, rfl, rfl, rfl⟩ rfl ?_ running id False.elim (fun _ => rfl)
    (fun gone => absurd kept gone) (fun _ => Iff.rfl) (fun _ => Iff.rfl)
    (fun _ => (h.owned kept).suits) (fun _ _ => id) (by rw [idle]) (by simp) (fun _ _ => trivial)
  exact h.places.frame rfl (fun _ _ _ => rfl) rfl rfl rfl h.places.live h.places.ready rfl rfl id

end Inv

end CxlShm.Handover
