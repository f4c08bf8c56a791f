import BytecodeFold.Proofs.Arena.Layout

/-!
# An arena is a plain sequence

Whatever calls were made on an arena, its links are one chain through its live nodes, and no handle
was given out twice. What a call does is what it would do to a plain sequence of instructions under
their handles, with the exception handlers beside it. This holds as long as there are handles left:
an arena that has given out `2 ^ 32` of them gives out the last one again.
-/

namespace BytecodeFold

namespace Arena

variable {arena : Arena} {handle : Handle} {handles back : List Handle}

/-- The instructions under their handles in stream order, and the exception handlers. -/
def sequence (arena : Arena) : Sequence where
  pairs := arena.entries.map fun entry => (entry.1, entry.2.instruction)
  handlers := arena.handlers.toList

theorem sequence_listing (arena : Arena) : arena.listing.sequence = arena.sequence := by
  simp only [Listing.sequence, sequence, listing, List.map_map]
  rfl

/-! ## Links -/

/-- Following `next?` from a handle visits these handles, all of them live, and then ends. -/
inductive Follows (arena : Arena) : Option Handle → List Handle → Prop where
  | stop : Follows arena none []
  | visit {handle : Handle} {rest : List Handle} (live : arena.contains handle = true)
      (more : Follows arena (arena.next? handle) rest) :
      Follows arena (some handle) (handle :: rest)

/-- The links of an arena are one chain, from the head to the tail through every live node. -/
structure Linked (arena : Arena) : Prop where
  follows : arena.Follows arena.head arena.sequence.handles
  nodup : arena.sequence.handles.Nodup
  tail_eq : arena.tail = arena.sequence.handles.getLast?
  live : ∀ handle, arena.contains handle = true ↔ handle ∈ arena.sequence.handles
  get : ∀ pair ∈ arena.sequence.pairs, arena.get? pair.1 = some pair.2
  inverse : ∀ handle next, arena.next? handle = some next ↔ arena.prev? next = some handle
  dead : ∀ node ∈ arena.nodes.toList, node.live = false → node.prev = none ∧ node.next = none

theorem Represents.handles_sequence (represents : arena.Represents handles) :
    arena.sequence.handles = handles := by
  rw [← sequence_listing, Listing.handles_sequence, represents.handles_eq]

theorem Represents.follows (front : List Handle) (represents : arena.Represents (front ++ back)) :
    arena.Follows back.head? back := by
  induction back generalizing front with
  | nil => exact .stop
  | cons handle rest ih =>
    refine .visit (represents.contains_iff.mpr (by simp)) ?_
    rw [represents.next?_eq]
    refine ih (front ++ [handle]) ?_
    rwa [List.append_assoc, List.singleton_append]

theorem Represents.inverse (represents : arena.Represents handles) (handle next : Handle) :
    arena.next? handle = some next ↔ arena.prev? next = some handle := by
  have hdead : ∀ handle ∉ handles, arena.next? handle = none ∧ arena.prev? handle = none := by
    intro handle hm
    rw [Arena.next?, Arena.prev?, represents.node?_eq_none hm]
    exact ⟨rfl, rfl⟩
  constructor
  · intro h
    by_cases hm : handle ∈ handles
    · obtain ⟨front, back, rfl⟩ := List.append_of_mem hm
      rw [represents.next?_eq] at h
      obtain ⟨rest, rfl⟩ := List.head?_eq_some_iff.mp h
      rw [List.append_cons] at represents
      exact represents.prev?_eq.trans List.getLast?_concat
    · rw [(hdead handle hm).1] at h
      cases h
  · intro h
    by_cases hm : next ∈ handles
    · obtain ⟨front, back, rfl⟩ := List.append_of_mem hm
      rw [represents.prev?_eq] at h
      obtain ⟨init, rfl⟩ := List.getLast?_eq_some_iff.mp h
      rw [List.append_assoc, List.singleton_append] at represents
      exact represents.next?_eq
    · rw [(hdead next hm).2] at h
      cases h

theorem Represents.linked (represents : arena.Represents handles) : arena.Linked where
  follows := by
    rw [represents.handles_sequence, represents.head]
    exact Represents.follows [] represents
  nodup := represents.handles_sequence ▸ represents.nodup
  tail_eq := by rw [represents.handles_sequence, represents.tail]
  live handle := by rw [represents.handles_sequence, represents.contains_iff]
  get pair hm := by
    obtain ⟨entry, hentry, rfl⟩ := List.mem_map.mp hm
    rw [get?, node?_of_mem_walk hentry]
    rfl
  inverse := represents.inverse
  dead node hm hdead := by
    obtain ⟨index, hindex⟩ := List.mem_iff_getElem?.mp hm
    rw [Array.getElem?_toList] at hindex
    have hlinks : links node = (false, none, none) := by
      refine represents.dead ⟨index⟩ (fun hm => ?_) node hindex
      obtain ⟨live, hnode, hlive⟩ := represents.strand.live hm
      rw [hindex, Option.some.injEq] at hnode
      rw [← hnode, hdead] at hlive
      cases hlive
    exact ⟨congrArg (·.2.1) hlinks, congrArg (·.2.2) hlinks⟩

/-! ## Calls -/

/-- Everything that a call does to an arena, it does to a plain sequence. -/
theorem Represents.step (represents : arena.Represents handles)
    (room : arena.nodes.size < 4294967296) {issued : List Handle}
    (below : ∀ handle ∈ issued, handle.index < arena.nodes.size) (operation : Operation) :
    arena.sequence.Step issued operation (arena.apply operation).1
      (arena.apply operation).2.sequence := by
  have sound : arena.listing.Sound := by
    refine ⟨represents.distinct, fun handle hm => ?_⟩
    rw [represents.handles_eq] at hm
    exact represents.lt_size hm
  obtain ⟨hanswer, hlisting, -⟩ := represents.mirrors room operation
  rw [← sequence_listing, ← sequence_listing, hanswer, hlisting]
  exact Listing.apply_refines sound below operation

theorem size_nodes_insertBetween (prev next : Option Handle) (code : Instruction Handle) :
    (arena.insertBetween prev next code).2.nodes.size = arena.nodes.size + 1 := by
  cases prev <;> cases next <;>
    simp [insertBetween, allocate, linkNext, linkPrev, modify]

theorem size_nodes_unlink (start stop : Handle) (segment : List Handle) :
    (arena.unlink start stop segment).nodes.size = arena.nodes.size := by
  unfold unlink
  dsimp only
  rw [size_modifyAll]
  cases arena.prev? start <;> cases arena.next? stop <;> simp [linkNext, linkPrev, modify]

/-- A call adds a node and gives out its handle, or it does neither. -/
theorem apply_issued (arena : Arena) (operation : Operation) :
    (Answer.issued (arena.apply operation).1 = [] ∧
      (arena.apply operation).2.nodes.size = arena.nodes.size) ∨
    (Answer.issued (arena.apply operation).1 = [⟨min arena.nodes.size 4294967295⟩] ∧
      (arena.apply operation).2.nodes.size = arena.nodes.size + 1) := by
  cases operation with
  | append code => exact .inr ⟨rfl, size_nodes_insertBetween _ _ _⟩
  | insertBefore handle code =>
    rw [apply, insertBefore]
    split
    case h_1 node _ => exact .inr ⟨rfl, size_nodes_insertBetween node.prev (some handle) code⟩
    case h_2 => exact .inl ⟨rfl, rfl⟩
  | insertAfter handle code =>
    rw [apply, insertAfter]
    split
    case h_1 node _ => exact .inr ⟨rfl, size_nodes_insertBetween (some handle) node.next code⟩
    case h_2 => exact .inl ⟨rfl, rfl⟩
  | set handle code =>
    rw [apply, Arena.set]
    split
    · exact .inl ⟨rfl, Array.size_modify⟩
    · exact .inl ⟨rfl, rfl⟩
  | delete handle | deleteRange start stop =>
    simp only [apply, delete, deleteRange]
    split
    · exact .inl ⟨rfl, rfl⟩
    · split
      · exact .inl ⟨rfl, rfl⟩
      · exact .inl ⟨rfl, size_nodes_unlink _ _ _⟩
  | addHandler entry =>
    rw [apply, Arena.addHandler]
    split <;> exact .inl ⟨rfl, rfl⟩
  | layout =>
    refine .inl ⟨?_, arena.layout_fields.1⟩
    rw [apply]
    rcases arena.layout with ⟨_ | _, laid⟩ <;> rfl

end Arena

/-! ## Runs -/

namespace History

theorem run_append (operations : List Operation) (operation : Operation) :
    run (operations ++ [operation]) = (run operations).step operation := by
  rw [run, List.foldl_append]
  rfl

/-- The handles that were given out are counted by the nodes. -/
theorem length_issued (operations : List Operation) :
    (run operations).issued.length = (run operations).arena.nodes.size := by
  refine run_induction (P := fun history => history.issued.length = history.arena.nodes.size)
    rfl (fun history operation h => ?_) operations
  simp only [step, List.length_append]
  rcases history.arena.apply_issued operation with ⟨hissued, hsize⟩ | ⟨hissued, hsize⟩
  · rw [hissued, hsize, h]
    rfl
  · rw [hissued, hsize, h]
    rfl

/-- What holds of every history that still has handles to give out: the links are in order, and
the handles were given out one after another. -/
structure Sound (history : History) : Prop where
  represents : ∃ handles, history.arena.Represents handles
  issued_eq : history.issued = (List.range history.arena.nodes.size).map Handle.mk

theorem Sound.step {history : History} (sound : history.Sound)
    (room : history.arena.nodes.size < 4294967296) (operation : Operation) :
    (history.step operation).Sound := by
  obtain ⟨handles, represents⟩ := sound.represents
  refine ⟨(represents.mirrors room operation).links, ?_⟩
  simp only [History.step]
  rcases history.arena.apply_issued operation with ⟨hissued, hsize⟩ | ⟨hissued, hsize⟩
  · rw [hissued, hsize, List.append_nil, sound.issued_eq]
  · rw [hissued, hsize, List.range_succ, List.map_append, sound.issued_eq,
      Nat.min_eq_left (by omega)]
    rfl

theorem sound_run (operations : List Operation)
    (few : (run operations).issued.length < 4294967296) : (run operations).Sound := by
  induction operations using List.reverseRecOn with
  | nil => exact ⟨⟨[], Arena.represents_empty⟩, rfl⟩
  | append_singleton operations operation ih =>
    have hgrow : (run operations).arena.nodes.size ≤
        ((run operations).step operation).arena.nodes.size := by
      rcases (run operations).arena.apply_issued operation with ⟨-, hsize⟩ | ⟨-, hsize⟩
      · exact Nat.le_of_eq hsize.symm
      · exact Nat.le.intro hsize.symm
    rw [length_issued, run_append] at few
    have room := Nat.lt_of_le_of_lt hgrow few
    rw [run_append]
    exact (ih (by rwa [length_issued])).step room operation

theorem Sound.nodup {history : History} (sound : history.Sound) : history.issued.Nodup := by
  rw [sound.issued_eq]
  exact List.nodup_range.map fun a b h => congrArg Handle.index h

theorem Sound.below {history : History} (sound : history.Sound) :
    ∀ handle ∈ history.issued, handle.index < history.arena.nodes.size := by
  rw [sound.issued_eq]
  intro handle hm
  obtain ⟨index, hindex, rfl⟩ := List.mem_map.mp hm
  exact List.mem_range.mp hindex

/-- The live handles are counted by the size. -/
theorem Sound.size_eq {history : History} (sound : history.Sound) :
    history.arena.size = (history.issued.filter history.arena.contains).length := by
  obtain ⟨handles, represents⟩ := sound.represents
  have hperm : handles.Perm (history.issued.filter history.arena.contains) := by
    refine (List.perm_ext_iff_of_nodup represents.nodup (sound.nodup.filter _)).mpr fun handle => ?_
    rw [List.mem_filter, represents.contains_iff]
    refine ⟨fun hm => ⟨?_, hm⟩, fun hm => hm.2⟩
    rw [sound.issued_eq]
    exact List.mem_map.mpr ⟨handle.index, List.mem_range.mpr (represents.lt_size hm), rfl⟩
  rw [represents.size, hperm.length_eq]

/-- An arena is a plain sequence. Its links are one chain through its live nodes, their number is
its size, and no handle was given out twice. A call does to it what it does to the sequence, and a
range is the stretch between two handles, if they stand in this order. -/
structure RefinesSequence (history : History) : Prop where
  linked : history.arena.Linked
  issued_once : history.issued.Nodup
  size_eq : history.arena.size = (history.issued.filter history.arena.contains).length
  step : ∀ operation, history.arena.sequence.Step history.issued operation
    (history.arena.apply operation).1 (history.arena.apply operation).2.sequence
  range : ∀ start stop, history.arena.sequence.Range start stop (history.arena.range start stop)
  range_reversed : ∀ start stop, history.arena.sequence.Precedes stop start →
    ∃ text, history.arena.range start stop = .error (.invalidOperand text)

end History

/-- After any calls on the empty arena, failed ones included, the arena is a plain sequence, as
long as there are handles left. -/
theorem run_refines_sequence (operations : List Operation)
    (few : (History.run operations).issued.length < 4294967296) :
    (History.run operations).RefinesSequence := by
  have sound := History.sound_run operations few
  obtain ⟨handles, represents⟩ := sound.represents
  rw [History.length_issued] at few
  exact {
    linked := represents.linked
    issued_once := sound.nodup
    size_eq := sound.size_eq
    step := represents.step few sound.below
    range := fun start stop => by
      rw [← Arena.sequence_listing, ← represents.range_listing]
      exact Listing.range_refines represents.distinct start stop
    range_reversed := fun start stop h => by
      rw [← Arena.sequence_listing] at h
      rw [← represents.range_listing]
      exact Listing.range_of_precedes represents.distinct h }

/-- An instruction in front of the two that were there first, and one call that fails. -/
def prepended : List Operation :=
  [.append .nop, .append .nop, .insertBefore ⟨0⟩ .nop, .set ⟨7⟩ .nop]

theorem run_refines_sequence_prepended :
    (History.run prepended).issued = [⟨0⟩, ⟨1⟩, ⟨2⟩] ∧
    (History.run prepended).arena.sequence.handles = [⟨2⟩, ⟨0⟩, ⟨1⟩] ∧
    ∃ text, (History.run prepended).arena.range ⟨1⟩ ⟨2⟩ = .error (.invalidOperand text) := by
  refine ⟨by decide +kernel, by decide +kernel, ?_⟩
  exact (run_refines_sequence prepended (by decide +kernel)).range_reversed ⟨1⟩ ⟨2⟩
    ⟨[], [⟨0⟩], [], by decide +kernel⟩

end BytecodeFold
