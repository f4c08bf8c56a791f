import BytecodeFold.Proofs.Arena.Edit
import BytecodeFold.Proofs.Listing.Positions

/-!
# Positions of an arena

A layout writes positions into the nodes as it walks along the links, and one that fails leaves
behind what it has written. While the positions count as valid they are nevertheless those of the
stream as it stands: every node begins where the one before it ends, everything that is referred
to is there, and every branch in a short form reaches its target. Laying such an arena out again
changes nothing.

None of this needs the links to be in order, so it also holds of an arena that has run out of
handles.
-/

namespace BytecodeFold

/-- A node without what a layout writes into it. -/
def Node.unplaced (node : Node) : Node := { node with position := 0 }

namespace Arena

variable {arena laid : Arena} {nodes placed : Array Node} {handle : Handle} {node : Node}
  {cursor : Option Handle} {handles other : List Handle} {offset length : UInt32}

/-! ## The way of a walk -/

/-- Following the links leads through these nodes and then ends. -/
inductive Chain (nodes : Array Node) : Option Handle → List Handle → Prop where
  | stop : Chain nodes none []
  | visit {handle : Handle} {node : Node} {rest : List Handle}
      (found : nodes[handle.index]? = some node) (more : Chain nodes node.next rest) :
      Chain nodes (some handle) (handle :: rest)

theorem Chain.unique (chain : Chain nodes cursor handles) (chain' : Chain nodes cursor other) :
    handles = other := by
  induction chain generalizing other with
  | stop =>
    cases chain'
    rfl
  | visit found more ih =>
    cases chain' with
    | visit found' more' =>
      rw [found, Option.some.injEq] at found'
      subst found'
      rw [ih more']

theorem Chain.from_mem (chain : Chain nodes cursor handles) (hm : handle ∈ handles) :
    ∃ front back, handles = front ++ handle :: back ∧
      Chain nodes (some handle) (handle :: back) := by
  induction chain with
  | stop => cases hm
  | @visit first node rest found more ih =>
    rcases List.mem_cons.mp hm with rfl | hm
    · exact ⟨[], rest, rfl, .visit found more⟩
    · obtain ⟨front, back, rfl, chain⟩ := ih hm
      exact ⟨first :: front, back, rfl, chain⟩

/-- A walk that came back to a node would never end. -/
theorem Chain.nodup (chain : Chain nodes cursor handles) : handles.Nodup := by
  induction chain with
  | stop => exact List.nodup_nil
  | @visit handle node rest found more ih =>
    refine List.nodup_cons.mpr ⟨fun hm => ?_, ih⟩
    obtain ⟨front, back, hsplit, again⟩ := more.from_mem hm
    have hlength := congrArg List.length ((Chain.visit found more).unique again)
    rw [hsplit] at hlength
    simp only [List.length_cons, List.length_append] at hlength
    omega

/-! ## What a walk writes -/

/-- From a node on, every node on the way begins at this offset, or where the one before it ends,
and the last one ends at this length. -/
inductive Placed (nodes : Array Node) : UInt32 → Option Handle → UInt32 → Prop where
  | stop {offset : UInt32} : Placed nodes offset none offset
  | visit {handle : Handle} {node : Node} {size next length : UInt32}
      (found : nodes[handle.index]? = some node)
      (sized : node.instruction.wordSize node.position node.long = .ok size)
      (ends : next.toNat = node.position.toNat + size.toNat)
      (more : Placed nodes next node.next length) :
      Placed nodes node.position (some handle) length

theorem wordEnd_eq_ok {next : UInt32} {long : Bool} {code : Instruction Handle} :
    code.wordEnd offset long = .ok next ↔
      ∃ size, code.wordSize offset long = .ok size ∧ next.toNat = offset.toNat + size.toNat := by
  rw [Instruction.wordEnd, Outcome.bind_eq_ok]
  exact exists_congr fun size => and_congr_right fun _ => checkedWord_eq_ok

theorem map_unplaced_modify (nodes : Array Node) (index : Nat) (offset : UInt32) :
    (nodes.modify index ({ · with position := offset })).map Node.unplaced =
      nodes.map Node.unplaced := by
  apply Array.ext_getElem?
  intro other
  rw [Array.getElem?_map, Array.getElem?_map, Array.getElem?_modify]
  split
  · cases nodes[other]? <;> rfl
  · rfl

/-- A walk writes nothing but positions. -/
theorem map_unplaced_placeFrom (nodes : Array Node) (offset : UInt32) (cursor : Option Handle) :
    (placeFrom nodes offset cursor).2.map Node.unplaced = nodes.map Node.unplaced := by
  fun_induction placeFrom nodes offset cursor with
  | case1 | case2 => rfl
  | case3 => exact map_unplaced_modify _ _ _
  | case4 _ _ _ _ _ _ _ _ ih => exact ih.trans (map_unplaced_modify _ _ _)

/-- What does not depend on positions is the same in nodes that differ in them only. -/
theorem map_getElem?_of_unplaced {α : Type}
    (same : placed.map Node.unplaced = nodes.map Node.unplaced)
    {f : Node → α} (hf : ∀ node : Node, f node.unplaced = f node) (index : Nat) :
    placed[index]?.map f = nodes[index]?.map f := by
  have hindex := congrArg (fun nodes : Array Node => nodes[index]?.map f) same
  simpa only [Array.getElem?_map, Option.map_map, Function.comp_def, hf] using hindex

/-- A walk that ends has placed the nodes on its way, and no other. -/
theorem placeFrom_eq_ok (h : placeFrom nodes offset cursor = (.ok length, placed)) :
    Placed placed offset cursor length ∧ ∃ handles, Chain placed cursor handles ∧
      ∀ handle ∉ handles, placed[handle.index]? = nodes[handle.index]? := by
  fun_induction placeFrom nodes offset cursor with
  | case1 nodes offset =>
    cases h
    exact ⟨.stop, [], .stop, fun _ _ => rfl⟩
  | case2 => cases h
  | case3 => cases h
  | case4 nodes offset handle node found written next hstep ih =>
    obtain ⟨hplaced, handles, chain, frame⟩ := ih h
    -- the walk does not come back, so the node keeps what has been written into it
    have hnext : placed[handle.index]?.map (·.next) = some node.next := by
      have hsame := map_unplaced_placeFrom written next node.next
      rw [h] at hsame
      rw [map_getElem?_of_unplaced (hsame.trans (map_unplaced_modify _ _ _)) fun _ => rfl, found]
      rfl
    obtain ⟨after, hafter, hnext⟩ := Option.map_eq_some_iff.mp hnext
    have chain' : Chain placed (some handle) (handle :: handles) :=
      .visit hafter (hnext ▸ chain)
    have hwritten : placed[handle.index]? = some { node with position := offset } := by
      rw [frame handle (List.nodup_cons.mp chain'.nodup).1, Array.getElem?_modify,
        if_pos rfl, found]
      rfl
    refine ⟨?_, handle :: handles, chain', fun other hm => ?_⟩
    · obtain ⟨size, hsize, hend⟩ := wordEnd_eq_ok.mp hstep
      have hvisit := Placed.visit hwritten hsize hend hplaced
      exact hvisit
    · obtain ⟨hne, hm⟩ := not_or.mp (mt List.mem_cons.mpr hm)
      rw [frame other hm, Array.getElem?_modify, if_neg]
      intro hindex
      cases handle
      cases other
      exact hne (congrArg Handle.mk hindex.symm)

/-- Nodes that are placed stay as they are. -/
theorem Placed.placeFrom_eq (h : Placed nodes offset cursor length) :
    placeFrom nodes offset cursor = (.ok length, nodes) := by
  induction h with
  | stop => rw [placeFrom]
  | @visit handle node size next length found sized ends more ih =>
    have hsame : nodes.modify handle.index ({ · with position := node.position }) = nodes := by
      apply Array.ext_getElem?
      intro index
      rw [Array.getElem?_modify]
      split
      case isTrue hindex =>
        rw [← hindex, found]
        rfl
      case isFalse => rfl
    rw [placeFrom]
    simp only [found, hsame]
    split
    case h_1 e hstep =>
      rw [wordEnd_eq_ok.mpr ⟨size, sized, ends⟩] at hstep
      cases hstep
    case h_2 next' hstep =>
      rw [wordEnd_eq_ok.mpr ⟨size, sized, ends⟩] at hstep
      cases hstep
      exact ih

/-! ## Layouts that change nothing -/

theorem place_snd (arena : Arena) :
    arena.place.2 = { arena with nodes := (placeFrom arena.nodes 0 arena.head).2 } := by
  unfold place
  split
  case h_1 heq => rw [heq]
  case h_2 heq =>
    rw [heq]
    split <;> rfl

theorem place_eq_ok {result : Arena} : arena.place = (.ok length, result) ↔
    placeFrom arena.nodes 0 arena.head = (.ok length, result.nodes) ∧ length.toNat ≤ 65535 ∧
      result = { arena with nodes := result.nodes } := by
  unfold place
  split
  case h_1 heq => simp [heq]
  case h_2 length' nodes heq =>
    rw [heq]
    split
    case isTrue hlong =>
      simp only [Prod.mk.injEq, reduceCtorEq, false_and, Except.ok.injEq, false_iff, not_and]
      rintro ⟨rfl, -⟩ hle
      exact absurd (UInt32.lt_iff_toNat_lt.mp hlong) (Nat.not_lt.mpr hle)
    case isFalse hshort =>
      have hle : length'.toNat ≤ 65535 := by
        rw [UInt32.lt_iff_toNat_lt, Nat.not_lt] at hshort
        exact hshort
      constructor
      · intro h
        cases h
        exact ⟨rfl, hle, rfl⟩
      · rintro ⟨h, -, hresult⟩
        cases h
        rw [hresult]

theorem walk_congr {other : Arena} (hnodes : other.nodes = arena.nodes) (steps : Nat)
    (cursor : Option Handle) : other.walk steps cursor = arena.walk steps cursor := by
  induction steps generalizing cursor with
  | zero => rfl
  | succ steps ih =>
    cases cursor with
    | none => rfl
    | some handle => simp only [walk, node?, hnodes, ih]

theorem stored_congr {other : Arena} (hnodes : other.nodes = arena.nodes) :
    other.stored = arena.stored := by
  funext handle
  rw [stored, stored, node?, node?, hnodes]

/-- Which jumps have to be widened rests on the nodes and on where the stream begins. -/
theorem strainedJumps_congr {other : Arena} (hnodes : other.nodes = arena.nodes)
    (hhead : other.head = arena.head) : other.strainedJumps = arena.strainedJumps := by
  have hentries : other.entries = arena.entries := by
    rw [entries, entries, hnodes, hhead, walk_congr hnodes]
  unfold strainedJumps strained
  rw [stored_congr hnodes, hentries]

/-- The stream is in place, and no jump has to be widened. -/
structure Settled (arena : Arena) (length : UInt32) : Prop where
  placed : Placed arena.nodes 0 arena.head length
  length_le : length.toNat ≤ 65535
  calm : arena.strainedJumps = .ok []
  handlers : Listing.unplaced? arena.stored arena.handlers = none

theorem layout_settled (h : arena.layout = (.ok length, laid)) :
    laid.positionsValid = true ∧ laid.Settled length := by
  fun_induction layout arena with
  | case1 | case2 | case3 => cases h
  | case4 arena length' placed hplaced hhandlers hcalm =>
    cases h
    obtain ⟨hwalk, hle, hfields⟩ := place_eq_ok.mp hplaced
    have hsame : strainedJumps { placed with positionsValid := true } = placed.strainedJumps :=
      strainedJumps_congr rfl rfl
    refine ⟨rfl, ?_, hle, hsame.trans hcalm, hhandlers⟩
    have hhead : placed.head = arena.head := by rw [hfields]
    rw [← hhead] at hwalk
    exact (placeFrom_eq_ok hwalk).1
  | case5 _ _ _ _ _ _ _ _ ih => exact ih h

theorem place_fields (arena : Arena) : arena.place.2.nodes.size = arena.nodes.size ∧
    arena.place.2.handlers = arena.handlers ∧
    arena.place.2.positionsValid = arena.positionsValid := by
  have hsize := congrArg Array.size (map_unplaced_placeFrom arena.nodes 0 arena.head)
  rw [Array.size_map, Array.size_map] at hsize
  rw [place_snd]
  exact ⟨hsize, rfl, rfl⟩

/-- A layout adds no nodes and keeps the exception handlers. It sets the flag if it succeeds and
does not touch it otherwise. -/
theorem layout_fields (arena : Arena) : arena.layout.2.nodes.size = arena.nodes.size ∧
    arena.layout.2.handlers = arena.handlers ∧
    arena.layout.2.positionsValid = (arena.layout.1.isOk || arena.positionsValid) := by
  fun_induction layout arena with
  | case1 arena e placed hplaced | case2 arena _ placed hplaced | case3 arena _ placed hplaced =>
    have hfields := arena.place_fields
    rw [hplaced] at hfields
    exact hfields
  | case4 arena length placed hplaced =>
    have hfields := arena.place_fields
    rw [hplaced] at hfields
    exact ⟨hfields.1, hfields.2.1, rfl⟩
  | case5 arena length placed hplaced jumps _ _ _ ih =>
    have hfields := arena.place_fields
    rw [hplaced] at hfields
    have hsize : (placed.widen jumps).nodes.size = placed.nodes.size := size_modifyAll _ _ _
    have hwiden : placed.widen jumps = { placed with nodes := (placed.widen jumps).nodes } :=
      modifyAll_eq placed jumps _
    refine ⟨ih.1.trans (hsize.trans hfields.1), ih.2.1.trans ?_, ih.2.2.trans ?_⟩
    · rw [hwiden]
      exact hfields.2.1
    · rw [hwiden]
      exact congrArg _ hfields.2.2

theorem Settled.layout_eq (settled : arena.Settled length) (valid : arena.positionsValid = true) :
    arena.layout = (.ok length, arena) := by
  have hplace : arena.place = (.ok length, arena) :=
    place_eq_ok.mpr ⟨settled.placed.placeFrom_eq, settled.length_le, rfl⟩
  unfold layout
  split
  case h_1 heq =>
    rw [hplace] at heq
    cases heq
  case h_2 heq =>
    rw [hplace] at heq
    cases heq
    split
    case h_1 hjumps =>
      rw [settled.calm] at hjumps
      cases hjumps
    case h_2 jumps hjumps =>
      rw [settled.calm] at hjumps
      cases hjumps
      rw [settled.handlers]
      dsimp only
      rw [dif_pos rfl, ← valid]

/-! ## What a settled arena looks like -/

/-- The positions of an arena are those of its stream, in code of this length. Everything that is
referred to is live, and every short branch reaches its target. -/
structure Positioned (arena : Arena) (length : UInt32) : Prop where
  placed : Placed arena.nodes 0 arena.head length
  read : ∀ entry ∈ arena.entries, arena.position? entry.1 = some entry.2.position
  length_le : length.toNat ≤ 65535
  targets : ∀ entry ∈ arena.entries, ∀ target ∈ entry.2.instruction.targets,
    arena.contains target = true
  handlers : ∀ entry ∈ arena.handlers.toList, ∀ handle ∈ entry.handles,
    arena.contains handle = true
  reach : ∀ entry ∈ arena.entries, (entry.2.line entry.1).isShortBranch = true →
    ∀ target ∈ entry.2.instruction.targets, ∃ goal : UInt32, arena.position? target = some goal ∧
      -32768 ≤ (goal.toNat : Int) - entry.2.position.toNat ∧
      (goal.toNat : Int) - entry.2.position.toNat ≤ 32767

theorem strained_of_calm (calm : arena.strainedJumps = .ok []) {entry : Handle × Node}
    (hm : entry ∈ arena.entries) : arena.strained entry.1 entry.2 = .ok false := by
  obtain ⟨marked, hmarked, hnone⟩ := Outcome.bind_eq_ok.mp calm
  obtain ⟨mark, hmark, hentry⟩ :=
    Outcome.exists_of_mem_right (Outcome.list_mapM_eq_ok.mp hmarked).flip hm
  obtain ⟨far, hfar, hpair⟩ := Outcome.bind_eq_ok.mp hentry
  cases hpair
  have hnone : (marked.filter (·.2)).map (·.1) = [] := Except.ok.inj hnone
  have hfalse := List.filter_eq_nil_iff.mp (List.map_eq_nil_iff.mp hnone) _ hmark
  rw [hfar, (Bool.not_eq_true far).mp hfalse]

/-- A node that does not have to be widened would be left as it is. -/
theorem widen_of_strained {far : Bool} (h : arena.strained handle node = .ok far) :
    Listing.widen arena.stored (node.line handle) node.position.toNat =
      .ok { node.line handle with long := node.long || far } := by
  obtain ⟨answers, hanswers, hfar⟩ := Outcome.bind_eq_ok.mp h
  cases hfar
  exact Outcome.bind_eq_ok.mpr ⟨answers, hanswers, rfl⟩

theorem contains_of_stored {place : Nat} (h : arena.stored handle = some place) :
    arena.contains handle = true ∧ (arena.positionsValid = true →
      ∃ position, arena.position? handle = some position ∧ position.toNat = place) := by
  obtain ⟨node, hnode, rfl⟩ := Option.map_eq_some_iff.mp h
  refine ⟨by rw [contains, hnode]; rfl, fun valid => ⟨node.position, ?_, rfl⟩⟩
  rw [position?, if_pos valid, hnode]
  rfl

theorem Settled.positioned (settled : arena.Settled length) (valid : arena.positionsValid = true) :
    arena.Positioned length := by
  have hwiden : ∀ entry ∈ arena.entries, Listing.widen arena.stored (entry.2.line entry.1)
      entry.2.position.toNat = .ok (entry.2.line entry.1) := by
    intro entry hm
    rw [widen_of_strained (strained_of_calm settled.calm hm), Bool.or_false]
    rfl
  refine ⟨settled.placed, fun entry hm => ?_, settled.length_le, ?_, ?_, ?_⟩
  · rw [position?, if_pos valid, node?_of_mem_walk hm]
    rfl
  · intro entry hm target ht
    obtain ⟨place, hplace⟩ := Listing.placed_of_widen (hwiden entry hm) ht
    exact (contains_of_stored hplace).1
  · intro entry hm handle hh
    obtain ⟨place, hplace⟩ := Listing.unplaced?_eq_none.mp settled.handlers entry hm handle hh
    exact (contains_of_stored hplace).1
  · intro entry hm hshort target ht
    obtain ⟨place, hplace, hfits⟩ := Listing.reach_of_widen (hwiden entry hm) hshort ht
    obtain ⟨goal, hgoal, rfl⟩ := (contains_of_stored hplace).2 valid
    exact ⟨goal, hgoal, fitsSigned_sixteen_iff.mp hfits⟩

/-! ## Every call keeps the positions valid or says that they are not -/

theorem Settled.addHandler (settled : arena.Settled length) {entry : ExceptionHandler}
    (live : ∀ handle ∈ entry.handles, arena.contains handle = true) :
    Settled { arena with handlers := arena.handlers.push entry } length where
  placed := settled.placed
  length_le := settled.length_le
  calm := by
    rw [← settled.calm]
    exact strainedJumps_congr rfl rfl
  handlers := by
    refine Listing.unplaced?_eq_none.mpr fun other hm handle hh => ?_
    simp only [Array.toList_push, List.mem_append, List.mem_singleton] at hm
    rcases hm with hm | rfl
    · exact Listing.unplaced?_eq_none.mp settled.handlers other hm handle hh
    · obtain ⟨node, hnode⟩ := Option.isSome_iff_exists.mp (live handle hh)
      exact ⟨node.position.toNat, Option.map_eq_some_iff.mpr ⟨node, hnode, rfl⟩⟩

theorem positionsValid_insertBetween (prev next : Option Handle) (code : Instruction Handle) :
    (arena.insertBetween prev next code).2.positionsValid = false := by
  cases prev <;> cases next <;> rfl

/-- After a call the positions are not valid, or it has changed nothing but exception handlers, or
it was a layout. -/
theorem apply_cases (arena : Arena) (operation : Operation) :
    (arena.apply operation).2.positionsValid = false ∨ (arena.apply operation).2 = arena ∨
    (∃ entry : ExceptionHandler,
      (arena.apply operation).2 = { arena with handlers := arena.handlers.push entry } ∧
      ∀ handle ∈ entry.handles, arena.contains handle = true) ∨
    (arena.apply operation).2 = arena.layout.2 := by
  cases operation with
  | append code => exact .inl (positionsValid_insertBetween _ _ _)
  | insertBefore handle code =>
    rw [apply, insertBefore]
    split
    case h_1 node _ => exact .inl (positionsValid_insertBetween node.prev (some handle) code)
    case h_2 => exact .inr (.inl rfl)
  | insertAfter handle code =>
    rw [apply, insertAfter]
    split
    case h_1 node _ => exact .inl (positionsValid_insertBetween (some handle) node.next code)
    case h_2 => exact .inr (.inl rfl)
  | set handle code =>
    rw [apply, Arena.set]
    split
    · exact .inl rfl
    · exact .inr (.inl rfl)
  | delete handle | deleteRange start stop =>
    simp only [apply, delete, deleteRange]
    split
    · exact .inr (.inl rfl)
    · split
      · exact .inr (.inl rfl)
      · exact .inl rfl
  | addHandler entry =>
    rw [apply, Arena.addHandler]
    split
    case h_1 => exact .inr (.inl rfl)
    case h_2 hlive =>
      refine .inr (.inr (.inl ⟨entry, rfl, fun handle hm => ?_⟩))
      rw [firstMissing?, List.find?_eq_none] at hlive
      simpa using hlive handle hm
  | layout => exact .inr (.inr (.inr rfl))

/-- An arena whose positions count as valid is settled. -/
def Valid (arena : Arena) : Prop :=
  arena.positionsValid = true → ∃ length, arena.Settled length

theorem Valid.layout (valid : arena.Valid) : arena.layout.2.Valid := by
  intro hvalid
  cases h : arena.layout with
  | mk outcome laid =>
    rw [h] at hvalid
    cases outcome with
    | ok length => exact ⟨length, (layout_settled h).2⟩
    | error e =>
      -- the layout of a settled arena does not fail
      have hflag := arena.layout_fields.2.2
      rw [h] at hflag
      have hvalid : arena.positionsValid = true := hflag.symm.trans hvalid
      obtain ⟨length, settled⟩ := valid hvalid
      rw [settled.layout_eq hvalid] at h
      cases h

theorem Valid.apply (valid : arena.Valid) (operation : Operation) :
    (arena.apply operation).2.Valid := by
  intro hvalid
  rcases arena.apply_cases operation with hfalse | hsame | ⟨entry, hadded, live⟩ | hlaid
  · rw [hfalse] at hvalid
    cases hvalid
  · rw [hsame] at hvalid ⊢
    exact valid hvalid
  · rw [hadded] at hvalid ⊢
    obtain ⟨length, settled⟩ := valid hvalid
    exact ⟨length, settled.addHandler live⟩
  · rw [hlaid] at hvalid ⊢
    exact valid.layout hvalid

end Arena

theorem History.valid_run (operations : List Operation) : (History.run operations).arena.Valid := by
  refine run_induction (P := fun history => history.arena.Valid) (fun h => ?_) ?_ operations
  · cases h
  · exact fun history operation valid => valid.apply operation

/-- After any calls, the positions of an arena that count as valid are those of its stream, and a
new layout succeeds with the same length and changes nothing. A layout that succeeds gives such an
arena. -/
theorem valid_positions (operations : List Operation) :
    ((History.run operations).arena.positionsValid = true → ∃ length,
      (History.run operations).arena.Positioned length ∧
      (History.run operations).arena.layout = (.ok length, (History.run operations).arena)) ∧
    ∀ length laid, (History.run operations).arena.layout = (.ok length, laid) →
      laid.positionsValid = true ∧ laid.Positioned length ∧ laid.layout = (.ok length, laid) := by
  constructor
  · intro hvalid
    obtain ⟨length, settled⟩ := History.valid_run operations hvalid
    exact ⟨length, settled.positioned hvalid, settled.layout_eq hvalid⟩
  · intro length laid h
    obtain ⟨hvalid, settled⟩ := Arena.layout_settled h
    exact ⟨hvalid, settled.positioned hvalid, settled.layout_eq hvalid⟩

/-- A jump back to the first instruction, with an exception handler that came after the layout. -/
def backward : List Operation :=
  [.append .nop, .append (.jump ⟨0⟩), .layout, .addHandler ⟨⟨0⟩, none, ⟨1⟩, 0⟩]

theorem valid_positions_backward : (History.run backward).arena.positionsValid = true ∧
    (History.run backward).arena.Positioned 4 := by
  have hvalid : (History.run backward).arena.positionsValid = true := by decide +kernel
  have hlength : (History.run backward).arena.layout.1 = .ok 4 := by decide +kernel
  obtain ⟨length, hpositioned, hlayout⟩ := (valid_positions backward).1 hvalid
  rw [hlayout] at hlength
  cases hlength
  exact ⟨hvalid, hpositioned⟩

/-- A layout that fails leaves its positions behind, and they are not read. -/
example : ((History.run [.append .nop, .append (.jump ⟨7⟩), .layout]).arena.stored ⟨1⟩ = some 1) ∧
    (History.run [.append .nop, .append (.jump ⟨7⟩), .layout]).arena.position? ⟨1⟩ = none := by
  decide +kernel

end BytecodeFold
