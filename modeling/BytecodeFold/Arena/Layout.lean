import BytecodeFold.Arena.Basic
import BytecodeFold.Listing.Layout

/-!
# Layout of an arena

A layout walks along the links and writes an offset into every node. Jumps that turn out to be too
far from their targets are made long, and the walk is done again, until no short jump has to be
widened. What a walk has written stays in the nodes when the layout fails; the positions count as
valid only after a layout that succeeds, and until the next edit.
-/

namespace BytecodeFold

def Node.isShortJump (node : Node) : Bool := node.instruction.isJump && !node.long

namespace Arena

/-- Writes offsets into the nodes from one on, along the links, and gives the offset after the
last. The nodes come back as the walk has left them. -/
def placeFrom (nodes : Array Node) (offset : UInt32) (cursor : Option Handle) :
    Except Error UInt32 × Array Node :=
  match cursor with
  | none => (.ok offset, nodes)
  | some handle =>
    match nodes[handle.index]? with
    | none => (.error (.invalidHandle handle), nodes)
    | some node =>
      let placed := nodes.modify handle.index ({ · with position := offset })
      match _step : node.instruction.wordEnd offset node.long with
      | .error e => (.error e, placed)
      | .ok next => placeFrom placed next node.next
  termination_by 4294967296 - offset.toNat
  decreasing_by
    have hlt := Instruction.lt_of_wordEnd _step
    have hend := next.toNat_lt
    omega

/-- Writes the offsets of the whole stream and gives the length of the code. -/
def place (arena : Arena) : Except Error UInt32 × Arena :=
  match placeFrom arena.nodes 0 arena.head with
  | (.error e, nodes) => (.error e, { arena with nodes })
  | (.ok length, nodes) =>
    if 65535 < length then
      (.error (.malformed (.codeTooLong length.toNat)), { arena with nodes })
    else (.ok length, { arena with nodes })

/-- The offset that the node of a live handle holds, valid or not. -/
def stored (arena : Arena) (handle : Handle) : Option Nat :=
  (arena.node? handle).map (·.position.toNat)

/-- Whether a node is a jump that has to be widened. -/
def strained (arena : Arena) (handle : Handle) (node : Node) : Except Error Bool := do
  let far ← node.instruction.targets.mapM
    (Listing.tooFar arena.stored (node.line handle) node.position.toNat)
  return far.any id

/-- The handles of the jumps that have to be widened. -/
def strainedJumps (arena : Arena) : Except Error (List Handle) := do
  let marked ← arena.entries.mapM fun (handle, node) =>
    return (handle, ← arena.strained handle node)
  return (marked.filter (·.2)).map (·.1)

/-- Gives these jumps their long form. -/
def widen (arena : Arena) (jumps : List Handle) : Arena :=
  arena.modifyAll jumps ({ · with long := true })

/-! ## The rounds of a layout -/

/-- How many jumps are in their short form. -/
def shortJumps (arena : Arena) : Nat := arena.nodes.countP (·.isShortJump)

theorem countP_modify_le {nodes : Array Node} {p : Node → Bool} {change : Node → Node}
    (h : ∀ node, p (change node) = true → p node = true) (index : Nat) :
    (nodes.modify index change).countP p ≤ nodes.countP p := by
  rw [← Array.countP_toList, ← Array.countP_toList, Array.toList_modify]
  by_cases hindex : index < nodes.toList.length
  · obtain ⟨before, node, after, hl, -, hm⟩ := List.exists_of_modify change hindex
    rw [hm, hl, List.countP_append, List.countP_append, List.countP_cons, List.countP_cons]
    have hnode := h node
    split
    case isTrue hc => simp [hnode hc]
    case isFalse => omega
  · have hsame := List.modify_eq_self (f := change) (Nat.le_of_not_lt hindex)
    exact Nat.le_of_eq (congrArg (List.countP p) hsame)

theorem countP_modify_lt {nodes : Array Node} {p : Node → Bool} {change : Node → Node}
    {index : Nat} {node : Node} (hnode : nodes[index]? = some node) (hp : p node = true)
    (hchange : p (change node) = false) :
    (nodes.modify index change).countP p < nodes.countP p := by
  obtain ⟨hindex, rfl⟩ := Array.getElem?_eq_some_iff.mp hnode
  rw [← Array.countP_toList, ← Array.countP_toList, Array.toList_modify]
  rw [← Array.length_toList] at hindex
  obtain ⟨before, found, after, hl, hlength, hm⟩ := List.exists_of_modify change hindex
  have hfound : nodes.toList[index] = found := by simp [hl, ← hlength]
  rw [Array.getElem_toList] at hfound
  rw [hfound] at hp hchange
  rw [hm, hl, List.countP_append, List.countP_append, List.countP_cons, List.countP_cons, hp,
    hchange]
  simp

theorem countP_placeFrom_le (nodes : Array Node) (offset : UInt32) (cursor : Option Handle) :
    (placeFrom nodes offset cursor).2.countP (·.isShortJump) ≤ nodes.countP (·.isShortJump) := by
  have hwrite : ∀ (nodes : Array Node) (index : Nat) (offset : UInt32),
      (nodes.modify index ({ · with position := offset })).countP (·.isShortJump) ≤
        nodes.countP (·.isShortJump) := by
    intro nodes index offset
    refine countP_modify_le (fun node h => ?_) index
    exact h
  fun_induction placeFrom nodes offset cursor with
  | case1 | case2 => exact Nat.le_refl _
  | case3 => exact hwrite _ _ _
  | case4 _ _ _ _ _ _ _ _ ih => exact Nat.le_trans ih (hwrite _ _ _)

theorem shortJumps_place_le (arena : Arena) : arena.place.2.shortJumps ≤ arena.shortJumps := by
  have h := countP_placeFrom_le arena.nodes 0 arena.head
  unfold place
  split
  case h_1 heq => rwa [heq] at h
  case h_2 heq =>
    rw [heq] at h
    split <;> exact h

theorem nodes_of_node? {arena : Arena} {handle : Handle} {node : Node}
    (h : arena.node? handle = some node) : arena.nodes[handle.index]? = some node :=
  Option.eq_some_of_filter_eq_some h

theorem node?_of_mem_walk {arena : Arena} : ∀ {steps : Nat} {cursor : Option Handle}
    {entry : Handle × Node}, entry ∈ arena.walk steps cursor → arena.node? entry.1 = some entry.2
  | 0, _, _, h => by cases h
  | _ + 1, none, _, h => by cases h
  | steps + 1, some handle, entry, h => by
    unfold walk at h
    split at h
    case h_1 node hnode =>
      rcases List.mem_cons.mp h with rfl | h
      · exact hnode
      · exact node?_of_mem_walk h
    case h_2 => cases h

theorem exists_strained {arena : Arena} {handle : Handle} :
    ∀ {entries : List (Handle × Node)} {marked : List (Handle × Bool)},
      (entries.mapM fun (handle, node) => return (handle, ← arena.strained handle node)) =
        .ok marked → (handle, true) ∈ marked →
          ∃ node, (handle, node) ∈ entries ∧ arena.strained handle node = .ok true
  | [], marked, h, hm => by
    cases h
    cases hm
  | (first, node) :: rest, marked, h, hm => by
    rw [List.mapM_cons] at h
    dsimp only at h
    cases hfirst : arena.strained first node with
    | error e =>
      rw [hfirst] at h
      cases h
    | ok far =>
      cases hrest : rest.mapM fun (handle, node) =>
          return (handle, ← arena.strained handle node) with
      | error e =>
        rw [hfirst, hrest] at h
        cases h
      | ok others =>
        rw [hfirst, hrest] at h
        cases h
        rcases List.mem_cons.mp hm with heq | hm
        · cases heq
          exact ⟨node, List.mem_cons_self, hfirst⟩
        · obtain ⟨found, hfound, hstrained⟩ := exists_strained hrest hm
          exact ⟨found, List.mem_cons_of_mem _ hfound, hstrained⟩

/-- Only short jumps have to be widened. -/
theorem isShortJump_of_mem_strainedJumps {arena : Arena} {jumps : List Handle} {handle : Handle}
    (h : arena.strainedJumps = .ok jumps) (hm : handle ∈ jumps) :
    ∃ node, arena.nodes[handle.index]? = some node ∧ node.isShortJump = true := by
  unfold strainedJumps at h
  cases hmarked : arena.entries.mapM
      fun (handle, node) => return (handle, ← arena.strained handle node) with
  | error e =>
    rw [hmarked] at h
    cases h
  | ok marked =>
    rw [hmarked] at h
    cases h
    obtain ⟨⟨handle, far⟩, hfar, rfl⟩ := List.mem_map.mp hm
    obtain ⟨hmem, hfar⟩ := List.mem_filter.mp hfar
    cases hfar
    obtain ⟨node, hentry, hstrained⟩ := exists_strained hmarked hmem
    refine ⟨node, nodes_of_node? (node?_of_mem_walk hentry), ?_⟩
    unfold strained at hstrained
    cases hanswers : node.instruction.targets.mapM
        (Listing.tooFar arena.stored (node.line handle) node.position.toNat) with
    | error e =>
      rw [hanswers] at hstrained
      cases hstrained
    | ok answers =>
      rw [hanswers] at hstrained
      obtain ⟨target, ht⟩ := Listing.exists_tooFar hanswers (Except.ok.inj hstrained)
      exact Listing.tooFar_eq_true ht

theorem shortJumps_widen_le (arena : Arena) (jumps : List Handle) :
    (arena.widen jumps).shortJumps ≤ arena.shortJumps := by
  induction jumps generalizing arena with
  | nil => exact Nat.le_refl _
  | cons handle rest ih =>
    refine Nat.le_trans (ih _) (countP_modify_le (fun node h => ?_) _)
    simp [Node.isShortJump] at h

/-- A round that has jumps to widen leaves fewer short jumps. -/
theorem shortJumps_widen_lt {arena : Arena} {jumps : List Handle}
    (h : arena.strainedJumps = .ok jumps) (hne : jumps ≠ []) :
    (arena.widen jumps).shortJumps < arena.shortJumps := by
  cases jumps with
  | nil => exact absurd rfl hne
  | cons handle rest =>
    obtain ⟨node, hnode, hshort⟩ := isShortJump_of_mem_strainedJumps h List.mem_cons_self
    refine Nat.lt_of_le_of_lt (shortJumps_widen_le _ rest) (countP_modify_lt hnode hshort ?_)
    simp [Node.isShortJump]

/-- Lays the stream out and gives the length of the code. -/
def layout (arena : Arena) : Except Error UInt32 × Arena :=
  match _placed : arena.place with
  | (.error e, placed) => (.error e, placed)
  | (.ok length, placed) =>
    match _strained : placed.strainedJumps with
    | .error e => (.error e, placed)
    | .ok jumps =>
      match Listing.unplaced? placed.stored placed.handlers with
      | some missing => (.error (.invalidHandle missing), placed)
      | none =>
        if _done : jumps = [] then (.ok length, { placed with positionsValid := true })
        else (placed.widen jumps).layout
  termination_by arena.shortJumps
  decreasing_by
    have hlt := shortJumps_widen_lt _strained _done
    have hle := arena.shortJumps_place_le
    rw [_placed] at hle
    exact Nat.lt_of_lt_of_le hlt hle

/-- The position of an instruction, none while the positions are not valid. -/
def position? (arena : Arena) (handle : Handle) : Option UInt32 :=
  if arena.positionsValid then (arena.node? handle).map (·.position) else none

end Arena

end BytecodeFold
