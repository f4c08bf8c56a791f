import BytecodeFold.Proofs.Arena.Links
import BytecodeFold.Proofs.Listing.Edit

/-!
# The listing of an arena

While its links are in order, an arena holds a listing: the walk along the links gives the lines,
and every question that can be asked of the one has the same answer as for the other.
-/

namespace BytecodeFold

namespace Arena

variable {arena : Arena} {nodes : Array Node} {handle start stop : Handle}
  {before after : Option Handle} {handles front segment back : List Handle}

/-! ## The walk along the links -/

def entryAt (nodes : Array Node) (handle : Handle) : Option (Handle × Node) :=
  nodes[handle.index]?.map (handle, ·)

def lineAt (nodes : Array Node) (handle : Handle) : Option Line :=
  nodes[handle.index]?.map (·.line handle)

/-- A walk that takes enough steps goes through the whole strand. -/
theorem Strand.walk_eq (strand : Strand arena.nodes before handles none) {steps : Nat}
    (enough : handles.length ≤ steps) :
    arena.walk steps handles.head? = handles.filterMap (entryAt arena.nodes) := by
  induction handles generalizing before steps with
  | nil => cases steps <;> rfl
  | cons handle rest ih =>
    cases steps with
    | zero => cases enough
    | succ steps =>
      obtain ⟨node, hnode, hlinks⟩ := Option.map_eq_some_iff.mp strand.1
      have hlive : node.live = true := congrArg Prod.fst hlinks
      have hnext : node.next = rest.head? := (congrArg (·.2.2) hlinks).trans Option.or_none
      have hnode? : arena.node? handle = some node := by
        rw [node?, hnode, Option.filter_some, if_pos hlive]
      have hentry : entryAt arena.nodes handle = some (handle, node) := by rw [entryAt, hnode]; rfl
      rw [List.head?_cons, walk, hnode?, List.filterMap_cons, hentry]
      dsimp only
      rw [hnext, ih strand.2 (Nat.le_of_succ_le_succ enough)]

theorem Represents.length_le (represents : arena.Represents handles) :
    handles.length ≤ arena.nodes.size := by
  have hnodup : (handles.map Handle.index).Nodup :=
    represents.nodup.map fun a b h => by cases a; cases b; exact congrArg Handle.mk h
  have hsub : handles.map Handle.index ⊆ List.range arena.nodes.size := by
    intro index hindex
    obtain ⟨handle, hm, rfl⟩ := List.mem_map.mp hindex
    exact List.mem_range.mpr (represents.lt_size hm)
  have hle := (hnodup.subperm hsub).length_le
  rwa [List.length_map, List.length_range] at hle

theorem Represents.entries_eq (represents : arena.Represents handles) :
    arena.entries = handles.filterMap (entryAt arena.nodes) := by
  rw [entries, represents.head]
  exact represents.strand.walk_eq represents.length_le

theorem Represents.lines_eq (represents : arena.Represents handles) :
    arena.listing.lines.toList = handles.filterMap (lineAt arena.nodes) := by
  rw [listing, represents.entries_eq, List.map_filterMap]
  simp only [entryAt, Option.map_map, Function.comp_def]
  rfl

theorem map_handle_filterMap (h : ∀ handle ∈ handles, ∃ node, nodes[handle.index]? = some node) :
    (handles.filterMap (lineAt nodes)).map (·.handle) = handles := by
  induction handles with
  | nil => rfl
  | cons handle rest ih =>
    obtain ⟨node, hnode⟩ := h handle List.mem_cons_self
    have hline : lineAt nodes handle = some (node.line handle) := by rw [lineAt, hnode]; rfl
    rw [List.filterMap_cons, hline, List.map_cons,
      ih fun handle hm => h handle (List.mem_cons_of_mem _ hm)]
    rfl

theorem Represents.map_handle (represents : arena.Represents handles) {part : List Handle}
    (h : ∀ handle ∈ part, handle ∈ handles) :
    (part.filterMap (lineAt arena.nodes)).map (·.handle) = part := by
  refine map_handle_filterMap fun handle hm => ?_
  obtain ⟨node, -, hnode⟩ := represents.node? (h handle hm)
  exact ⟨node, hnode⟩

theorem Represents.handles_eq (represents : arena.Represents handles) :
    arena.listing.handles = handles := by
  rw [Listing.handles, represents.lines_eq, represents.map_handle fun _ => id]

theorem Represents.distinct (represents : arena.Represents handles) : arena.listing.Distinct := by
  rw [Listing.Distinct, represents.handles_eq]
  exact represents.nodup

/-- Around a node, the lines are those of the nodes in front of it and behind it. -/
theorem Represents.cut (represents : arena.Represents (front ++ handle :: back)) :
    ∃ node, arena.node? handle = some node ∧ node.prev = front.getLast? ∧ node.next = back.head? ∧
      arena.listing.Cut (front.filterMap (lineAt arena.nodes)) (node.line handle)
        (back.filterMap (lineAt arena.nodes)) := by
  obtain ⟨node, hnode?, hnode, hprev, hnext⟩ := represents.links_eq
  refine ⟨node, hnode?, hprev, hnext, ?_⟩
  have hline : lineAt arena.nodes handle = some (node.line handle) := by rw [lineAt, hnode]; rfl
  rw [Listing.Cut, represents.lines_eq, List.filterMap_append, List.filterMap_cons, hline]

/-! ## Questions -/

theorem Represents.contains_iff (represents : arena.Represents handles) :
    arena.contains handle = true ↔ handle ∈ handles := by
  rw [contains, Option.isSome_iff_exists]
  constructor
  · rintro ⟨node, hnode⟩
    by_contra hm
    rw [represents.node?_eq_none hm] at hnode
    cases hnode
  · intro hm
    obtain ⟨node, hnode, -⟩ := represents.node? hm
    exact ⟨node, hnode⟩

theorem Represents.contains_listing (represents : arena.Represents handles) (handle : Handle) :
    arena.listing.contains handle = arena.contains handle := by
  rw [Bool.eq_iff_iff, Listing.contains_iff, represents.handles_eq, represents.contains_iff]

theorem Represents.firstMissing?_listing (represents : arena.Represents handles)
    (asked : List Handle) : arena.listing.firstMissing? asked = arena.firstMissing? asked := by
  unfold Listing.firstMissing? firstMissing?
  simp only [represents.contains_listing]

/-- A handle has the same instruction and the same neighbours in the arena and in its listing. -/
theorem Represents.get?_next?_prev?_listing (represents : arena.Represents handles)
    (handle : Handle) :
    arena.listing.get? handle = arena.get? handle ∧
      arena.listing.next? handle = arena.next? handle ∧
      arena.listing.prev? handle = arena.prev? handle := by
  have distinct := represents.distinct
  by_cases hm : handle ∈ handles
  · obtain ⟨front, back, rfl⟩ := List.append_of_mem hm
    obtain ⟨node, hnode, hprev, hnext, cut⟩ := represents.cut
    have hget := cut.get? distinct
    have hnext' := cut.next? distinct
    have hprev' := cut.prev? distinct
    rw [← List.head?_map, represents.map_handle fun handle hm => by simp [hm], ← hnext] at hnext'
    rw [← List.getLast?_map, represents.map_handle fun handle hm => by simp [hm], ← hprev] at hprev'
    rw [Arena.get?, Arena.next?, Arena.prev?, hnode]
    exact ⟨hget, hnext', hprev'⟩
  · have hgone : handle ∉ arena.listing.handles := by rwa [represents.handles_eq]
    rw [Arena.get?, Arena.next?, Arena.prev?, represents.node?_eq_none hm,
      Listing.get?_eq_none hgone, Listing.next?, Listing.prev?, Listing.indexOf?_eq_none hgone]
    exact ⟨rfl, rfl, rfl⟩

/-! ## Ranges -/

/-- Along the links, the handles of a segment are met one after another. -/
theorem Represents.through?_eq (represents : arena.Represents (front ++ segment ++ back))
    (hstart : segment.head? = some start) (hstop : segment.getLast? = some stop) {steps : Nat}
    (enough : segment.length ≤ steps) :
    arena.through? stop steps (some start) = some segment := by
  induction segment generalizing front start steps with
  | nil => cases hstart
  | cons first rest ih =>
    cases hstart
    cases steps with
    | zero => cases enough
    | succ steps =>
      rw [through?]
      cases rest with
      | nil =>
        rw [List.getLast?_singleton, Option.some.injEq] at hstop
        rw [if_pos hstop]
      | cons next rest =>
        have hsplit : front ++ first :: next :: rest ++ back =
            front ++ first :: (next :: rest ++ back) := by simp
        have hsplit' : front ++ first :: next :: rest ++ back =
            front ++ [first] ++ (next :: rest) ++ back := by simp
        have hlast : stop ∈ next :: rest := List.mem_of_getLast? (by simpa using hstop)
        have hne : first ≠ stop := by
          rintro rfl
          have hnodup := represents.nodup
          rw [hsplit, List.nodup_middle, List.nodup_cons] at hnodup
          exact hnodup.1 (List.mem_append_right _ (List.mem_append_left _ hlast))
        have hnext : arena.next? first = some next := by
          rw [hsplit] at represents
          exact represents.next?_eq
        rw [hsplit'] at represents
        rw [if_neg hne, hnext, ih represents rfl (by simpa using hstop)
          (Nat.le_of_succ_le_succ enough)]
        rfl

/-- A handle that does not stand behind another is not met from there. -/
theorem Represents.through?_eq_none (represents : arena.Represents (front ++ back))
    (hstop : stop ∉ back) (steps : Nat) : arena.through? stop steps back.head? = none := by
  induction back generalizing front steps with
  | nil => cases steps <;> rfl
  | cons handle rest ih =>
    cases steps with
    | zero => rfl
    | succ steps =>
      have hne : handle ≠ stop := fun he => hstop (he ▸ List.mem_cons_self)
      have hsplit : front ++ handle :: rest = front ++ [handle] ++ rest := by simp
      rw [List.head?_cons, through?, if_neg hne, represents.next?_eq]
      rw [hsplit] at represents
      rw [ih represents fun hm => hstop (List.mem_cons_of_mem _ hm)]
      rfl

end Arena

end BytecodeFold
