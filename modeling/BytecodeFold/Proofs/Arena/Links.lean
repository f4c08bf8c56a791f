import BytecodeFold.Arena.Layout
import Mathlib.Data.List.Nodup
import Mathlib.Data.List.Perm.Subperm

/-!
# Links of an arena

An arena represents a list of handles when its links lead through exactly these nodes, in this
order and back. The links are cut and joined in two places only: an insertion joins a new node to
its neighbours, a deletion joins the neighbours of a segment. Both are the same splice.
-/

namespace BytecodeFold

namespace Arena

variable {arena : Arena} {nodes other : Array Node} {handle : Handle}
  {before after prev next : Option Handle} {handles front middle back : List Handle}

/-! ## Strands -/

/-- Whether a node is live, and what it is linked to. -/
def links (node : Node) : Bool × Option Handle × Option Handle := (node.live, node.prev, node.next)

def linksAt (nodes : Array Node) (handle : Handle) :
    Option (Bool × Option Handle × Option Handle) :=
  nodes[handle.index]?.map links

theorem linksAt_of_getElem? {node : Node} (h : nodes[handle.index]? = some node) :
    linksAt nodes handle = some (links node) := by
  rw [linksAt, h]
  rfl

/-- Nodes that are live and linked to one another in this order, between a neighbour before the
first and a neighbour after the last. -/
def Strand (nodes : Array Node) : Option Handle → List Handle → Option Handle → Prop
  | _, [], _ => True
  | before, handle :: rest, after =>
    linksAt nodes handle = some (true, before, rest.head?.or after) ∧
      Strand nodes (some handle) rest after

theorem strand_append : Strand nodes before (front ++ back) after ↔
    Strand nodes before front (back.head?.or after) ∧
      Strand nodes (front.getLast?.or before) back after := by
  induction front generalizing before with
  | nil => simp [Strand]
  | cons handle rest ih =>
    have hlast : (handle :: rest).getLast?.or before = rest.getLast?.or (some handle) := by
      rw [List.getLast?_cons]
      cases rest.getLast? <;> rfl
    rw [List.cons_append, Strand, Strand, ih, List.head?_append, Option.or_assoc, hlast, and_assoc]

/-- A strand is kept by changes to other nodes, and to what is not a link. -/
theorem Strand.frame (strand : Strand nodes before handles after)
    (same : ∀ handle ∈ handles, linksAt other handle = linksAt nodes handle) :
    Strand other before handles after := by
  induction handles generalizing before with
  | nil => trivial
  | cons handle rest ih =>
    exact ⟨(same handle List.mem_cons_self).trans strand.1,
      ih strand.2 fun handle hm => same handle (List.mem_cons_of_mem _ hm)⟩

theorem Strand.live (strand : Strand nodes before handles after) (hm : handle ∈ handles) :
    ∃ node, nodes[handle.index]? = some node ∧ node.live = true := by
  obtain ⟨front, back, rfl⟩ := List.append_of_mem hm
  obtain ⟨node, hnode, hlinks⟩ := Option.map_eq_some_iff.mp (strand_append.mp strand).2.1
  exact ⟨node, hnode, congrArg Prod.fst hlinks⟩

/-! ## Writing links -/

theorem linksAt_modify (change : Node → Node) (index : Nat) :
    linksAt (nodes.modify index change) handle =
      if index = handle.index then nodes[handle.index]?.map (links ∘ change)
      else linksAt nodes handle := by
  unfold linksAt
  rw [Array.getElem?_modify]
  split
  · rw [Option.map_map]
  · rfl

theorem linksAt_linkNext_of_ne (h : prev ≠ some handle) :
    linksAt (arena.linkNext prev next).nodes handle = linksAt arena.nodes handle := by
  cases prev with
  | none => rfl
  | some other =>
    refine (linksAt_modify _ _).trans (if_neg fun hindex => h ?_)
    cases other
    cases handle
    exact congrArg (some ∘ Handle.mk) hindex

theorem linksAt_linkPrev_of_ne (h : next ≠ some handle) :
    linksAt (arena.linkPrev next prev).nodes handle = linksAt arena.nodes handle := by
  cases next with
  | none => rfl
  | some other =>
    refine (linksAt_modify _ _).trans (if_neg fun hindex => h ?_)
    cases other
    cases handle
    exact congrArg (some ∘ Handle.mk) hindex

/-- The last node of a strand gets a new successor. -/
theorem Strand.linkNext (strand : Strand arena.nodes before handles after) (nodup : handles.Nodup) :
    Strand (arena.linkNext handles.getLast? next).nodes before handles next := by
  rcases List.eq_nil_or_concat' handles with rfl | ⟨front, last, rfl⟩
  · trivial
  · rw [List.getLast?_concat]
    rw [List.nodup_append] at nodup
    obtain ⟨hfront, hlast, -⟩ := strand_append.mp strand
    refine strand_append.mpr ⟨hfront.frame fun handle hm => linksAt_linkNext_of_ne ?_, ?_, trivial⟩
    · exact fun he => nodup.2.2 handle hm last List.mem_cons_self (Option.some.inj he).symm
    · obtain ⟨node, hnode, hlinks⟩ := Option.map_eq_some_iff.mp hlast
      refine (linksAt_modify _ _).trans ((if_pos rfl).trans ?_)
      rw [hnode]
      cases node
      cases hlinks
      rfl

/-- The first node of a strand gets a new predecessor. -/
theorem Strand.linkPrev (strand : Strand arena.nodes before handles after) (nodup : handles.Nodup) :
    Strand (arena.linkPrev handles.head? prev).nodes prev handles after := by
  cases handles with
  | nil => trivial
  | cons first rest =>
    obtain ⟨hfirst, hrest⟩ := strand
    refine ⟨?_, hrest.frame fun handle hm => linksAt_linkPrev_of_ne fun he => ?_⟩
    · obtain ⟨node, hnode, hlinks⟩ := Option.map_eq_some_iff.mp hfirst
      refine (linksAt_modify _ _).trans ((if_pos rfl).trans ?_)
      rw [hnode]
      cases node
      cases hlinks
      rfl
    · cases he
      exact (List.nodup_cons.mp nodup).1 hm

theorem ne_of_notMem (h : handle ∉ handles) :
    handles.head? ≠ some handle ∧ handles.getLast? ≠ some handle :=
  ⟨fun he => h (List.mem_of_head? he), fun he => h (List.mem_of_getLast? he)⟩

/-- The arena after the links on either side of a middle part are written. The middle part may be
empty. -/
def splice (arena : Arena) (front middle back : List Handle) : Arena :=
  (arena.linkNext front.getLast? (middle.head?.or back.head?)).linkPrev back.head?
    (middle.getLast?.or front.getLast?)

/-- A splice joins the strands in front of the middle part and behind it with the middle part. -/
theorem Strand.splice (hfront : Strand arena.nodes none front after)
    (hmiddle : Strand arena.nodes front.getLast? middle back.head?)
    (hback : Strand arena.nodes before back none) (nodup : (front ++ middle ++ back).Nodup) :
    Strand (arena.splice front middle back).nodes none (front ++ middle ++ back) none := by
  obtain ⟨hnodup, hnodupBack, hapart⟩ := List.nodup_append.mp nodup
  obtain ⟨hnodupFront, -, hapart'⟩ := List.nodup_append.mp hnodup
  have hfrontBack : ∀ handle ∈ front ++ middle, handle ∉ back :=
    fun handle hm hm' => hapart handle hm handle hm' rfl
  have hbackFront : ∀ handle ∈ middle ++ back, handle ∉ front := by
    intro handle hm hm'
    rcases List.mem_append.mp hm with hm | hm
    · exact hapart' handle hm' handle hm rfl
    · exact hfrontBack handle (List.mem_append_left _ hm') hm
  rw [strand_append, strand_append]
  simp only [Option.or_none, List.getLast?_append]
  refine ⟨⟨?_, ?_⟩, ?_⟩
  · refine (hfront.linkNext hnodupFront).frame fun handle hm => linksAt_linkPrev_of_ne ?_
    exact (ne_of_notMem (hfrontBack handle (List.mem_append_left _ hm))).1
  · refine hmiddle.frame fun handle hm => ?_
    rw [Arena.splice,
      linksAt_linkPrev_of_ne (ne_of_notMem (hfrontBack handle (List.mem_append_right _ hm))).1,
      linksAt_linkNext_of_ne (ne_of_notMem (hbackFront handle (List.mem_append_left _ hm))).2]
  · refine (hback.frame fun handle hm => linksAt_linkNext_of_ne ?_).linkPrev hnodupBack
    exact (ne_of_notMem (hbackFront handle (List.mem_append_right _ hm))).2

/-- A splice changes the links of no other node. -/
theorem linksAt_splice (hfront : handle ∉ front) (hback : handle ∉ back) :
    linksAt (arena.splice front middle back).nodes handle = linksAt arena.nodes handle := by
  rw [splice, linksAt_linkPrev_of_ne (ne_of_notMem hback).1,
    linksAt_linkNext_of_ne (ne_of_notMem hfront).2]

/-- Links and the two ends of the stream are all that a splice changes. -/
theorem splice_fields : (arena.splice front middle back).size = arena.size ∧
    (arena.splice front middle back).handlers = arena.handlers ∧
    (arena.splice front middle back).positionsValid = arena.positionsValid ∧
    (arena.splice front middle back).nodes.size = arena.nodes.size := by
  unfold splice
  cases front.getLast? <;> cases back.head? <;> refine ⟨rfl, rfl, rfl, ?_⟩ <;>
    simp [linkNext, linkPrev, modify]

theorem head_splice (h : front ≠ [] → arena.head = front.head?) :
    (arena.splice front middle back).head = (front ++ middle ++ back).head? := by
  have hprev : ∀ (arena : Arena) (next prev : Option Handle),
      (arena.linkPrev next prev).head = arena.head := by
    intro arena next prev
    cases next <;> rfl
  rw [splice, hprev]
  rcases List.eq_nil_or_concat' front with rfl | ⟨init, last, rfl⟩
  · rw [List.nil_append, List.head?_append]
    rfl
  · have hne : init ++ [last] ≠ [] := by simp
    have hhead : (init ++ [last] ++ middle ++ back).head? = (init ++ [last]).head? := by
      rw [List.append_assoc, List.head?_append_of_ne_nil _ hne]
    rw [hhead, List.getLast?_concat]
    exact h hne

theorem tail_splice (h : back ≠ [] → arena.tail = back.getLast?) :
    (arena.splice front middle back).tail = (front ++ middle ++ back).getLast? := by
  have hnext : ∀ prev next : Option Handle, (arena.linkNext prev next).tail = arena.tail := by
    intro prev next
    cases prev <;> rfl
  cases back with
  | nil =>
    rw [List.append_nil, List.getLast?_append]
    rfl
  | cons first rest =>
    rw [List.getLast?_append_of_ne_nil _ (List.cons_ne_nil first rest)]
    exact (hnext _ _).trans (h (List.cons_ne_nil first rest))

/-! ## Representations -/

/-- The links of an arena lead through exactly these handles. Every other node is dead and has no
links. -/
structure Represents (arena : Arena) (handles : List Handle) : Prop where
  strand : Strand arena.nodes none handles none
  nodup : handles.Nodup
  head : arena.head = handles.head?
  tail : arena.tail = handles.getLast?
  size : arena.size = handles.length
  dead : ∀ handle ∉ handles, ∀ node, arena.nodes[handle.index]? = some node →
    links node = (false, none, none)

theorem represents_empty : empty.Represents [] where
  strand := trivial
  nodup := List.nodup_nil
  head := rfl
  tail := rfl
  size := rfl
  dead _ _ _ h := by cases h

/-- A representation rests on the links alone. -/
theorem Represents.of_links {other : Arena} (represents : arena.Represents handles)
    (hlinks : ∀ handle, linksAt other.nodes handle = linksAt arena.nodes handle)
    (hhead : other.head = arena.head) (htail : other.tail = arena.tail)
    (hsize : other.size = arena.size) : other.Represents handles where
  strand := represents.strand.frame fun handle _ => hlinks handle
  nodup := represents.nodup
  head := hhead.trans represents.head
  tail := htail.trans represents.tail
  size := hsize.trans represents.size
  dead handle hm node hnode := by
    have hlinks' := linksAt_of_getElem? hnode
    rw [hlinks] at hlinks'
    obtain ⟨old, hold, hlinks'⟩ := Option.map_eq_some_iff.mp hlinks'
    rw [← hlinks']
    exact represents.dead handle hm old hold

theorem Represents.node? (represents : arena.Represents handles) (hm : handle ∈ handles) :
    ∃ node, arena.node? handle = some node ∧ arena.nodes[handle.index]? = some node := by
  obtain ⟨node, hnode, hlive⟩ := represents.strand.live hm
  exact ⟨node, by rw [Arena.node?, hnode, Option.filter_some, if_pos hlive], hnode⟩

theorem Represents.node?_eq_none (represents : arena.Represents handles) (hm : handle ∉ handles) :
    arena.node? handle = none := by
  rw [Arena.node?]
  cases hnode : arena.nodes[handle.index]? with
  | none => rfl
  | some node =>
    have hlive : node.live = false := congrArg Prod.fst (represents.dead handle hm node hnode)
    rw [Option.filter_some, hlive]
    rfl

theorem Represents.lt_size (represents : arena.Represents handles) (hm : handle ∈ handles) :
    handle.index < arena.nodes.size := by
  obtain ⟨node, -, hnode⟩ := represents.node? hm
  exact (Array.getElem?_eq_some_iff.mp hnode).1

theorem Represents.head_of_ne_nil (represents : arena.Represents (front ++ back))
    (hne : front ≠ []) : arena.head = front.head? := by
  rw [represents.head, List.head?_append]
  cases front with
  | nil => exact absurd rfl hne
  | cons => rfl

theorem Represents.tail_of_ne_nil (represents : arena.Represents (front ++ back))
    (hne : back ≠ []) : arena.tail = back.getLast? := by
  rw [represents.tail, List.getLast?_append]
  cases hlast : back.getLast? with
  | none => exact absurd (List.getLast?_eq_none_iff.mp hlast) hne
  | some => rfl

/-- The links of a node in the middle of the stream. -/
theorem Represents.links_eq (represents : arena.Represents (front ++ handle :: back)) :
    ∃ node, arena.node? handle = some node ∧ arena.nodes[handle.index]? = some node ∧
      node.prev = front.getLast? ∧ node.next = back.head? := by
  obtain ⟨node, hnode?, hnode⟩ := represents.node? (show handle ∈ front ++ handle :: back by simp)
  have hlinks := (strand_append.mp represents.strand).2.1
  rw [linksAt, hnode, Option.or_none, Option.or_none] at hlinks
  exact ⟨node, hnode?, hnode, congrArg (·.2.1) (Option.some.inj hlinks),
    congrArg (·.2.2) (Option.some.inj hlinks)⟩

theorem linksAt_allocate (code : Instruction Handle) :
    linksAt (arena.allocate code prev next).2.nodes handle =
      if handle.index = arena.nodes.size then some (true, prev, next)
      else linksAt arena.nodes handle := by
  unfold linksAt allocate
  rw [Array.getElem?_push]
  split <;> rfl

theorem allocate_fst (room : arena.nodes.size < 4294967296) (code : Instruction Handle) :
    (arena.allocate code prev next).1 = ⟨arena.nodes.size⟩ :=
  congrArg Handle.mk (Nat.min_eq_left (by omega))

/-- A new node goes between two neighbours. -/
theorem Represents.insertBetween (represents : arena.Represents (front ++ back))
    (room : arena.nodes.size < 4294967296) (code : Instruction Handle) :
    (arena.insertBetween front.getLast? back.head? code).1 = ⟨arena.nodes.size⟩ ∧
      (arena.insertBetween front.getLast? back.head? code).2.Represents
        (front ++ ⟨arena.nodes.size⟩ :: back) := by
  have hnew : ∀ handle ∈ front ++ back, handle.index ≠ arena.nodes.size :=
    fun handle hm => Nat.ne_of_lt (represents.lt_size hm)
  unfold Arena.insertBetween
  dsimp only
  rw [allocate_fst room]
  refine ⟨rfl, ?_⟩
  obtain ⟨fresh, hfresh⟩ : ∃ fresh : Handle, fresh = ⟨arena.nodes.size⟩ := ⟨_, rfl⟩
  have hindex : fresh.index = arena.nodes.size := congrArg Handle.index hfresh
  rw [← hfresh]
  have hsplit : front ++ [fresh] ++ back = front ++ fresh :: back := by simp
  have nodup : (front ++ [fresh] ++ back).Nodup := by
    rw [hsplit, List.nodup_middle, List.nodup_cons]
    exact ⟨fun hm => hnew fresh hm hindex, represents.nodup⟩
  have hold : ∀ handle ∈ front ++ back,
      linksAt (arena.allocate code front.getLast? back.head?).2.nodes handle =
        linksAt arena.nodes handle :=
    fun handle hm => (linksAt_allocate code).trans (if_neg (hnew handle hm))
  obtain ⟨hfront, hback⟩ := strand_append.mp represents.strand
  replace hfront := hfront.frame fun handle hm => hold handle (List.mem_append_left _ hm)
  replace hback := hback.frame fun handle hm => hold handle (List.mem_append_right _ hm)
  have hmiddle : Strand (arena.allocate code front.getLast? back.head?).2.nodes front.getLast?
      [fresh] back.head? := ⟨(linksAt_allocate code).trans (if_pos hindex), trivial⟩
  rw [← hsplit]
  change ((arena.allocate code front.getLast? back.head?).2.splice front [fresh] back).Represents _
  refine ⟨hfront.splice hmiddle hback nodup, nodup, head_splice represents.head_of_ne_nil,
    tail_splice represents.tail_of_ne_nil, ?_, ?_⟩
  · rw [splice_fields.1]
    change arena.size + 1 = _
    simp [represents.size]
    omega
  · intro handle hm node hnode
    simp only [List.mem_append, List.mem_singleton, not_or] at hm
    have hlinks := linksAt_of_getElem? hnode
    have hne : handle.index ≠ arena.nodes.size := fun he =>
      hm.1.2 (hfresh ▸ congrArg Handle.mk he)
    rw [linksAt_splice hm.1.1 hm.2, linksAt_allocate, if_neg hne] at hlinks
    obtain ⟨old, hold, hlinks⟩ := Option.map_eq_some_iff.mp hlinks
    rw [← hlinks]
    exact represents.dead handle (by simp [hm.1.1, hm.2]) old hold

/-! ## Deletions -/

theorem modifyAll_eq (arena : Arena) (handles : List Handle) (change : Node → Node) :
    arena.modifyAll handles change =
      { arena with nodes := (arena.modifyAll handles change).nodes } := by
  induction handles generalizing arena with
  | nil => rfl
  | cons handle rest ih => exact ih (arena.modify handle change)

theorem size_modifyAll (arena : Arena) (handles : List Handle) (change : Node → Node) :
    (arena.modifyAll handles change).nodes.size = arena.nodes.size := by
  induction handles generalizing arena with
  | nil => rfl
  | cons handle rest ih => exact (ih (arena.modify handle change)).trans Array.size_modify

/-- A change that is made once or more often has the same effect. -/
theorem getElem?_modifyAll {change : Node → Node}
    (again : ∀ node, change (change node) = change node)
    (arena : Arena) (handles : List Handle) (handle : Handle) :
    (arena.modifyAll handles change).nodes[handle.index]? =
      if handle ∈ handles then arena.nodes[handle.index]?.map change
      else arena.nodes[handle.index]? := by
  induction handles generalizing arena with
  | nil => rfl
  | cons first rest ih =>
    have hfirst : (arena.modify first change).nodes[handle.index]? =
        if first = handle then arena.nodes[handle.index]?.map change
        else arena.nodes[handle.index]? := by
      have hindex : first.index = handle.index ↔ first = handle := by
        cases first
        cases handle
        simp
      simp only [modify, Array.getElem?_modify, hindex]
    refine (ih _).trans ?_
    rw [hfirst]
    by_cases he : first = handle
    · subst he
      simp [Function.comp_def, again]
    · simp [he, Ne.symm he]

theorem Represents.prev?_eq (represents : arena.Represents (front ++ handle :: back)) :
    arena.prev? handle = front.getLast? := by
  obtain ⟨node, hnode, -, hprev, -⟩ := represents.links_eq
  rw [Arena.prev?, hnode, Option.bind_some, hprev]

theorem Represents.next?_eq (represents : arena.Represents (front ++ handle :: back)) :
    arena.next? handle = back.head? := by
  obtain ⟨node, hnode, -, -, hnext⟩ := represents.links_eq
  rw [Arena.next?, hnode, Option.bind_some, hnext]

theorem Represents.unlink_eq {segment : List Handle} {start stop : Handle}
    (represents : arena.Represents (front ++ segment ++ back))
    (hstart : segment.head? = some start) (hstop : segment.getLast? = some stop) :
    arena.unlink start stop segment =
      { (arena.splice front [] back).modifyAll segment Node.retired with
        size := arena.size - segment.length
        positionsValid := false } := by
  have hprev : arena.prev? start = front.getLast? := by
    obtain ⟨rest, rfl⟩ := List.head?_eq_some_iff.mp hstart
    rw [List.append_assoc, List.cons_append] at represents
    exact represents.prev?_eq
  have hnext : arena.next? stop = back.head? := by
    obtain ⟨init, rfl⟩ := List.getLast?_eq_some_iff.mp hstop
    rw [← List.append_assoc, List.append_assoc, List.singleton_append] at represents
    exact represents.next?_eq
  have hsize : ((arena.splice front [] back).modifyAll segment Node.retired).size = arena.size := by
    rw [modifyAll_eq]
    exact splice_fields.1
  rw [← hsize, Arena.unlink, hprev, hnext]
  rfl

/-- A segment is taken out and its neighbours are joined. -/
theorem Represents.unlink {segment : List Handle} {start stop : Handle}
    (represents : arena.Represents (front ++ segment ++ back))
    (hstart : segment.head? = some start) (hstop : segment.getLast? = some stop) :
    (arena.unlink start stop segment).Represents (front ++ back) := by
  obtain ⟨hnodup, hnodupBack, hapart⟩ := List.nodup_append.mp represents.nodup
  obtain ⟨hnodupFront, -, hapart'⟩ := List.nodup_append.mp hnodup
  have nodup : (front ++ back).Nodup := List.nodup_append.mpr ⟨hnodupFront, hnodupBack,
    fun handle hm => hapart handle (List.mem_append_left _ hm)⟩
  have hkept : ∀ handle ∈ front ++ back, handle ∉ segment := by
    intro handle hm hm'
    rcases List.mem_append.mp hm with hm | hm
    · exact hapart' handle hm handle hm' rfl
    · exact hapart handle (List.mem_append_right _ hm') handle hm rfl
  have represents' : arena.Represents (front ++ (segment ++ back)) := by
    rwa [← List.append_assoc]
  have hsplit := strand_append.mp represents.strand
  have hmiddle : Strand arena.nodes front.getLast? [] back.head? := trivial
  have hstrand := (strand_append.mp hsplit.1).1.splice hmiddle hsplit.2 (by rwa [List.append_nil])
  have hhead : (arena.splice front [] back).head = _ := head_splice represents'.head_of_ne_nil
  have htail : (arena.splice front [] back).tail = _ := tail_splice represents.tail_of_ne_nil
  rw [List.append_nil] at hstrand hhead htail
  have hretired : ∀ node : Node, node.retired.retired = node.retired := fun _ => rfl
  rw [represents.unlink_eq hstart hstop, modifyAll_eq]
  refine ⟨hstrand.frame fun handle hm => ?_, nodup, hhead, htail, ?_,
    fun handle hm node hnode => ?_⟩
  · unfold linksAt
    rw [getElem?_modifyAll hretired, if_neg (hkept handle hm)]
  · change arena.size - segment.length = _
    rw [represents.size]
    simp only [List.length_append]
    omega
  · rw [getElem?_modifyAll hretired] at hnode
    split at hnode
    case isTrue =>
      obtain ⟨old, -, rfl⟩ := Option.map_eq_some_iff.mp hnode
      rfl
    case isFalse hseg =>
      have hlinks := linksAt_of_getElem? hnode
      simp only [List.mem_append, not_or] at hm
      rw [linksAt_splice hm.1 hm.2] at hlinks
      obtain ⟨old, hold, hlinks⟩ := Option.map_eq_some_iff.mp hlinks
      rw [← hlinks]
      exact represents.dead handle (by simp [hm.1, hm.2, hseg]) old hold

end Arena

end BytecodeFold
