import BytecodeFold.Proofs.Arena.Listing
import BytecodeFold.Proofs.Listing.Sequence

/-!
# Edits of an arena

Every edit does to an arena what it does to the listing of the arena, gives the same answer, and
leaves the links in order. A call that is refused has changed nothing by then.
-/

namespace BytecodeFold

/-- A new line between two parts of a stream. -/
theorem Listing.insertAt_eq {listing : Listing} {before after : List Line}
    (h : listing.lines.toList = before ++ after) (code : Instruction Handle) :
    listing.insertAt before.length code = (⟨listing.fresh⟩,
      ⟨(before ++ ⟨⟨listing.fresh⟩, code, false⟩ :: after).toArray, listing.fresh + 1,
        listing.handlers, false⟩) := by
  have hlines := listing.toList_insertAt before.length code
  rw [h, List.take_left, List.drop_left] at hlines
  rw [← hlines]
  rfl

theorem Listing.append_eq (listing : Listing) (code : Instruction Handle) :
    listing.append code = listing.insertAt listing.lines.size code := by
  simp [append, insertAt]

namespace Arena

/-- Makes a call on an arena: what it gives back, and the arena after it. -/
def apply (arena : Arena) : Operation → Except Error Answer × Arena
  | .append code => (arena.append code).map (.ok ∘ .inserted) id
  | .insertBefore handle code => (arena.insertBefore handle code).map (·.map .inserted) id
  | .insertAfter handle code => (arena.insertAfter handle code).map (·.map .inserted) id
  | .set handle code => (arena.set handle code).map (·.map .replaced) id
  | .delete handle => (arena.delete handle).map (·.map fun _ => .done) id
  | .deleteRange start stop => (arena.deleteRange start stop).map (·.map fun _ => .done) id
  | .addHandler entry => (arena.addHandler entry).map (·.map fun _ => .done) id
  | .layout => arena.layout.map (·.map fun length => .length length.toNat) id

end Arena

/-- An arena with the handles that were given out on the way to it. -/
structure History where
  arena : Arena
  issued : List Handle

namespace History

def step (history : History) (operation : Operation) : History :=
  let (answer, arena) := history.arena.apply operation
  ⟨arena, history.issued ++ Answer.issued answer⟩

/-- Makes calls one after another, starting from the empty arena. -/
def run (operations : List Operation) : History := operations.foldl step ⟨.empty, []⟩

/-- What holds of the empty arena and is kept by every call holds after any calls. -/
theorem run_induction {P : History → Prop} (empty : P ⟨.empty, []⟩)
    (step : ∀ history operation, P history → P (history.step operation))
    (operations : List Operation) : P (run operations) := by
  suffices h : ∀ history, P history → P (operations.foldl History.step history) from h _ empty
  induction operations with
  | nil => exact fun _ h => h
  | cons operation operations ih => exact fun history h => ih _ (step history operation h)

end History

namespace Arena

/-- A call gives the same answer and has the same effect on an arena and on its listing. -/
structure Mirrors (arena : Arena) (operation : Operation) : Prop where
  answer : (arena.apply operation).1 = (arena.listing.apply operation).1
  listing : (arena.apply operation).2.listing = (arena.listing.apply operation).2
  links : ∃ handles, (arena.apply operation).2.Represents handles

variable {arena : Arena} {nodes : Array Node} {handle start stop : Handle}
  {prev next : Option Handle} {handles front middle segment back : List Handle}

theorem lineAt_modify {change : Node → Node}
    (same : ∀ node, (change node).line handle = node.line handle) (index : Nat) :
    lineAt (nodes.modify index change) handle = lineAt nodes handle := by
  unfold lineAt
  rw [Array.getElem?_modify]
  split
  · rw [Option.map_map]
    exact congrArg (Option.map · _) (funext same)
  · rfl

/-- Links are not part of a line. -/
theorem lineAt_splice : lineAt (arena.splice front middle back).nodes handle =
    lineAt arena.nodes handle := by
  have hnext : ∀ prev next : Option Handle,
      lineAt (arena.linkNext prev next).nodes handle = lineAt arena.nodes handle := by
    intro prev next
    cases prev with
    | none => rfl
    | some other =>
      refine lineAt_modify (fun node => ?_) _
      rfl
  have hprev : ∀ (arena : Arena) (next prev : Option Handle),
      lineAt (arena.linkPrev next prev).nodes handle = lineAt arena.nodes handle := by
    intro arena next prev
    cases next with
    | none => rfl
    | some other =>
      refine lineAt_modify (fun node => ?_) _
      rfl
  rw [splice, hprev, hnext]

theorem lineAt_allocate (code : Instruction Handle) :
    lineAt (arena.allocate code prev next).2.nodes handle =
      if handle.index = arena.nodes.size then some ⟨handle, code, false⟩
      else lineAt arena.nodes handle := by
  unfold lineAt allocate
  rw [Array.getElem?_push]
  split <;> rfl

theorem Represents.listing_eq (represents : arena.Represents handles) :
    arena.listing = ⟨(handles.filterMap (lineAt arena.nodes)).toArray, arena.nodes.size,
      arena.handlers, arena.positionsValid⟩ := by
  rw [← represents.lines_eq]
  rfl

/-! ## Insertions -/

theorem Represents.listing_insertBetween (represents : arena.Represents (front ++ back))
    (room : arena.nodes.size < 4294967296) (code : Instruction Handle) :
    (arena.insertBetween front.getLast? back.head? code).map id Arena.listing =
      arena.listing.insertAt front.length code := by
  obtain ⟨hhandle, hinserted⟩ := represents.insertBetween room code
  have hresult : (arena.insertBetween front.getLast? back.head? code).2 =
      (arena.allocate code front.getLast? back.head?).2.splice front [⟨arena.nodes.size⟩] back := by
    unfold Arena.insertBetween
    dsimp only
    rw [allocate_fst room]
    rfl
  have hold : ∀ part : List Handle, (∀ handle ∈ part, handle ∈ front ++ back) →
      part.filterMap (lineAt (arena.insertBetween front.getLast? back.head? code).2.nodes) =
        part.filterMap (lineAt arena.nodes) := by
    intro part hpart
    refine List.filterMap_congr fun handle hm => ?_
    rw [hresult, lineAt_splice, lineAt_allocate,
      if_neg (Nat.ne_of_lt (represents.lt_size (hpart handle hm)))]
  have hnew : lineAt (arena.insertBetween front.getLast? back.head? code).2.nodes
      ⟨arena.nodes.size⟩ = some ⟨⟨arena.nodes.size⟩, code, false⟩ := by
    rw [hresult, lineAt_splice, lineAt_allocate, if_pos rfl]
  have hlength : front.length = (front.filterMap (lineAt arena.nodes)).length := by
    conv => lhs; rw [← represents.map_handle fun handle hm => List.mem_append_left back hm]
    rw [List.length_map]
  rw [hlength, Listing.insertAt_eq (by rw [represents.lines_eq, List.filterMap_append])]
  refine Prod.ext hhandle ?_
  change (arena.insertBetween front.getLast? back.head? code).2.listing = _
  rw [hinserted.listing_eq, List.filterMap_append, List.filterMap_cons, hnew,
    hold front fun handle hm => List.mem_append_left _ hm,
    hold back fun handle hm => List.mem_append_right _ hm, hresult]
  simp only [splice_fields]
  simp [allocate, listing]

theorem Represents.size_lines (represents : arena.Represents handles) :
    arena.listing.lines.size = handles.length := by
  have hlength := congrArg List.length represents.handles_eq
  rwa [Listing.handles, List.length_map, Array.length_toList] at hlength

theorem Represents.indexOf?_listing (represents : arena.Represents (front ++ handle :: back)) :
    arena.listing.indexOf? handle = some front.length := by
  obtain ⟨node, -, -, -, cut⟩ := represents.cut
  have hlength : (front.filterMap (lineAt arena.nodes)).length = front.length := by
    rw [← List.length_map Line.handle, represents.map_handle fun handle hm => by simp [hm]]
  rw [← hlength]
  exact cut.indexOf? represents.distinct

theorem Represents.indexOf?_eq_none (represents : arena.Represents handles)
    (hm : handle ∉ handles) : arena.listing.indexOf? handle = none :=
  Listing.indexOf?_eq_none (by rwa [represents.handles_eq])

theorem Represents.mirrors_inserted (represents : arena.Represents (front ++ back))
    (room : arena.nodes.size < 4294967296) (code : Instruction Handle) {operation : Operation}
    (harena : arena.apply operation =
      (arena.insertBetween front.getLast? back.head? code).map (.ok ∘ .inserted) id)
    (hlisting : arena.listing.apply operation =
      (arena.listing.insertAt front.length code).map (.ok ∘ .inserted) id) :
    arena.Mirrors operation := by
  rw [← represents.listing_insertBetween room code] at hlisting
  refine ⟨?_, ?_, front ++ ⟨arena.nodes.size⟩ :: back, ?_⟩
  · rw [harena, hlisting]
    rfl
  · rw [harena, hlisting]
    rfl
  · rw [harena]
    exact (represents.insertBetween room code).2

/-- A call that is refused at once leaves both as they were. -/
theorem Represents.mirrors_refused (represents : arena.Represents handles) {operation : Operation}
    {e : Error} (harena : arena.apply operation = (.error e, arena))
    (hlisting : arena.listing.apply operation = (.error e, arena.listing)) :
    arena.Mirrors operation := by
  refine ⟨?_, ?_, handles, ?_⟩
  · rw [harena, hlisting]
  · rw [harena, hlisting]
  · rw [harena]
    exact represents

theorem Represents.mirrors_append (represents : arena.Represents handles)
    (room : arena.nodes.size < 4294967296) (code : Instruction Handle) :
    arena.Mirrors (.append code) := by
  have represents' : arena.Represents (handles ++ []) := by rwa [List.append_nil]
  refine represents'.mirrors_inserted room code ?_ ?_
  · rw [← represents.tail]
    rfl
  · rw [← represents.size_lines, ← Listing.append_eq]
    rfl

theorem Represents.mirrors_insertBefore (represents : arena.Represents handles)
    (room : arena.nodes.size < 4294967296) (handle : Handle) (code : Instruction Handle) :
    arena.Mirrors (.insertBefore handle code) := by
  by_cases hm : handle ∈ handles
  · obtain ⟨front, back, rfl⟩ := List.append_of_mem hm
    obtain ⟨node, hnode, -, hprev, -⟩ := represents.links_eq
    refine represents.mirrors_inserted room code ?_ ?_
    · rw [apply, Arena.insertBefore, hnode, ← hprev]
      rfl
    · rw [Listing.apply, Listing.insertBefore, represents.indexOf?_listing]
      rfl
  · refine represents.mirrors_refused (e := .invalidHandle handle) ?_ ?_
    · rw [apply, Arena.insertBefore, represents.node?_eq_none hm]
      rfl
    · rw [Listing.apply, Listing.insertBefore, represents.indexOf?_eq_none hm]
      rfl

theorem Represents.mirrors_insertAfter (represents : arena.Represents handles)
    (room : arena.nodes.size < 4294967296) (handle : Handle) (code : Instruction Handle) :
    arena.Mirrors (.insertAfter handle code) := by
  by_cases hm : handle ∈ handles
  · obtain ⟨front, back, rfl⟩ := List.append_of_mem hm
    obtain ⟨node, hnode, -, -, hnext⟩ := represents.links_eq
    have represents' : arena.Represents (front ++ [handle] ++ back) := by simpa using represents
    refine represents'.mirrors_inserted room code ?_ ?_
    · rw [apply, Arena.insertAfter, hnode, ← hnext, List.getLast?_concat]
      rfl
    · rw [Listing.apply, Listing.insertAfter, represents.indexOf?_listing]
      simp only [List.length_append, List.length_singleton]
      rfl
  · refine represents.mirrors_refused (e := .invalidHandle handle) ?_ ?_
    · rw [apply, Arena.insertAfter, represents.node?_eq_none hm]
      rfl
    · rw [Listing.apply, Listing.insertAfter, represents.indexOf?_eq_none hm]
      rfl

/-! ## Replacements and exception handlers -/

theorem Represents.mirrors_set (represents : arena.Represents handles) (handle : Handle)
    (code : Instruction Handle) : arena.Mirrors (.set handle code) := by
  by_cases hm : handle ∈ handles
  · obtain ⟨front, back, rfl⟩ := List.append_of_mem hm
    obtain ⟨node, hnode, -, -, cut⟩ := represents.cut
    have hnode' := nodes_of_node? hnode
    have harena : arena.apply (.set handle code) = (.ok (.replaced node.instruction),
        { arena.modify handle ({ · with instruction := code, long := false }) with
          positionsValid := false }) := by
      rw [apply, Arena.set, hnode]
      rfl
    have hlisting : arena.listing.apply (.set handle code) = (.ok (.replaced node.instruction),
        { arena.listing with
          lines := (front.filterMap (lineAt arena.nodes) ++ ⟨handle, code, false⟩ ::
            back.filterMap (lineAt arena.nodes)).toArray
          laidOut := false }) := by
      have hset : arena.listing.set handle code = _ := cut.set_eq represents.distinct code
      rw [Listing.apply, hset]
      rfl
    have hresult : (arena.apply (.set handle code)).2.Represents (front ++ handle :: back) := by
      rw [harena]
      refine represents.of_links (fun other => ?_) rfl rfl rfl
      refine (linksAt_modify _ _).trans ?_
      split
      · rfl
      · rfl
    have hlines : ∀ other, lineAt (arena.apply (.set handle code)).2.nodes other =
        if handle = other then some ⟨handle, code, false⟩ else lineAt arena.nodes other := by
      intro other
      rw [harena]
      change lineAt (arena.nodes.modify handle.index _) other = _
      by_cases he : handle = other
      · subst he
        rw [if_pos rfl, lineAt, Array.getElem?_modify, if_pos rfl, hnode']
        rfl
      · have hne : handle.index ≠ other.index :=
          fun hi => he (by cases handle; cases other; cases hi; rfl)
        rw [if_neg he, lineAt, Array.getElem?_modify, if_neg hne]
        rfl
    have hnodup := represents.nodup
    rw [List.nodup_middle, List.nodup_cons, List.mem_append, not_or] at hnodup
    have hother : ∀ part : List Handle, handle ∉ part →
        part.filterMap (lineAt (arena.apply (.set handle code)).2.nodes) =
          part.filterMap (lineAt arena.nodes) := by
      intro part hpart
      refine List.filterMap_congr fun other hm => ?_
      rw [hlines, if_neg]
      rintro rfl
      exact hpart hm
    refine ⟨by rw [harena, hlisting], ?_, _, hresult⟩
    rw [hresult.listing_eq, List.filterMap_append, List.filterMap_cons, hlines, if_pos rfl,
      hother front hnodup.1.1, hother back hnodup.1.2, harena, hlisting]
    simp [listing, modify]
  · refine represents.mirrors_refused (e := .invalidHandle handle) ?_ ?_
    · rw [apply, Arena.set, represents.node?_eq_none hm]
      rfl
    · rw [Listing.apply, Listing.set, Listing.get?_eq_none (by rwa [represents.handles_eq])]
      rfl

theorem Represents.mirrors_addHandler (represents : arena.Represents handles)
    (entry : ExceptionHandler) : arena.Mirrors (.addHandler entry) := by
  have hmissing := represents.firstMissing?_listing entry.handles
  cases h : arena.firstMissing? entry.handles with
  | some missing =>
    rw [h] at hmissing
    refine represents.mirrors_refused (e := .invalidHandle missing) ?_ ?_
    · rw [apply, Arena.addHandler, h]
      rfl
    · rw [Listing.apply, Listing.addHandler, hmissing]
      rfl
  | none =>
    rw [h] at hmissing
    have harena : arena.apply (.addHandler entry) =
        (.ok .done, { arena with handlers := arena.handlers.push entry }) := by
      rw [apply, Arena.addHandler, h]
      rfl
    have hlisting : arena.listing.apply (.addHandler entry) =
        (.ok .done, { arena.listing with handlers := arena.listing.handlers.push entry }) := by
      rw [Listing.apply, Listing.addHandler, hmissing]
      rfl
    have hresult : (arena.apply (.addHandler entry)).2.Represents handles := by
      rw [harena]
      exact represents.of_links (fun _ => rfl) rfl rfl rfl
    refine ⟨by rw [harena, hlisting], ?_, _, hresult⟩
    rw [hresult.listing_eq, harena, hlisting, represents.listing_eq]

/-! ## Deletions -/

theorem Represents.exists_segment (represents : arena.Represents (front ++ segment ++ back))
    (hstart : segment.head? = some start) (hstop : segment.getLast? = some stop) :
    ∃ first last, first.handle = start ∧ last.handle = stop ∧
      arena.listing.Segment (front.filterMap (lineAt arena.nodes))
        (segment.filterMap (lineAt arena.nodes))
        (back.filterMap (lineAt arena.nodes)) first last := by
  have hhandles : (segment.filterMap (lineAt arena.nodes)).map (·.handle) = segment :=
    represents.map_handle fun handle hm => by simp [hm]
  rw [← hhandles, List.head?_map, Option.map_eq_some_iff] at hstart
  rw [← hhandles, List.getLast?_map, Option.map_eq_some_iff] at hstop
  obtain ⟨first, hfirst, rfl⟩ := hstart
  obtain ⟨last, hlast, rfl⟩ := hstop
  refine ⟨first, last, rfl, rfl, ?_, hfirst, hlast⟩
  rw [represents.lines_eq, List.filterMap_append, List.filterMap_append]

theorem Represents.range_listing (represents : arena.Represents handles) (start stop : Handle) :
    arena.listing.range start stop = arena.range start stop := by
  have hmissing := represents.firstMissing?_listing [start, stop]
  cases h : arena.firstMissing? [start, stop] with
  | some missing =>
    rw [h] at hmissing
    rw [Listing.range, Arena.range, h, hmissing]
  | none =>
    rw [h] at hmissing
    have hlive := Listing.live_of_firstMissing?_eq_none hmissing
    rw [represents.handles_eq] at hlive
    obtain ⟨front, back, rfl⟩ := List.append_of_mem (hlive start (by simp))
    have hnodup := List.nodup_append.mp represents.nodup
    rw [Arena.range, h]
    dsimp only
    rcases List.mem_append.mp (hlive stop (by simp)) with hstop | hstop
    · obtain ⟨node, -, -, -, cut⟩ := represents.cut
      have hbehind : stop ∉ start :: back := fun hm => hnodup.2.2 stop hstop stop hm rfl
      have hthrough := represents.through?_eq_none hbehind arena.nodes.size
      rw [List.head?_cons] at hthrough
      rw [hthrough]
      refine cut.range_reversed represents.distinct ?_
      rwa [represents.map_handle fun handle hm => List.mem_append_left _ hm]
    · obtain ⟨init, rest, hsplit⟩ := List.append_of_mem hstop
      have hlast : (init ++ [stop]).getLast? = some stop := List.getLast?_concat
      have hhead : (init ++ [stop]).head? = some start := by
        have hhead := congrArg List.head? hsplit
        rw [List.head?_cons, List.head?_append] at hhead
        rw [hhead, List.head?_append]
        rfl
      rw [hsplit, ← List.singleton_append, ← List.append_assoc init, ← List.append_assoc]
        at represents
      have henough : (init ++ [stop]).length ≤ arena.nodes.size := by
        have hle := represents.length_le
        rw [List.length_append, List.length_append] at hle
        omega
      obtain ⟨first, last, hfirst, hlast', hsegment⟩ := represents.exists_segment hhead hlast
      have hrange := hsegment.range_eq represents.distinct
      rw [hfirst, hlast', represents.map_handle fun handle hm =>
        List.mem_append_left _ (List.mem_append_right _ hm)] at hrange
      rw [represents.through?_eq hhead hlast henough, hrange]

/-- A range of live handles is a stretch of the stream. -/
theorem Represents.split_range (represents : arena.Represents handles)
    (h : arena.range start stop = .ok segment) : ∃ front back, handles = front ++ segment ++ back ∧
      segment.head? = some start ∧ segment.getLast? = some stop := by
  rw [← represents.range_listing] at h
  have hrefines := Listing.range_refines represents.distinct start stop
  rw [h] at hrefines
  cases hrefines with
  | @stretch before middle after hstretch =>
    refine ⟨before.map (·.1), after.map (·.1), ?_, ?_, ?_⟩
    · rw [← represents.handles_eq, ← Listing.handles_sequence, Sequence.handles, hstretch.pairs_eq,
        List.map_append, List.map_append]
    · rw [List.head?_map]
      exact hstretch.first
    · rw [List.getLast?_map]
      exact hstretch.last

theorem lineAt_modifyAll {change : Node → Node}
    (same : ∀ node, (change node).line handle = node.line handle) (arena : Arena)
    (handles : List Handle) :
    lineAt (arena.modifyAll handles change).nodes handle = lineAt arena.nodes handle := by
  induction handles generalizing arena with
  | nil => rfl
  | cons first rest ih => exact (ih _).trans (lineAt_modify same _)

theorem Represents.listing_unlink (represents : arena.Represents (front ++ segment ++ back))
    (hstart : segment.head? = some start) (hstop : segment.getLast? = some stop) :
    (arena.unlink start stop segment).listing = { arena.listing with
      lines := (front.filterMap (lineAt arena.nodes) ++ back.filterMap (lineAt arena.nodes)).toArray
      laidOut := false } := by
  have hlines : lineAt (arena.unlink start stop segment).nodes = lineAt arena.nodes := by
    funext handle
    rw [represents.unlink_eq hstart hstop]
    refine (lineAt_modifyAll (fun node => ?_) _ _).trans lineAt_splice
    rfl
  rw [(represents.unlink hstart hstop).listing_eq, hlines, List.filterMap_append,
    represents.unlink_eq hstart hstop, modifyAll_eq]
  simp only [size_modifyAll, splice_fields]
  rfl

theorem Represents.mirrors_deleteRange (represents : arena.Represents handles)
    (start stop : Handle) : arena.Mirrors (.deleteRange start stop) := by
  have hrange := represents.range_listing start stop
  cases h : arena.range start stop with
  | error e =>
    rw [h] at hrange
    refine represents.mirrors_refused (e := e) ?_ ?_
    · rw [apply, Arena.deleteRange, h]
      rfl
    · rw [Listing.apply, Listing.deleteRange, hrange]
      rfl
  | ok segment =>
    rw [h] at hrange
    cases hfound : arena.listing.externalReferrer? segment with
    | some found =>
      refine represents.mirrors_refused (e := .danglingTarget found.1 found.2) ?_ ?_
      · rw [apply, Arena.deleteRange, h]
        dsimp only
        rw [hfound]
        rfl
      · simp only [Listing.apply, Listing.deleteRange, hrange, Outcome.ok_bind, hfound]
        rfl
    | none =>
      obtain ⟨front, back, rfl, hstart, hstop⟩ := represents.split_range h
      obtain ⟨first, last, rfl, rfl, hsegment⟩ := represents.exists_segment hstart hstop
      have hhandles : (segment.filterMap (lineAt arena.nodes)).map (·.handle) = segment :=
        represents.map_handle fun handle hm => List.mem_append_left _ (List.mem_append_right _ hm)
      have hdelete := hsegment.deleteRange_of_unreferenced represents.distinct
        (Listing.externalReferrer?_eq_none.mp (by rwa [hhandles]))
      have harena : arena.apply (.deleteRange first.handle last.handle) =
          (.ok .done, arena.unlink first.handle last.handle segment) := by
        rw [apply, Arena.deleteRange, h]
        dsimp only
        rw [hfound]
        rfl
      have hlisting : arena.listing.apply (.deleteRange first.handle last.handle) = (.ok .done,
          { arena.listing with
            lines := (front.filterMap (lineAt arena.nodes) ++
              back.filterMap (lineAt arena.nodes)).toArray
            laidOut := false }) := by
        rw [Listing.apply, hdelete]
        rfl
      refine ⟨by rw [harena, hlisting], ?_, front ++ back, ?_⟩
      · rw [harena, hlisting]
        exact represents.listing_unlink hstart hstop
      · rw [harena]
        exact represents.unlink hstart hstop

theorem Represents.mirrors_delete (represents : arena.Represents handles) (handle : Handle) :
    arena.Mirrors (.delete handle) := by
  obtain ⟨answer, listing, links⟩ := represents.mirrors_deleteRange handle handle
  exact ⟨answer, listing, links⟩

end Arena

end BytecodeFold
