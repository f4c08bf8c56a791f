import BytecodeFold.Proofs.Arena.Positions

/-!
# Layout of an arena and of its listing

While the links of an arena are in order, a layout goes through the same rounds as the layout of its
listing. Words do not get in the way: a sum of sizes overflows exactly if the code does not fit
into `2 ^ 32` bytes, and then neither layout succeeds.
-/

namespace BytecodeFold

namespace Arena

variable {arena laid : Arena} {nodes : Array Node} {handle : Handle} {node : Node}
  {before : Option Handle} {handles : List Handle} {offset length : UInt32}

/-! ## Placing -/

theorem linksAt_written (nodes : Array Node) (index : Nat) (offset : UInt32) (handle : Handle) :
    linksAt (nodes.modify index ({ · with position := offset })) handle = linksAt nodes handle :=
  map_getElem?_of_unplaced (map_unplaced_modify nodes index offset) (fun _ => rfl) handle.index

theorem lineAt_written (nodes : Array Node) (index : Nat) (offset : UInt32) :
    lineAt (nodes.modify index ({ · with position := offset })) = lineAt nodes := by
  funext handle
  exact map_getElem?_of_unplaced (map_unplaced_modify nodes index offset)
    (fun _ => rfl) handle.index

/-- A node of a strand with its line and its successor. -/
theorem Strand.first {rest : List Handle} (strand : Strand nodes before (handle :: rest) none) :
    ∃ node, nodes[handle.index]? = some node ∧ node.next = rest.head? ∧
      lineAt nodes handle = some (node.line handle) := by
  obtain ⟨node, hnode, hlinks⟩ := Option.map_eq_some_iff.mp strand.1
  refine ⟨node, hnode, (congrArg (·.2.2) hlinks).trans Option.or_none, ?_⟩
  rw [lineAt, hnode]
  rfl

/-- A walk along a strand gives the length of its lines, if that is a word. -/
theorem Strand.placeFrom_fst (strand : Strand nodes before handles none) (offset : UInt32) :
    (placeFrom nodes offset handles.head?).1 =
      checkedWord (Listing.lengthFrom offset.toNat (handles.filterMap (lineAt nodes))) := by
  induction handles generalizing nodes before offset with
  | nil =>
    rw [List.head?_nil, placeFrom]
    exact (checkedWord_toNat offset).symm
  | cons handle rest ih =>
    obtain ⟨node, hnode, hnext, hline⟩ := strand.first
    rw [List.head?_cons, List.filterMap_cons, hline, placeFrom]
    simp only [hnode]
    rw [Listing.lengthFrom]
    split
    case h_1 e hstep =>
      rw [Instruction.wordEnd_eq] at hstep
      have hlong : 4294967296 ≤ offset.toNat + node.instruction.size offset.toNat node.long := by
        by_contra hshort
        rw [checkedWord, if_pos (by omega)] at hstep
        cases hstep
      have hle := Listing.le_lengthFrom
        (offset.toNat + node.instruction.size offset.toNat node.long)
        (rest.filterMap (lineAt nodes))
      rw [checkedWord_of_le hlong] at hstep
      cases hstep
      exact (checkedWord_of_le (Nat.le_trans hlong hle)).symm
    case h_2 next hstep =>
      rw [Instruction.wordEnd_eq, checkedWord_eq_ok] at hstep
      have hrest := strand.2.frame fun other _ => linksAt_written nodes handle.index offset other
      rw [hnext, ih hrest next, hstep, lineAt_written]
      rfl

theorem Represents.place (represents : arena.Represents handles) :
    arena.place.2.Represents handles := by
  rw [place_snd]
  refine represents.of_links (fun handle => ?_) rfl rfl rfl
  exact map_getElem?_of_unplaced (map_unplaced_placeFrom _ _ _) (fun _ => rfl) handle.index

theorem Represents.listing_place (represents : arena.Represents handles) :
    arena.place.2.listing = arena.listing := by
  have hlines : lineAt (placeFrom arena.nodes 0 arena.head).2 = lineAt arena.nodes := by
    funext handle
    exact map_getElem?_of_unplaced (map_unplaced_placeFrom _ _ _) (fun _ => rfl) handle.index
  have hsize : (placeFrom arena.nodes 0 arena.head).2.size = arena.nodes.size := by
    have hsame := congrArg Array.size (map_unplaced_placeFrom arena.nodes 0 arena.head)
    simpa only [Array.size_map] using hsame
  rw [represents.place.listing_eq, represents.listing_eq, place_snd]
  dsimp only
  rw [hlines, hsize]

/-- What a round does first: it places the lines and looks at their length. -/
theorem Represents.place_fst (represents : arena.Represents handles) :
    arena.place.1 =
      if 4294967296 ≤ (Listing.place arena.listing.lines).length then .error .wordOverflow
      else if 65535 < (Listing.place arena.listing.lines).length then
        .error (.malformed (.codeTooLong (Listing.place arena.listing.lines).length))
      else .ok (UInt32.ofNat (Listing.place arena.listing.lines).length) := by
  have hlength : (placeFrom arena.nodes 0 arena.head).1 =
      checkedWord (Listing.place arena.listing.lines).length := by
    rw [Listing.place_eq, represents.lines_eq, represents.head]
    exact represents.strand.placeFrom_fst 0
  unfold Arena.place
  split
  case h_1 e nodes heq =>
    rw [heq, checkedWord] at hlength
    split at hlength
    case isTrue => cases hlength
    case isFalse hlong =>
      cases hlength
      rw [if_pos (by omega)]
  case h_2 length nodes heq =>
    rw [heq] at hlength
    have hnat := checkedWord_eq_ok.mp hlength.symm
    have hiff : 65535 < length ↔ 65535 < length.toNat := UInt32.lt_iff_toNat_lt
    rw [← hnat, if_neg (Nat.not_le.mpr length.toNat_lt), UInt32.ofNat_toNat]
    by_cases hlong : 65535 < length.toNat
    · rw [if_pos hlong, if_pos (hiff.mpr hlong)]
    · rw [if_neg hlong, if_neg (mt hiff.mp hlong)]

/-- The nodes of a strand that is placed hold the offsets of its lines. -/
theorem Strand.map_placed (strand : Strand nodes before handles none)
    (placed : Placed nodes offset handles.head? length) :
    (handles.filterMap (entryAt nodes)).map (fun entry => (entry.2.line entry.1,
        entry.2.position.toNat)) =
      Listing.placedFrom offset.toNat (handles.filterMap (lineAt nodes)) := by
  induction handles generalizing before offset with
  | nil => rfl
  | cons handle rest ih =>
    obtain ⟨node, hnode, hnext, hline⟩ := strand.first
    have hentry : entryAt nodes handle = some (handle, node) := by
      rw [entryAt, hnode]
      rfl
    rw [List.head?_cons] at placed
    cases placed with
    | @visit _ node' size next _ found sized ends more =>
      rw [hnode, Option.some.injEq] at found
      subst found
      rw [hnext] at more
      have hend : next.toNat =
          node.position.toNat + node.instruction.size node.position.toNat node.long := by
        have hword := wordEnd_eq_ok.mpr ⟨size, sized, ends⟩
        rwa [Instruction.wordEnd_eq, checkedWord_eq_ok] at hword
      rw [List.filterMap_cons, List.filterMap_cons, hentry, hline]
      dsimp only
      rw [List.map_cons, Listing.placedFrom, ih strand.2 more, hend]
      rfl

theorem Represents.map_placed (represents : arena.Represents handles)
    (placed : Placed arena.nodes 0 arena.head length) :
    arena.entries.map (fun entry => (entry.2.line entry.1, entry.2.position.toNat)) =
      (Listing.place arena.listing.lines).placed.toList := by
  rw [Listing.place_eq, represents.entries_eq, represents.lines_eq]
  rw [represents.head] at placed
  exact represents.strand.map_placed placed

theorem Represents.mem_entries (represents : arena.Represents handles) {entry : Handle × Node} :
    entry ∈ arena.entries ↔ arena.node? entry.1 = some entry.2 := by
  refine ⟨node?_of_mem_walk, fun hnode => ?_⟩
  rw [represents.entries_eq, List.mem_filterMap]
  refine ⟨entry.1, ?_, ?_⟩
  · rw [← represents.contains_iff, contains, hnode]
    rfl
  · rw [entryAt, nodes_of_node? hnode]
    rfl

/-- The positions that are stored are the offsets that the listing is laid out with. -/
theorem Represents.stored_eq (represents : arena.Represents handles)
    (placed : Placed arena.nodes 0 arena.head length) :
    arena.stored = fun handle => (Listing.place arena.listing.lines).offsets[handle]? := by
  funext handle
  refine Option.ext fun place => ?_
  rw [Listing.offsets_eq_some represents.distinct, stored, Option.map_eq_some_iff]
  have hplaced := represents.map_placed placed
  rw [Listing.place_eq] at hplaced
  dsimp only at hplaced
  rw [← hplaced]
  constructor
  · rintro ⟨node, hnode, rfl⟩
    exact ⟨node.line handle,
      List.mem_map.mpr ⟨(handle, node), represents.mem_entries.mpr hnode, rfl⟩, rfl⟩
  · rintro ⟨line, hm, rfl⟩
    obtain ⟨entry, hentry, hpair⟩ := List.mem_map.mp hm
    cases hpair
    exact ⟨entry.2, node?_of_mem_walk hentry, rfl⟩

/-! ## Widening -/

/-- The nodes in stream order, each with whether it has to be widened. -/
def marks (arena : Arena) : Except Error (List ((Handle × Node) × Bool)) :=
  arena.entries.mapM fun entry => return (entry, ← arena.strained entry.1 entry.2)

/-- What is made of each element and the outcome for it is made of their pairs. -/
theorem mapM_eq_map_pairs {α β γ : Type} (f : α → Except Error β) (k : α → β → γ) (as : List α) :
    (as.mapM fun a => return k a (← f a)) =
      (as.mapM fun a => return (a, ← f a)) >>= fun pairs =>
        return pairs.map fun p => k p.1 p.2 := by
  induction as with
  | nil => rfl
  | cons a as ih =>
    rw [List.mapM_cons, List.mapM_cons, ih]
    cases f a with
    | error e => rfl
    | ok b => cases as.mapM fun a => return (a, ← f a) <;> rfl

/-- The handles of the nodes that are marked. -/
def marked (marks : List ((Handle × Node) × Bool)) : List Handle :=
  (marks.filter (·.2)).map (·.1.1)

theorem strainedJumps_eq (arena : Arena) :
    arena.strainedJumps = arena.marks >>= fun marks => .ok (marked marks) := by
  calc arena.strainedJumps
      = (arena.entries.mapM fun entry => return (entry.1, ← arena.strained entry.1 entry.2)) >>=
          fun answers => return (answers.filter (·.2)).map (·.1) := rfl
    _ = _ := by
      rw [mapM_eq_map_pairs (fun entry : Handle × Node => arena.strained entry.1 entry.2)
        (fun entry far => (entry.1, far)), bind_assoc]
      refine congrArg (arena.marks >>= ·) (funext fun marks => ?_)
      simp only [pure_bind, List.filter_map, List.map_map]
      rfl

theorem marks_eq_ok {marks : List ((Handle × Node) × Bool)} (h : arena.marks = .ok marks) :
    marks.map (·.1) = arena.entries ∧
      ∀ mark ∈ marks, arena.strained mark.1.1 mark.1.2 = .ok mark.2 := by
  have hall : List.Forall₂ (fun entry mark => mark.1 = entry ∧
      arena.strained entry.1 entry.2 = .ok mark.2) arena.entries marks := by
    refine (Outcome.list_mapM_eq_ok.mp h).imp fun entry mark hmark => ?_
    obtain ⟨far, hfar, hpair⟩ := Outcome.bind_eq_ok.mp hmark
    cases hpair
    exact ⟨rfl, hfar⟩
  constructor
  · have heq := List.forall₂_map_right_iff.mpr (hall.imp fun _ _ hmark => hmark.1.symm)
    exact (List.forall₂_eq_eq_eq ▸ heq : arena.entries = _).symm
  · intro mark hm
    obtain ⟨entry, -, rfl, hfar⟩ := Outcome.exists_of_mem_right hall hm
    exact hfar

/-- A handle stands for one node, which is marked or not. -/
theorem mem_marked {marks : List ((Handle × Node) × Bool)} (h : arena.marks = .ok marks)
    {mark : (Handle × Node) × Bool} (hm : mark ∈ marks) :
    mark.1.1 ∈ marked marks ↔ mark.2 = true := by
  obtain ⟨hentries, hstrained⟩ := marks_eq_ok h
  have hnode : ∀ mark ∈ marks, arena.node? mark.1.1 = some mark.1.2 := by
    intro mark hm
    have hmem : mark.1 ∈ arena.entries := hentries ▸ List.mem_map_of_mem hm
    exact node?_of_mem_walk hmem
  constructor
  · intro hmarked
    obtain ⟨other, hother, hhandle⟩ := List.mem_map.mp hmarked
    obtain ⟨hother, hfar⟩ := List.mem_filter.mp hother
    have hsame : mark.1.2 = other.1.2 := by
      have hnode' := hnode mark hm
      rw [← hhandle, hnode other hother, Option.some.injEq] at hnode'
      exact hnode'.symm
    have hmark := hstrained mark hm
    rw [hsame, ← hhandle, hstrained other hother, hfar, Except.ok.injEq] at hmark
    exact hmark.symm
  · exact fun hfar => List.mem_map.mpr ⟨mark, List.mem_filter.mpr ⟨hm, hfar⟩, rfl⟩

theorem getElem?_widen (arena : Arena) (jumps : List Handle) (handle : Handle) :
    (arena.widen jumps).nodes[handle.index]? =
      if handle ∈ jumps then arena.nodes[handle.index]?.map ({ · with long := true })
      else arena.nodes[handle.index]? := by
  refine getElem?_modifyAll (fun node => ?_) arena jumps handle
  rfl

theorem Represents.widen (represents : arena.Represents handles) (jumps : List Handle) :
    (arena.widen jumps).Represents handles := by
  have hfields : arena.widen jumps = { arena with nodes := (arena.widen jumps).nodes } :=
    modifyAll_eq arena jumps _
  rw [hfields]
  refine represents.of_links (fun handle => ?_) rfl rfl rfl
  unfold linksAt
  rw [getElem?_widen]
  split
  · rw [Option.map_map]
    rfl
  · rfl

/-- Widening makes the lines of these jumps long. -/
theorem Represents.lines_widen (represents : arena.Represents handles) (jumps : List Handle) :
    (arena.widen jumps).listing.lines.toList = arena.entries.map fun entry =>
      { entry.2.line entry.1 with long := entry.2.long || decide (entry.1 ∈ jumps) } := by
  rw [(represents.widen jumps).lines_eq, represents.entries_eq, List.map_filterMap]
  refine congrArg (fun line => handles.filterMap line) (funext fun handle => ?_)
  unfold lineAt entryAt
  rw [getElem?_widen]
  by_cases hm : handle ∈ jumps
  · simp [hm, Function.comp_def, Node.line]
  · simp [hm, Function.comp_def, Node.line]

/-- The outcome of a round that found these jumps too far from their targets. -/
def widened (arena : Arena) (length : UInt32) (jumps : List Handle) :
    Except Error (Nat × Array Line) :=
  (Listing.unplaced? arena.stored arena.handlers).elim
    (.ok (length.toNat, (arena.widen jumps).listing.lines)) fun missing =>
      .error (.invalidHandle missing)

/-- What a round does next: it widens the jumps that are too far from their targets. -/
theorem Represents.layoutRound_eq (represents : arena.Represents handles)
    (placed : Placed arena.nodes 0 arena.head length)
    (hlength : (Listing.place arena.listing.lines).length = length.toNat)
    (hle : length.toNat ≤ 65535) :
    Listing.layoutRound arena.handlers arena.listing.lines =
      arena.strainedJumps >>= arena.widened length := by
  have hmarks : ((Listing.place arena.listing.lines).placed.toList.mapM fun pair =>
      Listing.widen arena.stored pair.1 pair.2) = arena.marks >>= fun marks =>
        .ok (marks.map fun mark =>
          { mark.1.2.line mark.1.1 with long := mark.1.2.long || mark.2 }) := by
    rw [← represents.map_placed placed, List.mapM_map]
    refine Eq.trans ?_ (mapM_eq_map_pairs
      (fun entry : Handle × Node => arena.strained entry.1 entry.2) (fun entry far =>
        { entry.2.line entry.1 with long := entry.2.long || far }) arena.entries)
    refine congrArg (fun f => arena.entries.mapM f) (funext fun entry => ?_)
    simp only [Function.comp_apply, Listing.widen, strained, bind_assoc, pure_bind]
    rfl
  unfold Listing.layoutRound
  dsimp only
  rw [hlength, if_neg (by omega), if_neg (by omega), strainedJumps_eq, Array.mapM_eq_mapM_toList,
    ← represents.stored_eq placed]
  refine (congrArg (fun wider => (List.toArray <$> wider) >>= _) hmarks).trans ?_
  cases h : arena.marks with
  | error e => rfl
  | ok marks =>
    have hlines : (arena.widen (marked marks)).listing.lines = (marks.map fun mark =>
        { mark.1.2.line mark.1.1 with long := mark.1.2.long || mark.2 }).toArray := by
      rw [← Array.toList_inj, represents.lines_widen, ← (marks_eq_ok h).1, List.map_map]
      refine List.map_congr_left fun mark hm => ?_
      simp only [Function.comp_apply, mem_marked h hm, Bool.decide_eq_true]
    simp only [Outcome.ok_bind, widened, hlines]
    cases Listing.unplaced? arena.stored arena.handlers <;> rfl

/-! ## The rounds -/

/-- A round is the last one for an arena if it is the last one for its listing. -/
theorem Represents.lines_widen_eq_iff (represents : arena.Represents handles)
    {jumps : List Handle} (hjumps : arena.strainedJumps = .ok jumps) :
    (arena.widen jumps).listing.lines = arena.listing.lines ↔ jumps = [] := by
  constructor
  · intro hsame
    refine List.eq_nil_iff_forall_not_mem.mpr fun handle hm => ?_
    -- a jump that is widened is short before and long after
    obtain ⟨node, hnode, hshort⟩ := isShortJump_of_mem_strainedJumps hjumps hm
    rw [strainedJumps_eq] at hjumps
    obtain ⟨marks, hmarks, hmarked⟩ := Outcome.bind_eq_ok.mp hjumps
    cases hmarked
    obtain ⟨mark, hmark, rfl⟩ := List.mem_map.mp hm
    have hentry : mark.1 ∈ arena.entries :=
      (marks_eq_ok hmarks).1 ▸ List.mem_map_of_mem (List.mem_filter.mp hmark).1
    have hlong : { mark.1.2.line mark.1.1 with long := true } ∈ arena.listing.lines.toList := by
      rw [← hsame, represents.lines_widen]
      refine List.mem_map.mpr ⟨mark.1, hentry, ?_⟩
      simp only [hm, decide_true, Bool.or_true]
    obtain ⟨entry, hentry', hline⟩ := List.mem_map.mp hlong
    have hhandle : entry.1 = mark.1.1 := congrArg Line.handle hline
    have hnode' := nodes_of_node? (node?_of_mem_walk hentry')
    rw [hhandle, hnode, Option.some.injEq] at hnode'
    have hlong' : node.long = true := hnode' ▸ congrArg Line.long hline
    rw [Node.isShortJump, hlong'] at hshort
    simp at hshort
  · rintro rfl
    rfl

/-- A walk changes nothing that the listing shows. -/
theorem Represents.of_place {placed : Arena} {outcome : Except Error UInt32}
    (represents : arena.Represents handles) (h : arena.place = (outcome, placed)) :
    placed.Represents handles ∧ placed.listing = arena.listing ∧
      placed.handlers = arena.handlers := by
  have hplaced : placed = arena.place.2 := by rw [h]
  rw [hplaced]
  exact ⟨represents.place, represents.listing_place, by rw [place_snd]⟩

theorem Represents.layoutRound_of_error {placed : Arena} {e : Error}
    (represents : arena.Represents handles) (h : arena.place = (.error e, placed)) :
    Listing.layoutRound arena.handlers arena.listing.lines = .error e := by
  have hplace := represents.place_fst
  rw [h] at hplace
  unfold Listing.layoutRound
  dsimp only at hplace ⊢
  by_cases hword : 4294967296 ≤ (Listing.place arena.listing.lines).length
  · rw [if_pos hword] at hplace ⊢
    cases hplace
    rfl
  · rw [if_neg hword] at hplace ⊢
    by_cases hlong : 65535 < (Listing.place arena.listing.lines).length
    · rw [if_pos hlong] at hplace ⊢
      cases hplace
      rfl
    · rw [if_neg hlong] at hplace
      cases hplace

theorem Represents.layoutRound_of_ok {placed : Arena} (represents : arena.Represents handles)
    (h : arena.place = (.ok length, placed)) :
    Listing.layoutRound arena.handlers arena.listing.lines =
      placed.strainedJumps >>= placed.widened length := by
  obtain ⟨represents', hlisting, hhandlers⟩ := represents.of_place h
  obtain ⟨hwalk, hle, hfields⟩ := place_eq_ok.mp h
  have hhead : placed.head = arena.head := by rw [hfields]
  rw [← hhead] at hwalk
  have hlength : (Listing.place placed.listing.lines).length = length.toNat := by
    have hplace := represents.place_fst
    rw [h] at hplace
    dsimp only at hplace
    rw [hlisting]
    split at hplace
    case isTrue => cases hplace
    case isFalse hword =>
      split at hplace
      case isTrue => cases hplace
      case isFalse hlong =>
        have hlt : (Listing.place arena.listing.lines).length < UInt32.size := Nat.not_le.mp hword
        rw [Except.ok.inj hplace, UInt32.toNat_ofNat_of_lt' hlt]
  rw [← hhandlers, ← hlisting]
  exact represents'.layoutRound_eq (placeFrom_eq_ok hwalk).1 hlength hle

/-- An arena is laid out as its lines are. -/
theorem Represents.layout (represents : arena.Represents handles) :
    arena.layout.2.Represents handles ∧ Listing.layoutLines arena.handlers arena.listing.lines =
      (arena.layout.1.map (·.toNat), arena.layout.2.listing.lines) := by
  fun_induction Arena.layout arena with
  | case1 arena e placed hplaced =>
    obtain ⟨represents', hlisting, -⟩ := represents.of_place hplaced
    refine ⟨represents', ?_⟩
    rw [hlisting]
    exact Listing.layoutLines_of_error (represents.layoutRound_of_error hplaced)
  | case2 arena length placed hplaced e hjumps =>
    obtain ⟨represents', hlisting, -⟩ := represents.of_place hplaced
    refine ⟨represents', ?_⟩
    rw [hlisting]
    refine Listing.layoutLines_of_error ?_
    rw [represents.layoutRound_of_ok hplaced, hjumps]
    rfl
  | case3 arena length placed hplaced jumps hjumps missing hmissing =>
    obtain ⟨represents', hlisting, -⟩ := represents.of_place hplaced
    refine ⟨represents', ?_⟩
    rw [hlisting]
    refine Listing.layoutLines_of_error ?_
    rw [represents.layoutRound_of_ok hplaced, hjumps, Outcome.ok_bind, widened, hmissing]
    rfl
  | case4 arena length placed hplaced hhandlers hjumps =>
    obtain ⟨represents', hlisting, -⟩ := represents.of_place hplaced
    have valid : Represents { placed with positionsValid := true } handles :=
      represents'.of_links (fun _ => rfl) rfl rfl rfl
    have hlines : (listing { placed with positionsValid := true }).lines = arena.listing.lines := by
      rw [← hlisting, ← Array.toList_inj, valid.lines_eq, represents'.lines_eq]
    have hround := represents.layoutRound_of_ok hplaced
    rw [hjumps, Outcome.ok_bind, widened, hhandlers] at hround
    refine ⟨valid, ?_⟩
    rw [Listing.layoutLines_of_ok hround, hlines]
    exact if_pos (congrArg Listing.lines hlisting)
  | case5 arena length placed hplaced jumps hjumps hhandlers hne ih =>
    obtain ⟨represents', hlisting, hkept⟩ := represents.of_place hplaced
    have hround := represents.layoutRound_of_ok hplaced
    rw [hjumps, Outcome.ok_bind, widened, hhandlers] at hround
    have hwider : (placed.widen jumps).listing.lines ≠ arena.listing.lines := by
      rw [← hlisting]
      exact mt (represents'.lines_widen_eq_iff hjumps).mp hne
    obtain ⟨hlinks, hlines⟩ := ih (represents'.widen jumps)
    have hhandlers' : (placed.widen jumps).handlers = arena.handlers := by
      rw [Arena.widen, modifyAll_eq]
      exact hkept
    refine ⟨hlinks, ?_⟩
    rw [Listing.layoutLines_of_ok hround, if_neg hwider, ← hlines, hhandlers']

theorem Represents.listing_layout (represents : arena.Represents handles) :
    arena.listing.layout = (arena.layout.1.map (·.toNat), arena.layout.2.listing) := by
  obtain ⟨represents', hlines⟩ := represents.layout
  obtain ⟨hsize, hhandlers, hflag⟩ := arena.layout_fields
  have hlisting : arena.layout.2.listing = ⟨arena.layout.2.listing.lines, arena.nodes.size,
      arena.handlers, arena.layout.1.isOk || arena.positionsValid⟩ := by
    rw [← hflag, ← hhandlers, ← hsize]
    rfl
  unfold Listing.layout
  rw [show arena.listing.handlers = arena.handlers from rfl, hlines, hlisting]
  cases arena.layout.1 <;> rfl

theorem Represents.mirrors_layout (represents : arena.Represents handles) :
    arena.Mirrors .layout := by
  have hlisting := represents.listing_layout
  refine ⟨?_, ?_, handles, represents.layout.1⟩
  · rw [apply, Listing.apply, hlisting]
    rcases arena.layout with ⟨_ | _, laid⟩ <;> rfl
  · rw [apply, Listing.apply, hlisting]
    rcases arena.layout with ⟨_ | _, laid⟩ <;> rfl

/-- Every call does to an arena what it does to its listing, while there are handles left. -/
theorem Represents.mirrors (represents : arena.Represents handles)
    (room : arena.nodes.size < 4294967296) (operation : Operation) : arena.Mirrors operation := by
  cases operation with
  | append code => exact represents.mirrors_append room code
  | insertBefore handle code => exact represents.mirrors_insertBefore room handle code
  | insertAfter handle code => exact represents.mirrors_insertAfter room handle code
  | set handle code => exact represents.mirrors_set handle code
  | delete handle => exact represents.mirrors_delete handle
  | deleteRange start stop => exact represents.mirrors_deleteRange start stop
  | addHandler entry => exact represents.mirrors_addHandler entry
  | layout => exact represents.mirrors_layout

end Arena

end BytecodeFold
