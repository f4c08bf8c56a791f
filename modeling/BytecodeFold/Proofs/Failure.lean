import BytecodeFold.ClassModel
import BytecodeFold.Proofs.Listing.Positions
import BytecodeFold.Proofs.StackDepth

/-!
# Errors that may surface

Some errors are not for callers. That a handle names nothing, that an instruction has no encoding or
that the bytes are not as many as were laid out would be a fault of the library; that a load does
not resolve only tells a scan to go on. Layout, encoding and stack depth of a regular listing fail
with none of these. A regular listing that can be laid out can be written, and nothing but a layout
complains about the length of code.
-/

namespace BytecodeFold

/-- Whether an error is not meant for callers. -/
def Error.isInternal : Error → Bool
  | danglingTarget .. | invalidHandle _ | invalidOperand _ | unresolvedLoad _
  | nonNumericConstant _ | malformed (.lengthMismatch ..) => true
  | _ => false

/-- Whether an error says that code is too long, as a whole or for one of its branches. -/
def Error.isOverlong : Error → Bool
  | branchOutOfRange _ | malformed (.codeTooLong _) => true
  | _ => false

/-- An error that blames neither the library nor the length of the code. -/
def Error.Plain (e : Error) : Prop := e.isInternal = false ∧ e.isOverlong = false

/-- Every error of a computation is one of these. -/
def FailsOnly {α : Type} (allowed : Error → Prop) (outcome : Except Error α) : Prop :=
  ∀ e, outcome = .error e → allowed e

/-- Every error of a computation may surface. -/
abbrev Presentable {α : Type} (outcome : Except Error α) : Prop :=
  FailsOnly (fun e => e.isInternal = false) outcome

/-- A computation does not fail. -/
abbrev Succeeds {α : Type} (outcome : Except Error α) : Prop := FailsOnly (fun _ => False) outcome

namespace FailsOnly

variable {α β : Type} {allowed allowed' : Error → Prop}

theorem ok (a : α) : FailsOnly allowed (.ok a) := by
  intro e h
  cases h

theorem error {e : Error} (h : allowed e) : FailsOnly allowed (.error e : Except Error α) := by
  intro e' he
  cases he
  exact h

theorem mono {x : Except Error α} (h : FailsOnly allowed x)
    (hallowed : ∀ e, allowed e → allowed' e) :
    FailsOnly allowed' x :=
  fun e he => hallowed e (h e he)

theorem bind {x : Except Error α} {f : α → Except Error β} (hx : FailsOnly allowed x)
    (hf : ∀ a, x = .ok a → FailsOnly allowed (f a)) : FailsOnly allowed (x >>= f) := by
  cases x with
  | error e => exact error (hx e rfl)
  | ok a => exact hf a rfl

theorem mapM {f : α → Except Error β} {as : List α} (h : ∀ a ∈ as, FailsOnly allowed (f a)) :
    FailsOnly allowed (as.mapM f) := by
  induction as with
  | nil => exact ok []
  | cons a as ih =>
    obtain ⟨ha, has⟩ := List.forall_mem_cons.mp h
    rw [List.mapM_cons]
    exact ha.bind fun b _ => (ih has).bind fun bs _ => ok _

theorem array_mapM {f : α → Except Error β} {as : Array α}
    (h : ∀ a ∈ as.toList, FailsOnly allowed (f a)) : FailsOnly allowed (as.mapM f) := by
  rw [Array.mapM_eq_mapM_toList, map_eq_pure_bind]
  exact (mapM h).bind fun bs _ => ok _

theorem foldlM {f : β → α → Except Error β} {as : List α} {b : β}
    (h : ∀ a ∈ as, ∀ b, FailsOnly allowed (f b a)) : FailsOnly allowed (as.foldlM f b) := by
  induction as generalizing b with
  | nil => exact ok b
  | cons a as ih =>
    obtain ⟨ha, has⟩ := List.forall_mem_cons.mp h
    rw [List.foldlM_cons]
    exact (ha b).bind fun b' _ => ih has

theorem exists_ok {x : Except Error α} (h : Succeeds x) : ∃ a, x = .ok a := by
  cases x with
  | error e => exact (h e rfl).elim
  | ok a => exact ⟨a, rfl⟩

end FailsOnly

/-! ## Constant pool and descriptors -/

namespace ConstantPool

theorem plain_entry (pool : ConstantPool) (index : UInt16) :
    FailsOnly Error.Plain (pool.entry index) := by
  unfold entry
  split
  · exact .ok _
  · exact .error ⟨rfl, rfl⟩

theorem plain_utf8 (pool : ConstantPool) (index : UInt16) :
    FailsOnly Error.Plain (pool.utf8 index) := by
  refine (pool.plain_entry index).bind fun entry _ => ?_
  split
  · exact .ok _
  · exact .error ⟨rfl, rfl⟩

theorem plain_memberDescriptor (pool : ConstantPool) (index : UInt16) :
    FailsOnly Error.Plain (pool.memberDescriptor index) := by
  refine FailsOnly.bind ?_ fun member _ => .ok _
  refine (pool.plain_entry index).bind fun reference _ => ?_
  cases reference.nameAndType? with
  | none => exact .error ⟨rfl, rfl⟩
  | some pair =>
    refine (pool.plain_entry pair).bind fun entry _ => ?_
    cases entry with
    | nameAndType name descriptor =>
      exact (pool.plain_utf8 name).bind fun _ _ =>
        (pool.plain_utf8 descriptor).bind fun _ _ => .ok _
    | _ => exact .error ⟨rfl, rfl⟩

end ConstantPool

theorem ElementType.plain_scan (descriptor : String) (cs : List Char) :
    FailsOnly Error.Plain (ElementType.scan descriptor cs) := by
  unfold ElementType.scan
  split
  case h_1 => exact .error ⟨rfl, rfl⟩
  case h_10 =>
    dsimp only
    split
    · exact .error ⟨rfl, rfl⟩
    · split
      · exact .error ⟨rfl, rfl⟩
      · exact .ok _
  case h_11 => exact .error ⟨rfl, rfl⟩
  all_goals exact .ok _

theorem FieldType.plain_scan (descriptor : String) (cs : List Char) :
    FailsOnly Error.Plain (FieldType.scan descriptor cs) := by
  unfold FieldType.scan
  split
  case h_1 e he => exact .error (ElementType.plain_scan _ _ e he)
  case h_2 => exact .ok _

namespace MethodDescriptor

theorem plain_scanParameters (descriptor : String) (cs : List Char) (seen : List FieldType) :
    FailsOnly Error.Plain (scanParameters descriptor cs seen) := by
  fun_induction scanParameters descriptor cs seen with
  | case1 => exact .error ⟨rfl, rfl⟩
  | case2 => exact .ok _
  | case3 seen c rest hc e he => exact .error (FieldType.plain_scan _ _ e he)
  | case4 seen c rest hc field rest' he ih => exact ih

theorem plain_scanResult (descriptor : String) (cs : List Char) :
    FailsOnly Error.Plain (scanResult descriptor cs) := by
  unfold scanResult
  split
  case h_1 => exact .error ⟨rfl, rfl⟩
  case h_2 c rest =>
    split
    · exact .ok _
    · split
      case h_1 e he => exact .error (FieldType.plain_scan _ _ e he)
      case h_2 => exact .ok _

theorem plain_parse (descriptor : String) : FailsOnly Error.Plain (parse descriptor) := by
  unfold parse
  split
  case h_1 => exact .error ⟨rfl, rfl⟩
  case h_2 c cs _ =>
    split
    · refine (plain_scanParameters descriptor cs []).bind fun scanned _ => ?_
      refine (plain_scanResult descriptor scanned.2).bind fun result _ => ?_
      dsimp only
      split
      · exact .ok _
      · exact .error ⟨rfl, rfl⟩
    · exact .error ⟨rfl, rfl⟩

end MethodDescriptor

theorem plain_checkedSlots (count : Nat) : FailsOnly Error.Plain (checkedSlots count) := by
  unfold checkedSlots
  split
  · exact .ok _
  · exact .error ⟨rfl, rfl⟩

theorem Method.plain_argumentSlots (method : Method) :
    FailsOnly Error.Plain method.argumentSlots :=
  (MethodDescriptor.plain_parse method.descriptor).bind fun _ _ =>
    (plain_checkedSlots _).bind fun _ _ => plain_checkedSlots _

/-! ## Layout -/

namespace Listing

variable {listing : Listing} {pool : ConstantPool} {offsets : Handle → Option Nat}
  {allowed : Error → Prop}

/-- Only what cannot be widened fails to reach a target that is placed. -/
theorem failsOnly_tooFar {line : Line} {offset place : Nat} {target : Handle}
    (placed : offsets target = some place)
    (far : fitsSigned 16 ((place : Int) - (offset : Int)) = false →
      line.instruction.isJump = false → allowed (.branchOutOfRange offset)) :
    FailsOnly allowed (tooFar offsets line offset target) := by
  unfold tooFar
  rw [placed]
  dsimp only
  split
  · exact .ok _
  case isFalse hfar =>
    split
    · exact .ok _
    · exact .ok _
    · exact .ok _
    case h_4 hjump hsubroutine hswitch =>
      refine .error (far (Bool.not_eq_true _ ▸ hfar) ?_)
      cases hi : line.instruction with
      | jump other => exact absurd hi (hjump other)
      | subroutine other => exact absurd hi (hsubroutine other)
      | _ => rfl

/-- Whatever a regular listing refers to has a place. -/
theorem Regular.placed (regular : listing.Regular pool) {handle : Handle}
    (h : listing.Mentions handle) :
    ∃ offset, (place listing.lines).offsets[handle]? = some offset := by
  obtain ⟨line, hm, rfl⟩ := List.mem_map.mp (regular.closed handle h)
  rw [← map_placedFrom 0 listing.lines.toList] at hm
  obtain ⟨⟨line, offset⟩, hp, rfl⟩ := List.mem_map.mp hm
  exact ⟨offset, (offsets_eq_some regular.distinct).mpr ⟨line, hp, rfl⟩⟩

/-- A round fails on a regular listing only if the code is too long, or too long for a branch that
cannot be widened. -/
theorem Regular.failsOnly_layoutRound (regular : listing.Regular pool)
    (long : 65535 < lengthFrom 0 listing.lines.toList →
      allowed .wordOverflow ∧ ∀ length, allowed (.malformed (.codeTooLong length)))
    (far : ∀ pair ∈ placedFrom 0 listing.lines.toList, ∀ target ∈ pair.1.instruction.targets,
      ∀ place', (place listing.lines).offsets[target]? = some place' →
        fitsSigned 16 ((place' : Int) - (pair.2 : Int)) = false →
        pair.1.instruction.isJump = false → allowed (.branchOutOfRange pair.2)) :
    FailsOnly allowed (layoutRound listing.handlers listing.lines) := by
  have hplaced : (place listing.lines).placed.toList = placedFrom 0 listing.lines.toList := by
    rw [place_eq]
  have hlength : (place listing.lines).length = lengthFrom 0 listing.lines.toList := by
    rw [place_eq]
  unfold layoutRound
  dsimp only
  split
  case isTrue hlong => exact .error (long (by omega)).1
  split
  case isTrue hlong => exact .error ((long (hlength ▸ hlong)).2 _)
  refine FailsOnly.bind (.array_mapM fun pair hm => ?_) fun wider _ => ?_
  · rw [hplaced] at hm
    have hline : pair.1 ∈ listing.lines.toList := mem_of_mem_placedFrom hm
    refine FailsOnly.bind (.mapM fun target ht => ?_) fun answers _ => .ok _
    obtain ⟨place', hp⟩ := regular.placed (.target hline ht)
    exact failsOnly_tooFar hp (far pair hm target ht place' hp)
  · have hnone : unplaced? (place listing.lines).offsets listing.handlers = none :=
      unplaced?_eq_none.mpr fun entry he handle hh => regular.placed (.handler he hh)
    rw [hnone]
    exact .ok _

theorem presentable_layoutLines {handlers : Array ExceptionHandler} {lines : Array Line}
    (regular : (Listing.mk lines 0 handlers false).Regular pool) :
    Presentable (layoutLines handlers lines).1 := by
  fun_induction layoutLines handlers lines with
  | case1 lines e he =>
    have hround : Presentable (layoutRound handlers lines) :=
      regular.failsOnly_layoutRound (fun _ => ⟨rfl, fun _ => rfl⟩) (fun _ _ _ _ _ _ _ _ => rfl)
    exact .error (hround e he)
  | case2 length lines hr => exact .ok _
  | case3 lines length wider hr hne ih => exact ih (regular.sameLines (layoutRound_same hr) rfl)

theorem Regular.presentable_layout (regular : listing.Regular pool) :
    Presentable listing.layout.1 := by
  have hlines : Presentable (layoutLines listing.handlers listing.lines).1 :=
    presentable_layoutLines (regular.sameLines (.refl _) rfl)
  unfold Listing.layout
  split
  case h_1 => exact .ok _
  case h_2 e lines hl =>
    rw [hl] at hlines
    exact hlines

end Listing

/-! ## Encoding -/

namespace Encoding

variable {offsets : Handle → Option Nat} {handle : Handle} {offset : Nat} {pool : ConstantPool}

theorem succeeds_shortDisplacement (hoffset : offsets handle = some offset) {target : Handle}
    (placed : Placed offsets target)
    (near : fitsSigned 16 ((placeOf offsets target : Int) - (offset : Int)) = true) :
    Succeeds (shortDisplacement offsets handle target) := by
  unfold shortDisplacement
  rw [displacement_eq hoffset placed, Outcome.ok_bind, if_pos near]
  exact .ok _

theorem succeeds_longDisplacement (hoffset : offsets handle = some offset) {target : Handle}
    (placed : Placed offsets target) : Succeeds (longDisplacement offsets handle target) := by
  rw [longDisplacement, displacement_eq hoffset placed]
  exact .ok _

theorem succeeds_switchCases (hoffset : offsets handle = some offset) {kind : SwitchKind}
    {default : Handle} {cases : List (Int32 × Handle)}
    (writable : (Instruction.switch kind default cases).Writable pool)
    (placed : ∀ case ∈ cases, Placed offsets case.2) :
    Succeeds (switchCases offsets handle kind cases) := by
  cases kind with
  | table =>
    obtain ⟨hne, hkeys⟩ := writable
    unfold switchCases
    rw [List.head?_eq_some_head hne, List.getLast?_eq_some_getLast hne]
    dsimp only
    rw [if_pos hkeys]
    refine FailsOnly.bind (.mapM fun case hm => ?_) fun targets _ => .ok _
    exact succeeds_longDisplacement hoffset (placed case hm)
  | lookup =>
    have hkeys : keysSorted (cases.map (·.1.toInt)) = true := writable
    unfold switchCases
    dsimp only
    rw [if_pos hkeys]
    refine FailsOnly.bind (.mapM fun case hm => ?_) fun pairs _ => .ok _
    exact (succeeds_longDisplacement hoffset (placed case hm)).bind fun _ _ => .ok _

/-- An instruction that bytes can give and whose targets are placed can be written, if it reaches
them. -/
theorem succeeds_instruction {line : Line} (hoffset : offsets line.handle = some offset)
    (writable : line.instruction.Writable pool)
    (placed : ∀ target ∈ line.instruction.targets, Placed offsets target)
    (near : line.isShortBranch = true → ∀ target ∈ line.instruction.targets,
      fitsSigned 16 ((placeOf offsets target : Int) - (offset : Int)) = true) :
    Succeeds (instruction offsets line.handle line.long line.instruction) := by
  obtain ⟨handle, code, long⟩ := line
  dsimp only at hoffset writable placed near ⊢
  cases code with
  | push value type =>
    change Succeeds (push value type)
    unfold push
    cases hform : value.pushForm? type with
    | none => exact absurd hform writable.1
    | some form => cases form <;> exact .ok _
  | convert source target =>
    unfold instruction
    dsimp only
    cases hopcode : source.conversionOpcode? target with
    | none => exact absurd hopcode writable.1
    | some opcode => exact .ok _
  | arithmetic op type =>
    unfold instruction
    dsimp only
    rw [if_neg (by rw [writable.1]; decide)]
    exact .ok _
  | branch condition target =>
    have ht : target ∈ (Instruction.branch condition target).targets := by
      simp [Instruction.targets]
    exact (succeeds_shortDisplacement hoffset (placed target ht) (near rfl target ht)).bind
      fun _ _ => .ok _
  | jump target | subroutine target =>
    have htarget := placed target (by simp [Instruction.targets])
    cases long with
    | true => exact (succeeds_longDisplacement hoffset htarget).bind fun _ _ => .ok _
    | false =>
      have hnear := near rfl target (by simp [Instruction.targets])
      exact (succeeds_shortDisplacement hoffset htarget hnear).bind fun _ _ => .ok _
  | switch kind default cases =>
    unfold instruction switch
    rw [hoffset]
    refine (succeeds_longDisplacement hoffset (placed default ?_)).bind fun _ _ => ?_
    · simp [Instruction.targets]
    refine (succeeds_switchCases hoffset writable fun case hm => placed case.2 ?_).bind
      fun _ _ => .ok _
    simp only [Instruction.targets, List.mem_cons, List.mem_map]
    exact .inr ⟨case, hm, rfl⟩
  | _ => exact .ok _

theorem succeeds_exceptionEntry {length : Nat} {entry : ExceptionHandler}
    (placed : ∀ handle ∈ entry.handles, ∃ place, offsets handle = some place) :
    Succeeds (exceptionEntry offsets length entry) := by
  obtain ⟨start, hstart⟩ := placed entry.start (by simp [ExceptionHandler.handles])
  obtain ⟨handler, hhandler⟩ := placed entry.handler (by simp [ExceptionHandler.handles])
  cases hstop : entry.stop with
  | none =>
    simp only [exceptionEntry, hstart, hstop, hhandler, Outcome.ok_bind]
    exact .ok _
  | some last =>
    obtain ⟨stop, hlast⟩ := placed last (by simp [ExceptionHandler.handles, hstop])
    simp only [exceptionEntry, hstart, hstop, hlast, hhandler, Outcome.ok_bind]
    exact .ok _

end Encoding

namespace Listing

variable {listing : Listing} {pool : ConstantPool} {length : Nat}

/-- The bytes of lines are as many as the lines were laid out for. -/
theorem length_of_written {offsets : Handle → Option Nat} {offset : Nat} {lines : List Line}
    {chunks : List (List UInt8)}
    (hwritten : List.Forall₂ (fun line chunk =>
      Encoding.instruction offsets line.handle line.long line.instruction = .ok chunk) lines chunks)
    (h : ∀ pair ∈ placedFrom offset lines, ∀ chunk,
      Encoding.instruction offsets pair.1.handle pair.1.long pair.1.instruction = .ok chunk →
        chunk.length = pair.1.instruction.size pair.2 pair.1.long) :
    offset + chunks.flatten.length = lengthFrom offset lines := by
  induction hwritten generalizing offset with
  | nil => rfl
  | @cons line chunk lines chunks hline _ ih =>
    have hchunk := h (line, offset) List.mem_cons_self chunk hline
    rw [List.flatten_cons, List.length_append, hchunk, lengthFrom, ← Nat.add_assoc]
    exact ih fun pair hm => h pair (List.mem_cons_of_mem _ hm)

/-- The short branches of a listing in which nothing has to be widened reach their targets. -/
theorem Settled.near (settled : listing.Settled length) (laidOut : listing.laidOut = true)
    {pair : Line × Nat} (hp : pair ∈ placedFrom 0 listing.lines.toList)
    (hshort : pair.1.isShortBranch = true) :
    ∀ target ∈ pair.1.instruction.targets,
      fitsSigned 16 ((Encoding.placeOf listing.offsets target : Int) - (pair.2 : Int)) = true := by
  intro target ht
  obtain ⟨-, -, hwide, -⟩ := layoutRound_eq_ok.mp settled
  conv at hwide => arg 3; rw [← map_placedFrom 0 listing.lines.toList]
  rw [List.forall₂_map_right_iff, List.forall₂_same] at hwide
  obtain ⟨goal, hgoal, hfits⟩ := reach_of_widen (hwide pair hp) hshort ht
  rw [offsets_of_laidOut laidOut, Encoding.placeOf, hgoal, Option.getD_some]
  exact hfits

/-- A regular listing that is laid out can be written. -/
theorem Regular.succeeds_emit (regular : listing.Regular pool) (laid : listing.LaidOut length)
    (settled : listing.Settled length) : Succeeds (listing.emit length) := by
  unfold emit
  dsimp only
  rw [← Array.foldlM_toList]
  refine FailsOnly.bind (.foldlM fun line hm bytes => ?_) fun bytes hbytes => ?_
  · rw [← map_placedFrom 0 listing.lines.toList] at hm
    obtain ⟨pair, hp, rfl⟩ := List.mem_map.mp hm
    obtain ⟨hline, hoffset, hplaced, -⟩ := laid.line_ready regular.distinct hp
    exact (Encoding.succeeds_instruction hoffset (regular.writable _ hline) hplaced
      (settled.near laid.laidOut hp)).bind fun _ _ => .ok _
  · obtain ⟨chunks, hchunks, he⟩ := foldlM_append_eq_ok.mp hbytes
    have hlength : 0 + chunks.flatten.length = lengthFrom 0 listing.lines.toList := by
      refine length_of_written hchunks fun pair hp chunk hchunk => ?_
      obtain ⟨-, hoffset, hplaced, hfew⟩ := laid.line_ready regular.distinct hp
      exact Encoding.length_instruction hoffset hplaced (placeOf_le laid regular.distinct)
        hfew hchunk
    have hsize : bytes.size = length := by
      rw [laid.length_eq, ← hlength, ← Array.length_toList, he]
      simp
    rw [if_neg (not_not.mpr hsize)]
    refine FailsOnly.bind (.array_mapM fun entry hm => ?_) fun table _ => .ok _
    exact Encoding.succeeds_exceptionEntry (laid.handlers entry hm)

/-- A regular listing can be written if it can be laid out, and fails as its layout does if not. -/
theorem Regular.failsOnly_encode {allowed : Error → Prop} (regular : listing.Regular pool)
    (h : FailsOnly allowed listing.layout.1) : FailsOnly allowed listing.encode.1 := by
  unfold encode
  split
  case h_1 length laid hl =>
    obtain ⟨hlaid, hhandlers, hsame⟩ := layout_eq_ok hl
    exact ((regular.sameLines hsame hhandlers).succeeds_emit hlaid (layout_settled hl).2).mono
      fun _ => False.elim
  case h_2 e laid hl =>
    rw [hl] at h
    exact .error (h e rfl)

theorem Regular.encode (regular : listing.Regular pool) : listing.encode.2.Regular pool := by
  have hlayout := regular.layout
  unfold Listing.encode
  split
  case h_1 length laid hl =>
    rw [hl] at hlayout
    exact hlayout
  case h_2 e laid hl =>
    rw [hl] at hlayout
    exact hlayout

/-! ## Stack depth -/

theorem plain_stackEffect (pool : ConstantPool) (code : Instruction Handle) :
    FailsOnly Error.Plain (code.stackEffect pool) := by
  cases code with
  | invokeVirtual index =>
    refine (pool.plain_memberDescriptor index).bind fun descriptor _ => ?_
    refine (MethodDescriptor.plain_parse descriptor).bind fun _ _ => ?_
    exact (plain_checkedSlots _).bind fun _ _ => (plain_checkedSlots _).bind fun _ _ => .ok _
  | _ => exact .ok _

/-- The walk meets only handles that are in the stream. -/
theorem Regular.plain_walk (regular : listing.Regular pool)
    {pending : Std.HashMap Handle Site} {agenda : List (Handle × Nat)} {deepest : Nat}
    (hsites : ∀ (handle : Handle) (site : Site), pending[handle]? = some site →
      listing.sites[handle]? = some site)
    (live : ∀ entry ∈ agenda, entry.1 ∈ listing.handles) :
    FailsOnly Error.Plain (walk listing.sites pool pending agenda deepest) := by
  fun_induction walk listing.sites pool pending agenda deepest with
  | case1 pending deepest => exact .ok _
  | case2 pending deepest handle depth agenda hfound hcontains ih =>
    exact ih hsites (List.forall_mem_cons.mp live).2
  | case3 pending deepest handle depth agenda hfound hcontains =>
    have hlive := (List.forall_mem_cons.mp live).1
    exact absurd ((contains_sites regular.distinct).mpr hlive) hcontains
  | case4 pending deepest handle depth agenda site hfound e he =>
    exact .error (plain_stackEffect pool _ e he)
  | case5 pending deepest handle depth agenda site hfound effect he hunder =>
    exact .error ⟨rfl, rfl⟩
  | case6 pending deepest handle depth agenda site hfound effect he hunder after =>
    rename_i ih
    refine ih (fun other site hs => hsites other site (getElem?_of_erase hs)) fun entry hm => ?_
    rcases List.mem_append.mp hm with hm | hm
    · exact regular.successors_live (hsites handle site hfound) depth after entry hm
    · exact (List.forall_mem_cons.mp live).2 entry hm

theorem Regular.plain_maxStack (regular : listing.Regular pool) :
    FailsOnly Error.Plain (listing.maxStack pool) := by
  refine (regular.plain_walk (fun _ _ hs => hs) regular.entryPoints_live).bind fun deepest _ => ?_
  split
  · exact .ok _
  · exact .error ⟨rfl, rfl⟩

theorem plain_maxLocals (listing : Listing) (slots : Nat) :
    FailsOnly Error.Plain (listing.maxLocals slots) := by
  unfold maxLocals
  dsimp only
  split
  · exact .ok _
  · exact .error ⟨rfl, rfl⟩

end Listing

end BytecodeFold
