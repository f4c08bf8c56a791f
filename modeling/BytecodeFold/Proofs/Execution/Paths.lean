import BytecodeFold.Proofs.Execution.Preservation
import BytecodeFold.Proofs.Listing.Sequence
import Mathlib.Data.List.Chain

/-!
# Paths to a load

The paths of control through a listing go along its edges: on to the next line, to a target of a
branch, from anywhere to an exception handler, and from a return of a subroutine to the line
after any call. A line that is not a merge point has one edge into it, from the line before. So
every path to a load that resolves ends with the straight line of code that defines the local,
whatever the path did before, and the value found there is the one that was stored last.
-/

namespace BytecodeFold

/-- The instruction writes a local: it stores to it, stores a pair whose second half it is, or
increments it. -/
inductive Instruction.Writes (slot : UInt16) : Instruction Handle → Prop where
  | store (type : TypeTag) : Writes slot (.store slot type)
  | pair {lower : UInt16} {type : TypeTag} (adjacent : lower.toNat + 1 = slot.toNat)
      (wide : type.slots = 2) : Writes slot (.store lower type)
  | increment (amount : Int16) : Writes slot (.increment slot amount)

namespace Listing

variable {listing : Listing} {handle : Handle} {slot : UInt16} {steps : List Handle}

theorem Keeps.not_writes {code : Instruction Handle} (keeps : Keeps slot code) :
    ¬ code.Writes slot := by
  intro writes
  cases writes with
  | store type => exact keeps.2 type rfl
  | @pair lower type adjacent wide =>
    have hlt : lower < slot := UInt16.lt_iff_toNat_lt.mpr (by omega)
    have hacross : writesAcross slot (.store lower type) = true := by
      simp only [writesAcross, Bool.and_eq_true, decide_eq_true_eq]
      exact ⟨hlt, by omega⟩
    rw [keeps.1] at hacross
    cases hacross
  | increment amount =>
    have hacross : writesAcross slot (.increment slot amount) = true := by simp [writesAcross]
    rw [keeps.1] at hacross
    cases hacross

/-! ## Edges and paths -/

/-- Control can go from one handle to another in one step. -/
inductive Edge (listing : Listing) : Handle → Handle → Prop where
  | falls {handle next : Handle} {code : Instruction Handle}
      (code_eq : listing.get? handle = some code) (falls : code.fallsThrough = true)
      (next_eq : listing.next? handle = some next) :
      Edge listing handle next
  | branches {handle target : Handle} {code : Instruction Handle}
      (code_eq : listing.get? handle = some code) (mem : target ∈ code.targets) :
      Edge listing handle target
  | throws {handle : Handle} {entry : ExceptionHandler} (live : handle ∈ listing.handles)
      (mem : entry ∈ listing.handlers.toList) : Edge listing handle entry.handler
  | returns {handle next : Handle} {code : Verbatim}
      (code_eq : listing.get? handle = some (.other code)) (ret : code.opcode = Opcode.ret)
      (point : listing.ReturnPoint next) : Edge listing handle next

/-- A path of control from the head of the listing to a handle. -/
structure Path (listing : Listing) (steps : List Handle) (handle : Handle) : Prop where
  start : steps.head? = listing.head?
  edges : steps.IsChain listing.Edge
  stop : steps.getLast? = some handle

theorem Cut.edge {before after : List Line} {line next : Line}
    (cut : listing.Cut before line (next :: after)) (distinct : listing.Distinct)
    (falls : line.instruction.fallsThrough = true) : listing.Edge line.handle next.handle :=
  .falls (cut.get? distinct) falls (cut.next? distinct)

theorem Path.eq_concat (path : listing.Path steps handle) : ∃ front, steps = front ++ [handle] :=
  List.getLast?_eq_some_iff.mp path.stop

/-- The one edge to a line that is not a merge point comes from the line before. -/
theorem Edge.next?_eq {target : Handle} (edge : listing.Edge handle target)
    (distinct : listing.Distinct) (straight : ¬ listing.MergePoint target) :
    listing.next? handle = some target := by
  cases edge with
  | falls _ _ next_eq => exact next_eq
  | branches code_eq mem =>
    obtain ⟨before, line, after, cut, rfl, rfl⟩ := exists_cut_of_get? code_eq distinct
    exact absurd (.target cut.mem mem) straight
  | throws _ mem => exact absurd (.handler mem) straight
  | returns _ _ point => exact absurd (point.mergePoint distinct) straight

/-- A path to a line that is not a merge point is a path to the line before and one step more. -/
theorem Path.back {before after : List Line} {prev line : Line}
    (path : listing.Path steps line.handle) (cut : listing.Cut before prev (line :: after))
    (distinct : listing.Distinct) (straight : ¬ listing.MergePoint line.handle) :
    ∃ front, steps = front ++ [line.handle] ∧ listing.Path front prev.handle := by
  obtain ⟨front, rfl⟩ := path.eq_concat
  rcases List.eq_nil_or_concat front with rfl | ⟨init, last, rfl⟩
  · -- the path would start here, but there is a line before
    have hhead : some line.handle = listing.lines.toList.head?.map (·.handle) := by
      simpa [Listing.head?, List.head?_eq_getElem?] using path.start
    obtain ⟨first, hfirst, he⟩ := Option.map_eq_some_iff.mp hhead.symm
    rw [show listing.lines.toList = _ from cut.forth,
      List.head?_append_of_ne_nil _ (by simp)] at hfirst
    exact absurd he ((cut.forth.handle_ne distinct).1 first (List.mem_of_mem_head? hfirst))
  · rw [List.concat_eq_append] at path ⊢
    have hchain := List.isChain_append.mp path.edges
    have hedge : listing.Edge last line.handle :=
      hchain.2.2 last (by simp) line.handle (by simp)
    have hlast : last = prev.handle := cut.eq_of_next? distinct (hedge.next?_eq distinct straight)
    refine ⟨init ++ [last], rfl, ?_, hchain.1, by simp [hlast]⟩
    rw [← path.start, List.head?_append_of_ne_nil (init ++ [last]) (by simp)]

/-- A path to the end of a straight line of code ends with all of it. -/
theorem Path.straight_line {before inner after : List Line} {source line : Line}
    (path : listing.Path steps line.handle)
    (lines_eq : listing.lines.toList = before ++ source :: (inner ++ line :: after))
    (distinct : listing.Distinct)
    (straight : ∀ other ∈ inner ++ [line], ¬ listing.MergePoint other.handle) :
    ∃ front, steps = front ++ (source :: (inner ++ [line])).map (·.handle) := by
  induction inner using List.reverseRecOn generalizing line after steps with
  | nil =>
    have cut : listing.Cut before source (line :: after) := lines_eq
    obtain ⟨front, rfl, hpath⟩ := path.back cut distinct (straight line (by simp))
    obtain ⟨init, rfl⟩ := hpath.eq_concat
    exact ⟨init, by simp⟩
  | append_singleton init last ih =>
    have cut : listing.Cut (before ++ source :: init) last (line :: after) := by
      rw [Cut, lines_eq]
      simp
    obtain ⟨front, rfl, hpath⟩ := path.back cut distinct (straight line (by simp))
    have hlines : listing.lines.toList = before ++ source :: (init ++ last :: line :: after) := by
      rw [lines_eq]
      simp
    obtain ⟨front', rfl⟩ := ih hpath hlines
      (fun other hm => straight other (List.mem_append_left _ hm))
    exact ⟨front', by simp⟩

/-! ## The definition on every path -/

/-- An instruction that leaves this value on the stack: a literal, or a constant that the pool
holds. -/
inductive Literal (pool : ConstantPool) (value : Number) (type : TypeTag) :
    Instruction Handle → Prop where
  | push : Literal pool value type (.push value type)
  | constant {index : UInt16} {wide : Bool} (number : pool.number index = .ok value)
      (natural : value.naturalType = type) : Literal pool value type (.loadConstant index wide)

theorem literal_of_literal? {pool : ConstantPool} {code : Instruction Handle} {value : Number}
    {type : TypeTag} (h : literal? pool code = .ok (some (value, type))) :
    Literal pool value type code := by
  cases code with
  | push number tag =>
    cases h
    exact .push
  | loadConstant index wide =>
    obtain ⟨number, hnumber, he⟩ := Outcome.bind_eq_ok.mp h
    cases he
    exact .constant hnumber rfl
  | _ => cases h

/-- The path passes the literal and the store right after each other, and from then on nothing
on it is the store again or writes the local. -/
def DefinedAlong (listing : Listing) (slot : UInt16) (source store : Handle) (steps : List Handle) :
    Prop :=
  ∃ front back, steps = front ++ source :: store :: back ∧ store ∉ back ∧
    ∀ step ∈ back, ∃ code, listing.get? step = some code ∧ ¬ code.Writes slot

theorem Definition.definedAlong {load : Line} (definition : listing.Definition slot load)
    (distinct : listing.Distinct) {type : TypeTag} (load_eq : load.instruction = .load slot type)
    (path : listing.Path steps load.handle) :
    listing.DefinedAlong slot definition.source.handle definition.store.handle steps := by
  have hlines : listing.lines.toList = definition.before ++ definition.source ::
      (definition.store :: definition.between ++ load :: definition.after) := definition.lines_eq
  obtain ⟨front, rfl⟩ := path.straight_line hlines distinct definition.straight
  have cut : listing.Cut (definition.before ++ [definition.source]) definition.store
      (definition.between ++ load :: definition.after) := by
    rw [Cut, definition.lines_eq]
    simp
  refine ⟨front, (definition.between ++ [load]).map (·.handle), by simp, ?_, ?_⟩
  · intro hm
    obtain ⟨other, hother, he⟩ := List.mem_map.mp hm
    refine (cut.handle_ne distinct).2 other ?_ he
    simp only [List.mem_append, List.mem_cons] at hother ⊢
    tauto
  · intro step hm
    obtain ⟨line, hline, rfl⟩ := List.mem_map.mp hm
    have hmem : line ∈ listing.lines.toList := by
      rw [definition.lines_eq]
      simp only [List.mem_append, List.mem_cons] at hline ⊢
      tauto
    refine ⟨line.instruction, get?_of_mem distinct hmem, ?_⟩
    rcases List.mem_append.mp hline with hbetween | hload
    · exact (definition.keeps line hbetween).not_writes
    · rw [List.mem_singleton.mp hload, load_eq]
      intro writes
      cases writes

/-- The load at a handle that resolves reads a local that a store defined, right after a literal
of the resolved value, on every path of control to the load. -/
theorem resolveLoad_sound_on_every_path (derived : listing.Derived) {pool : ConstantPool}
    {value : Number} {type : TypeTag} (h : listing.resolveLoad pool handle = .ok (value, type)) :
    ∃ slot loadType store storeType source code,
      listing.get? handle = some (.load slot loadType) ∧
      listing.get? store = some (.store slot storeType) ∧
      listing.prev? store = some source ∧
      listing.get? source = some code ∧ Literal pool value type code ∧
      ∀ steps, listing.Path steps handle → listing.DefinedAlong slot source store steps := by
  have distinct := derived.sound.1
  unfold resolveLoad at h
  split at h
  case h_1 slot loadType hcode =>
    obtain ⟨before, load, after, cut, rfl, hload⟩ := exists_cut_of_get? hcode distinct
    obtain ⟨definition, hliteral⟩ := loadValue_eq_ok cut distinct h
    have hsource : listing.Cut definition.before definition.source
        (definition.store :: (definition.between ++ load :: definition.after)) :=
      definition.lines_eq
    refine ⟨slot, loadType, definition.store.handle, definition.type, definition.source.handle,
      definition.source.instruction, hcode, ?_, ?_, hsource.get? distinct,
      literal_of_literal? hliteral, ?_⟩
    · rw [hsource.forth.get? distinct, definition.store_eq]
    · rw [hsource.forth.prev? distinct]
      simp
    · intro steps path
      exact definition.definedAlong distinct hload path
  case h_2 => cases h
  case h_3 => cases h

end Listing

/-! ## A loop that loads what it stored -/

/-- Stores 3 and copies it to another local, for ever. -/
def copyLoop : Code where
  maxStack := 1
  maxLocals := 3
  bytes := #[0x06, 0x3C, 0x1B, 0x3D, 0xA7, 0xFF, 0xFC]
  exceptionTable := #[]

def copyLoopListing : Listing where
  lines := #[⟨⟨0⟩, .push (.int 3) .int, false⟩, ⟨⟨1⟩, .store 1 .int, false⟩,
    ⟨⟨2⟩, .load 1 .int, false⟩, ⟨⟨3⟩, .store 2 .int, false⟩, ⟨⟨4⟩, .jump ⟨0⟩, false⟩]
  fresh := 5
  handlers := #[]
  laidOut := false

def copyLoopItems : List (Nat × Instruction Nat) :=
  [(0, .push (.int 3) .int), (1, .store 1 .int), (2, .load 1 .int), (3, .store 2 .int),
    (4, .jump 0)]

theorem decode_copyLoop : copyLoop.decode .empty = .ok copyLoopListing := by
  have hstart : Decoding.resolveOffset (Decoding.boundaries copyLoopItems.toArray) 7 0 =
      .ok ⟨0⟩ := by
    have hfirst : copyLoopItems[0]? = some (0, .push (.int 3) .int) := rfl
    rw [Decoding.resolveOffset, (Decoding.boundaries_eq_some (by decide)).mpr ⟨_, hfirst⟩]
  refine Code.decode_eq_ok.mpr ⟨copyLoopItems, [.push (.int 3) .int, .store 1 .int, .load 1 .int,
    .store 2 .int, .jump ⟨0⟩], [], ⟨Decoding.streams_of_stream (by decide +kernel), ?_, .nil⟩, rfl⟩
  refine .cons rfl (.cons rfl (.cons rfl (.cons rfl (.cons ?_ .nil))))
  exact Outcome.bind_eq_ok.mpr ⟨_, hstart, rfl⟩

theorem resolveLoad_copyLoop : copyLoopListing.resolveLoad .empty ⟨2⟩ = .ok (.int 3, .int) := by
  have hmerge : ∀ handle,
      copyLoopListing.mergePoints.contains handle = ((⟨0⟩ : Handle) == handle) := by
    intro handle
    simp [Listing.mergePoints, copyLoopListing, Instruction.targets]
  have hget : copyLoopListing.get? ⟨2⟩ = some (.load 1 .int) := by decide
  have hbefore : copyLoopListing.linesBefore ⟨2⟩ =
      [⟨⟨1⟩, .store 1 .int, false⟩, ⟨⟨0⟩, .push (.int 3) .int, false⟩] := by decide
  simp [Listing.resolveLoad, hget, Listing.loadValue, hbefore, Listing.definition?, hmerge,
    Listing.literal?]

/-- Twice round the loop. -/
theorem path_copyLoop :
    copyLoopListing.Path [⟨0⟩, ⟨1⟩, ⟨2⟩, ⟨3⟩, ⟨4⟩, ⟨0⟩, ⟨1⟩, ⟨2⟩] ⟨2⟩ := by
  have distinct := Code.decode_distinct decode_copyLoop
  have cut0 : copyLoopListing.Cut [] ⟨⟨0⟩, .push (.int 3) .int, false⟩
      (⟨⟨1⟩, .store 1 .int, false⟩ :: copyLoopListing.lines.toList.drop 2) := rfl
  have cut1 : copyLoopListing.Cut (copyLoopListing.lines.toList.take 1) ⟨⟨1⟩, .store 1 .int, false⟩
      (⟨⟨2⟩, .load 1 .int, false⟩ :: copyLoopListing.lines.toList.drop 3) := rfl
  have cut2 : copyLoopListing.Cut (copyLoopListing.lines.toList.take 2) ⟨⟨2⟩, .load 1 .int, false⟩
      (⟨⟨3⟩, .store 2 .int, false⟩ :: copyLoopListing.lines.toList.drop 4) := rfl
  have cut3 : copyLoopListing.Cut (copyLoopListing.lines.toList.take 3) ⟨⟨3⟩, .store 2 .int, false⟩
      [⟨⟨4⟩, .jump ⟨0⟩, false⟩] := rfl
  have h0 := cut0.edge distinct rfl
  have h1 := cut1.edge distinct rfl
  have h2 := cut2.edge distinct rfl
  have h3 := cut3.edge distinct rfl
  have h4 : copyLoopListing.Edge ⟨4⟩ ⟨0⟩ := .branches (cut3.forth.get? distinct) List.mem_cons_self
  exact ⟨rfl, by simp [h0, h1, h2, h3, h4], rfl⟩

theorem resolveLoad_sound_on_every_path_copyLoop :
    copyLoopListing.Path [⟨0⟩, ⟨1⟩, ⟨2⟩, ⟨3⟩, ⟨4⟩, ⟨0⟩, ⟨1⟩, ⟨2⟩] ⟨2⟩ ∧ ∃ slot source store code,
      copyLoopListing.get? source = some code ∧ Listing.Literal .empty (.int 3) .int code ∧
      copyLoopListing.DefinedAlong slot source store
        [⟨0⟩, ⟨1⟩, ⟨2⟩, ⟨3⟩, ⟨4⟩, ⟨0⟩, ⟨1⟩, ⟨2⟩] := by
  obtain ⟨slot, _, store, _, source, code, -, -, -, hcode, literal, every⟩ :=
    Listing.resolveLoad_sound_on_every_path (.decoded decode_copyLoop) resolveLoad_copyLoop
  exact ⟨path_copyLoop, slot, source, store, code, hcode, literal, every _ path_copyLoop⟩

end BytecodeFold
