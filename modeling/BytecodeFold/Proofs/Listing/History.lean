import BytecodeFold.Proofs.Codec.Regular

/-!
# Encodings and the history of a listing

What a listing is encoded to depends on its instructions, its exception handlers and the forms of
its jumps, and not on the names of its handles. Two listings that agree in these are encoded to the
same bytes, or both fail, however they were built. The forms are what is left of earlier layouts: a
jump that a layout has widened stays long when its target comes nearer again.
-/

namespace BytecodeFold

open Outcome (Agree)

/-! ## Instructions under other handles -/

namespace Encoding

variable {f : Handle → Handle} {offsets offsets' : Handle → Option Nat} {source target : Handle}

/-- The second table has the offset of the handle under its other name. -/
def SamePlace (f : Handle → Handle) (offsets offsets' : Handle → Option Nat) (handle : Handle) :
    Prop :=
  offsets' (f handle) = offsets handle

theorem displacement_agree (hsource : SamePlace f offsets offsets' source)
    (htarget : SamePlace f offsets offsets' target) :
    Agree Eq (displacement offsets source target)
      (displacement offsets' (f source) (f target)) := by
  unfold displacement
  rw [hsource, htarget]
  cases offsets source with
  | none => exact .error _ _
  | some start =>
    cases offsets target with
    | none => exact .error _ _
    | some stop => exact .ok rfl

theorem shortDisplacement_agree (hsource : SamePlace f offsets offsets' source)
    (htarget : SamePlace f offsets offsets' target) :
    Agree Eq (shortDisplacement offsets source target)
      (shortDisplacement offsets' (f source) (f target)) := by
  refine (displacement_agree hsource htarget).bind_eq fun distance => ?_
  split
  · exact .ok rfl
  · exact .error _ _

theorem longDisplacement_agree (hsource : SamePlace f offsets offsets' source)
    (htarget : SamePlace f offsets offsets' target) :
    Agree Eq (longDisplacement offsets source target)
      (longDisplacement offsets' (f source) (f target)) :=
  (displacement_agree hsource htarget).bind_eq fun _ => .ok rfl

/-- The cases of a switch under other handles. -/
theorem forall₂_cases (f : Handle → Handle) (cases : List (Int32 × Handle)) :
    List.Forall₂ (fun case case' => case ∈ cases ∧ case' = (case.1, f case.2)) cases
      (cases.map fun case => (case.1, f case.2)) :=
  List.forall₂_map_right_iff.mpr (List.forall₂_same.mpr fun _ hm => ⟨hm, rfl⟩)

theorem switchCases_agree (hsource : SamePlace f offsets offsets' source) {kind : SwitchKind}
    {cases : List (Int32 × Handle)}
    (hcases : ∀ case ∈ cases, SamePlace f offsets offsets' case.2) :
    Agree Eq (switchCases offsets source kind cases)
      (switchCases offsets' (f source) kind (cases.map fun case => (case.1, f case.2))) := by
  have hkeys : (cases.map fun case => (case.1, f case.2)).map (·.1.toInt) =
      cases.map (·.1.toInt) := by
    rw [List.map_map]
    rfl
  unfold switchCases
  dsimp only
  rw [hkeys, List.head?_map, List.getLast?_map, List.length_map]
  cases kind with
  | table =>
    dsimp only
    cases cases.head? with
    | none => exact .error _ _
    | some low =>
      cases cases.getLast? with
      | none => exact .error _ _
      | some high =>
        dsimp only [Option.map_some]
        split
        · refine (Agree.list_mapM_eq (forall₂_cases f cases) ?_).bind_eq fun _ => .ok rfl
          rintro case _ ⟨hm, rfl⟩
          exact longDisplacement_agree hsource (hcases case hm)
        · exact .error _ _
  | lookup =>
    dsimp only
    split
    · refine (Agree.list_mapM_eq (forall₂_cases f cases) ?_).bind_eq fun _ => .ok rfl
      rintro case _ ⟨hm, rfl⟩
      exact (longDisplacement_agree hsource (hcases case hm)).bind_eq fun _ => .ok rfl
    · exact .error _ _

theorem switch_agree (hsource : SamePlace f offsets offsets' source) {kind : SwitchKind}
    {default : Handle} {cases : List (Int32 × Handle)}
    (hdefault : SamePlace f offsets offsets' default)
    (hcases : ∀ case ∈ cases, SamePlace f offsets offsets' case.2) :
    Agree Eq (switch offsets source kind default cases)
      (switch offsets' (f source) kind (f default) (cases.map fun case => (case.1, f case.2))) := by
  unfold switch
  rw [hsource]
  cases offsets source with
  | none => exact .error _ _
  | some offset =>
    refine (longDisplacement_agree hsource hdefault).bind_eq fun distance => ?_
    exact (switchCases_agree hsource hcases).bind_eq fun _ => .ok rfl

/-- An instruction is written as the same bytes under another handle, if it is a jump in the same
form. -/
theorem instruction_agree (hsource : SamePlace f offsets offsets' source) {long long' : Bool}
    {code : Instruction Handle} (hlong : code.isJump = true → long' = long)
    (htargets : ∀ target ∈ code.targets, SamePlace f offsets offsets' target) :
    Agree Eq (instruction offsets source long code)
      (instruction offsets' (f source) long' (code.mapTargets f)) := by
  cases code with
  | branch condition target =>
    have htarget := htargets target (List.mem_singleton_self _)
    exact (shortDisplacement_agree hsource htarget).bind_eq fun _ => .ok rfl
  | jump target | subroutine target =>
    have htarget := htargets target (List.mem_singleton_self _)
    rw [hlong rfl]
    cases long with
    | true =>
      exact (longDisplacement_agree hsource htarget).bind_eq fun _ => .ok rfl
    | false =>
      exact (shortDisplacement_agree hsource htarget).bind_eq fun _ => .ok rfl
  | switch kind default cases =>
    obtain ⟨hdefault, hcases⟩ := List.forall_mem_cons.mp htargets
    exact switch_agree hsource hdefault fun case hm => hcases _ (List.mem_map_of_mem hm)
  | _ => exact .refl _

theorem exceptionEntry_agree {entry : ExceptionHandler} (length : Nat)
    (hhandles : ∀ handle ∈ entry.handles, SamePlace f offsets offsets' handle) :
    Agree Eq (exceptionEntry offsets length entry)
      (exceptionEntry offsets' length (entry.rename f)) := by
  obtain ⟨start, stop, handler, catchType⟩ := entry
  have hstart : offsets' (f start) = offsets start := hhandles start List.mem_cons_self
  have hhandler : offsets' (f handler) = offsets handler :=
    hhandles handler (by simp [ExceptionHandler.handles])
  simp only [exceptionEntry, ExceptionHandler.rename, hstart, hhandler]
  cases offsets start with
  | none => exact .error _ _
  | some startOffset =>
    cases stop with
    | none =>
      cases offsets handler with
      | none => exact .error _ _
      | some handlerOffset => exact .ok rfl
    | some stop =>
      have hstop : offsets' (f stop) = offsets stop :=
        hhandles stop (by simp [ExceptionHandler.handles])
      simp only [Option.map_some, hstop]
      cases offsets stop with
      | none => exact .error _ _
      | some stopOffset =>
        cases offsets handler with
        | none => exact .error _ _
        | some handlerOffset => exact .ok rfl

end Encoding

/-! ## Listings under other handles -/

/-- The second line is the first under other handles, if it is a jump in the same form. -/
structure Line.Copies (f : Handle → Handle) (line copy : Line) : Prop where
  renames : Line.Renames f line copy
  long_eq : line.instruction.isJump = true → copy.long = line.long

theorem Line.Copies.size_eq {f : Handle → Handle} {line copy : Line} (h : line.Copies f copy)
    (offset : Nat) :
    copy.instruction.size offset copy.long = line.instruction.size offset line.long := by
  rw [h.renames.2, Instruction.size_mapTargets]
  cases hjump : line.instruction.isJump with
  | true => rw [h.long_eq hjump]
  | false => exact Instruction.size_of_not_isJump hjump offset _ _

namespace Listing

/-- The second listing is the first under other handles, with all jumps in the same forms. -/
structure Copies (f : Handle → Handle) (listing copy : Listing) : Prop where
  lines : List.Forall₂ (Line.Copies f) listing.lines.toList copy.lines.toList
  handlers : copy.handlers.toList = listing.handlers.toList.map (·.rename f)
  injective : ∀ a b, listing.Mentions a → listing.Mentions b → f a = f b → a = b

variable {f : Handle → Handle} {listing copy : Listing} {lines lines' : List Line} {offset : Nat}

theorem Copies.renames (h : listing.Copies f copy) : listing.Renames f copy :=
  ⟨h.lines.imp fun _ _ hline => hline.renames, h.handlers, h.injective⟩

/-- Copies stay copies when their jumps get the same forms. -/
theorem Copies.of_lines {result result' : Listing} (h : listing.Copies f copy)
    (hlines : List.Forall₂ (Line.Copies f) result.lines.toList result'.lines.toList)
    (hsame : SameLines listing.lines.toList result.lines.toList)
    (hhandlers : result.handlers = listing.handlers)
    (hhandlers' : result'.handlers = copy.handlers) :
    result.Copies f result' where
  lines := hlines
  handlers := by rw [hhandlers, hhandlers', h.handlers]
  injective a b ha hb := h.injective a b (hsame.mentions hhandlers ha) (hsame.mentions hhandlers hb)

/-- Copies of lines stand at the same offsets. -/
theorem placedFrom_copies (h : List.Forall₂ (Line.Copies f) lines lines') (offset : Nat) :
    List.Forall₂ (fun pair pair' => pair.1.Copies f pair'.1 ∧ pair'.2 = pair.2)
      (placedFrom offset lines) (placedFrom offset lines') ∧
    lengthFrom offset lines' = lengthFrom offset lines := by
  induction h generalizing offset with
  | nil => exact ⟨.nil, rfl⟩
  | @cons line line' lines lines' hline _ ih =>
    rw [placedFrom, placedFrom, lengthFrom, lengthFrom, hline.size_eq]
    obtain ⟨hplaced, hlength⟩ := ih (offset + line.instruction.size offset line.long)
    exact ⟨.cons ⟨hline, rfl⟩ hplaced, hlength⟩

theorem Copies.samePlace (h : listing.Copies f copy) (distinct : listing.Distinct) {handle : Handle}
    (mentions : listing.Mentions handle) :
    Encoding.SamePlace f (place listing.lines).offsets (place copy.lines).offsets handle := by
  have hplaced := (placedFrom_copies h.lines 0).1
  refine Option.ext fun place' => ?_
  rw [offsets_eq_some (h.renames.distinct distinct), offsets_eq_some distinct]
  constructor
  · rintro ⟨line', hm', hhandle⟩
    obtain ⟨⟨line, place⟩, hm, hline, rfl⟩ := Outcome.exists_of_mem_right hplaced hm'
    exact ⟨line, hm, h.injective _ _ (.line (mem_of_mem_placedFrom hm)) mentions
      (hline.renames.1.symm.trans hhandle)⟩
  · rintro ⟨line, hm, rfl⟩
    obtain ⟨⟨line', place⟩, hm', hline, rfl⟩ := Outcome.exists_of_mem_right hplaced.flip hm
    exact ⟨line', hm', hline.renames.1⟩

/-! ## Layouts -/

theorem tooFar_agree {offsets offsets' : Handle → Option Nat} {line copy : Line} {target : Handle}
    (hline : line.Copies f copy) (htarget : Encoding.SamePlace f offsets offsets' target) :
    Agree Eq (tooFar offsets line offset target) (tooFar offsets' copy offset (f target)) := by
  unfold tooFar
  rw [htarget, hline.renames.2]
  cases offsets target with
  | none => exact .error _ _
  | some place =>
    dsimp only
    split
    · exact .ok rfl
    · cases hi : line.instruction with
      | jump far | subroutine far =>
        have hlong := hline.long_eq (by rw [hi]; rfl)
        exact .ok (by rw [hlong])
      | switch kind default cases => exact .ok rfl
      | _ => exact .error _ _

theorem widen_agree {offsets offsets' : Handle → Option Nat} {line copy : Line}
    (hline : line.Copies f copy)
    (htargets : ∀ target ∈ line.instruction.targets, Encoding.SamePlace f offsets offsets' target) :
    Agree (Line.Copies f) (widen offsets line offset) (widen offsets' copy offset) := by
  have hpairs : List.Forall₂ (fun target target' => Encoding.SamePlace f offsets offsets' target ∧
      target' = f target) line.instruction.targets copy.instruction.targets := by
    rw [hline.renames.2, Instruction.targets_mapTargets, List.forall₂_map_right_iff,
      List.forall₂_same]
    exact fun target hm => ⟨htargets target hm, rfl⟩
  refine (Agree.list_mapM_eq hpairs ?_).bind_eq fun far => ?_
  · rintro target _ ⟨hplace, rfl⟩
    exact tooFar_agree hline hplace
  · refine .ok ⟨hline.renames, fun hjump => ?_⟩
    dsimp only
    rw [hline.long_eq hjump]

theorem Copies.unplaced?_eq_none_iff (h : listing.Copies f copy) (distinct : listing.Distinct) :
    unplaced? (place copy.lines).offsets copy.handlers = none ↔
      unplaced? (place listing.lines).offsets listing.handlers = none := by
  rw [unplaced?_eq_none, unplaced?_eq_none, h.handlers, List.forall_mem_map]
  refine forall₂_congr fun entry hm => ?_
  rw [ExceptionHandler.handles_rename, List.forall_mem_map]
  refine forall₂_congr fun handle hh => ?_
  have hplace : (place copy.lines).offsets[f handle]? = (place listing.lines).offsets[handle]? :=
    h.samePlace distinct (.handler hm hh)
  rw [hplace]

theorem Copies.layoutRound_agree (h : listing.Copies f copy) (distinct : listing.Distinct) :
    Agree (fun round round' => round'.1 = round.1 ∧
        List.Forall₂ (Line.Copies f) round.2.toList round'.2.toList)
      (layoutRound listing.handlers listing.lines) (layoutRound copy.handlers copy.lines) := by
  obtain ⟨hplaced, hlength⟩ := placedFrom_copies h.lines 0
  have hlengths : (place copy.lines).length = (place listing.lines).length := by
    rw [place_eq, place_eq]
    exact hlength
  unfold layoutRound
  dsimp only
  rw [hlengths]
  split
  · exact .error _ _
  split
  · exact .error _ _
  · have hpairs : List.Forall₂ (fun pair pair' => pair.1 ∈ listing.lines.toList ∧
        pair.1.Copies f pair'.1 ∧ pair'.2 = pair.2)
        (place listing.lines).placed.toList (place copy.lines).placed.toList := by
      rw [place_eq, place_eq]
      exact Outcome.forall₂_imp_of_mem hplaced
        fun pair hm pair' hpair => ⟨mem_of_mem_placedFrom hm, hpair⟩
    refine Agree.bind (r := fun wider wider' => List.Forall₂ (Line.Copies f) wider.toList
      wider'.toList) (Agree.array_mapM hpairs ?_) ?_
    · rintro ⟨line, offset⟩ ⟨line', _⟩ ⟨hm, hline, rfl⟩
      exact widen_agree hline fun target ht => h.samePlace distinct (.target hm ht)
    · intro wider wider' hwider
      have hunplaced := h.unplaced?_eq_none_iff distinct
      cases hu : unplaced? (place listing.lines).offsets listing.handlers with
      | none =>
        rw [hunplaced.mpr hu]
        exact .ok ⟨rfl, hwider⟩
      | some missing =>
        cases hu' : unplaced? (place copy.lines).offsets copy.handlers with
        | none =>
          rw [hunplaced.mp hu'] at hu
          cases hu
        | some missing' => exact .error _ _

theorem shortJumps_copies {lines lines' : Array Line}
    (h : List.Forall₂ (Line.Copies f) lines.toList lines'.toList) :
    shortJumps lines' = shortJumps lines := by
  rw [shortJumps, shortJumps, ← Array.countP_toList, ← Array.countP_toList]
  generalize lines.toList = lines at h
  generalize lines'.toList = lines' at h
  induction h with
  | nil => rfl
  | @cons line line' _ _ hline _ ih =>
    have hcounts : line'.isShortJump = line.isShortJump := by
      rw [Line.isShortJump, Line.isShortJump, hline.renames.2, Instruction.isJump_mapTargets]
      cases hjump : line.instruction.isJump with
      | true => rw [hline.long_eq hjump]
      | false => rfl
    rw [List.countP_cons, List.countP_cons, ih, hcounts]

/-- Copies are laid out in the same rounds, also when one of these fails. -/
theorem layoutLines_agree {handlers handlers' : Array ExceptionHandler} {lines lines' : Array Line}
    (h : (Listing.mk lines 0 handlers false).Copies f (Listing.mk lines' 0 handlers' false))
    (distinct : (Listing.mk lines 0 handlers false).Distinct) :
    Agree Eq (layoutLines handlers lines).1 (layoutLines handlers' lines').1 ∧
      List.Forall₂ (Line.Copies f) (layoutLines handlers lines).2.toList
        (layoutLines handlers' lines').2.toList := by
  fun_induction layoutLines handlers lines generalizing lines' with
  | case1 lines e he =>
    have hround := h.layoutRound_agree distinct
    rw [he] at hround
    obtain ⟨e', he'⟩ := hround.of_error
    rw [layoutLines_of_error he']
    exact ⟨.error _ _, h.lines⟩
  | case2 length lines hr =>
    have hround := h.layoutRound_agree distinct
    rw [hr] at hround
    obtain ⟨⟨length', wider'⟩, hr', rfl, hwider⟩ := hround.of_ok
    have hsame : wider' = lines' := (layoutRound_unchanged_iff hr').mpr
      ((shortJumps_copies hwider).trans (shortJumps_copies h.lines).symm)
    rw [layoutLines_of_ok hr', if_pos hsame]
    exact ⟨.ok rfl, h.lines⟩
  | case3 lines length wider hr hne ih =>
    have hround := h.layoutRound_agree distinct
    rw [hr] at hround
    obtain ⟨⟨_, wider'⟩, hr', rfl, hwider⟩ := hround.of_ok
    have hchanged : wider' ≠ lines' := by
      rw [Ne, layoutRound_unchanged_iff hr', shortJumps_copies hwider, shortJumps_copies h.lines,
        ← layoutRound_unchanged_iff hr]
      exact hne
    have hsame := layoutRound_same hr
    rw [layoutLines_of_ok hr', if_neg hchanged]
    exact ih (h.of_lines hwider hsame rfl rfl) (hsame.distinct distinct)

/-! ## Encodings -/

theorem Copies.layout_agree (h : listing.Copies f copy) (distinct : listing.Distinct) :
    Agree Eq listing.layout.1 copy.layout.1 ∧ listing.layout.2.Copies f copy.layout.2 := by
  have hcopies : (Listing.mk listing.lines 0 listing.handlers false).Copies f
      (Listing.mk copy.lines 0 copy.handlers false) := h.of_lines h.lines (.refl _) rfl rfl
  obtain ⟨houtcome, hlines⟩ := layoutLines_agree hcopies distinct
  have hsame := layoutLines_same listing.handlers listing.lines
  unfold layout
  generalize layoutLines listing.handlers listing.lines = laid at houtcome hlines hsame ⊢
  generalize layoutLines copy.handlers copy.lines = laid' at houtcome hlines ⊢
  obtain ⟨outcome, lines⟩ := laid
  obtain ⟨outcome', lines'⟩ := laid'
  cases houtcome with
  | ok hlength => exact ⟨.ok hlength, h.of_lines hlines hsame rfl rfl⟩
  | error e e' => exact ⟨.error e e', h.of_lines hlines hsame rfl rfl⟩

theorem Copies.emit_agree (h : listing.Copies f copy) (distinct : listing.Distinct)
    (laidOut : listing.laidOut = true) (laidOut' : copy.laidOut = true) (length : Nat) :
    Agree Eq (listing.emit length) (copy.emit length) := by
  have hplace : ∀ handle, listing.Mentions handle →
      Encoding.SamePlace f listing.offsets copy.offsets handle := by
    intro handle hm
    rw [offsets_of_laidOut laidOut, offsets_of_laidOut laidOut']
    exact h.samePlace distinct hm
  have hlines : List.Forall₂ (fun line line' => line ∈ listing.lines.toList ∧ line.Copies f line')
      listing.lines.toList copy.lines.toList :=
    Outcome.forall₂_imp_of_mem h.lines fun line hm line' hline => ⟨hm, hline⟩
  have hhandlers : List.Forall₂ (fun entry entry' => entry ∈ listing.handlers.toList ∧
      entry' = entry.rename f) listing.handlers.toList copy.handlers.toList := by
    rw [h.handlers, List.forall₂_map_right_iff, List.forall₂_same]
    exact fun entry hm => ⟨hm, rfl⟩
  unfold emit
  dsimp only
  rw [← Array.foldlM_toList, ← Array.foldlM_toList]
  refine (Agree.list_foldlM hlines ?_ _).bind_eq fun bytes => ?_
  · rintro bytes line line' ⟨hm, hline⟩
    rw [hline.renames.1, hline.renames.2]
    exact (Encoding.instruction_agree (hplace _ (.line hm)) hline.long_eq
      fun target ht => hplace _ (.target hm ht)).bind_eq fun _ => .ok rfl
  · split
    · exact .error _ _
    · refine (Agree.array_mapM (s := Eq) hhandlers ?_).bind ?_
      · rintro entry _ ⟨hm, rfl⟩
        exact Encoding.exceptionEntry_agree length fun handle hh => hplace _ (.handler hm hh)
      · intro table table' htable
        rw [List.forall₂_eq_eq_eq, Array.toList_inj] at htable
        exact .ok (by rw [htable])

/-- Encoding depends on the history of a listing only through the forms of its jumps. If two
listings that were built by any operations are equal up to the names of their handles, and their
jumps are in the same forms, then they are encoded to the same bytes and exception table, or neither
can be encoded. -/
theorem encode_same {first second : Listing} (built : first.Built) (copies : first.Copies f second)
    (result : Array UInt8 × Array ExceptionEntry) :
    first.encode.1 = .ok result ↔ second.encode.1 = .ok result := by
  obtain ⟨houtcome, hlaid⟩ := copies.layout_agree built.sound.1
  rcases hfirst : first.layout with ⟨outcome, laid⟩
  rcases hsecond : second.layout with ⟨outcome', laid'⟩
  rw [hfirst, hsecond] at houtcome hlaid
  rw [encode, encode, hfirst, hsecond]
  cases houtcome with
  | @ok length length' hlength =>
    cases hlength
    obtain ⟨hready, -, hsame⟩ := layout_eq_ok hfirst
    obtain ⟨hready', -, -⟩ := layout_eq_ok hsecond
    exact (hlaid.emit_agree (hsame.distinct built.sound.1) hready.laidOut hready'.laidOut
      length).eq_ok
  | error e e' => exact (Agree.error e e').eq_ok

/-! ## A jump that stays long -/

/-- A switch of 5000 cases, more than two bytes can reach across. -/
def longSwitch : Instruction Handle :=
  .switch .lookup ⟨2⟩ ((List.range 5000).map fun key => (Int32.ofNat key, ⟨2⟩))

def detourLines (long : Bool) : Array Line :=
  #[⟨⟨0⟩, .jump ⟨2⟩, long⟩, ⟨⟨1⟩, longSwitch, false⟩, ⟨⟨2⟩, .nop, false⟩]

/-- A jump across the switch. -/
def detour : Listing := ⟨detourLines false, 3, #[], false⟩

theorem placedFrom_detourLines (long : Bool) : placedFrom 0 (detourLines long).toList =
    [(⟨⟨0⟩, .jump ⟨2⟩, long⟩, 0), (⟨⟨1⟩, longSwitch, false⟩, if long then 5 else 3),
      (⟨⟨2⟩, .nop, false⟩, if long then 40016 else 40012)] := by
  cases long <;> simp [detourLines, placedFrom, longSwitch, Instruction.size, switchPadding]

theorem layoutRound_detourLines (long : Bool) : layoutRound #[] (detourLines long) =
    .ok (if long then 40017 else 40013, detourLines true) := by
  have hplaced := placedFrom_detourLines long
  have hdistinct : ((detourLines long).toList.map (·.handle)).Nodup := by
    cases long <;> decide
  have hlast : (place (detourLines long)).offsets[(⟨2⟩ : Handle)]? =
      some (if long then 40016 else 40012) := by
    refine (offsets_eq_some hdistinct).mpr ⟨⟨⟨2⟩, .nop, false⟩, ?_, rfl⟩
    rw [hplaced]
    simp
  have hjump : widen (place (detourLines long)).offsets ⟨⟨0⟩, .jump ⟨2⟩, long⟩ 0 =
      .ok ⟨⟨0⟩, .jump ⟨2⟩, true⟩ := by
    cases long <;> simp [widen, tooFar, Instruction.targets, hlast, fitsSigned]
  refine layoutRound_eq_ok.mpr ⟨?_, ?_, ?_, rfl⟩
  · cases long <;> simp [detourLines, lengthFrom, longSwitch, Instruction.nop, Instruction.size,
      switchPadding]
  · cases long <;> decide
  · rw [hplaced]
    exact .cons hjump (.cons (widen_switch (by simp) hlast _) (.cons rfl .nil))

theorem layout_detour : detour.layout = (.ok 40017, ⟨detourLines true, 3, #[], true⟩) := by
  have hlines : layoutLines #[] (detourLines false) = (.ok 40017, detourLines true) := by
    have hchanged : detourLines true ≠ detourLines false := by simp [detourLines]
    rw [layoutLines_of_ok (layoutRound_detourLines false), if_neg hchanged,
      layoutLines_of_ok (layoutRound_detourLines true), if_pos rfl]
    rfl
  simp only [layout, detour, hlines]

/-- The detour after the switch was deleted. -/
def shortcut : Listing := ⟨#[⟨⟨0⟩, .jump ⟨2⟩, true⟩, ⟨⟨2⟩, .nop, false⟩], 3, #[], false⟩

theorem shortcut_built : shortcut.Built := by
  have built : (Listing.mk (detourLines true) 3 #[] true).Built := by
    have appended : detour.Built := ((Built.empty.append (.jump ⟨2⟩)).append longSwitch).append .nop
    have laid := appended.layout
    rw [layout_detour] at laid
    exact laid
  have hsegment : (Listing.mk (detourLines true) 3 #[] true).Segment [⟨⟨0⟩, .jump ⟨2⟩, true⟩]
      [⟨⟨1⟩, longSwitch, false⟩] [⟨⟨2⟩, .nop, false⟩] ⟨⟨1⟩, longSwitch, false⟩
      ⟨⟨1⟩, longSwitch, false⟩ := ⟨rfl, rfl, rfl⟩
  have hdelete : (Listing.mk (detourLines true) 3 #[] true).deleteRange ⟨1⟩ ⟨1⟩ = .ok shortcut := by
    refine hsegment.deleteRange_of_unreferenced built.sound.1 ⟨by simp, ?_⟩
    intro line hm hout target ht
    simp only [detourLines, List.mem_cons, List.not_mem_nil, or_false] at hm
    rcases hm with rfl | rfl | rfl
    · rw [List.mem_singleton.mp ht]
      decide
    · exact absurd (List.mem_singleton_self _) hout
    · cases ht
  exact built.deleteRange hdelete

theorem encode_shortcut : shortcut.encode.1 = .ok (#[0xC8, 0x00, 0x00, 0x00, 0x05, 0x00], #[]) := by
  have hround : layoutRound shortcut.handlers shortcut.lines = .ok (6, shortcut.lines) := by
    simp [layoutRound, place, Placement.offsets, widen, tooFar, unplaced?, Instruction.targets,
      Instruction.size, fitsSigned, shortcut, Instruction.nop]
  rw [encode, layout_of_unchanged hround]
  simp [emit, offsets, shortcut, Instruction.nop, place, Placement.offsets, Instruction.size,
    Encoding.instruction, Encoding.longDisplacement, Encoding.displacement,
    Std.HashMap.getElem_insert]
  rfl

/-- The shortcut under other handles, its jump as long. -/
def shortcutRenamed : Listing := ⟨#[⟨⟨7⟩, .jump ⟨9⟩, true⟩, ⟨⟨9⟩, .nop, false⟩], 12, #[], false⟩

theorem encode_same_shortcut : shortcut.Built ∧
    shortcut.Copies (fun handle => ⟨handle.index + 7⟩) shortcutRenamed ∧
    shortcutRenamed.encode.1 = .ok (#[0xC8, 0x00, 0x00, 0x00, 0x05, 0x00], #[]) := by
  have copies : shortcut.Copies (fun handle => ⟨handle.index + 7⟩) shortcutRenamed := by
    refine ⟨?_, rfl, fun a b _ _ h => ?_⟩
    · exact .cons ⟨⟨rfl, rfl⟩, fun _ => rfl⟩ (.cons ⟨⟨rfl, rfl⟩, fun _ => rfl⟩ .nil)
    · cases a
      cases b
      simpa using h
  exact ⟨shortcut_built, copies, (encode_same shortcut_built copies _).mp encode_shortcut⟩

/-- The same instructions, appended one after the other. -/
def direct : Listing := ⟨#[⟨⟨0⟩, .jump ⟨1⟩, false⟩, ⟨⟨1⟩, .nop, false⟩], 2, #[], false⟩

theorem encode_direct : direct.encode.1 = .ok (#[0xA7, 0x00, 0x03, 0x00], #[]) := by
  have hround : layoutRound direct.handlers direct.lines = .ok (4, direct.lines) := by
    simp [layoutRound, place, Placement.offsets, widen, tooFar, unplaced?, Instruction.targets,
      Instruction.size, fitsSigned, direct, Instruction.nop]
  rw [encode, layout_of_unchanged hround]
  simp [emit, offsets, direct, Instruction.nop, place, Placement.offsets, Instruction.size,
    Encoding.instruction, Encoding.shortDisplacement, Encoding.displacement,
    Std.HashMap.getElem_insert, fitsSigned]
  rfl

/-- Encoding depends on more than the instructions. A jump that reaches its target with two bytes is
written in its long form because an earlier layout, of a longer listing, has widened it. -/
theorem encode_depends_on_history : shortcut.Built ∧ direct.Built ∧
    shortcut.Renames (fun handle => if handle = ⟨2⟩ then ⟨1⟩ else handle) direct ∧
    shortcut.encode.1 = .ok (#[0xC8, 0x00, 0x00, 0x00, 0x05, 0x00], #[]) ∧
    direct.encode.1 = .ok (#[0xA7, 0x00, 0x03, 0x00], #[]) := by
  have hmentions : ∀ handle, shortcut.Mentions handle → handle = ⟨0⟩ ∨ handle = ⟨2⟩ := by
    rintro _ (⟨hm⟩ | ⟨hm, ht⟩ | ⟨hm, hh⟩)
    · simp only [shortcut, List.mem_cons, List.not_mem_nil, or_false] at hm
      rcases hm with rfl | rfl <;> simp
    · simp only [shortcut, List.mem_cons, List.not_mem_nil, or_false] at hm
      rcases hm with rfl | rfl
      · exact .inr (List.mem_singleton.mp ht)
      · cases ht
    · cases hm
  refine ⟨shortcut_built, (Built.empty.append (.jump ⟨1⟩)).append .nop, ⟨?_, rfl, ?_⟩,
    encode_shortcut, encode_direct⟩
  · exact .cons ⟨rfl, rfl⟩ (.cons ⟨rfl, rfl⟩ .nil)
  · intro a b ha hb
    rcases hmentions a ha with rfl | rfl <;> rcases hmentions b hb with rfl | rfl <;> decide

end Listing

end BytecodeFold
