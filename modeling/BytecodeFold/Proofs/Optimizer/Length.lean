import BytecodeFold.Proofs.Fold.Reach
import BytecodeFold.Proofs.Listing.Room
import BytecodeFold.Proofs.Optimizer.Failure

/-!
# Lengths

Code without switches is never lengthened by an optimization. Its listing has room in the code
array, and keeps it through the layout and every fold, so it can be written again in no more bytes.
For the same reason no branch gets out of reach.
-/

namespace BytecodeFold

variable {code : Code} {pool : ConstantPool} {listing : Listing}

/-- Code without switches that decodes is loaded into a listing that has room in it. -/
theorem Code.roomy_of_load (short : code.bytes.size ≤ 65535)
    (decoded : code.decode pool = .ok listing)
    (straight : ∀ line ∈ listing.lines.toList, line.instruction.isSwitch = false) :
    ∃ start laid, code.load pool = .ok laid ∧
      Listing.Roomy start code.bytes.size laid.lines.toList := by
  obtain ⟨start, hroomy⟩ := Listing.roomy_of_decode decoded straight
  obtain ⟨length, laid, hlayout, -, hlaid⟩ :=
    hroomy.layout short (Listing.regular_of_decode decoded)
  exact ⟨start, laid, Code.load_eq_ok.mpr ⟨listing, length, decoded, hlayout⟩, hlaid⟩

/-- A session on a listing with room can be written in the bytes there are, and fails to finish only
for other reasons. -/
theorem Session.finish_of_roomy {session : Session} {start : Handle → Nat} {stop : Nat}
    (regular : session.listing.Regular session.pool) (short : stop ≤ 65535)
    (roomy : Listing.Roomy start stop session.listing.lines.toList) (method : Method) :
    FailsOnly Error.Plain (session.finish method) ∧
      ∀ code, session.finish method = .ok code → code.bytes.size ≤ stop := by
  obtain ⟨length, laid, hlayout, hlength, -⟩ := roomy.layout short regular
  have hsucceeds : FailsOnly Error.Plain session.listing.layout.1 := by
    rw [hlayout]
    exact .ok _
  refine ⟨failsOnly_finish regular method (regular.failsOnly_encode hsucceeds) fun _ h => h, ?_⟩
  intro code hfinish
  obtain ⟨laid', slots, hfinishes⟩ := finish_eq_ok hfinish
  obtain ⟨length', hlayout', hemit⟩ := Listing.encode_eq_ok hfinishes.encoded
  cases hlayout.symm.trans hlayout'
  obtain ⟨chunks, hemits⟩ := Listing.emit_eq_ok.mp hemit
  rw [hemits.size_eq]
  exact hlength

/-- The folds keep the room of a listing. -/
theorem Schedule.roomy_of_run {schedule : Schedule} {method : Method} {log : EventLog}
    {start : Handle → Nat} {stop : Nat} {outcome : Except Error Nat} {session : Session}
    (folding : ∀ pass ∈ schedule.passes, pass ∈ foldPasses) (regular : listing.Regular pool)
    (roomy : Listing.Roomy start stop listing.lines.toList)
    (run : schedule.run (opening method pool log listing) = (outcome, session)) :
    session.listing.Regular session.pool ∧
      Listing.Roomy start stop session.listing.lines.toList := by
  have hreaches := reaches_of_run run
  refine ⟨(hreaches.evolves folding regular).regular, ?_⟩
  refine hreaches.induct (motive := fun listing _ =>
    Listing.Roomy start stop listing.lines.toList) folding regular roomy ?_
  intro listing folded pool grown before line segment after code _ replaced replacement roomy
  exact roomy.replaced replaced replacement

/-- A plain error says neither that a branch is out of reach nor that the code is too long. -/
theorem Error.Plain.fits {e : Error} (plain : e.Plain) :
    (∀ offset, e ≠ .branchOutOfRange offset) ∧ ∀ length, e ≠ .malformed (.codeTooLong length) := by
  obtain ⟨-, hoverlong⟩ := plain
  constructor
  · rintro offset rfl
    cases hoverlong
  · rintro length rfl
    cases hoverlong

/-- Optimization never lengthens code without switches. If the code of a method has at most 65535
bytes, decodes and has no switch, then a schedule of the two folds does not fail because the code
is too long or a branch out of reach, and the code that it gives is no longer than the old one. -/
theorem optimizeMethod_never_lengthens {schedule : Schedule} {keep : Bool} {method : Method}
    {log log' : EventLog} {outcome : Except Error (Method × ConstantPool)}
    (folding : ∀ pass ∈ schedule.passes, pass ∈ foldPasses) (hcode : method.code = some code)
    (short : code.bytes.size ≤ 65535) (decodes : code.decode pool = .ok listing)
    (straight : ∀ line ∈ listing.lines.toList, line.instruction.isSwitch = false)
    (h : schedule.optimizeMethod keep method pool log = (outcome, log')) :
    (∀ e, outcome = .error e → (∀ offset, e ≠ .branchOutOfRange offset) ∧
      ∀ length, e ≠ .malformed (.codeTooLong length)) ∧
    ∀ method' pool', outcome = .ok (method', pool') → ∃ code', method'.code = some code' ∧
      code'.bytes.size ≤ code.bytes.size := by
  obtain ⟨start, laid, hload, hlaid⟩ := Code.roomy_of_load short decodes straight
  have hregular := Code.regular_of_load hload
  cases Schedule.stages_of_optimizeMethod hcode h with
  | unreadable load =>
    rw [hload] at load
    cases load
  | failed load run =>
    cases hload.symm.trans load
    obtain ⟨pass, hpass, mid, hmid, hfailed⟩ := Schedule.iterate_eq_error folding hregular run
    refine ⟨fun e he => ?_, fun _ _ he => by cases he⟩
    cases he
    exact (FoldPass.plain_of_run hpass hmid hfailed).fits
  | unchanged load run folds kept kind named =>
    refine ⟨fun e he => (by cases he), fun method' pool' he => ?_⟩
    cases he
    exact ⟨code, hcode, Nat.le_refl _⟩
  | unfinished load run finish =>
    cases hload.symm.trans load
    obtain ⟨hregular', hroomy⟩ := Schedule.roomy_of_run folding hregular hlaid run
    refine ⟨fun e he => ?_, fun _ _ he => by cases he⟩
    cases he
    exact ((Session.finish_of_roomy hregular' short hroomy method).1 _ finish).fits
  | @optimized listing count session result event load run changed finish kind named =>
    cases hload.symm.trans load
    obtain ⟨hregular', hroomy⟩ := Schedule.roomy_of_run folding hregular hlaid run
    refine ⟨fun e he => (by cases he), fun method' pool' he => ?_⟩
    cases he
    exact ⟨result, rfl, (Session.finish_of_roomy hregular' short hroomy method).2 _ finish⟩

/-- The conjunction is folded from four bytes to three. -/
theorem optimizeMethod_never_lengthens_conjunction : ∃ listing outcome log',
    conjunction.bytes.size ≤ 65535 ∧ conjunction.decode .empty = .ok listing ∧
      (∀ line ∈ listing.lines.toList, line.instruction.isSwitch = false) ∧
      ({} : Config).schedule.optimizeMethod true (conjunctionMethod "()I") .empty {} =
        (outcome, log') ∧
      (∀ e, outcome = .error e → (∀ offset, e ≠ .branchOutOfRange offset) ∧
        ∀ length, e ≠ .malformed (.codeTooLong length)) ∧
      ∀ method' pool', outcome = .ok (method', pool') → ∃ code', method'.code = some code' ∧
        code'.bytes.size ≤ 4 := by
  obtain ⟨log', hoptimized, -⟩ := optimizeMethod_conjunction {}
  obtain ⟨decoded, length, hdecode, hlayout⟩ := Code.load_eq_ok.mp load_conjunction
  obtain ⟨-, -, hsame⟩ := Listing.layout_eq_ok hlayout
  have hstraight : ∀ line ∈ decoded.lines.toList, line.instruction.isSwitch = false := by
    intro line hm
    have hcode := List.mem_map_of_mem (f := Line.instruction) hm
    rw [← hsame.map_instruction] at hcode
    have hall : ∀ code ∈ conjunctionListing.lines.toList.map (·.instruction),
        code.isSwitch = false := by decide
    exact hall _ hcode
  exact ⟨decoded, _, log', by decide, hdecode, hstraight, hoptimized,
    optimizeMethod_never_lengthens (fun _ hpass => hpass) rfl (by decide) hdecode hstraight
      hoptimized⟩

end BytecodeFold
