import BytecodeFold.Proofs.Execution.Folding
import BytecodeFold.Proofs.Fold.Run

/-!
# Folding preserves behaviour

The listings that folding works on come from a code array by layouts and folds. On each of them
every handle names one line and every literal is well typed. A pass that folds one of them leaves
a listing that behaves like the one before, for every environment and all first locals, as long as
these bring in no return address but those that the calls of the listing leave. Any other return
address may lead into the middle of what a fold replaces.
-/

namespace BytecodeFold

/-- The listings that come from a code array by layouts and folds. -/
inductive Listing.Derived : Listing → Prop where
  | decoded {code : Code} {pool : ConstantPool} {listing : Listing}
      (h : code.decode pool = .ok listing) : Derived listing
  | laidOut {listing : Listing} (derived : Derived listing) : Derived listing.layout.2
  | folded {session result : Session} {pass : FoldPass} (derived : Derived session.listing)
      (mem : pass ∈ foldPasses) (h : pass.run session = (.ok true, result)) : Derived result.listing

variable {session result : Session}

/-! ## Derived listings -/

/-- What folds and layouts keep: distinct handles and well typed literals. -/
theorem Listing.Derived.sound {listing : Listing} (derived : listing.Derived) :
    listing.Distinct ∧ listing.WellTyped := by
  induction derived with
  | decoded h => exact ⟨Code.decode_distinct h, Code.decode_wellTyped h⟩
  | laidOut _ ih =>
    exact ⟨(layout_same _).distinct ih.1, (layout_same _).forall_instruction ih.2⟩
  | folded _ mem h ih =>
    obtain ⟨distinct, typed⟩ := ih
    rcases List.mem_pair.mp mem with rfl | rfl
    · obtain ⟨before, lines, tail, found, named, ⟨folded⟩⟩ := arithmeticFold_run_eq_true distinct h
      exact ⟨folded.replaced.result_distinct, folded.replaced.forall_instruction typed trivial⟩
    · obtain ⟨before, lines, following, tail, found, named, ⟨folded⟩⟩ :=
        comparisonFold_run_eq_true distinct h
      refine ⟨folded.replaced.result_distinct,
        folded.replaced.forall_instruction typed (typed _ ?_)⟩
      rw [show _ = _ from folded.replaced.cut]
      cases folded.taken <;> simp [ComparisonLines.segment]

/-! ## Preservation -/

/-- A fold of a derived listing is not seen by any environment that makes up no return addresses:
started on the same locals in the same world, the listing after it makes the same calls, ends in
the same way if it ends, and does not get stuck either. -/
theorem fold_preserves_behaviour {W : Type} (environment : Environment W) {pass : FoldPass}
    (derived : session.listing.Derived) (built : session.pool.Built) (mem : pass ∈ foldPasses)
    (h : pass.run session = (.ok true, result)) (initial : Locals) (world : W)
    (genuine : Machine.Genuine ⟨session.listing, session.pool, environment⟩ initial)
    (never : Machine.NeverStuck ⟨session.listing, session.pool, environment⟩
      (Machine.start ⟨session.listing, session.pool, environment⟩ initial world)) :
    SameBehaviour ⟨session.listing, session.pool, environment⟩
      ⟨result.listing, result.pool, environment⟩ initial world := by
  obtain ⟨distinct, typed⟩ := derived.sound
  rcases List.mem_pair.mp mem with rfl | rfl
  · obtain ⟨before, lines, tail, found, named, ⟨folded⟩⟩ := arithmeticFold_run_eq_true distinct h
    exact folded.sameBehaviour named typed built genuine never
  · obtain ⟨before, lines, following, tail, found, named, ⟨folded⟩⟩ :=
      comparisonFold_run_eq_true distinct h
    exact folded.sameBehaviour named typed genuine never

/-! ## A fold after a subroutine call -/

/-- Calls a subroutine that returns at once. Then stores 3, and returns it masked with 2. -/
def maskCode : Code where
  maxStack := 2
  maxLocals := 3
  bytes := #[0xA8, 0x00, 0x09, 0x06, 0x3D, 0x1C, 0x05, 0x7E, 0xAC, 0x4C, 0xA9, 0x01]
  exceptionTable := #[]

def maskItems : List (Nat × Instruction Nat) :=
  [(0, .subroutine 9), (3, .push (.int 3) .int), (4, .store 2 .int), (5, .load 2 .int),
    (6, .push (.int 2) .int), (7, .arithmetic .and .int), (8, .other .intReturn),
    (9, .store 1 .reference), (10, .other .retOne)]

def maskListing : Listing where
  lines := #[⟨⟨0⟩, .subroutine ⟨7⟩, false⟩, ⟨⟨1⟩, .push (.int 3) .int, false⟩,
    ⟨⟨2⟩, .store 2 .int, false⟩, ⟨⟨3⟩, .load 2 .int, false⟩,
    ⟨⟨4⟩, .push (.int 2) .int, false⟩, ⟨⟨5⟩, .arithmetic .and .int, false⟩,
    ⟨⟨6⟩, .other .intReturn, false⟩, ⟨⟨7⟩, .store 1 .reference, false⟩,
    ⟨⟨8⟩, .other .retOne, false⟩]
  fresh := 9
  handlers := #[]
  laidOut := false

theorem decode_maskCode : maskCode.decode .empty = .ok maskListing := by
  have htarget : Decoding.resolveOffset (Decoding.boundaries maskItems.toArray) 12 9 =
      .ok ⟨7⟩ := by
    have hitem : maskItems[7]? = some (9, .store 1 .reference) := rfl
    rw [Decoding.resolveOffset, (Decoding.boundaries_eq_some (by decide)).mpr ⟨_, hitem⟩]
  refine Code.decode_eq_ok.mpr ⟨maskItems, maskListing.lines.toList.map (·.instruction), [],
    ⟨Decoding.streams_of_stream (by decide +kernel), ?_, .nil⟩, rfl⟩
  exact .cons (Outcome.bind_eq_ok.mpr ⟨_, htarget, rfl⟩) (.cons rfl (.cons rfl (.cons rfl
    (.cons rfl (.cons rfl (.cons rfl (.cons rfl (.cons rfl .nil))))))))

def maskFolded : Listing where
  lines := #[⟨⟨0⟩, .subroutine ⟨7⟩, false⟩, ⟨⟨1⟩, .push (.int 3) .int, false⟩,
    ⟨⟨2⟩, .store 2 .int, false⟩, ⟨⟨3⟩, .loadConstant 1 false, false⟩,
    ⟨⟨6⟩, .other .intReturn, false⟩, ⟨⟨7⟩, .store 1 .reference, false⟩,
    ⟨⟨8⟩, .other .retOne, false⟩]
  fresh := 9
  handlers := #[]
  laidOut := false

theorem operandValue_maskListing : maskListing.operandValue .empty ⟨3⟩ = .ok (.int 3, .int) := by
  have hmerge : ∀ handle, maskListing.mergePoints.contains handle =
      ((⟨1⟩ : Handle) == handle || (⟨7⟩ : Handle) == handle) := by
    intro handle
    simp [Listing.mergePoints, maskListing, Instruction.targets]
  have hget : maskListing.get? ⟨3⟩ = some (.load 2 .int) := by decide
  have hbefore : maskListing.linesBefore ⟨3⟩ = [⟨⟨2⟩, .store 2 .int, false⟩,
      ⟨⟨1⟩, .push (.int 3) .int, false⟩, ⟨⟨0⟩, .subroutine ⟨7⟩, false⟩] := by decide
  simp [Listing.operandValue, hget, Listing.loadValue, hbefore, Listing.definition?, hmerge,
    Listing.literal?]

/-- The first match, which starts with the load. -/
theorem run_maskListing : ∃ result,
    arithmeticFold.pass.run (.start maskListing .empty {} "mask()I") = (.ok true, result) ∧
      result.listing = maskFolded := by
  have folded : ArithmeticFolded maskListing .empty (maskListing.lines.toList.take 3)
      ⟨⟨⟨3⟩, .load 2 .int, false⟩, none, ⟨⟨4⟩, .push (.int 2) .int, false⟩, none,
        ⟨⟨5⟩, .arithmetic .and .int, false⟩⟩
      (maskListing.lines.toList.drop 6) maskFolded ⟨#[none, some (.integer 2)]⟩ :=
    ⟨.and, .int, (.int 3, .int), (.int 2, .int), .int 2, 1, rfl, operandValue_maskListing,
      by decide, by decide, by decide +kernel,
      ⟨rfl, Code.decode_distinct decode_maskCode, ⟨by simp [maskListing], by decide⟩,
        by simp [Instruction.targets], rfl⟩⟩
  have hmatch : arithmeticFold.matchAt? (maskListing.lines.toList.drop 3) =
      some ⟨⟨3⟩, none, ⟨4⟩, none, ⟨5⟩, none, ⟨5⟩⟩ := by decide
  obtain ⟨note, hfold⟩ := folded.fold_eq
    ⟨⟨3⟩, none, ⟨4⟩, none, ⟨5⟩, none, ⟨5⟩⟩
    ⟨rfl, rfl, rfl, rfl, rfl, rfl, by simp, rfl, by simp, rfl⟩ rfl
  obtain ⟨result, hrun, hlisting, -⟩ := arithmeticFold.run_of_folded 3 rfl (by decide) hmatch
    hfold (show (Session.start maskListing .empty {} "mask()I").listing = _ from rfl) rfl
  exact ⟨result, hrun, hlisting⟩

/-- An environment in which every request ends the run. -/
def returning : Environment Unit where
  respond _ _ _ := .finish ()
  divisionByZero _ := (.null, ())
  catches _ _ := false

/-- Local 1 holds a return address, and nothing else is stored. -/
def returnTo (handle : Handle) : Locals := fun slot =>
  if slot = 1 then some (.address (some handle)) else none

/-- The call leaves the address that local 1 holds from the start. -/
theorem fold_preserves_behaviour_mask : ∃ result,
    arithmeticFold.pass.run (.start maskListing .empty {} "mask()I") = (.ok true, result) ∧
      result.listing = maskFolded ∧
      Machine.Halts ⟨maskListing, .empty, returning⟩
        (Machine.start ⟨maskListing, .empty, returning⟩ (returnTo ⟨1⟩) ())
        ⟨.returned, (), [⟨.perform .intReturn, [.number (.int 2)], ()⟩]⟩ ∧
      SameBehaviour ⟨maskListing, .empty, returning⟩ ⟨result.listing, result.pool, returning⟩
        (returnTo ⟨1⟩) () := by
  obtain ⟨result, hrun, hlisting⟩ := run_maskListing
  have hmem : arithmeticFold.pass ∈ foldPasses := List.mem_cons_self
  have genuine : Machine.Genuine ⟨maskListing, .empty, returning⟩ (returnTo ⟨1⟩) := by
    constructor
    · intro slot handle hslot
      unfold returnTo at hslot
      split at hslot
      · cases hslot
        exact ⟨⟨0⟩, ⟨7⟩, by decide, by decide +kernel⟩
      · cases hslot
    · intro request stack stack' world world' handle hresponse
      cases hresponse
  have halts : Machine.Halts ⟨maskListing, .empty, returning⟩
      (Machine.start ⟨maskListing, .empty, returning⟩ (returnTo ⟨1⟩) ())
      ⟨.returned, (), [⟨.perform .intReturn, [.number (.int 2)], ()⟩]⟩ := by
    with_unfolding_all
      refine ⟨_, .head rfl (.head rfl (.head rfl (.head rfl (.head rfl (.head rfl (.head rfl
        (.head rfl .refl))))))), ?_⟩
      rfl
  exact ⟨result, hrun, hlisting, halts, fold_preserves_behaviour returning
    (.decoded decode_maskCode) .empty hmem hrun (returnTo ⟨1⟩) () genuine halts.neverStuck⟩

/-! ## A return address from outside -/

/-- Returns to the address in local 1, across the sum of 1 and 2. -/
def strayCode : Code where
  maxStack := 2
  maxLocals := 2
  bytes := #[0x10, 0x0A, 0xA9, 0x01, 0x04, 0x05, 0x60, 0xAC]
  exceptionTable := #[]

def strayListing : Listing where
  lines := #[⟨⟨0⟩, .push (.int 10) .byte, false⟩, ⟨⟨1⟩, .other .retOne, false⟩,
    ⟨⟨2⟩, .push (.int 1) .int, false⟩, ⟨⟨3⟩, .push (.int 2) .int, false⟩,
    ⟨⟨4⟩, .arithmetic .add .int, false⟩, ⟨⟨5⟩, .other .intReturn, false⟩]
  fresh := 6
  handlers := #[]
  laidOut := false

def strayFolded : Listing where
  lines := #[⟨⟨0⟩, .push (.int 10) .byte, false⟩, ⟨⟨1⟩, .other .retOne, false⟩,
    ⟨⟨2⟩, .loadConstant 1 false, false⟩, ⟨⟨5⟩, .other .intReturn, false⟩]
  fresh := 6
  handlers := #[]
  laidOut := false

theorem decode_strayCode : strayCode.decode .empty = .ok strayListing := by decide +kernel

theorem run_strayListing : ∃ result,
    arithmeticFold.pass.run (.start strayListing .empty {} "stray()I") = (.ok true, result) ∧
      result.listing = strayFolded := by
  have folded : ArithmeticFolded strayListing .empty (strayListing.lines.toList.take 2)
      ⟨⟨⟨2⟩, .push (.int 1) .int, false⟩, none, ⟨⟨3⟩, .push (.int 2) .int, false⟩, none,
        ⟨⟨4⟩, .arithmetic .add .int, false⟩⟩
      (strayListing.lines.toList.drop 5) strayFolded ⟨#[none, some (.integer 3)]⟩ :=
    ⟨.add, .int, (.int 1, .int), (.int 2, .int), .int 3, 1, rfl, by decide, by decide,
      by decide +kernel, by decide +kernel,
      ⟨rfl, Code.decode_distinct decode_strayCode, ⟨by simp [strayListing], by decide⟩,
        by simp [Instruction.targets], rfl⟩⟩
  have hmatch : arithmeticFold.matchAt? (strayListing.lines.toList.drop 2) =
      some ⟨⟨2⟩, none, ⟨3⟩, none, ⟨4⟩, none, ⟨4⟩⟩ := by decide
  obtain ⟨note, hfold⟩ := folded.fold_eq
    ⟨⟨2⟩, none, ⟨3⟩, none, ⟨4⟩, none, ⟨4⟩⟩
    ⟨rfl, rfl, rfl, rfl, rfl, rfl, by simp, rfl, by simp, rfl⟩ rfl
  obtain ⟨result, hrun, hlisting, -⟩ := arithmeticFold.run_of_folded 2 rfl (by decide) hmatch
    hfold (show (Session.start strayListing .empty {} "stray()I").listing = _ from rfl) rfl
  exact ⟨result, hrun, hlisting⟩

theorem halts_strayListing : Machine.Halts ⟨strayListing, .empty, returning⟩
    (Machine.start ⟨strayListing, .empty, returning⟩ (returnTo ⟨3⟩) ())
    ⟨.returned, (), [⟨.perform .intReturn, [.number (.int 12)], ()⟩]⟩ := by
  with_unfolding_all
    refine ⟨_, .head rfl (.head rfl (.head rfl (.head rfl .refl))), ?_⟩
    rfl

/-- A return address that no call leaves may lead into the middle of a match. Entered with such an
address in a local, this method returns 12 before it is folded and has no instruction to go on with
after that. -/
theorem fold_misdirects_foreign_return : ∃ result,
    strayCode.decode .empty = .ok strayListing ∧
      arithmeticFold.pass.run (.start strayListing .empty {} "stray()I") = (.ok true, result) ∧
      Machine.NeverStuck ⟨strayListing, .empty, returning⟩
        (Machine.start ⟨strayListing, .empty, returning⟩ (returnTo ⟨3⟩) ()) ∧
      Machine.Halts ⟨strayListing, .empty, returning⟩
        (Machine.start ⟨strayListing, .empty, returning⟩ (returnTo ⟨3⟩) ())
        ⟨.returned, (), [⟨.perform .intReturn, [.number (.int 12)], ()⟩]⟩ ∧
      Machine.Halts ⟨result.listing, result.pool, returning⟩
        (Machine.start ⟨result.listing, result.pool, returning⟩ (returnTo ⟨3⟩) ())
        ⟨.leftCode, (), []⟩ ∧
      ¬ SameBehaviour ⟨strayListing, .empty, returning⟩
        ⟨result.listing, result.pool, returning⟩ (returnTo ⟨3⟩) () := by
  obtain ⟨result, hrun, hlisting⟩ := run_strayListing
  have hleaves : Machine.Halts ⟨result.listing, result.pool, returning⟩
      (Machine.start ⟨result.listing, result.pool, returning⟩ (returnTo ⟨3⟩) ())
      ⟨.leftCode, (), []⟩ := by
    rw [hlisting]
    with_unfolding_all
      refine ⟨_, .head rfl (.head rfl .refl), ?_⟩
      rfl
  refine ⟨result, decode_strayCode, hrun, halts_strayListing.neverStuck, halts_strayListing,
    hleaves, fun same => ?_⟩
  cases hleaves.unique ((same.halts _).mp halts_strayListing)

end BytecodeFold
