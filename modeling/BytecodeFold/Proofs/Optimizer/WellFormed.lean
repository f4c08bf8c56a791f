import BytecodeFold.Proofs.Optimizer.Stages
import BytecodeFold.Proofs.StackDepth

/-!
# Rewritten methods are well formed

The stack depth and the locals of a rewritten method are computed on the folded listing under the
pool of its session. What reads the class later sees bytes, and a pool that other methods have
added to. Both are views of the same code: the bytes decode to the folded listing under new handles,
with the same depth, the same locals and the same exceptions.
-/

namespace BytecodeFold

/-- The pool with more entries appended, as far as they fit. -/
def ConstantPool.pushAll (pool : ConstantPool) (entries : List Entry) : ConstantPool :=
  entries.foldl (fun pool entry => (pool.push entry).2) pool

theorem ConstantPool.extends_pushAll (pool : ConstantPool) (entries : List Entry) :
    pool.Extends (pool.pushAll entries) := by
  induction entries generalizing pool with
  | nil => exact .refl pool
  | cons entry entries ih =>
    have hpush : pool.Extends (pool.push entry).2 := by
      by_cases hfits : pool.count + entry.slots ≤ 65535
      · exact (push_spec (by rw [push, if_pos hfits])).1
      · rw [push, if_neg hfits]
        exact .refl pool
    exact hpush.trans (ih _)

/-! ## Catch types -/

/-- The types of the exceptions that are caught, in the order of the table. -/
def Code.catchTypes (code : Code) : List UInt16 := code.exceptionTable.toList.map (·.catchType)

def Listing.catchTypes (listing : Listing) : List UInt16 :=
  listing.handlers.toList.map (·.catchType)

theorem Encoding.catchType_of_entry {offsets : Handle → Option Nat} {length : Nat}
    {handler : ExceptionHandler} {entry : ExceptionEntry}
    (h : exceptionEntry offsets length handler = .ok entry) :
    handler.catchType = entry.catchType := by
  obtain ⟨start, -, h⟩ := Outcome.bind_eq_ok.mp h
  dsimp only at h
  split at h
  all_goals
    obtain ⟨stop, -, h⟩ := Outcome.bind_eq_ok.mp h
    obtain ⟨target, -, h⟩ := Outcome.bind_eq_ok.mp h
    cases h
    rfl

theorem Code.catchTypes_of_decode {code : Code} {pool : ConstantPool} {listing : Listing}
    (h : code.decode pool = .ok listing) : listing.catchTypes = code.catchTypes := by
  obtain ⟨items, instructions, handlers, hd, rfl⟩ := Code.decode_eq_ok.mp h
  have hnodup := (Decoding.formats_of_streams hd.streams (Nat.zero_le _)).nodup
  refine Outcome.map_eq_of_forall₂ (hd.handlers.imp fun entry handler he => ?_).flip
  exact Encoding.catchType_of_entry (Listing.exceptionEntry_of_handler
    (fun _ _ hr => (Decoding.locates_starts items).of_resolveOffset hnodup hr) he).1

theorem Listing.catchTypes_of_emit {listing : Listing} {length : Nat} {code : Code}
    (h : listing.emit length = .ok (code.bytes, code.exceptionTable)) :
    listing.catchTypes = code.catchTypes := by
  obtain ⟨chunks, hemits⟩ := emit_eq_ok.mp h
  exact Outcome.map_eq_of_forall₂ (hemits.entries.imp fun _ _ he => Encoding.catchType_of_entry he)

/-! ## Finished sessions -/

theorem Listing.encode_eq_ok {listing laid : Listing} {code : Code}
    (h : listing.encode = (.ok (code.bytes, code.exceptionTable), laid)) :
    ∃ length, listing.layout = (.ok length, laid) ∧
      laid.emit length = .ok (code.bytes, code.exceptionTable) := by
  unfold encode at h
  split at h
  case h_1 length laid' hl =>
    obtain ⟨hemit, rfl⟩ := Prod.mk.inj h
    exact ⟨length, hl, hemit⟩
  case h_2 => cases h

/-- The code of a method says what a folded listing says: it decodes to the listing under new
handles, in the same order, and has its stack depth and its locals. -/
structure Code.Represents (code : Code) (pool : ConstantPool) (method : Method)
    (folded listing : Listing) : Prop where
  decodes : code.decode pool = .ok listing
  renames : Listing.Renames folded.rank folded listing
  maxStack : listing.maxStack pool = .ok code.maxStack
  maxLocals : ∃ slots, method.argumentSlots = .ok slots ∧
    listing.maxLocals slots = .ok code.maxLocals

theorem Session.Finishes.represents {session : Session} {method : Method} {code : Code}
    {laid : Listing} {slots : Nat} {grown : ConstantPool}
    (h : session.Finishes method code laid slots)
    (regular : session.listing.Regular session.pool) (extended : session.pool.Extends grown) :
    code.Represents grown method session.listing session.listing.canonical := by
  obtain ⟨length, hlayout, hemit⟩ := Listing.encode_eq_ok h.encoded
  obtain ⟨-, hhandlers, hsame⟩ := Listing.layout_eq_ok hlayout
  have hlaid := regular.sameLines hsame hhandlers
  have hrenames := hlaid.renames_canonical
  rw [hsame.canonical_eq hhandlers] at hrenames
  refine ⟨?_, regular.renames_canonical,
    Listing.maxStack_renames hlaid hrenames extended h.maxStack,
    slots, h.argumentSlots, (Listing.maxLocals_renames hrenames slots).trans h.maxLocals⟩
  have hencoded : session.listing.encode.1 = .ok (code.bytes, code.exceptionTable) := by
    rw [h.encoded]
  refine Listing.decode_of_encode hencoded regular.distinct fun line hm kept hk => ?_
  have hwritable := (regular.writable line hm).extends extended
  rw [hk] at hwritable
  exact hwritable

theorem Session.Finishes.catchTypes_eq {session : Session} {method : Method} {code : Code}
    {laid : Listing} {slots : Nat} (h : session.Finishes method code laid slots) :
    code.catchTypes = session.listing.catchTypes := by
  obtain ⟨length, hlayout, hemit⟩ := Listing.encode_eq_ok h.encoded
  obtain ⟨-, hhandlers, -⟩ := Listing.layout_eq_ok hlayout
  rw [← Listing.catchTypes_of_emit hemit, Listing.catchTypes, hhandlers, Listing.catchTypes]

/-! ## A folded conjunction -/

/-- Returns `3 & 2`. -/
def conjunction : Code where
  maxStack := 2
  maxLocals := 0
  bytes := #[0x06, 0x05, 0x7E, 0xAC]
  exceptionTable := #[]

def conjunctionListing : Listing where
  lines := #[⟨⟨0⟩, .push (.int 3) .int, false⟩, ⟨⟨1⟩, .push (.int 2) .int, false⟩,
    ⟨⟨2⟩, .arithmetic .and .int, false⟩, ⟨⟨3⟩, .other .intReturn, false⟩]
  fresh := 4
  handlers := #[]
  laidOut := true

def conjunctionFolded : Listing where
  lines := #[⟨⟨0⟩, .loadConstant 1 false, false⟩, ⟨⟨3⟩, .other .intReturn, false⟩]
  fresh := 4
  handlers := #[]
  laidOut := false

theorem load_conjunction : conjunction.load .empty = .ok conjunctionListing := by
  refine Code.load_eq_ok.mpr
    ⟨{ conjunctionListing with laidOut := false }, 4, by decide +kernel, ?_⟩
  exact Listing.layout_of_straight (by decide) rfl (by decide) (by decide)

theorem fold_conjunction : ∃ note, ArithmeticMatch.fold conjunctionListing .empty
    ⟨⟨0⟩, none, ⟨1⟩, none, ⟨2⟩, none, ⟨2⟩⟩ =
      .ok (.folded conjunctionFolded ⟨#[none, some (.integer 2)]⟩ note) := by
  have folded : ArithmeticFolded conjunctionListing .empty []
      ⟨⟨⟨0⟩, .push (.int 3) .int, false⟩, none, ⟨⟨1⟩, .push (.int 2) .int, false⟩, none,
        ⟨⟨2⟩, .arithmetic .and .int, false⟩⟩
      [⟨⟨3⟩, .other .intReturn, false⟩] conjunctionFolded ⟨#[none, some (.integer 2)]⟩ :=
    ⟨.and, .int, (.int 3, .int), (.int 2, .int), .int 2, 1, rfl, by decide, by decide,
      by decide, by decide +kernel,
      ⟨rfl, (Code.regular_of_load load_conjunction).distinct,
        ⟨by simp [conjunctionListing], by decide⟩, by simp [Instruction.targets], rfl⟩⟩
  exact folded.fold_eq _ ⟨rfl, rfl, rfl, rfl, rfl, rfl, by simp, rfl, by simp, rfl⟩ rfl

theorem run_conjunction (method : Method) (log : EventLog) : ∃ session,
    ({} : Config).schedule.run (Schedule.opening method .empty log conjunctionListing) =
      (.ok 2, session) ∧ session.listing = conjunctionFolded ∧
      session.pool = ⟨#[none, some (.integer 2)]⟩ ∧ session.folds = 1 ∧
      log.Records (fun kind => kind = .foldSkipped ∨ kind = .constantFolded) session.log := by
  obtain ⟨note, hfold⟩ := fold_conjunction
  have hmatch : arithmeticFold.matchAt? conjunctionListing.lines.toList =
      some ⟨⟨0⟩, none, ⟨1⟩, none, ⟨2⟩, none, ⟨2⟩⟩ := by decide
  obtain ⟨session, hpass, hlisting, hpool, -⟩ := arithmeticFold.run_of_folded 0 rfl (by decide)
    hmatch hfold (show (Schedule.opening method .empty log conjunctionListing).listing = _ from rfl)
    rfl
  obtain ⟨hfolds, hrecords⟩ := FoldRule.records_of_folded hpass
  refine ⟨session, ?_, hlisting, hpool, hfolds, hrecords⟩
  have hlong : arithmeticFold.pass.shouldRun
      (Schedule.opening method .empty log conjunctionListing).listing = true := rfl
  -- two lines are left, too few for either pass
  have hshort : arithmeticFold.pass.shouldRun session.listing = false ∧
      comparisonFold.pass.shouldRun session.listing = false := by
    rw [hlisting]
    exact ⟨rfl, rfl⟩
  change ({} : Config).schedule.iterate (9998 + 2) 0 _ = _
  simp only [Schedule.iterate, Config.schedule, if_true, List.cons_append, List.nil_append,
    Schedule.runOnce, hlong, hpass, hshort, Bool.or_true, Bool.false_eq_true, if_false]

/-- What `conjunction` is folded to. -/
def conjunctionResult : Code where
  maxStack := 1
  maxLocals := 0
  bytes := #[0x12, 0x01, 0xAC]
  exceptionTable := #[]

def conjunctionLaid : Listing := { conjunctionFolded with laidOut := true }

theorem encode_conjunctionFolded : conjunctionFolded.encode =
    (.ok (conjunctionResult.bytes, conjunctionResult.exceptionTable), conjunctionLaid) := by
  have hlayout : conjunctionFolded.layout = (.ok 3, conjunctionLaid) :=
    Listing.layout_of_straight (by decide) rfl (by decide) (by decide)
  rw [Listing.encode, hlayout]
  simp [Listing.emit, conjunctionLaid, conjunctionFolded, Encoding.instruction,
    Encoding.loadConstant, Verbatim.intReturn, conjunctionResult]
  decide

theorem maxStack_conjunctionLaid (pool : ConstantPool) : conjunctionLaid.maxStack pool = .ok 1 := by
  have distinct : conjunctionLaid.Distinct := show List.Nodup _ by decide
  have cut : conjunctionLaid.Cut [] ⟨⟨0⟩, .loadConstant 1 false, false⟩
      [⟨⟨3⟩, .other .intReturn, false⟩] := rfl
  have hfirst := cut.sites_eq distinct
  have hsecond := cut.forth.sites_eq distinct
  refine Outcome.bind_eq_ok.mpr ⟨1, ?_, rfl⟩
  change Listing.walk _ _ _ [(⟨0⟩, 0)] 0 = _
  rw [Listing.walk_pending hfirst rfl (Nat.zero_le _)]
  change Listing.walk _ _ _ [(⟨3⟩, 1)] 1 = _
  have hpending : (conjunctionLaid.sites.erase ⟨0⟩)[(⟨3⟩ : Handle)]? =
      some ⟨.other .intReturn, none⟩ := by
    rw [Std.HashMap.getElem?_erase, if_neg (by decide)]
    exact hsecond
  rw [Listing.walk_pending hpending rfl (show Verbatim.intReturn.stack.pops ≤ 1 from Nat.le_refl _)]
  exact Listing.walk.eq_1 ..

/-- A static method without parameters. -/
def conjunctionMethod (descriptor : String) : Method :=
  ⟨"conjunction", descriptor, 8, some conjunction⟩

theorem argumentSlots_conjunctionMethod : (conjunctionMethod "()I").argumentSlots = .ok 0 := by
  have hparse : MethodDescriptor.parse "()I" = .ok ⟨[], some ⟨0, .int⟩⟩ := by
    simp [MethodDescriptor.parse, MethodDescriptor.scanParameters, MethodDescriptor.scanResult,
      FieldType.scan, ElementType.scan]
  simp [Method.argumentSlots, Method.parsedDescriptor, conjunctionMethod, hparse]
  decide

theorem optimizeMethod_conjunction (log : EventLog) : ∃ log',
    ({} : Config).schedule.optimizeMethod true (conjunctionMethod "()I") .empty log =
      (.ok ({ conjunctionMethod "()I" with code := some conjunctionResult },
        ⟨#[none, some (.integer 2)]⟩), log') ∧
      log.Records (fun kind => kind ≠ .warning ∧ kind ≠ .methodAborted) log' := by
  obtain ⟨session, hrun, hlisting, hpool, hfolds, hrecords⟩ :=
    run_conjunction (conjunctionMethod "()I") log
  have hfinish : session.finish (conjunctionMethod "()I") = .ok conjunctionResult := by
    rw [Session.finish, hlisting, encode_conjunctionFolded]
    simp only [Outcome.ok_bind, maxStack_conjunctionLaid, argumentSlots_conjunctionMethod]
    rfl
  have hstart : ({} : Config).schedule.run (.start conjunctionListing .empty log
      (conjunctionMethod "()I").signature) = (.ok 2, session) := hrun
  have hquiet : log.Records (fun kind => kind ≠ .warning ∧ kind ≠ .methodAborted) session.log :=
    hrecords.mono fun kind hkind => by rcases hkind with rfl | rfl <;> decide
  rw [← hpool]
  rw [Schedule.optimizeMethod, show (conjunctionMethod "()I").code = some conjunction from rfl]
  simp only [Schedule.optimizeCode, load_conjunction, hstart, hfolds, hfinish]
  exact ⟨_, rfl, hquiet.trans (.record _ (by decide))⟩

/-! ## Well-formedness -/

/-- Rewritten methods are well formed. If a schedule of the two folds succeeds on a method and has
folded anything, then only the code of the method changes. Under the pool that it leaves, and under
every pool that has grown from that one, the new code decodes to the folded listing under new
handles, in the same order. Stack depth and locals are those of what it decodes to. The exception
table has the entries of the old one, in their order and with their catch types. -/
theorem optimizeMethod_wellFormed {schedule : Schedule} {keep : Bool} {method method' : Method}
    {code : Code} {pool pool' : ConstantPool} {log log' : EventLog}
    (folding : ∀ pass ∈ schedule.passes, pass ∈ foldPasses) (hcode : method.code = some code)
    (optimized : schedule.optimizeMethod keep method pool log = (.ok (method', pool'), log')) :
    ∃ listing count session, code.load pool = .ok listing ∧
      schedule.run (Schedule.opening method pool log listing) = (.ok count, session) ∧
      (session.folds ≠ 0 → ∃ code', method' = { method with code := some code' } ∧
        code'.catchTypes = code.catchTypes ∧ ∀ entries, ∃ listing',
          code'.Represents (pool'.pushAll entries) method' session.listing listing') := by
  cases Schedule.stages_of_optimizeMethod hcode optimized with
  | unchanged load run folds => exact ⟨_, _, _, load, run, fun hfolds => absurd folds hfolds⟩
  | @optimized listing count session result event load run changed finish kind =>
    have hevolves := Schedule.run_evolves folding load run
    obtain ⟨laid, slots, hfinishes⟩ := Session.finish_eq_ok finish
    obtain ⟨decoded, length, hdecode, hlayout⟩ := Code.load_eq_ok.mp load
    refine ⟨listing, count, session, load, run, fun _ => ⟨result, rfl, ?_, fun entries => ?_⟩⟩
    · obtain ⟨-, hhandlers, -⟩ := Listing.layout_eq_ok hlayout
      rw [hfinishes.catchTypes_eq, Listing.catchTypes, hevolves.handlers_eq,
        ← Code.catchTypes_of_decode hdecode, Listing.catchTypes, ← hhandlers]
      rfl
    · have hrepresents :=
        hfinishes.represents hevolves.regular (session.pool.extends_pushAll entries)
      exact ⟨_, hrepresents.decodes, hrepresents.renames, hrepresents.maxStack,
        hrepresents.maxLocals⟩

theorem optimizeMethod_wellFormed_conjunction : ∃ method' pool' log' session,
    ({} : Config).schedule.optimizeMethod true (conjunctionMethod "()I") .empty {} =
      (.ok (method', pool'), log') ∧
    ({} : Config).schedule.run (Schedule.opening (conjunctionMethod "()I") .empty {}
      conjunctionListing) = (.ok 2, session) ∧ session.folds = 1 ∧
    ∃ code', method' = { conjunctionMethod "()I" with code := some code' } ∧
      code'.catchTypes = [] ∧ ∀ entries, ∃ listing',
        code'.Represents (pool'.pushAll entries) method' session.listing listing' := by
  obtain ⟨log', hoptimized, -⟩ := optimizeMethod_conjunction {}
  obtain ⟨session, hrun, -, -, hfolds, -⟩ := run_conjunction (conjunctionMethod "()I") {}
  obtain ⟨listing, count, session', hload, hrun', hwellFormed⟩ :=
    optimizeMethod_wellFormed (fun _ hpass => hpass) rfl hoptimized
  cases load_conjunction.symm.trans hload
  cases hrun.symm.trans hrun'
  obtain ⟨code', hcode, hcatch, hrepresents⟩ := hwellFormed (by rw [hfolds]; decide)
  exact ⟨_, _, log', session, hoptimized, hrun, hfolds, code', hcode, hcatch, hrepresents⟩

end BytecodeFold
