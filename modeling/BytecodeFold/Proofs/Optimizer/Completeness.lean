import BytecodeFold.Proofs.Optimizer.Idempotence
import BytecodeFold.Proofs.Optimizer.Locations

/-!
# No fold is missed

A place in the stream is foldable when a match starts there and its attempt is neither skipped nor
fails recoverably. A pass acts on the first foldable place, whatever it passed over before, and does
nothing exactly if there is none. The length below which a pass does not run is no more than that of
its shortest match. So where a run stops by itself, no pass has anything left to fold.
-/

namespace BytecodeFold

namespace FoldRule

variable {α : Type} {rule : FoldRule α} {listing : Listing} {pool : ConstantPool}
  {session : Session} {lines : List Line} {place : Nat} {found : α}

/-! ## Foldable places -/

/-- A scan of the lines does not pass over the match that starts at this place in them. -/
structure Stops (rule : FoldRule α) (listing : Listing) (pool : ConstantPool) (lines : List Line)
    (place : Nat) (found : α) : Prop where
  inside : place < lines.length
  shape : rule.matchAt? (lines.drop place) = some found
  decisive : ¬ PassedOver (rule.attempt listing pool found)

/-- A match that is not passed over starts at this place in the stream. -/
def FoldableAt (rule : FoldRule α) (listing : Listing) (pool : ConstantPool) (place : Nat) : Prop :=
  ∃ found, rule.Stops listing pool listing.lines.toList place found

theorem exhausted_iff : rule.Exhausted listing pool lines ↔
    ∀ place found, ¬ rule.Stops listing pool lines place found := by
  constructor
  · intro exhausted place found stops
    have inside := stops.inside
    have hdrop := List.drop_eq_getElem_cons inside
    have hsplit : lines = lines.take place ++ lines[place] :: lines.drop (place + 1) := by
      rw [← hdrop, List.take_append_drop]
    exact stops.decisive (exhausted _ _ _ hsplit found (hdrop ▸ stops.shape))
  · intro never skipped line rest hlines found hmatch
    by_contra decisive
    refine never skipped.length found ⟨?_, ?_, decisive⟩
    · simp [hlines]
    · rw [hlines, List.drop_left]
      exact hmatch

/-- A pass does nothing exactly if there is nothing to fold. -/
theorem run_eq_false_iff (rule : FoldRule α) (session : Session) :
    (rule.pass.run session).1 = .ok false ↔
      ∀ place, ¬ rule.FoldableAt session.listing session.pool place := by
  have hforall : (∀ place, ¬ rule.FoldableAt session.listing session.pool place) ↔
      rule.Exhausted session.listing session.pool session.listing.lines.toList := by
    rw [exhausted_iff]
    exact ⟨fun h place found stops => h place ⟨found, stops⟩,
      fun h place ⟨found, stops⟩ => h place found stops⟩
  rw [hforall]
  constructor
  · intro h
    exact (scan_eq_false (Prod.ext h rfl)).2
  · intro h
    obtain ⟨result, hrun, -⟩ := scan_of_exhausted h
    exact congrArg Prod.fst hrun

/-! ## The first of them -/

/-- The outcome of a pass is that of one attempt: its fold, or its error with listing and pool as
they were. -/
inductive Settles (session : Session) :
    Except Error Attempt → Except Error Bool × Session → Prop where
  | folded {listing : Listing} {pool : ConstantPool} {note : String} {result : Session}
      (listing_eq : result.listing = listing) (pool_eq : result.pool = pool) :
      Settles session (.ok (.folded listing pool note)) (.ok true, result)
  | failed {e : Error} {result : Session} (fatal : e.isRecoverable = false)
      (listing_eq : result.listing = session.listing) (pool_eq : result.pool = session.pool) :
      Settles session (.error e) (.error e, result)

/-- A scan acts on the first match that it does not pass over. -/
theorem settles_of_first (stops : rule.Stops session.listing session.pool lines place found)
    (first : ∀ earlier < place, ∀ other,
      ¬ rule.Stops session.listing session.pool lines earlier other) :
    Settles session (rule.attempt session.listing session.pool found)
      (rule.scan lines session) := by
  obtain ⟨inside, shape, decisive⟩ := stops
  have passed : ∀ earlier < place, ∀ other, rule.matchAt? (lines.drop earlier) = some other →
      PassedOver (rule.attempt session.listing session.pool other) := by
    intro earlier hlt other hm
    by_contra decisive
    exact first earlier hlt other ⟨hlt.trans inside, hm, decisive⟩
  obtain ⟨mid, hmid, hscan⟩ := scan_drop passed
  rw [List.drop_eq_getElem_cons inside] at shape hscan
  rw [hscan]
  rcases scan_cons rule lines[place] (lines.drop (place + 1)) mid with
    ⟨last, -, -, hpassed⟩ | ⟨found', listing, pool, note, hf, ha, hs⟩ | ⟨found', e, hf, ha, hr, hs⟩
  · rw [hmid.listing_eq, hmid.pool_eq] at hpassed
    exact absurd (hpassed found shape) decisive
  · rw [hmid.listing_eq, hmid.pool_eq] at ha
    cases shape.symm.trans hf
    rw [ha, hs]
    exact .folded rfl rfl
  · rw [hmid.listing_eq, hmid.pool_eq] at ha
    cases shape.symm.trans hf
    rw [ha, hs]
    exact .failed hr hmid.listing_eq hmid.pool_eq

/-! ## Lengths -/

/-- A listing with a match in it is long enough for the pass to run. -/
def Guarded (rule : FoldRule α) : Prop :=
  ∀ (listing : Listing) (place : Nat) (found : α),
    rule.matchAt? (listing.lines.toList.drop place) = some found →
    rule.pass.shouldRun listing = true

theorem guarded_of_length (h : ∀ lines found, rule.matchAt? lines = some found →
    rule.shortest ≤ lines.length) : rule.Guarded := by
  intro listing place found hmatch
  have hlength := h _ _ hmatch
  rw [List.length_drop, Array.length_toList] at hlength
  exact decide_eq_true (Nat.le_trans hlength (Nat.sub_le _ _))

theorem Guarded.not_foldableAt (guarded : rule.Guarded) (idle : rule.pass.Idle listing pool) :
    ¬ rule.FoldableAt listing pool place := by
  rintro ⟨found, stops⟩
  have hlong := of_decide_eq_true (guarded listing place found stops.shape)
  exact exhausted_iff.mp (idle_iff.mp idle hlong) place found stops

end FoldRule

theorem arithmeticFold_guarded : arithmeticFold.Guarded := by
  refine FoldRule.guarded_of_length fun stream found hmatch => ?_
  obtain ⟨lines, tail, rfl, -, -⟩ := ArithmeticMatch.at?_eq_some hmatch
  simp only [arithmeticFold, ArithmeticLines.segment, List.length_cons, List.length_append]
  omega

theorem comparisonFold_guarded : comparisonFold.Guarded := by
  refine FoldRule.guarded_of_length fun stream found hmatch => ?_
  obtain ⟨lines, after, tail, rfl, -⟩ := ComparisonMatch.at?_eq_some hmatch
  simp only [comparisonFold, ComparisonLines.segment, List.length_cons, List.length_append]
  omega

/-- The pass has something to fold at this place in the stream. -/
inductive FoldPass.FoldableAt (listing : Listing) (pool : ConstantPool) (place : Nat) :
    FoldPass → Prop where
  | arithmetic (h : arithmeticFold.FoldableAt listing pool place) :
      FoldableAt listing pool place arithmeticFold.pass
  | comparison (h : comparisonFold.FoldableAt listing pool place) :
      FoldableAt listing pool place comparisonFold.pass

theorem FoldPass.Idle.not_foldableAt {pass : FoldPass} {listing : Listing} {pool : ConstantPool}
    {place : Nat} (idle : pass.Idle listing pool) : ¬ FoldableAt listing pool place pass := by
  intro foldable
  cases foldable with
  | arithmetic h => exact arithmeticFold_guarded.not_foldableAt idle h
  | comparison h => exact comparisonFold_guarded.not_foldableAt idle h

/-! ## Scans and runs -/

/-- A pass acts on the first foldable place and does nothing exactly if there is none; the lengths
below which the passes do not run hide no match; and a run that ends without a warning leaves
nothing that one of its passes could fold. -/
theorem run_misses_no_fold {schedule : Schedule}
    (folding : ∀ pass ∈ schedule.passes, pass ∈ foldPasses) :
    (∀ {α : Type} (rule : FoldRule α) (session : Session),
      ((rule.pass.run session).1 = .ok false ↔
        ∀ place, ¬ rule.FoldableAt session.listing session.pool place) ∧
      ∀ place found,
        rule.Stops session.listing session.pool session.listing.lines.toList place found →
        (∀ earlier < place, ¬ rule.FoldableAt session.listing session.pool earlier) →
        FoldRule.Settles session (rule.attempt session.listing session.pool found)
          (rule.pass.run session)) ∧
    (arithmeticFold.Guarded ∧ comparisonFold.Guarded) ∧
    ∀ (session result : Session) (count : Nat), schedule.run session = (.ok count, result) →
      (result.log.drop session.log.size).has .warning = false →
      ∀ pass ∈ schedule.passes, ∀ place,
        ¬ FoldPass.FoldableAt result.listing result.pool place pass := by
  refine ⟨fun rule session => ⟨rule.run_eq_false_iff session, ?_⟩,
    ⟨arithmeticFold_guarded, comparisonFold_guarded⟩, ?_⟩
  · intro place found stops first
    exact FoldRule.settles_of_first stops fun earlier hlt other h => first earlier hlt ⟨other, h⟩
  · intro session result count run quiet pass mem place
    have hgrows := (Schedule.reaches_of_run run).records folding
    have hquiet := (EventLog.has_drop_eq_false hgrows).mp quiet
    exact ((Schedule.idle_of_iterate folding run hquiet).2 pass mem).not_foldableAt

/-- The division by zero stands before the conjunctions. The first pass goes over it to the first
conjunction, and at the end of the run it is still there, with nothing left to fold. -/
theorem run_misses_no_fold_mixture :
    arithmeticFold.matchAt? mixtureListing.lines.toList =
      some ⟨⟨0⟩, none, ⟨1⟩, none, ⟨2⟩, none, ⟨2⟩⟩ ∧
    arithmeticFold.FoldableAt mixtureListing .empty 4 ∧
    (∃ result, arithmeticFold.pass.run (.start mixtureListing .empty {} "mixture()I") =
      (.ok true, result) ∧ result.listing = mixtureOnce) ∧
    arithmeticFold.matchAt? mixtureTwice.lines.toList =
      some ⟨⟨0⟩, none, ⟨1⟩, none, ⟨2⟩, none, ⟨2⟩⟩ ∧
    ∀ place, ¬ arithmeticFold.FoldableAt mixtureTwice
      ⟨#[none, some (.integer 2), some (.integer 4)]⟩ place := by
  obtain ⟨first, -, last⟩ := run_misses_no_fold (Config.foldPasses_of_schedule {})
  obtain ⟨note, hfold⟩ := fold_mixtureListing
  have hstops : arithmeticFold.Stops mixtureListing .empty mixtureListing.lines.toList 4
      ⟨⟨4⟩, none, ⟨5⟩, none, ⟨6⟩, none, ⟨6⟩⟩ := by
    refine ⟨by decide, rfl, ?_⟩
    rw [show arithmeticFold.attempt = ArithmeticMatch.fold from rfl, hfold]
    rintro ⟨⟩
  have hpassed : ∀ earlier < 4, ∀ found ∈
      arithmeticFold.matchAt? (mixtureListing.lines.toList.drop earlier),
      PassedOver (arithmeticFold.attempt mixtureListing .empty found) := by decide
  have hsettles : FoldRule.Settles _ (ArithmeticMatch.fold mixtureListing .empty _) _ :=
    (first arithmeticFold (.start mixtureListing .empty {} "mixture()I")).2 4 _ hstops
      fun earlier hlt ⟨found, stops⟩ => stops.decisive (hpassed earlier hlt found stops.shape)
  obtain ⟨session, hrun, hlisting, hpool, hrecords, -⟩ :=
    run_mixture ⟨"mixture", "()I", 8, some mixture⟩ {}
  refine ⟨rfl, ⟨_, hstops⟩, ?_, rfl, fun place foldable => ?_⟩
  · rw [hfold] at hsettles
    generalize arithmeticFold.pass.run _ = outcome at hsettles ⊢
    cases hsettles with
    | folded listing_eq pool_eq => exact ⟨_, rfl, listing_eq⟩
  · have hquiet : (session.log.drop 0).has .warning = false :=
      (EventLog.has_drop_eq_false (hrecords.mono fun _ _ => trivial)).mpr
        (hrecords.mono fun kind hkind => by rcases hkind with rfl | rfl <;> decide)
    rw [← hlisting, ← hpool] at foldable
    exact last _ _ _ hrun hquiet arithmeticFold.pass List.mem_cons_self place (.arithmetic foldable)

end BytecodeFold
