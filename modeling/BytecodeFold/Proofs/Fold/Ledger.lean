import BytecodeFold.Proofs.Fold.Reach

/-!
# The ledger of a run

A run of a schedule is a chain of passes, of which some fold, with a warning at its end if it was
cut short. Its log is a ledger of what it did: there is one event for each fold, and one for each
instruction at which a match was skipped, however often the passes came back to it.
-/

namespace BytecodeFold

variable {first second third session result : Session} {passes : List FoldPass} {count : Nat}

/-! ## Chains of folds -/

/-- Passes run one after another, and this many of them fold. -/
inductive Session.Applies (passes : List FoldPass) (first : Session) : Nat → Session → Prop where
  | start : Applies passes first 0 first
  | folded {count : Nat} {mid result : Session} {pass : FoldPass}
      (applies : Applies passes first count mid) (mem : pass ∈ passes)
      (run : pass.run mid = (.ok true, result)) : Applies passes first (count + 1) result
  | passed {count : Nat} {mid result : Session} {pass : FoldPass} {outcome : Except Error Bool}
      (applies : Applies passes first count mid) (mem : pass ∈ passes)
      (run : pass.run mid = (outcome, result)) (unfolded : outcome ≠ .ok true) :
      Applies passes first count result

theorem Session.log_warn (session : Session) (warning : Option Event) :
    (session.warn warning).log.events.toList = session.log.events.toList ++ warning.toList := by
  cases warning with
  | none => simp [warn]
  | some event => exact Array.toList_push

theorem Session.folds_warn (session : Session) (warning : Option Event) :
    (session.warn warning).folds = session.folds := by
  cases warning <;> rfl

namespace Session.Applies

theorem reaches (h : first.Applies passes count session) : first.Reaches passes session := by
  induction h with
  | start => exact .start
  | folded _ mem run ih => exact .pass ih mem run
  | passed _ mem run _ ih => exact .pass ih mem run

theorem pass {pass : FoldPass} {outcome : Except Error Bool}
    (applies : first.Applies passes count session) (mem : pass ∈ passes)
    (run : pass.run session = (outcome, result)) : ∃ count, first.Applies passes count result := by
  by_cases folded : outcome = .ok true
  · exact ⟨_, .folded applies mem (folded ▸ run)⟩
  · exact ⟨_, .passed applies mem run folded⟩

/-- A session counts the folds. -/
theorem folds_eq (folding : ∀ pass ∈ passes, pass ∈ foldPasses)
    (h : first.Applies passes count session) : session.folds = first.folds + count := by
  induction h with
  | start => rfl
  | @folded count mid result pass applies mem run ih =>
    have hstep := (FoldPass.records_of_folded (folding pass mem) run).1
    omega
  | @passed count mid result pass outcome applies mem run unfolded ih =>
    have hover := FoldPass.passesOver_of_unfolded (folding pass mem) run unfolded
    rw [hover.folds_eq, ih]

end Session.Applies

/-- A run is a chain of passes, and then perhaps a warning. -/
theorem Schedule.applies_of_run {schedule : Schedule} {outcome : Except Error Nat}
    (h : schedule.run first = (outcome, result)) :
    ∃ count last warning, first.Applies schedule.passes count last ∧ result = last.warn warning ∧
      ∀ event ∈ warning, event.kind = .warning ∧ event.method = some last.method := by
  obtain ⟨last, warning, ⟨count, applies⟩, hresult, hwarning⟩ := iterate_keeps
    (motive := fun session => ∃ count, first.Applies schedule.passes count session)
    (fun mem run ⟨_, applies⟩ => applies.pass mem run) ⟨0, .start⟩ h
  exact ⟨count, last, warning, applies, hresult, hwarning⟩

/-! ## Ledgers -/

/-- The second session has these events more on record than the first: one for each fold, and one
for each of the instructions in `starts`, at which matches were skipped that had not been
reported. -/
structure Session.Ledger (first second : Session) (events : List Event) (starts : List Handle) :
    Prop where
  log_eq : second.log.events.toList = first.log.events.toList ++ events
  method_eq : second.method = first.method
  origins_eq : second.origins = first.origins
  folds_eq : second.folds = first.folds + events.countP (·.kind.isTransformation)
  kinds : ∀ event ∈ events, event.kind = .foldSkipped ∨ event.kind.isTransformation = true
  named : ∀ event ∈ events, event.method = some first.method
  skips : (events.filter (·.kind == .foldSkipped)).map (·.location) = starts.map first.origin?
  nodup : starts.Nodup
  unreported : ∀ start ∈ starts, start ∉ first.reported
  reported : ∀ start, start ∈ second.reported ↔ start ∈ first.reported ∨ start ∈ starts

namespace Session.Ledger

variable {events events' : List Event} {starts starts' : List Handle}

theorem refl (session : Session) : session.Ledger session [] [] where
  log_eq := by simp
  method_eq := rfl
  origins_eq := rfl
  folds_eq := rfl
  kinds := by simp
  named := by simp
  skips := rfl
  nodup := List.nodup_nil
  unreported := by simp
  reported := by simp

/-- What was reported before is not reported again. -/
theorem trans (h : first.Ledger second events starts) (h' : second.Ledger third events' starts') :
    first.Ledger third (events ++ events') (starts ++ starts') where
  log_eq := by rw [h'.log_eq, h.log_eq, List.append_assoc]
  method_eq := h'.method_eq.trans h.method_eq
  origins_eq := h'.origins_eq.trans h.origins_eq
  folds_eq := by rw [h'.folds_eq, h.folds_eq, List.countP_append, Nat.add_assoc]
  kinds event hm := (List.mem_append.mp hm).elim (h.kinds event) (h'.kinds event)
  named event hm := by
    rcases List.mem_append.mp hm with hm | hm
    · exact h.named event hm
    · rw [h'.named event hm, h.method_eq]
  skips := by
    have horigin : second.origin? = first.origin? := by
      funext handle
      rw [origin?, origin?, h.origins_eq]
    rw [List.filter_append, List.map_append, List.map_append, h.skips, h'.skips, horigin]
  nodup := by
    refine List.nodup_append.mpr ⟨h.nodup, h'.nodup, fun start hstart other hother he => ?_⟩
    refine h'.unreported other hother ?_
    rw [h.reported]
    exact .inr (he ▸ hstart)
  unreported start hm := by
    rcases List.mem_append.mp hm with hm | hm
    · exact h.unreported start hm
    · exact fun hreported => h'.unreported start hm ((h.reported start).mpr (.inl hreported))
  reported start := by rw [h'.reported, h.reported, List.mem_append, or_assoc]

theorem skip (session : Session) (pass : String) (handle : Handle) (reason : String) :
    ∃ events starts, session.Ledger (session.skip pass handle reason) events starts ∧
      ∀ start ∈ starts, start = handle := by
  unfold Session.skip
  split
  case isTrue => exact ⟨[], [], refl session, by simp⟩
  case isFalse hnew =>
    refine ⟨[⟨.foldSkipped, some session.method, session.origin? handle, some pass, some reason⟩],
      [handle], ?_, by simp⟩
    refine ⟨Array.toList_push, rfl, rfl, rfl, ?_, ?_, rfl, by simp, ?_, ?_⟩
    · simp
    · simp
    · intro start hm
      rw [List.mem_singleton.mp hm, Std.HashSet.mem_iff_contains]
      exact hnew
    · intro start
      rw [Std.HashSet.mem_insert, beq_iff_eq, List.mem_singleton, or_comm, eq_comm]

theorem fold (session : Session) {kind : EventKind} (transforms : kind.isTransformation = true)
    (listing : Listing) (pool : ConstantPool) (handle : Handle) (pass note : Option String) :
    session.Ledger ({ session with listing, pool }.record kind handle pass note).countFold
      [⟨kind, some session.method, session.origin? handle, pass, note⟩] [] := by
  have hskip : (kind == .foldSkipped) = false := by
    cases kind <;> first | rfl | cases transforms
  refine ⟨Array.toList_push, rfl, rfl, ?_, ?_, ?_, ?_, List.nodup_nil, ?_, ?_⟩
  · simp [countFold, record, transforms]
  · simp [transforms]
  · simp
  · simp [hskip]
  · simp
  · simp [countFold, record]

end Session.Ledger

/-- What one scan of some lines records. -/
theorem FoldRule.ledger_of_scan {α : Type} {rule : FoldRule α} {lines : List Line}
    (transforms : rule.event.isTransformation = true) {outcome : Except Error Bool}
    (h : rule.scan lines session = (outcome, result)) : ∃ events starts,
      session.Ledger result events starts ∧ ∀ start ∈ starts, start ∈ lines.map (·.handle) := by
  induction lines generalizing session with
  | nil =>
    cases h
    exact ⟨[], [], .refl _, by simp⟩
  | cons line lines ih =>
    -- a match that is passed over is reported, and the scan goes on
    have hskip : ∀ reason, rule.scan lines (session.skip rule.name line.handle reason) =
        (outcome, result) → ∃ events starts, session.Ledger result events starts ∧
          ∀ start ∈ starts, start ∈ (line :: lines).map (·.handle) := by
      intro reason hrest
      obtain ⟨events, starts, hledger, hstarts⟩ :=
        Session.Ledger.skip session rule.name line.handle reason
      obtain ⟨events', starts', hledger', hstarts'⟩ := ih hrest
      refine ⟨_, _, hledger.trans hledger', fun start hm => ?_⟩
      rcases List.mem_append.mp hm with hm | hm
      · rw [hstarts start hm]
        exact List.mem_cons_self
      · exact List.mem_cons_of_mem _ (hstarts' start hm)
    rw [scan] at h
    split at h
    case h_1 =>
      obtain ⟨events, starts, hledger, hstarts⟩ := ih h
      exact ⟨events, starts, hledger, fun start hm => List.mem_cons_of_mem _ (hstarts start hm)⟩
    case h_2 found hm =>
      split at h
      case h_1 listing pool note ha =>
        cases h
        exact ⟨_, [], .fold session transforms listing pool line.handle _ _, by simp⟩
      case h_2 reason ha => exact hskip reason h
      case h_3 e ha =>
        split at h
        · exact hskip e.message h
        · cases h
          exact ⟨[], [], .refl _, by simp⟩

theorem FoldPass.ledger {pass : FoldPass} (mem : pass ∈ foldPasses) {outcome : Except Error Bool}
    (h : pass.run session = (outcome, result)) : ∃ events starts,
      session.Ledger result events starts ∧ ∀ start ∈ starts, start ∈ session.listing.handles := by
  rcases List.mem_pair.mp mem with rfl | rfl
  · exact FoldRule.ledger_of_scan rfl h
  · exact FoldRule.ledger_of_scan rfl h

/-- The ledger of a chain of passes. Matches are skipped at instructions that were there at
first. -/
theorem Session.Applies.ledger (folding : ∀ pass ∈ passes, pass ∈ foldPasses)
    (regular : first.listing.Regular first.pool) (h : first.Applies passes count session) :
    ∃ events starts, first.Ledger session events starts ∧
      ∀ start ∈ starts, start ∈ first.listing.handles := by
  have hstep : ∀ {count : Nat} {mid result : Session} {pass : FoldPass}
      {outcome : Except Error Bool}, first.Applies passes count mid → pass ∈ passes →
      pass.run mid = (outcome, result) →
      (∃ events starts, first.Ledger mid events starts ∧
        ∀ start ∈ starts, start ∈ first.listing.handles) →
      ∃ events starts, first.Ledger result events starts ∧
        ∀ start ∈ starts, start ∈ first.listing.handles := by
    rintro count mid result pass outcome applies mem run ⟨events, starts, hledger, hstarts⟩
    obtain ⟨events', starts', hledger', hstarts'⟩ := FoldPass.ledger (folding pass mem) run
    refine ⟨_, _, hledger.trans hledger', fun start hm => ?_⟩
    rcases List.mem_append.mp hm with hm | hm
    · exact hstarts start hm
    · exact applies.reaches.handles folding regular start (hstarts' start hm)
  induction h with
  | start => exact ⟨[], [], .refl first, by simp⟩
  | folded applies mem run ih => exact hstep applies mem run ih
  | passed applies mem run _ ih => exact hstep applies mem run ih

/-! ## What a run has on record -/

/-- In a listing that is laid out every line has an offset of its own. -/
theorem Listing.offsets_injective {listing : Listing} (distinct : listing.Distinct)
    (laidOut : listing.laidOut = true) {handle other : Handle} (hm : handle ∈ listing.handles)
    (he : listing.offsets[handle]? = listing.offsets[other]?) : handle = other := by
  obtain ⟨before, line, after, cut, rfl⟩ := exists_cut hm
  have hoffset := cut.offsets_eq distinct laidOut
  have hother := he.symm.trans hoffset
  rw [offsets_of_laidOut laidOut, offsets_eq_some distinct] at hoffset hother
  obtain ⟨line, hline, hh⟩ := hoffset
  obtain ⟨line', hline', hh'⟩ := hother
  have hpair := List.inj_on_of_nodup_map (nodup_placedFrom 0 listing.lines.toList) hline hline' rfl
  rw [← hh, ← hh', (Prod.mk.inj hpair).1]

/-- What a run recorded: events about matches, and then perhaps a warning. There are as many events
about folds as passes that folded, and no two about skipped matches at the same place. -/
structure Session.Recorded (passes : List FoldPass) (first result : Session) (notes : List Event)
    (warning : Option Event) (folds : Nat) : Prop where
  applies : ∃ last, first.Applies passes folds last ∧ result = last.warn warning
  log_eq : result.log.events.toList = first.log.events.toList ++ (notes ++ warning.toList)
  folds_eq : result.folds = first.folds + folds
  count_eq : notes.countP (·.kind.isTransformation) = folds
  about : ∀ event ∈ notes ++ warning.toList, first.RunEvent passes event
  kinds : ∀ event ∈ notes, event.kind = .foldSkipped ∨ event.kind.isTransformation = true
  warning_kind : ∀ event ∈ warning, event.kind = .warning
  skips_once : ((notes.filter (·.kind == .foldSkipped)).map (·.location)).Nodup

theorem Schedule.recorded_of_run {schedule : Schedule}
    (folding : ∀ pass ∈ schedule.passes, pass ∈ foldPasses)
    (regular : first.listing.Regular first.pool) (laidOut : first.listing.laidOut = true)
    (origins : first.origins = first.listing.offsets) {outcome : Except Error Nat}
    (h : schedule.run first = (outcome, result)) :
    ∃ notes warning folds, first.Recorded schedule.passes result notes warning folds := by
  obtain ⟨folds, last, warning, applies, hresult, hwarning⟩ := applies_of_run h
  obtain ⟨notes, starts, hledger, hstarts⟩ := applies.ledger folding regular
  have hfolds := applies.folds_eq folding
  have hlog : result.log.events.toList = first.log.events.toList ++ (notes ++ warning.toList) := by
    rw [hresult, Session.log_warn, hledger.log_eq, List.append_assoc]
  refine ⟨notes, warning, folds, ⟨last, applies, hresult⟩, hlog, ?_, ?_, ?_, hledger.kinds,
    fun event hm => (hwarning event hm).1, ?_⟩
  · rw [hresult, Session.folds_warn, hfolds]
  · have hcount := hledger.folds_eq
    omega
  · obtain ⟨-, -, events, hevents, habout⟩ := (reaches_of_run h).events folding
    rw [List.append_cancel_left (hlog.symm.trans hevents)]
    exact habout
  · -- places are told apart by their offsets
    rw [hledger.skips]
    refine hledger.nodup.map_on fun start hm other hm' he => ?_
    rw [Session.origin?, Session.origin?, origins] at he
    exact Listing.offsets_injective regular.distinct laidOut (hstarts start hm) he

end BytecodeFold
