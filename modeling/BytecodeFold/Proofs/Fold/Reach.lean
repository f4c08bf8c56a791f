import BytecodeFold.Proofs.Fold.Run

/-!
# What a run leaves behind

A run brings no handles into the listing and no entries into the pool but numbers that were missing.
Every event of a run but a warning is about a match in a session on the way: it names the method,
and its location is where the left operand of the match stood when the run began.
-/

namespace BytecodeFold

variable {first session result : Session} {passes : List FoldPass}

/-! ## Listings and pools -/

namespace Session.Reaches

/-- A property of listing and pool that every fold keeps holds in every session that is reached. -/
theorem induct {motive : Listing → ConstantPool → Prop}
    (folding : ∀ pass ∈ passes, pass ∈ foldPasses) (regular : first.listing.Regular first.pool)
    (initial : motive first.listing first.pool)
    (fold : ∀ {listing folded : Listing} {pool grown : ConstantPool} {before : List Line}
      {line : Line} {segment after : List Line} {code : Instruction Handle}, listing.Regular pool →
      listing.Replaced before line segment after code folded → Replacement pool grown segment code →
      motive listing pool → motive folded grown)
    (h : first.Reaches passes result) : motive result.listing result.pool := by
  induction h with
  | start => exact initial
  | @pass mid result pass outcome reaches mem run ih =>
    have hregular := (reaches.evolves folding regular).regular
    by_cases folded : outcome = .ok true
    · rw [folded] at run
      obtain ⟨before, line, segment, after, code, replaced, replacement⟩ :=
        FoldPass.run_eq_true (folding _ mem) hregular.distinct run
      exact fold hregular replaced replacement ih
    · have hover := FoldPass.passesOver_of_unfolded (folding _ mem) run folded
      rw [hover.listing_eq, hover.pool_eq]
      exact ih
  | warned _ _ _ ih => exact ih

/-- Runs add nothing to the pool but numbers that are missing. -/
theorem gains (folding : ∀ pass ∈ passes, pass ∈ foldPasses)
    (regular : first.listing.Regular first.pool) (h : first.Reaches passes result) :
    first.pool.Gains result.pool := by
  refine h.induct (motive := fun _ pool => first.pool.Gains pool) folding regular .refl ?_
  intro listing folded pool grown before line segment after code _ _ replacement ih
  cases replacement with
  | constant wide added long => exact ih.trans (ConstantPool.gains_of_addNumber added)
  | selected mem push pool_eq =>
    rw [pool_eq]
    exact ih

/-- Runs bring in no handles. -/
theorem handles (folding : ∀ pass ∈ passes, pass ∈ foldPasses)
    (regular : first.listing.Regular first.pool) (h : first.Reaches passes result) :
    ∀ handle ∈ result.listing.handles, handle ∈ first.listing.handles := by
  refine h.induct (motive := fun listing _ => ∀ handle ∈ listing.handles,
    handle ∈ first.listing.handles) folding regular (fun _ => id) ?_
  intro listing folded pool grown before line segment after code _ replaced _ ih handle hm
  refine ih handle ?_
  rw [replaced.result_cut.handles_eq] at hm
  rw [replaced.cut.handles_eq]
  simp only [List.map_append, List.mem_append, List.mem_cons] at hm ⊢
  tauto

end Session.Reaches

/-! ## Events -/

namespace FoldRule

variable {α : Type} {rule : FoldRule α} {lines : List Line}

/-- What a scan of these lines may record: an event about a match in them. -/
structure Notes (rule : FoldRule α) (session : Session) (lines : List Line)
    (event : Event) : Prop where
  kind : event.kind = .foldSkipped ∨ event.kind = rule.event
  method : event.method = some session.method
  pass : event.pass = some rule.name
  about : ∃ before line rest found, lines = before ++ line :: rest ∧
    rule.matchAt? (line :: rest) = some found ∧ event.location = session.origin? line.handle

/-- The second session is the first with events on record about matches in these lines. -/
structure Noted (rule : FoldRule α) (lines : List Line) (first second : Session) : Prop where
  method_eq : second.method = first.method
  origins_eq : second.origins = first.origins
  log : first.log.Adds (rule.Notes first lines) second.log

theorem Noted.skip {line : Line} {found : α} (hm : rule.matchAt? (line :: lines) = some found)
    (session : Session) (reason : String) :
    rule.Noted (line :: lines) session (session.skip rule.name line.handle reason) := by
  unfold Session.skip
  split
  · exact ⟨rfl, rfl, .refl _⟩
  · exact ⟨rfl, rfl, .record _ ⟨.inl rfl, rfl, rfl, [], line, lines, found, rfl, hm, rfl⟩⟩

/-- What is noted about later lines is noted about all of them. -/
theorem Noted.trans {line : Line} {mid : Session} (h : rule.Noted (line :: lines) session mid)
    (h' : rule.Noted lines mid result) : rule.Noted (line :: lines) session result where
  method_eq := h'.method_eq.trans h.method_eq
  origins_eq := h'.origins_eq.trans h.origins_eq
  log := by
    refine h.log.trans (h'.log.mono ?_)
    rintro event ⟨hkind, hmethod, hpass, before, other, rest, found, rfl, hm, hlocation⟩
    refine ⟨hkind, hmethod.trans (congrArg some h.method_eq), hpass, line :: before, other, rest,
      found, rfl, hm, ?_⟩
    rw [hlocation, Session.origin?, Session.origin?, h.origins_eq]

theorem noted_of_scan {outcome : Except Error Bool}
    (h : rule.scan lines session = (outcome, result)) : rule.Noted lines session result := by
  induction lines generalizing session with
  | nil =>
    cases h
    exact ⟨rfl, rfl, .refl _⟩
  | cons line lines ih =>
    rw [scan] at h
    split at h
    case h_1 => exact .trans ⟨rfl, rfl, .refl _⟩ (ih h)
    case h_2 found hm =>
      split at h
      case h_1 listing pool note ha =>
        cases h
        exact ⟨rfl, rfl, .record _ ⟨.inr rfl, rfl, rfl, [], line, lines, found, rfl, hm, rfl⟩⟩
      case h_2 reason ha => exact .trans (.skip hm session reason) (ih h)
      case h_3 e ha =>
        split at h
        · exact .trans (.skip hm session e.message) (ih h)
        · cases h
          exact ⟨rfl, rfl, .refl _⟩

end FoldRule

/-- The event is about a match in the listing whose left operand has this handle. -/
inductive Event.Reports (event : Event) (listing : Listing) : Handle → Prop where
  | arithmetic {before rest : List Line} {line : Line} {found : ArithmeticMatch}
      (cut : listing.Cut before line rest) (shape : ArithmeticMatch.at? (line :: rest) = some found)
      (kind : event.kind = .foldSkipped ∨ event.kind = .constantFolded)
      (pass : event.pass = some arithmeticFold.name) : Reports event listing found.left
  | comparison {before rest : List Line} {line : Line} {found : ComparisonMatch}
      (cut : listing.Cut before line rest) (shape : ComparisonMatch.at? (line :: rest) = some found)
      (kind : event.kind = .foldSkipped ∨ event.kind = .comparisonFolded)
      (pass : event.pass = some comparisonFold.name) : Reports event listing found.left

namespace Event.Reports

variable {event : Event} {listing : Listing} {left : Handle}

theorem left_mem (h : event.Reports listing left) : left ∈ listing.handles := by
  cases h with
  | arithmetic cut shape kind pass =>
    obtain ⟨lines, tail, hlines, named, -⟩ := ArithmeticMatch.at?_eq_some shape
    obtain ⟨rfl, -⟩ := List.cons.inj hlines
    rw [named.left]
    exact List.mem_map_of_mem cut.mem
  | comparison cut shape kind pass =>
    obtain ⟨lines, after, tail, hlines, named⟩ := ComparisonMatch.at?_eq_some shape
    obtain ⟨rfl, -⟩ := List.cons.inj hlines
    rw [named.left]
    exact List.mem_map_of_mem cut.mem

theorem kind_cases (h : event.Reports listing left) :
    event.kind = .foldSkipped ∨ event.kind = .constantFolded ∨ event.kind = .comparisonFolded := by
  cases h with
  | arithmetic cut shape kind pass => exact kind.imp_right .inl
  | comparison cut shape kind pass => exact kind.imp_right .inr

end Event.Reports

/-- What one pass records. -/
theorem FoldPass.events {pass : FoldPass} (mem : pass ∈ foldPasses) {outcome : Except Error Bool}
    (h : pass.run session = (outcome, result)) :
    result.method = session.method ∧ result.origins = session.origins ∧
      session.log.Adds (fun event => event.method = some session.method ∧
        ∃ left, event.Reports session.listing left ∧ event.location = session.origin? left)
        result.log := by
  rcases List.mem_pair.mp mem with rfl | rfl
  · obtain ⟨hmethod, horigins, hlog⟩ := FoldRule.noted_of_scan h
    refine ⟨hmethod, horigins, hlog.mono ?_⟩
    rintro event ⟨hkind, hnamed, hpass, before, line, rest, found, hcut, hm, hlocation⟩
    obtain ⟨lines, tail, hlines, named, -⟩ := ArithmeticMatch.at?_eq_some hm
    obtain ⟨rfl, -⟩ := List.cons.inj hlines
    exact ⟨hnamed, found.left, .arithmetic hcut hm hkind hpass, named.left ▸ hlocation⟩
  · obtain ⟨hmethod, horigins, hlog⟩ := FoldRule.noted_of_scan h
    refine ⟨hmethod, horigins, hlog.mono ?_⟩
    rintro event ⟨hkind, hnamed, hpass, before, line, rest, found, hcut, hm, hlocation⟩
    obtain ⟨lines, after, tail, hlines, named⟩ := ComparisonMatch.at?_eq_some hm
    obtain ⟨rfl, -⟩ := List.cons.inj hlines
    exact ⟨hnamed, found.left, .comparison hcut hm hkind hpass, named.left ▸ hlocation⟩

/-- What a run records about its method: a warning, or an event about a match in a session on the
way, located where the left operand of the match stood at first. -/
structure Session.RunEvent (passes : List FoldPass) (first : Session) (event : Event) : Prop where
  method : event.method = some first.method
  about : event.kind = .warning ∨ ∃ session left, first.Reaches passes session ∧
    event.Reports session.listing left ∧ event.location = first.origin? left

theorem Session.Reaches.events (folding : ∀ pass ∈ passes, pass ∈ foldPasses)
    (h : first.Reaches passes result) : result.method = first.method ∧
      result.origins = first.origins ∧ first.log.Adds (first.RunEvent passes) result.log := by
  induction h with
  | start => exact ⟨rfl, rfl, .refl _⟩
  | @pass mid result pass outcome reaches mem run ih =>
    obtain ⟨hmethod, horigins, hlog⟩ := ih
    obtain ⟨hmethod', horigins', hlog'⟩ := FoldPass.events (folding _ mem) run
    refine ⟨hmethod'.trans hmethod, horigins'.trans horigins, hlog.trans (hlog'.mono ?_)⟩
    rintro event ⟨hnamed, left, hreports, hlocation⟩
    refine ⟨hnamed.trans (congrArg some hmethod), .inr ⟨mid, left, reaches, hreports, ?_⟩⟩
    rw [hlocation, origin?, origin?, horigins]
  | warned _ kind method ih =>
    obtain ⟨hmethod, horigins, hlog⟩ := ih
    exact ⟨hmethod, horigins,
      hlog.trans (.record _ ⟨method.trans (congrArg some hmethod), .inl kind⟩)⟩

end BytecodeFold
