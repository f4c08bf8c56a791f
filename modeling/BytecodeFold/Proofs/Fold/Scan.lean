import BytecodeFold.Fold.Rule
import BytecodeFold.Proofs.Listing.Stream

/-!
# What a scan does

A scan tries the matches of a rule from the front. It passes over those that are skipped or
fail recoverably, which changes nothing but the log, and ends at the first match that is
neither: with a fold, or with the error of that match. `FoldRule.Loop` says the same as a loop that
searches for the next match from a handle on.
-/

namespace BytecodeFold

/-- The second session is the first one after matches were passed over. -/
structure Session.PassesOver (first second : Session) : Prop where
  listing_eq : second.listing = first.listing
  pool_eq : second.pool = first.pool
  method_eq : second.method = first.method
  origins_eq : second.origins = first.origins
  folds_eq : second.folds = first.folds
  log_eq : ∃ events : List Event, second.log.events.toList = first.log.events.toList ++ events ∧
    ∀ event ∈ events, event.kind = .foldSkipped ∧ event.method = some first.method

namespace Session.PassesOver

theorem refl (session : Session) : session.PassesOver session where
  listing_eq := rfl
  pool_eq := rfl
  method_eq := rfl
  origins_eq := rfl
  folds_eq := rfl
  log_eq := ⟨[], by simp, by simp⟩

theorem trans {first second third : Session} (h : first.PassesOver second)
    (h' : second.PassesOver third) : first.PassesOver third := by
  obtain ⟨events, he, hk⟩ := h.log_eq
  obtain ⟨events', he', hk'⟩ := h'.log_eq
  refine ⟨h'.listing_eq.trans h.listing_eq, h'.pool_eq.trans h.pool_eq,
    h'.method_eq.trans h.method_eq, h'.origins_eq.trans h.origins_eq,
    h'.folds_eq.trans h.folds_eq, events ++ events', ?_, ?_⟩
  · rw [he', he, List.append_assoc]
  · intro event hm
    rcases List.mem_append.mp hm with hm | hm
    · exact hk event hm
    · exact ⟨(hk' event hm).1, (hk' event hm).2.trans (congrArg some h.method_eq)⟩

theorem skip (session : Session) (pass : String) (handle : Handle) (reason : String) :
    session.PassesOver (session.skip pass handle reason) := by
  unfold Session.skip
  split
  · exact refl session
  · refine ⟨rfl, rfl, rfl, rfl, rfl, [_], Array.toList_push, ?_⟩
    intro event hm
    rw [List.mem_singleton.mp hm]
    exact ⟨rfl, rfl⟩

end Session.PassesOver

/-- Whether a scan passes over the outcome of an attempt. -/
inductive PassedOver : Except Error Attempt → Prop where
  | skipped (reason : String) : PassedOver (.ok (.skipped reason))
  | failed {e : Error} (recoverable : e.isRecoverable = true) : PassedOver (.error e)

instance : DecidablePred PassedOver
  | .ok (.skipped reason) => isTrue (.skipped reason)
  | .ok (.folded ..) => isFalse nofun
  | .error e =>
    if h : e.isRecoverable then isTrue (.failed h)
    else isFalse fun | .failed recoverable => h recoverable

namespace FoldRule

variable {α : Type} {rule : FoldRule α} {lines : List Line} {session result : Session}

/-- A scan passes over every match that starts at one of the lines. -/
def Exhausted (rule : FoldRule α) (listing : Listing) (pool : ConstantPool) (lines : List Line) :
    Prop :=
  ∀ skipped line rest, lines = skipped ++ line :: rest →
    ∀ found, rule.matchAt? (line :: rest) = some found →
      PassedOver (rule.attempt listing pool found)

theorem exhausted_nil (rule : FoldRule α) (listing : Listing) (pool : ConstantPool) :
    rule.Exhausted listing pool [] := by
  intro skipped line rest he
  simp at he

theorem exhausted_cons {listing : Listing} {pool : ConstantPool} {line : Line}
    (hline : ∀ found, rule.matchAt? (line :: lines) = some found →
      PassedOver (rule.attempt listing pool found))
    (hrest : rule.Exhausted listing pool lines) : rule.Exhausted listing pool (line :: lines) := by
  intro skipped head rest he found hf
  cases skipped with
  | nil =>
    obtain ⟨rfl, rfl⟩ := List.cons.inj he
    exact hline found hf
  | cons other skipped =>
    obtain ⟨-, he⟩ := List.cons.inj he
    exact hrest skipped head rest he found hf

/-- One match decides whether the scan goes on. -/
theorem scan_cons (rule : FoldRule α) (line : Line) (lines : List Line) (session : Session) :
    (∃ mid, session.PassesOver mid ∧ rule.scan (line :: lines) session = rule.scan lines mid ∧
      ∀ found, rule.matchAt? (line :: lines) = some found →
        PassedOver (rule.attempt session.listing session.pool found)) ∨
    (∃ found listing pool note, rule.matchAt? (line :: lines) = some found ∧
      rule.attempt session.listing session.pool found = .ok (.folded listing pool note) ∧
      rule.scan (line :: lines) session = (.ok true, ({ session with listing, pool }.record
        rule.event line.handle (some rule.name) (some note)).countFold)) ∨
    (∃ found e, rule.matchAt? (line :: lines) = some found ∧
      rule.attempt session.listing session.pool found = .error e ∧ e.isRecoverable = false ∧
      rule.scan (line :: lines) session = (.error e, session)) := by
  cases hm : rule.matchAt? (line :: lines) with
  | none =>
    refine .inl ⟨session, .refl session, by rw [scan, hm], ?_⟩
    intro found hf
    cases hf
  | some found =>
    cases ha : rule.attempt session.listing session.pool found with
    | ok attempt =>
      cases attempt with
      | folded listing pool note =>
        exact .inr (.inl ⟨found, listing, pool, note, rfl, ha, by simp only [scan, hm, ha]⟩)
      | skipped reason =>
        refine .inl ⟨_, .skip session rule.name line.handle reason, by simp only [scan, hm, ha], ?_⟩
        intro found' hf
        cases hf
        exact ha ▸ .skipped reason
    | error e =>
      cases hr : e.isRecoverable with
      | true =>
        refine .inl ⟨_, .skip session rule.name line.handle e.message, ?_, ?_⟩
        · simp only [scan, hm, ha, hr, if_true]
        · intro found' hf
          cases hf
          exact ha ▸ .failed hr
      | false =>
        refine .inr (.inr ⟨found, e, rfl, ha, hr, ?_⟩)
        simp only [scan, hm, ha, hr, Bool.false_eq_true, if_false]

/-- A scan goes on behind lines where it passes over every match. -/
theorem scan_drop {place : Nat} (passed : ∀ earlier < place, ∀ found,
    rule.matchAt? (lines.drop earlier) = some found →
      PassedOver (rule.attempt session.listing session.pool found)) :
    ∃ mid, session.PassesOver mid ∧ rule.scan lines session = rule.scan (lines.drop place) mid := by
  induction place generalizing lines session with
  | zero => exact ⟨session, .refl session, rfl⟩
  | succ place ih =>
    cases lines with
    | nil => exact ⟨session, .refl session, rfl⟩
    | cons line rest =>
      have hfront := passed 0 (Nat.succ_pos _)
      rcases scan_cons rule line rest session with
        ⟨mid, hmid, hs, -⟩ | ⟨found, listing, pool, note, hf, ha, -⟩ | ⟨found, e, hf, ha, hr, -⟩
      · have hrest : ∀ earlier < place, ∀ found, rule.matchAt? (rest.drop earlier) = some found →
            PassedOver (rule.attempt mid.listing mid.pool found) := by
          rw [hmid.listing_eq, hmid.pool_eq]
          exact fun earlier hlt => passed (earlier + 1) (Nat.succ_lt_succ hlt)
        obtain ⟨last, hlast, hscan⟩ := ih hrest
        exact ⟨last, hmid.trans hlast, hs.trans hscan⟩
      · have hpassed := hfront found hf
        rw [ha] at hpassed
        cases hpassed
      · have hpassed := hfront found hf
        rw [ha] at hpassed
        cases hpassed with
        | failed recoverable =>
          rw [hr] at recoverable
          cases recoverable

/-- A pass folds the first match that it does not pass over. -/
theorem run_of_folded {listing folded : Listing} {pool grown : ConstantPool} {line : Line}
    {rest : List Line} {found : α} {note : String} (place : Nat)
    (cut : listing.lines.toList.drop place = line :: rest)
    (passed : ∀ earlier < place, ∀ other ∈ rule.matchAt? (listing.lines.toList.drop earlier),
      PassedOver (rule.attempt listing pool other))
    (hm : rule.matchAt? (line :: rest) = some found)
    (ha : rule.attempt listing pool found = .ok (.folded folded grown note))
    (hlisting : session.listing = listing) (hpool : session.pool = pool) :
    ∃ result, rule.pass.run session = (.ok true, result) ∧ result.listing = folded ∧
      result.pool = grown ∧ result.origins = session.origins ∧
      ∃ event ∈ result.log.events.toList, event.kind = rule.event ∧
        event.location = session.origin? line.handle := by
  subst hlisting hpool
  obtain ⟨mid, hmid, hscan⟩ := scan_drop passed
  rw [← hmid.listing_eq, ← hmid.pool_eq] at ha
  have hrun : rule.pass.run session =
      (.ok true, ({ mid with listing := folded, pool := grown }.record rule.event line.handle
        (some rule.name) (some note)).countFold) := by
    refine hscan.trans ?_
    simp only [cut, scan, hm, ha]
  refine ⟨_, hrun, rfl, rfl, hmid.origins_eq, _,
    Array.mem_toList_iff.mpr Array.mem_push_self, rfl, ?_⟩
  exact congrArg (·[line.handle]?) hmid.origins_eq

/-- A scan that folds does so at the first match it does not pass over. -/
theorem scan_eq_true (h : rule.scan lines session = (.ok true, result)) :
    ∃ skipped line rest found mid note, lines = skipped ++ line :: rest ∧
      session.PassesOver mid ∧ rule.matchAt? (line :: rest) = some found ∧
      rule.attempt session.listing session.pool found =
        .ok (.folded result.listing result.pool note) ∧
      result = ({ mid with listing := result.listing, pool := result.pool }.record rule.event
        line.handle (some rule.name) (some note)).countFold := by
  induction lines generalizing session with
  | nil => cases h
  | cons line lines ih =>
    rcases scan_cons rule line lines session with
      ⟨mid, hmid, hs, -⟩ | ⟨found, listing, pool, note, hf, ha, hs⟩ | ⟨found, e, -, -, -, hs⟩
    · rw [hs] at h
      obtain ⟨skipped, at_, rest, found, mid', note, rfl, hmid', hf, ha, hr⟩ := ih h
      rw [hmid.listing_eq, hmid.pool_eq] at ha
      exact ⟨line :: skipped, at_, rest, found, mid', note, rfl, hmid.trans hmid', hf, ha, hr⟩
    · rw [hs] at h
      cases h
      exact ⟨[], line, lines, found, session, note, rfl, .refl session, hf, ha, rfl⟩
    · rw [hs] at h
      cases h

/-- A scan that does not fold passes over every match and changes nothing but the log. -/
theorem scan_eq_false (h : rule.scan lines session = (.ok false, result)) :
    session.PassesOver result ∧ rule.Exhausted session.listing session.pool lines := by
  induction lines generalizing session with
  | nil =>
    cases h
    exact ⟨.refl _, exhausted_nil rule _ _⟩
  | cons line lines ih =>
    rcases scan_cons rule line lines session with
      ⟨mid, hmid, hs, hline⟩ | ⟨found, listing, pool, note, -, -, hs⟩ | ⟨found, e, -, -, -, hs⟩
    · rw [hs] at h
      obtain ⟨hpass, hrest⟩ := ih h
      rw [hmid.listing_eq, hmid.pool_eq] at hrest
      exact ⟨hmid.trans hpass, exhausted_cons hline hrest⟩
    · rw [hs] at h
      cases h
    · rw [hs] at h
      cases h

/-- A scan that fails does so with the error of the first match it does not pass over. -/
theorem scan_eq_error {e : Error} (h : rule.scan lines session = (.error e, result)) :
    session.PassesOver result ∧ ∃ skipped line rest found, lines = skipped ++ line :: rest ∧
      rule.matchAt? (line :: rest) = some found ∧
      rule.attempt session.listing session.pool found = .error e ∧ e.isRecoverable = false := by
  induction lines generalizing session with
  | nil => cases h
  | cons line lines ih =>
    rcases scan_cons rule line lines session with
      ⟨mid, hmid, hs, -⟩ | ⟨found, listing, pool, note, -, -, hs⟩ | ⟨found, e', hf, ha, hr, hs⟩
    · rw [hs] at h
      obtain ⟨hpass, skipped, at_, rest, found, rfl, hf, ha, hr⟩ := ih h
      rw [hmid.listing_eq, hmid.pool_eq] at ha
      exact ⟨hmid.trans hpass, line :: skipped, at_, rest, found, rfl, hf, ha, hr⟩
    · rw [hs] at h
      cases h
    · rw [hs] at h
      cases h
      exact ⟨.refl _, [], line, lines, found, rfl, hf, ha, hr⟩

/-- A scan that does not fold changes nothing but the log, also when it fails. -/
theorem passesOver_of_unfolded {outcome : Except Error Bool}
    (h : rule.scan lines session = (outcome, result)) (unfolded : outcome ≠ .ok true) :
    session.PassesOver result := by
  match outcome with
  | .ok true => exact absurd rfl unfolded
  | .ok false => exact (scan_eq_false h).1
  | .error e => exact (scan_eq_error h).1

/-- A scan of lines where every match is passed over does not fold. -/
theorem scan_of_exhausted (h : rule.Exhausted session.listing session.pool lines) :
    ∃ result, rule.scan lines session = (.ok false, result) ∧ session.PassesOver result := by
  have passed : ∀ place < lines.length, ∀ found, rule.matchAt? (lines.drop place) = some found →
      PassedOver (rule.attempt session.listing session.pool found) := by
    intro place inside found hm
    have hdrop := List.drop_eq_getElem_cons inside
    have hsplit : lines = lines.take place ++ lines[place] :: lines.drop (place + 1) := by
      rw [← hdrop, List.take_append_drop]
    exact h _ _ _ hsplit found (hdrop ▸ hm)
  obtain ⟨result, hpass, hscan⟩ := scan_drop passed
  rw [List.drop_length] at hscan
  exact ⟨result, hscan, hpass⟩

end FoldRule

/-! ## The loop of a pass -/

namespace FoldRule

variable {α : Type} {rule : FoldRule α} {left : α → Handle} {lines : List Line} {session : Session}

/-- The first match that starts at or after a handle. -/
def find? (rule : FoldRule α) (listing : Listing) (cursor : Option Handle) : Option α :=
  cursor.bind fun start => findMatch? rule.matchAt? (listing.linesFrom start)

/-- The loop of a pass: searches for the first match from the cursor on, tries it, and goes on
right after its left operand unless it was folded or failed for good. -/
inductive Loop (rule : FoldRule α) (left : α → Handle) :
    Option Handle → Session → Except Error Bool × Session → Prop where
  | done {cursor : Option Handle} {session : Session}
      (search : rule.find? session.listing cursor = none) :
      Loop rule left cursor session (.ok false, session)
  | folded {cursor : Option Handle} {session : Session} {found : α} {listing : Listing}
      {pool : ConstantPool} {note : String}
      (search : rule.find? session.listing cursor = some found)
      (tried : rule.attempt session.listing session.pool found = .ok (.folded listing pool note)) :
      Loop rule left cursor session (.ok true, ({ session with listing, pool }.record rule.event
        (left found) (some rule.name) (some note)).countFold)
  | skipped {cursor : Option Handle} {session : Session} {found : α} {reason : String}
      {outcome : Except Error Bool × Session}
      (search : rule.find? session.listing cursor = some found)
      (tried : rule.attempt session.listing session.pool found = .ok (.skipped reason))
      (more : Loop rule left (session.listing.next? (left found))
        (session.skip rule.name (left found) reason) outcome) :
      Loop rule left cursor session outcome
  | recovered {cursor : Option Handle} {session : Session} {found : α} {e : Error}
      {outcome : Except Error Bool × Session}
      (search : rule.find? session.listing cursor = some found)
      (tried : rule.attempt session.listing session.pool found = .error e)
      (recoverable : e.isRecoverable = true)
      (more : Loop rule left (session.listing.next? (left found))
        (session.skip rule.name (left found) e.message) outcome) :
      Loop rule left cursor session outcome
  | failed {cursor : Option Handle} {session : Session} {found : α} {e : Error}
      (search : rule.find? session.listing cursor = some found)
      (tried : rule.attempt session.listing session.pool found = .error e)
      (fatal : e.isRecoverable = false) : Loop rule left cursor session (.error e, session)

/-- The loop depends on the cursor only through what it finds from there. -/
theorem Loop.of_find?_eq {cursor other : Option Handle} {outcome : Except Error Bool × Session}
    (loop : rule.Loop left cursor session outcome)
    (h : rule.find? session.listing other = rule.find? session.listing cursor) :
    rule.Loop left other session outcome := by
  cases loop with
  | done search => exact .done (h.trans search)
  | folded search tried => exact .folded (h.trans search) tried
  | skipped search tried more => exact .skipped (h.trans search) tried more
  | recovered search tried recoverable more =>
    exact .recovered (h.trans search) tried recoverable more
  | failed search tried fatal => exact .failed (h.trans search) tried fatal

theorem find?_eq (rule : FoldRule α) {listing : Listing} {before : List Line}
    (distinct : listing.Distinct) (hlines : listing.lines.toList = before ++ lines) :
    rule.find? listing (lines.head?.map (·.handle)) = findMatch? rule.matchAt? lines := by
  cases lines with
  | nil => rfl
  | cons line rest =>
    have cut : listing.Cut before line rest := hlines
    rw [List.head?_cons, Option.map_some, find?, Option.bind_some, cut.linesFrom distinct]

/-- A scan of the lines from one on does what the loop does from its handle on. -/
theorem scan_loops (starts : ∀ line rest found, rule.matchAt? (line :: rest) = some found →
      left found = line.handle) {before : List Line} (distinct : session.listing.Distinct)
    (hlines : session.listing.lines.toList = before ++ lines) :
    rule.Loop left (lines.head?.map (·.handle)) session (rule.scan lines session) := by
  induction lines generalizing before session with
  | nil => exact .done (find?_eq rule distinct hlines)
  | cons line rest ih =>
    have cut : session.listing.Cut before line rest := hlines
    have hrest : session.listing.lines.toList = (before ++ [line]) ++ rest := by
      rw [hlines, List.append_assoc, List.singleton_append]
    have hsearch := find?_eq rule distinct hlines
    cases hm : rule.matchAt? (line :: rest) with
    | none =>
      rw [scan, hm]
      refine (ih distinct hrest).of_find?_eq ?_
      rw [hsearch, find?_eq rule distinct hrest, findMatch?, hm]
    | some found =>
      rw [findMatch?, hm] at hsearch
      have hleft := starts line rest found hm
      have hnext : session.listing.next? (left found) = rest.head?.map (·.handle) := by
        rw [hleft, cut.next? distinct]
      -- a match that is passed over leaves the listing as it is
      have hmore : ∀ reason, rule.Loop left (session.listing.next? (left found))
          (session.skip rule.name (left found) reason)
          (rule.scan rest (session.skip rule.name (left found) reason)) := by
        intro reason
        have hlisting := (Session.PassesOver.skip session rule.name (left found) reason).listing_eq
        rw [← hlisting] at distinct hrest
        rw [hnext]
        exact ih distinct hrest
      cases ha : rule.attempt session.listing session.pool found with
      | ok attempt =>
        cases attempt with
        | folded listing pool note =>
          simp only [scan, hm, ha, ← hleft]
          exact .folded hsearch ha
        | skipped reason =>
          simp only [scan, hm, ha, ← hleft]
          exact .skipped hsearch ha (hmore reason)
      | error e =>
        cases hr : e.isRecoverable with
        | true =>
          simp only [scan, hm, ha, hr, if_true, ← hleft]
          exact .recovered hsearch ha hr (hmore e.message)
        | false =>
          simp only [scan, hm, ha, hr, Bool.false_eq_true, if_false]
          exact .failed hsearch ha hr

/-- The pass of a rule is its loop from the head of the listing on. -/
theorem run_loops (starts : ∀ line rest found, rule.matchAt? (line :: rest) = some found →
      left found = line.handle) (distinct : session.listing.Distinct) :
    rule.Loop left session.listing.head? session (rule.pass.run session) := by
  have hhead : session.listing.head? = session.listing.lines.toList.head?.map (·.handle) := by
    rw [Listing.head?, List.head?_eq_getElem?, Array.getElem?_toList]
  rw [hhead]
  exact scan_loops starts distinct (List.nil_append _).symm

end FoldRule

/-! ## Passes that find nothing -/

/-- The pass finds nothing to fold in a listing under a pool. -/
def FoldPass.Idle (pass : FoldPass) (listing : Listing) (pool : ConstantPool) : Prop :=
  pass.shouldRun listing = true → ∀ session : Session, session.listing = listing →
    session.pool = pool → ∃ result, pass.run session = (.ok false, result) ∧
      session.PassesOver result

theorem FoldRule.idle_iff {α : Type} {rule : FoldRule α} {listing : Listing} {pool : ConstantPool} :
    rule.pass.Idle listing pool ↔ (rule.shortest ≤ listing.size →
      rule.Exhausted listing pool listing.lines.toList) := by
  constructor
  · intro h hsize
    obtain ⟨result, hrun, -⟩ := h (decide_eq_true hsize) (.start listing pool {} "") rfl rfl
    exact (scan_eq_false hrun).2
  · rintro h hrun session rfl rfl
    exact scan_of_exhausted (h (of_decide_eq_true hrun))

end BytecodeFold
