import BytecodeFold.Fold.Resolve
import BytecodeFold.Proofs.Listing.Stream
import BytecodeFold.Proofs.Outcome

/-!
# Resolved operands

A load resolves to a literal only along a straight line of code: the literal, the store of the
local right after it, and then lines up to the load that leave the local alone. From the store
through the load control comes from the line before and from nowhere else.
-/

namespace BytecodeFold

/-- Membership in a set that grows while a list is gone through. -/
theorem mem_foldl_iff {α β : Type} [BEq α] [Hashable α] {step : Std.HashSet α → β → Std.HashSet α}
    (adds : β → α → Prop) (h : ∀ set b a, a ∈ step set b ↔ a ∈ set ∨ adds b a)
    (list : List β) (set : Std.HashSet α) (a : α) :
    a ∈ list.foldl step set ↔ a ∈ set ∨ ∃ b ∈ list, adds b a := by
  induction list generalizing set with
  | nil => simp
  | cons b list ih =>
    rw [List.foldl_cons, ih, h, List.exists_mem_cons_iff, or_assoc]

namespace Listing

variable {listing : Listing} {handle : Handle} {slot : UInt16}

/-- Control can reach the handle other than from the line before it. -/
inductive MergePoint (listing : Listing) : Handle → Prop where
  | target {line : Line} {handle : Handle} (mem : line ∈ listing.lines.toList)
      (targets : handle ∈ line.instruction.targets) : MergePoint listing handle
  | handler {entry : ExceptionHandler} (mem : entry ∈ listing.handlers.toList) :
      MergePoint listing entry.handler
  | afterCall {before after : List Line} {line next : Line} {target : Handle}
      (cut : listing.Cut before line (next :: after))
      (call : line.instruction = .subroutine target) : MergePoint listing next.handle

theorem mem_mergePoints : handle ∈ listing.mergePoints ↔ listing.MergePoint handle := by
  have htargets : ∀ (set : Std.HashSet Handle) (line : Line) (h : Handle),
      h ∈ line.instruction.targets.foldl (·.insert ·) set ↔
        h ∈ set ∨ h ∈ line.instruction.targets := by
    intro set line h
    rw [mem_foldl_iff (fun target h => target = h)]
    · simp
    · intro set target h
      rw [Std.HashSet.mem_insert, beq_iff_eq, or_comm]
  have hentries : ∀ (set : Std.HashSet Handle) (entry : ExceptionHandler) (h : Handle),
      h ∈ set.insert entry.handler ↔ h ∈ set ∨ entry.handler = h := by
    intro set entry h
    rw [Std.HashSet.mem_insert, beq_iff_eq, or_comm]
  rw [mergePoints, ← Array.foldl_toList, ← Array.foldl_toList, ← Array.foldl_toList]
  rw [mem_foldl_iff (fun (pair : Line × Nat) h => ∃ target next,
    pair.1.instruction = .subroutine target ∧ listing.lines[pair.2 + 1]? = some next ∧
      next.handle = h)]
  rotate_left
  · intro set pair h
    dsimp only
    split
    case h_1 target next hi hn =>
      rw [Std.HashSet.mem_insert, beq_iff_eq, or_comm]
      simp [hi, hn]
    case h_2 hno =>
      constructor
      · exact .inl
      · rintro (hs | ⟨target, next, hi, hn, -⟩)
        · exact hs
        · exact (hno target next hi hn).elim
  rw [mem_foldl_iff _ hentries, mem_foldl_iff _ htargets]
  constructor
  · rintro (((hn | ⟨line, hm, ht⟩) | ⟨entry, hm, rfl⟩) |
      ⟨⟨line, index⟩, hm, target, next, hi, hn, rfl⟩)
    · simp at hn
    · exact .target hm ht
    · exact .handler hm
    · rw [Array.toList_zipIdx, List.mk_mem_zipIdx_iff_getElem?] at hm
      obtain ⟨hlt, he⟩ := List.getElem?_eq_some_iff.mp hm
      rw [← Array.getElem?_toList] at hn
      obtain ⟨hlt', he'⟩ := List.getElem?_eq_some_iff.mp hn
      have cut : listing.Cut (listing.lines.toList.take index) line
          (next :: listing.lines.toList.drop (index + 1 + 1)) := by
        rw [Cut, ← he, ← he', ← List.drop_eq_getElem_cons hlt', ← List.drop_eq_getElem_cons hlt,
          List.take_append_drop]
      exact .afterCall cut hi
  · intro h
    cases h with
    | target hm ht => exact .inl (.inl (.inr ⟨_, hm, ht⟩))
    | handler hm => exact .inl (.inr ⟨_, hm, rfl⟩)
    | @afterCall before after line next target cut call =>
      refine .inr ⟨(line, before.length), ?_, target, next, call, ?_, rfl⟩
      · rw [Array.toList_zipIdx, List.mk_mem_zipIdx_iff_getElem?,
          show listing.lines.toList = _ from cut]
        simp
      · rw [← Array.getElem?_toList, show listing.lines.toList = _ from cut]
        simp

/-- The instruction leaves a local alone. -/
def Keeps (slot : UInt16) (code : Instruction Handle) : Prop :=
  writesAcross slot code = false ∧ ∀ type, code ≠ .store slot type

/-- The search ends at the nearest store of the local. -/
theorem definition?_eq_some {points : Std.HashSet Handle} {lines rest : List Line}
    (h : definition? points slot lines = some rest) :
    ∃ between store type, lines = between ++ store :: rest ∧
      store.instruction = .store slot type ∧ store.handle ∉ points ∧
      ∀ line ∈ between, line.handle ∉ points ∧ Keeps slot line.instruction := by
  induction lines with
  | nil => cases h
  | cons line lines ih =>
    have hgo : ∀ (_ : ∀ type, line.instruction ≠ .store slot type)
        (_ : (if writesAcross slot line.instruction || points.contains line.handle then none
          else definition? points slot lines) = some rest),
        ∃ between store type, line :: lines = between ++ store :: rest ∧
          store.instruction = .store slot type ∧ store.handle ∉ points ∧
          ∀ line ∈ between, line.handle ∉ points ∧ Keeps slot line.instruction := by
      intro hne hif
      split at hif
      · cases hif
      · next hkeep =>
        obtain ⟨between, store, type, rfl, hs, hp, hb⟩ := ih hif
        simp only [Bool.or_eq_true, not_or, Bool.not_eq_true] at hkeep
        refine ⟨line :: between, store, type, rfl, hs, hp, ?_⟩
        intro other hm
        rcases List.mem_cons.mp hm with rfl | hm
        · exact ⟨by simp [Std.HashSet.mem_iff_contains, hkeep.2], hkeep.1, hne⟩
        · exact hb other hm
    rw [definition?] at h
    split at h
    case h_1 stored type hi =>
      split at h
      case isTrue hs =>
        subst hs
        split at h
        case isTrue => cases h
        case isFalse hp =>
          cases h
          exact ⟨[], line, type, rfl, hi, fun hm => hp (Std.HashSet.mem_iff_contains.mp hm),
            by simp⟩
      case isFalse hs =>
        refine hgo ?_ h
        intro type' he
        rw [hi] at he
        cases he
        exact hs rfl
    case h_2 hno =>
      refine hgo ?_ h
      intro type' he
      exact hno slot type' he

/-- The straight line of code from a literal through the store of a local to a load of it. -/
structure Definition (listing : Listing) (slot : UInt16) (load : Line) where
  before : List Line
  source : Line
  store : Line
  between : List Line
  after : List Line
  type : TypeTag
  lines_eq : listing.lines.toList = before ++ source :: store :: (between ++ load :: after)
  store_eq : store.instruction = .store slot type
  straight : ∀ line ∈ store :: (between ++ [load]), ¬ listing.MergePoint line.handle
  keeps : ∀ line ∈ between, Keeps slot line.instruction

theorem loadValue_eq_ok {pool : ConstantPool} {before after : List Line} {load : Line}
    {value : Number × TypeTag} (cut : listing.Cut before load after) (distinct : listing.Distinct)
    (h : listing.loadValue pool load.handle slot = .ok value) :
    ∃ definition : listing.Definition slot load,
      literal? pool definition.source.instruction = .ok (some value) := by
  unfold loadValue at h
  dsimp only at h
  split at h
  case isTrue => cases h
  case isFalse hload =>
    rw [cut.linesBefore distinct] at h
    split at h
    case h_1 source earlier hd =>
      obtain ⟨between, store, type, hr, hstore, hp, hb⟩ := definition?_eq_some hd
      have hbefore : before = earlier.reverse ++ source :: store :: between.reverse := by
        have hrev := congrArg List.reverse hr
        simpa using hrev
      obtain ⟨literal, hl, h⟩ := Outcome.bind_eq_ok.mp h
      cases literal with
      | none => cases h
      | some result =>
        cases h
        refine ⟨⟨earlier.reverse, source, store, between.reverse, after, type, ?_, hstore, ?_, ?_⟩,
          hl⟩
        · rw [show listing.lines.toList = _ from cut, hbefore]
          simp
        · intro line hm
          rw [← mem_mergePoints]
          simp only [List.mem_cons, List.mem_append, List.mem_reverse, List.not_mem_nil,
            or_false] at hm
          rcases hm with rfl | hm | rfl
          · exact hp
          · exact (hb line hm).1
          · exact fun hm => hload (Std.HashSet.mem_iff_contains.mp hm)
        · intro line hm
          exact (hb line (List.mem_reverse.mp hm)).2
    case h_2 => cases h

/-- How the value of an operand is known. -/
inductive OperandSource (listing : Listing) (pool : ConstantPool) (line : Line)
    (value : Number × TypeTag) : Prop where
  | literal (h : literal? pool line.instruction = .ok (some value))
  | load (slot : UInt16) (type : TypeTag) (code : line.instruction = .load slot type)
      (definition : listing.Definition slot line)
      (h : literal? pool definition.source.instruction = .ok (some value))

theorem operandValue_eq_ok {pool : ConstantPool} {before after : List Line} {line : Line}
    {value : Number × TypeTag} (cut : listing.Cut before line after) (distinct : listing.Distinct)
    (h : listing.operandValue pool line.handle = .ok value) :
    listing.OperandSource pool line value := by
  unfold operandValue at h
  rw [cut.get? distinct] at h
  split at h
  case h_1 slot type he =>
    obtain ⟨definition, hl⟩ := loadValue_eq_ok cut distinct h
    exact .load slot type (Option.some.inj he) definition hl
  case h_2 code hno he =>
    cases he
    obtain ⟨literal, hl, h⟩ := Outcome.bind_eq_ok.mp h
    cases literal with
    | none => cases h
    | some result =>
      cases h
      exact .literal hl
  case h_3 he => cases he

end Listing

end BytecodeFold
