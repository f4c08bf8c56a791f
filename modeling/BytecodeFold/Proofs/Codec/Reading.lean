import BytecodeFold.Decoding
import BytecodeFold.Proofs.Listing.Stream
import BytecodeFold.Proofs.Outcome
import Mathlib.Data.List.Nodup

/-!
# What decoding reads

Decoding reads one instruction after another until the code ends, and then names every target by
the place of the instruction that starts there. `Streams` is the first part as a relation, and
`decode_eq_ok` takes the whole apart.
-/

namespace BytecodeFold

/-! ## Listings of instructions -/

/-- Lines that are named by their place in the stream. -/
def numbered (instructions : List (Instruction Handle)) : List Line :=
  instructions.mapIdx fun index instruction => ⟨⟨index⟩, instruction, false⟩

theorem numbered_concat (instructions : List (Instruction Handle)) (code : Instruction Handle) :
    numbered (instructions ++ [code]) =
      numbered instructions ++ [⟨⟨instructions.length⟩, code, false⟩] := by
  simp [numbered]

theorem handles_numbered (instructions : List (Instruction Handle)) :
    (numbered instructions).map (·.handle) = (List.range instructions.length).map Handle.mk := by
  apply List.ext_getElem
  · simp [numbered]
  · intro i h h'
    simp [numbered]

theorem foldl_append_eq (done rest : List (Instruction Handle)) :
    rest.foldl (fun listing code => (Listing.append listing code).2)
        ⟨(numbered done).toArray, done.length, #[], false⟩ =
      ⟨(numbered (done ++ rest)).toArray, (done ++ rest).length, #[], false⟩ := by
  induction rest generalizing done with
  | nil => simp
  | cons code rest ih =>
    have hstep : (Listing.append ⟨(numbered done).toArray, done.length, #[], false⟩ code).2 =
        ⟨(numbered (done ++ [code])).toArray, (done ++ [code]).length, #[], false⟩ := by
      simp [Listing.append, numbered_concat]
    rw [List.foldl_cons, hstep, ih]
    simp

theorem ofInstructions_eq (instructions : Array (Instruction Handle)) :
    Listing.ofInstructions instructions =
      ⟨(numbered instructions.toList).toArray, instructions.size, #[], false⟩ := by
  rw [Listing.ofInstructions, ← Array.foldl_toList]
  exact foldl_append_eq [] instructions.toList

theorem nodup_numbered (instructions : List (Instruction Handle)) :
    ((numbered instructions).map (·.handle)).Nodup := by
  rw [handles_numbered]
  refine List.Nodup.map ?_ List.nodup_range
  intro a b he
  exact Handle.mk.inj he

theorem distinct_numbered {listing : Listing} {instructions : List (Instruction Handle)}
    (h : listing.lines.toList = numbered instructions) : listing.Distinct := by
  rw [Listing.Distinct, Listing.handles, h]
  exact nodup_numbered instructions

/-! ## Reading -/

namespace Decoding

/-- Reading from a cursor to the end of the data gives these instructions, each with its
offset. -/
inductive Streams (pool : ConstantPool) : Cursor → List (Nat × Instruction Nat) → Prop where
  | done {cursor : Cursor} (ended : ¬ cursor.position < cursor.data.size) : Streams pool cursor []
  | read {cursor rest : Cursor} {decoded : Instruction Nat} {items : List (Nat × Instruction Nat)}
      (more : cursor.position < cursor.data.size)
      (head : instruction pool cursor = .ok (decoded, rest)) (tail : Streams pool rest items) :
      Streams pool cursor ((cursor.position, decoded) :: items)

theorem stream_eq_ok {pool : ConstantPool} {cursor : Cursor}
    {seen result : Array (Nat × Instruction Nat)} :
    stream pool cursor seen = .ok result ↔
      ∃ items, Streams pool cursor items ∧ result.toList = seen.toList ++ items := by
  fun_induction stream pool cursor seen with
  | case1 cursor seen hlt e he =>
    constructor
    · intro h
      cases h
    · rintro ⟨items, hs, -⟩
      cases hs with
      | done ended => exact absurd hlt ended
      | read _ head =>
        rw [he] at head
        cases head
  | case2 cursor seen hlt decoded rest hr ih =>
    rw [ih]
    constructor
    · rintro ⟨items, hs, he⟩
      exact ⟨_, .read hlt hr hs, by rw [he]; simp⟩
    · rintro ⟨items, hs, he⟩
      cases hs with
      | done ended => exact absurd hlt ended
      | read _ head tail =>
        cases hr.symm.trans head
        exact ⟨_, tail, by rw [he]; simp⟩
  | case3 cursor seen hge =>
    constructor
    · intro h
      cases h
      exact ⟨[], .done hge, by simp⟩
    · rintro ⟨items, hs, he⟩
      cases hs with
      | done =>
        rw [List.append_nil] at he
        rw [Array.toList_inj.mp he]
      | read more => exact absurd more hge

theorem streams_of_stream {pool : ConstantPool} {cursor : Cursor}
    {items : List (Nat × Instruction Nat)} (h : stream pool cursor #[] = .ok items.toArray) :
    Streams pool cursor items := by
  obtain ⟨items', hstreams, hitems⟩ := stream_eq_ok.mp h
  have hsame : items = items' := hitems
  rwa [hsame]

/-- What holds of every instruction that can be read holds of a whole stream. -/
theorem Streams.forall {pool : ConstantPool} {P : Instruction Nat → Prop}
    (h : ∀ start decoded stop, instruction pool start = .ok (decoded, stop) → P decoded)
    {cursor : Cursor} {items : List (Nat × Instruction Nat)} (hs : Streams pool cursor items) :
    ∀ item ∈ items, P item.2 := by
  induction hs with
  | done => simp
  | read _ head _ ih =>
    intro item hm
    rcases List.mem_cons.mp hm with rfl | hm
    · exact h _ _ _ head
    · exact ih item hm

end Decoding

/-- What decoding a code array amounts to. -/
structure Code.Decodes (code : Code) (pool : ConstantPool) (items : List (Nat × Instruction Nat))
    (instructions : List (Instruction Handle)) (handlers : List ExceptionHandler) : Prop where
  streams : Decoding.Streams pool (.ofBytes code.bytes) items
  resolved : List.Forall₂ (fun item instruction => item.2.mapTargetsM
    (Decoding.resolveOffset (Decoding.boundaries items.toArray) code.bytes.size) = .ok instruction)
    items instructions
  handlers : List.Forall₂ (fun entry handler => Decoding.exceptionHandler
    (Decoding.resolveOffset (Decoding.boundaries items.toArray) code.bytes.size) code.bytes.size
    entry = .ok handler) code.exceptionTable.toList handlers

theorem Code.decode_eq_ok {code : Code} {pool : ConstantPool} {listing : Listing} :
    code.decode pool = .ok listing ↔ ∃ items instructions handlers,
      code.Decodes pool items instructions handlers ∧
      listing =
        ⟨(numbered instructions).toArray, instructions.length, handlers.toArray, false⟩ := by
  constructor
  · intro h
    obtain ⟨stream, hs, h⟩ := Outcome.bind_eq_ok.mp h
    obtain ⟨instructions, hi, h⟩ := Outcome.bind_eq_ok.mp h
    obtain ⟨handlers, hh, h⟩ := Outcome.bind_eq_ok.mp h
    obtain ⟨items, hitems, he⟩ := Decoding.stream_eq_ok.mp hs
    cases h
    rw [List.nil_append] at he
    have hstream : stream = items.toArray := by
      rw [← he]
    subst hstream
    refine ⟨items, instructions.toList, handlers.toList,
      ⟨hitems, Outcome.array_mapM_eq_ok.mp hi, Outcome.array_mapM_eq_ok.mp hh⟩, ?_⟩
    rw [ofInstructions_eq]
    simp
  · rintro ⟨items, instructions, handlers, ⟨hs, hi, hh⟩, rfl⟩
    refine Outcome.bind_eq_ok.mpr ⟨items.toArray, Decoding.stream_eq_ok.mpr ⟨items, hs, rfl⟩, ?_⟩
    refine Outcome.bind_eq_ok.mpr ⟨instructions.toArray, Outcome.array_mapM_eq_ok.mpr hi, ?_⟩
    refine Outcome.bind_eq_ok.mpr ⟨handlers.toArray, Outcome.array_mapM_eq_ok.mpr hh, ?_⟩
    rw [ofInstructions_eq]
    simp

theorem Code.decode_distinct {code : Code} {pool : ConstantPool} {listing : Listing}
    (h : code.decode pool = .ok listing) : listing.Distinct := by
  obtain ⟨items, instructions, handlers, -, rfl⟩ := Code.decode_eq_ok.mp h
  exact distinct_numbered rfl

end BytecodeFold
