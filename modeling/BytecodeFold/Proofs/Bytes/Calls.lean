import BytecodeFold.Proofs.Codec.Parsing
import Mathlib.Order.Bounds.Basic

/-!
# Calls on a cursor

A cursor never leaves its data. A call needs some number of bytes: if they are left, it answers from
them and goes past them, and if not, it is refused and the cursor stays where it is. So the bytes
before the cursor and those after it are always all of the data, whatever was called before and
however far a call asked to go. Words that were written one after another are read back the same,
up to the last byte.
-/

namespace BytecodeFold

/-! ## Words -/

/-- The types of words. -/
inductive WordType where
  | uint8 | int8 | uint16 | int16 | uint32 | int32 | uint64 | int64 | binary32 | binary64

namespace WordType

/-- The words of a type. -/
abbrev Word : WordType → Type
  | uint8 => UInt8
  | int8 => Int8
  | uint16 => UInt16
  | int16 => Int16
  | uint32 => UInt32
  | int32 => Int32
  | uint64 => UInt64
  | int64 => Int64
  | binary32 => Binary32
  | binary64 => Binary64

instance : (type : WordType) → BigEndian type.Word
  | uint8 => inferInstanceAs (BigEndian UInt8)
  | int8 => inferInstanceAs (BigEndian Int8)
  | uint16 => inferInstanceAs (BigEndian UInt16)
  | int16 => inferInstanceAs (BigEndian Int16)
  | uint32 => inferInstanceAs (BigEndian UInt32)
  | int32 => inferInstanceAs (BigEndian Int32)
  | uint64 => inferInstanceAs (BigEndian UInt64)
  | int64 => inferInstanceAs (BigEndian Int64)
  | binary32 => inferInstanceAs (BigEndian Binary32)
  | binary64 => inferInstanceAs (BigEndian Binary64)

/-- How many bytes the words of a type have. -/
def width : WordType → Nat
  | uint8 | int8 => 1
  | uint16 | int16 => 2
  | uint32 | int32 | binary32 => 4
  | uint64 | int64 | binary64 => 8

theorem size_eq (type : WordType) : BigEndian.size type.Word = type.width := by
  cases type <;> rfl

end WordType

/-- A word with its type. Floating-point words are equal when their bits are. -/
structure TypedWord where
  type : WordType
  word : type.Word

def TypedWord.encode (typed : TypedWord) : List UInt8 := BigEndian.encode typed.word

theorem TypedWord.length_encode (typed : TypedWord) : typed.encode.length = typed.type.width := by
  rw [TypedWord.encode, BigEndian.length_encode, WordType.size_eq]

/-- The bytes of some words, written one after another. -/
def TypedWord.encodeAll (words : List TypedWord) : Array UInt8 :=
  (words.flatMap TypedWord.encode).toArray

theorem BigEndian.encode_inj {α : Type} [BigEndian α] {a b : α}
    (h : BigEndian.encode a = BigEndian.encode b) : a = b := by
  rw [← BigEndian.decode_encode a, h, BigEndian.decode_encode]

namespace Cursor

/-! ## Calls -/

/-- The calls that can be made on a cursor. -/
inductive Call where
  | read (type : WordType)
  | advance
  | advanceBy (step : Nat)
  | align (boundary : Nat) (positive : 0 < boundary)
  | peek
  | bytes (count : Nat)

/-- What a call that is not refused answers. -/
inductive Answer where
  | word (typed : TypedWord)
  | byte (byte : UInt8)
  | bytes (bytes : List UInt8)
  | done

def Call.reader : Call → Reader Answer
  | read type => do return .word ⟨type, ← Reader.word type.Word⟩
  | advance => do Reader.skip 1; return .done
  | advanceBy step => do Reader.skip step; return .done
  | align boundary _ => do Reader.align boundary; return .done
  | peek => do return .byte (← Reader.peek)
  | bytes count => do return .bytes (← Reader.bytes count)

/-- What a call gives, and the cursor after it. A reader that fails gives no cursor, so that the
next call is made on the one it was given. -/
def perform (cursor : Cursor) (call : Call) : Except Error Answer × Cursor :=
  match call.reader cursor with
  | .ok (answer, next) => (.ok answer, next)
  | .error e => (.error e, cursor)

/-- What some calls give one after another, and the cursor after them. A call that is refused does
not stop those after it. -/
def run (cursor : Cursor) : List Call → List (Except Error Answer) × Cursor
  | [] => ([], cursor)
  | call :: calls =>
    let (outcome, next) := cursor.perform call
    let (outcomes, last) := next.run calls
    (outcome :: outcomes, last)

/-- How many bytes a call needs at a position. -/
inductive Call.Needs (position : Nat) : Call → Nat → Prop where
  | read (type : WordType) : Needs position (.read type) type.width
  | advance : Needs position .advance 1
  | advanceBy (step : Nat) : Needs position (.advanceBy step) step
  | align {boundary padding : Nat} (positive : 0 < boundary)
      (least : IsLeast {padding | boundary ∣ position + padding} padding) :
      Needs position (.align boundary positive) padding
  | peek : Needs position .peek 1
  | bytes (count : Nat) : Needs position (.bytes count) count

/-- How far a call goes that needs this many bytes. -/
def Call.distance : Call → Nat → Nat
  | peek, _ => 0
  | _, need => need

/-- What a call answers when it finds these bytes. -/
inductive Call.Answers : Call → List UInt8 → Answer → Prop where
  | read (typed : TypedWord) : Answers (.read typed.type) typed.encode (.word typed)
  | advance (bytes : List UInt8) : Answers .advance bytes .done
  | advanceBy (step : Nat) (bytes : List UInt8) : Answers (.advanceBy step) bytes .done
  | align {boundary : Nat} (positive : 0 < boundary) (bytes : List UInt8) :
      Answers (.align boundary positive) bytes .done
  | peek (byte : UInt8) : Answers .peek [byte] (.byte byte)
  | bytes (count : Nat) (bytes : List UInt8) : Answers (.bytes count) bytes (.bytes bytes)

end Cursor

/-! ## What a reader needs -/

namespace Reader

variable {α β : Type} {cursor : Cursor} {need distance : Nat}

/-- The reader needs this many bytes. If they are left, it gives a value that goes with them and
moves on by a distance. If not, it is refused. -/
def Spends (reader : Reader α) (cursor : Cursor) (need distance : Nat)
    (gives : List UInt8 → α → Prop) : Prop :=
  need ≤ cursor.remaining ∧ (∃ value, reader cursor =
      .ok (value, ⟨cursor.data, cursor.position + distance⟩) ∧
      gives (cursor.rest.take need) value) ∨
    cursor.remaining < need ∧ reader cursor = .error .outOfBounds

namespace Spends

theorem map {reader : Reader α} {gives : List UInt8 → α → Prop} {gives' : List UInt8 → β → Prop}
    {f : α → β} (h : Spends reader cursor need distance gives)
    (hf : ∀ bytes value, gives bytes value → gives' bytes (f value)) :
    Spends (reader >>= fun value => pure (f value)) cursor need distance gives' := by
  rcases h with ⟨hneed, value, hok, hgives⟩ | ⟨hneed, herror⟩
  · exact .inl ⟨hneed, f value, Reader.bind_eq_ok.mpr ⟨value, _, hok, rfl⟩, hf _ _ hgives⟩
  · refine .inr ⟨hneed, ?_⟩
    change (reader cursor >>= fun result => _) = _
    rw [herror]
    rfl

theorem bytes (inside : cursor.position ≤ cursor.data.size) (count : Nat) :
    Spends (Reader.bytes count) cursor count count
      (fun found bytes => bytes = found ∧ found.length = count) := by
  by_cases hneed : count ≤ cursor.remaining
  · have hlength : (cursor.rest.take count).length = count := by
      rw [List.length_take, Cursor.length_rest]
      exact Nat.min_eq_left hneed
    refine .inl ⟨hneed, _, ?_, rfl, hlength⟩
    refine (Parses.bytes count cursor rfl inside _ _).mpr
      ⟨_, ⟨rfl, hlength⟩, List.take_prefix _ _, ?_⟩
    rw [hlength]
  · refine .inr ⟨Nat.lt_of_not_le hneed, if_neg ?_⟩
    unfold Cursor.remaining at hneed
    omega

theorem skip (inside : cursor.position ≤ cursor.data.size) (count : Nat) :
    Spends (Reader.skip count) cursor count count (fun _ _ => True) := by
  by_cases hneed : count ≤ cursor.remaining
  · refine .inl ⟨hneed, (), if_pos ?_, trivial⟩
    unfold Cursor.remaining at hneed
    omega
  · refine .inr ⟨Nat.lt_of_not_le hneed, if_neg ?_⟩
    unfold Cursor.remaining at hneed
    omega

theorem align (inside : cursor.position ≤ cursor.data.size) (boundary : Nat) :
    Spends (Reader.align boundary) cursor ((boundary - cursor.position % boundary) % boundary)
      ((boundary - cursor.position % boundary) % boundary) (fun _ _ => True) :=
  skip inside _

theorem word (inside : cursor.position ≤ cursor.data.size) (α : Type) [BigEndian α] :
    Spends (Reader.word α) cursor (BigEndian.size α) (BigEndian.size α)
      (fun found value => found = BigEndian.encode value) := by
  refine (bytes inside _).map ?_
  rintro found _ ⟨rfl, hlength⟩
  exact (BigEndian.encode_decode hlength).symm

theorem peek : Spends Reader.peek cursor 1 0 (fun found byte => found = [byte]) := by
  have hrest : cursor.rest[0]? = cursor.data[cursor.position]? := by
    rw [Cursor.rest, List.getElem?_drop, Nat.add_zero, Array.getElem?_toList]
  unfold Spends Reader.peek Cursor.remaining
  cases hbyte : cursor.data[cursor.position]? with
  | none =>
    have hend := Array.getElem?_eq_none_iff.mp hbyte
    exact .inr ⟨by omega, rfl⟩
  | some byte =>
    obtain ⟨hlt, -⟩ := Array.getElem?_eq_some_iff.mp hbyte
    refine .inl ⟨by omega, byte, rfl, ?_⟩
    rw [List.take_one, List.head?_eq_getElem?, hrest, hbyte]
    rfl

end Spends

/-- The padding up to a multiple of a boundary is the least that leads to one. -/
theorem isLeast_padding {boundary : Nat} (positive : 0 < boundary) (position : Nat) :
    IsLeast {padding | boundary ∣ position + padding}
      ((boundary - position % boundary) % boundary) := by
  have hlt := Nat.mod_lt position positive
  have hdvd : ∀ k, boundary ∣ position + k ↔ boundary ∣ position % boundary + k := by
    intro k
    rw [Nat.dvd_iff_mod_eq_zero, Nat.dvd_iff_mod_eq_zero, Nat.mod_add_mod]
  -- only how far the position is past a multiple counts
  generalize position % boundary = past at hlt hdvd ⊢
  rcases Nat.eq_zero_or_pos past with rfl | hpast
  · rw [Nat.sub_zero, Nat.mod_self]
    exact ⟨(hdvd 0).mpr (Nat.dvd_zero _), fun _ _ => Nat.zero_le _⟩
  · rw [Nat.mod_eq_of_lt (by omega)]
    refine ⟨(hdvd _).mpr ?_, fun k hk => ?_⟩
    · exact ⟨1, by omega⟩
    · have hle := Nat.le_of_dvd (by omega) ((hdvd k).mp hk)
      omega

end Reader

namespace Cursor

variable {cursor : Cursor} {data : Array UInt8}

theorem reader_spends (inside : cursor.position ≤ cursor.data.size) (call : Call) :
    ∃ need, call.Needs cursor.position need ∧
      call.reader.Spends cursor need (call.distance need) call.Answers := by
  cases call with
  | read type =>
    refine ⟨_, .read type, ?_⟩
    rw [← type.size_eq]
    refine (Reader.Spends.word inside type.Word).map ?_
    rintro _ word rfl
    exact .read ⟨type, word⟩
  | advance =>
    exact ⟨_, .advance, (Reader.Spends.skip inside 1).map fun found _ _ => .advance found⟩
  | advanceBy step =>
    exact ⟨_, .advanceBy step,
      (Reader.Spends.skip inside step).map fun found _ _ => .advanceBy step found⟩
  | align boundary positive =>
    refine ⟨_, .align positive (Reader.isLeast_padding positive _), ?_⟩
    exact (Reader.Spends.align inside boundary).map fun found _ _ => .align positive found
  | peek =>
    refine ⟨_, .peek, Reader.Spends.peek.map ?_⟩
    rintro _ byte rfl
    exact .peek byte
  | bytes count =>
    refine ⟨_, .bytes count, (Reader.Spends.bytes inside count).map ?_⟩
    rintro found _ ⟨rfl, -⟩
    exact .bytes count _

/-- What a call can do: it is answered from the bytes it needs and moves the cursor, or it is
refused and leaves the cursor where it is. -/
theorem perform_cases (inside : cursor.position ≤ cursor.data.size) (call : Call) :
    ∃ need, call.Needs cursor.position need ∧
      (need ≤ cursor.remaining ∧ (∃ answer, cursor.perform call =
          (.ok answer, ⟨cursor.data, cursor.position + call.distance need⟩) ∧
          call.Answers (cursor.rest.take need) answer) ∨
        cursor.remaining < need ∧ cursor.perform call = (.error .outOfBounds, cursor)) := by
  obtain ⟨need, hneeds, hspends⟩ := reader_spends inside call
  refine ⟨need, hneeds, ?_⟩
  rcases hspends with ⟨hneed, answer, hok, hanswer⟩ | ⟨hneed, herror⟩
  · exact .inl ⟨hneed, answer, by rw [perform, hok], hanswer⟩
  · exact .inr ⟨hneed, by rw [perform, herror]⟩

theorem Call.distance_le (call : Call) (need : Nat) : call.distance need ≤ need := by
  cases call with
  | peek => exact Nat.zero_le _
  | _ => exact Nat.le_refl _

/-! ## Any calls -/

/-- The cursor stands in these data, at their end at the latest. -/
def Within (cursor : Cursor) (data : Array UInt8) : Prop :=
  cursor.data = data ∧ cursor.position ≤ data.size

theorem Within.perform (within : cursor.Within data) (call : Call) :
    (cursor.perform call).2.Within data := by
  obtain ⟨rfl, inside⟩ := within
  obtain ⟨need, -, ⟨hneed, answer, hperform, -⟩ | ⟨-, hperform⟩⟩ := perform_cases inside call
  · rw [hperform]
    have hdistance := call.distance_le need
    unfold remaining at hneed
    exact ⟨rfl, by dsimp only; omega⟩
  · rw [hperform]
    exact ⟨rfl, inside⟩

theorem Within.run (within : cursor.Within data) (calls : List Call) :
    (cursor.run calls).2.Within data := by
  induction calls generalizing cursor with
  | nil => exact within
  | cons call calls ih => exact ih (within.perform call)

/-- The bytes before the cursor and those after it are all of the data. A call is refused exactly
when the bytes that it needs are more than are left, which leaves the cursor where it is. -/
structure Safe (cursor : Cursor) (data : Array UInt8) : Prop where
  total : cursor.position + cursor.remaining = data.size
  call : ∀ call : Call, ∃ need, call.Needs cursor.position need ∧
    ((cursor.perform call).1 = .error .outOfBounds ↔ cursor.remaining < need) ∧
    ((cursor.perform call).1 = .error .outOfBounds → (cursor.perform call).2 = cursor) ∧
    (need ≤ cursor.remaining → ∃ answer, cursor.perform call =
      (.ok answer, ⟨data, cursor.position + call.distance need⟩) ∧
      call.Answers (cursor.rest.take need) answer)

theorem Within.safe (within : cursor.Within data) : cursor.Safe data := by
  obtain ⟨rfl, inside⟩ := within
  refine ⟨Nat.add_sub_cancel' inside, fun call => ?_⟩
  obtain ⟨need, hneeds, ⟨hneed, answer, hperform, hanswer⟩ | ⟨hneed, hperform⟩⟩ :=
    perform_cases inside call
  · refine ⟨need, hneeds, ⟨fun hrefused => ?_, fun hlt => ?_⟩, fun hrefused => ?_, fun _ => ?_⟩
    · rw [hperform] at hrefused
      cases hrefused
    · omega
    · rw [hperform] at hrefused
      cases hrefused
    · exact ⟨answer, hperform, hanswer⟩
  · refine ⟨need, hneeds, ⟨fun _ => hneed, fun _ => ?_⟩, fun _ => ?_, fun hle => ?_⟩
    · rw [hperform]
    · rw [hperform]
    · omega

/-! ## Words one after another -/

theorem Call.Answers.of_read {type : WordType} {bytes : List UInt8} {answer : Answer}
    (h : Answers (.read type) bytes answer) :
    ∃ word : type.Word, bytes = BigEndian.encode word ∧ answer = .word ⟨type, word⟩ := by
  cases h with
  | read typed => exact ⟨typed.word, rfl, rfl⟩

/-- A word is read where its bytes stand. -/
theorem perform_read (inside : cursor.position ≤ cursor.data.size) {typed : TypedWord}
    {more : List UInt8} (h : cursor.rest = typed.encode ++ more) :
    cursor.perform (.read typed.type) =
      (.ok (.word typed), ⟨cursor.data, cursor.position + typed.encode.length⟩) := by
  have hfound : cursor.rest.take typed.type.width = typed.encode := by
    rw [h, ← typed.length_encode, List.take_left]
  have hleft : typed.type.width ≤ cursor.remaining := by
    have hlength := cursor.length_rest
    rw [h, List.length_append, typed.length_encode] at hlength
    unfold remaining
    omega
  obtain ⟨need, hneeds, hcases⟩ := perform_cases inside (.read typed.type)
  cases hneeds
  obtain ⟨-, answer, hperform, hanswer⟩ | ⟨hneed, -⟩ := hcases
  -- the answer is some word with the bytes that stand there, and a word is known by its bytes
  · obtain ⟨word, hword, rfl⟩ := hanswer.of_read
    obtain rfl : typed.word = word := BigEndian.encode_inj (hfound.symm.trans hword)
    rw [hperform, typed.length_encode]
    rfl
  · omega

theorem run_reads (inside : cursor.position ≤ cursor.data.size) {words : List TypedWord}
    {more : List UInt8} (h : cursor.rest = words.flatMap TypedWord.encode ++ more) :
    cursor.run (words.map fun typed => .read typed.type) =
      (words.map fun typed => .ok (.word typed),
        ⟨cursor.data, cursor.position + (words.flatMap TypedWord.encode).length⟩) := by
  induction words generalizing cursor with
  | nil => rfl
  | cons typed words ih =>
    rw [List.flatMap_cons, List.append_assoc] at h
    have reads : cursor.Reads typed.encode ⟨cursor.data, cursor.position + typed.encode.length⟩ :=
      ⟨⟨_, h.symm⟩, rfl⟩
    have hnext :=
      ih (reads.position_le inside) (List.append_cancel_left (reads.rest_eq.symm.trans h))
    rw [List.map_cons, run, perform_read inside h]
    dsimp only
    rw [hnext, List.map_cons, List.flatMap_cons, List.length_append, Nat.add_assoc]

/-- A cursor is safe and undoes writing. After any calls on a cursor at the start of some data,
refused ones included and however far they ask to go, the bytes before the cursor and after it are
all of the data, and a further call is refused exactly when it needs more bytes than are left, which
leaves the cursor where it is. Words of any types that are written one after another are read back
the same, and the cursor ends at the end of the data. -/
theorem calls_safe_and_undo_writing (data : Array UInt8) (calls : List Call)
    (words : List TypedWord) :
    ((ofBytes data).run calls).2.Safe data ∧
    (ofBytes (TypedWord.encodeAll words)).run (words.map fun typed => .read typed.type) =
      (words.map fun typed => .ok (.word typed),
        ⟨TypedWord.encodeAll words, (TypedWord.encodeAll words).size⟩) := by
  constructor
  · have within : (ofBytes data).Within data := ⟨rfl, Nat.zero_le _⟩
    exact (within.run calls).safe
  · have hrest : (ofBytes (TypedWord.encodeAll words)).rest =
        words.flatMap TypedWord.encode ++ [] := (List.append_nil _).symm
    have hend : (ofBytes (TypedWord.encodeAll words)).position +
        (words.flatMap TypedWord.encode).length = (TypedWord.encodeAll words).size := Nat.zero_add _
    rw [run_reads (Nat.zero_le _) hrest, hend]
    rfl

/-- A word of two bytes is not read where one is left, and no step leads past the end. -/
example : (ofBytes #[0x11, 0x01]).run [.advance, .read .int16, .advanceBy 18446744073709551615] =
    ([.ok .done, .error .outOfBounds, .error .outOfBounds], ⟨#[0x11, 0x01], 1⟩) := by
  cbv

end Cursor

end BytecodeFold
