import BytecodeFold.Bytes.BigEndian
import BytecodeFold.Error

/-!
# Byte cursor

A cursor walks over a byte array. Every read checks that the array still holds the bytes
it needs and leaves the cursor alone when it does not. `Cursor.rest` is what is still to
be read, and `Reader.Advances` says that a reader never goes back and keeps its data.
-/

namespace BytecodeFold

/-- A position in a byte array. -/
structure Cursor where
  data : Array UInt8
  position : Nat

namespace Cursor

/-- The cursor at the start of the data. -/
def ofBytes (data : Array UInt8) : Cursor := ⟨data, 0⟩

/-- How many bytes are left. -/
def remaining (cursor : Cursor) : Nat := cursor.data.size - cursor.position

def hasMore (cursor : Cursor) : Bool := cursor.position < cursor.data.size

/-- The bytes that are left. -/
def rest (cursor : Cursor) : List UInt8 := cursor.data.toList.drop cursor.position

end Cursor

/-- A computation that reads from a cursor and may fail. -/
abbrev Reader := StateT Cursor (Except Error)

namespace Reader

/-- The next byte, which stays unread. -/
def peek : Reader UInt8 := fun cursor =>
  match cursor.data[cursor.position]? with
  | some byte => .ok (byte, cursor)
  | none => .error .outOfBounds

/-- The next `count` bytes. -/
def bytes (count : Nat) : Reader (List UInt8) := fun cursor =>
  if cursor.position + count ≤ cursor.data.size then
    .ok ((cursor.data.extract cursor.position (cursor.position + count)).toList,
      { cursor with position := cursor.position + count })
  else .error .outOfBounds

/-- Steps over `count` bytes. -/
def skip (count : Nat) : Reader Unit := fun cursor =>
  if cursor.position + count ≤ cursor.data.size then
    .ok ((), { cursor with position := cursor.position + count })
  else .error .outOfBounds

/-- Steps up to the next position that is a multiple of `boundary`. -/
def align (boundary : Nat) : Reader Unit := do
  skip ((boundary - (← get).position % boundary) % boundary)

/-- The next word. -/
def word (α : Type) [BigEndian α] : Reader α := do
  return BigEndian.decode α (← bytes (BigEndian.size α))

/-- Where the cursor stands. -/
def position : Reader Nat := return (← get).position

def remaining : Reader Nat := return (← get).remaining

/-- A reader that ends at or after the position where it starts, in the same data. -/
def Advances {α : Type} (reader : Reader α) : Prop :=
  ∀ start value stop, reader start = .ok (value, stop) →
    stop.data = start.data ∧ start.position ≤ stop.position

namespace Advances

variable {α β : Type}

theorem pure (a : α) : Advances (Pure.pure a : Reader α) := by
  intro start value stop h
  cases h
  exact ⟨rfl, Nat.le_refl _⟩

theorem throw (error : Error) : Advances (MonadExcept.throw error : Reader α) := by
  intro start value stop h
  cases h

/-- A step that reads nothing. -/
theorem lift (outcome : Except Error α) : Advances (liftM outcome : Reader α) := by
  intro start value stop h
  cases outcome with
  | error e => cases h
  | ok a =>
    cases h
    exact ⟨rfl, Nat.le_refl _⟩

theorem bind {reader : Reader α} {next : α → Reader β} (h : Advances reader)
    (hnext : ∀ a, Advances (next a)) : Advances (reader >>= next) := by
  intro start value stop hok
  change (reader start >>= fun result => next result.1 result.2) = _ at hok
  cases hr : reader start with
  | error e => rw [hr] at hok; cases hok
  | ok result =>
    rw [hr] at hok
    obtain ⟨hdata, hpos⟩ := h start result.1 result.2 hr
    obtain ⟨hdata', hpos'⟩ := hnext result.1 result.2 value stop hok
    exact ⟨hdata'.trans hdata, Nat.le_trans hpos hpos'⟩

theorem get : Advances (MonadState.get : Reader Cursor) := by
  intro start value stop h
  cases h
  exact ⟨rfl, Nat.le_refl _⟩

theorem bytes (count : Nat) : Advances (Reader.bytes count) := by
  intro start value stop h
  unfold Reader.bytes at h
  split at h
  · cases h
    exact ⟨rfl, Nat.le_add_right _ _⟩
  · cases h

theorem skip (count : Nat) : Advances (Reader.skip count) := by
  intro start value stop h
  unfold Reader.skip at h
  split at h
  · cases h
    exact ⟨rfl, Nat.le_add_right _ _⟩
  · cases h

theorem align (boundary : Nat) : Advances (Reader.align boundary) :=
  bind get fun _ => skip _

theorem word (α : Type) [BigEndian α] : Advances (Reader.word α) :=
  bind (bytes _) fun _ => pure _

theorem remaining : Advances Reader.remaining := bind get fun _ => pure _

end Advances

/-- A word that was read lies within the data, and the cursor is past it. -/
theorem position_word {α : Type} [BigEndian α] {start stop : Cursor} {value : α}
    (h : word α start = .ok (value, stop)) :
    stop.data = start.data ∧ stop.position = start.position + BigEndian.size α := by
  change (bytes (BigEndian.size α) start >>= fun result => _) = _ at h
  by_cases fits : start.position + BigEndian.size α ≤ start.data.size
  · simp only [bytes, fits, ↓reduceIte] at h
    cases h
    exact ⟨rfl, rfl⟩
  · simp only [bytes, fits, ↓reduceIte] at h
    cases h

end Reader

end BytecodeFold
