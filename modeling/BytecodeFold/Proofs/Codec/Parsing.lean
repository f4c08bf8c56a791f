import BytecodeFold.Proofs.Outcome

/-!
# Readers and formats

A format says which bytes stand for a value. A reader parses a format if it succeeds exactly when
the bytes it finds are in the format, and then gives the value they stand for. Readers that are
put together parse the formats that are put together in the same way.
-/

namespace BytecodeFold

theorem Cursor.length_rest (cursor : Cursor) :
    cursor.rest.length = cursor.data.size - cursor.position := by
  rw [Cursor.rest, List.length_drop, Array.length_toList]

/-- Going from one cursor to another passes over these bytes. -/
def Cursor.Reads (start : Cursor) (bytes : List UInt8) (stop : Cursor) : Prop :=
  bytes <+: start.rest ∧ stop = ⟨start.data, start.position + bytes.length⟩

namespace Cursor.Reads

variable {start mid stop : Cursor} {xs ys bytes : List UInt8}

theorem nil (start : Cursor) : start.Reads [] start := ⟨List.nil_prefix, rfl⟩

theorem position_le (h : start.Reads bytes stop) (inside : start.position ≤ start.data.size) :
    stop.position ≤ stop.data.size := by
  obtain ⟨hbytes, rfl⟩ := h
  have hlength := hbytes.length_le
  rw [Cursor.length_rest] at hlength
  change start.position + bytes.length ≤ start.data.size
  omega

theorem rest_eq (h : start.Reads bytes stop) : start.rest = bytes ++ stop.rest := by
  obtain ⟨⟨tail, ht⟩, rfl⟩ := h
  have hstop : Cursor.rest ⟨start.data, start.position + bytes.length⟩ =
      start.rest.drop bytes.length := by
    rw [Cursor.rest, Cursor.rest, List.drop_drop]
  rw [hstop, ← ht, List.drop_left]

theorem append_iff : start.Reads (xs ++ ys) stop ↔ ∃ mid, start.Reads xs mid ∧
    mid.Reads ys stop := by
  constructor
  · rintro ⟨⟨tail, ht⟩, rfl⟩
    have hx : start.Reads xs ⟨start.data, start.position + xs.length⟩ :=
      ⟨⟨ys ++ tail, by rw [← List.append_assoc, ht]⟩, rfl⟩
    have hrest := hx.rest_eq
    rw [← ht, List.append_assoc] at hrest
    refine ⟨_, hx, ⟨tail, List.append_cancel_left hrest⟩, ?_⟩
    rw [List.length_append, Nat.add_assoc]
  · rintro ⟨mid, hx, hy⟩
    have hrest := hx.rest_eq
    obtain ⟨-, rfl⟩ := hx
    obtain ⟨⟨tail, ht⟩, rfl⟩ := hy
    refine ⟨⟨tail, ?_⟩, ?_⟩
    · rw [hrest, ← ht, List.append_assoc]
    · rw [List.length_append, Nat.add_assoc]

end Cursor.Reads

namespace Reader

variable {α β : Type} {offset : Nat}

/-- At this position the reader succeeds exactly on the bytes of a format. -/
def Parses (offset : Nat) (reader : Reader α) (format : α → List UInt8 → Prop) : Prop :=
  ∀ start : Cursor, start.position = offset → offset ≤ start.data.size → ∀ value stop,
    reader start = .ok (value, stop) ↔ ∃ bytes, format value bytes ∧ start.Reads bytes stop

namespace Parses

theorem congr {reader : Reader α} {format format' : α → List UInt8 → Prop}
    (h : Parses offset reader format)
    (hf : ∀ value bytes, format value bytes ↔ format' value bytes) :
    Parses offset reader format' := by
  intro start hp inside value stop
  rw [h start hp inside]
  exact exists_congr fun bytes => and_congr_left fun _ => hf value bytes

theorem pure (a : α) :
    Parses offset (Pure.pure a) (fun value bytes => value = a ∧ bytes = []) := by
  intro start hp inside value stop
  constructor
  · intro h
    cases h
    exact ⟨[], ⟨rfl, rfl⟩, .nil start⟩
  · rintro ⟨bytes, ⟨rfl, rfl⟩, -, rfl⟩
    rfl

theorem throw (error : Error) :
    Parses offset (MonadExcept.throw error : Reader α) (fun _ _ => False) := by
  intro start hp inside value stop
  constructor
  · intro h
    cases h
  · rintro ⟨bytes, h, -⟩
    exact h.elim

/-- A step that reads nothing. -/
theorem lift (outcome : Except Error α) :
    Parses offset (liftM outcome : Reader α)
      (fun value bytes => outcome = .ok value ∧ bytes = []) := by
  cases outcome with
  | error e =>
    refine (throw e).congr fun _ _ => ⟨False.elim, ?_⟩
    rintro ⟨h, -⟩
    cases h
  | ok a =>
    refine (pure a).congr fun value bytes => ?_
    rw [Except.ok.injEq, eq_comm]

/-- The second reader starts where the first one ended, knowing what it has read. -/
theorem bind {reader : Reader α} {next : α → Reader β} {first : α → List UInt8 → Prop}
    {second : α → β → List UInt8 → Prop} (h : Parses offset reader first)
    (hnext : ∀ a xs, first a xs → Parses (offset + xs.length) (next a) (second a)) :
    Parses offset (reader >>= next) (fun value bytes =>
      ∃ a xs ys, first a xs ∧ second a value ys ∧ bytes = xs ++ ys) := by
  intro start hp inside value stop
  rw [Reader.bind_eq_ok]
  constructor
  · rintro ⟨a, mid, hr, hn⟩
    obtain ⟨xs, hx, hreads⟩ := (h start hp inside a mid).mp hr
    have hmid := hreads.position_le (hp ▸ inside)
    obtain ⟨ys, hy, hreads'⟩ := (hnext a xs hx mid (by rw [hreads.2, hp])
      (by rw [hreads.2] at hmid ⊢; rw [← hp]; exact hmid) value stop).mp hn
    exact ⟨xs ++ ys, ⟨a, xs, ys, hx, hy, rfl⟩, Cursor.Reads.append_iff.mpr ⟨mid, hreads, hreads'⟩⟩
  · rintro ⟨_, ⟨a, xs, ys, hx, hy, rfl⟩, hreads⟩
    obtain ⟨mid, hreads, hreads'⟩ := Cursor.Reads.append_iff.mp hreads
    have hmid := hreads.position_le (hp ▸ inside)
    exact ⟨a, mid, (h start hp inside a mid).mpr ⟨xs, hx, hreads⟩,
      (hnext a xs hx mid (by rw [hreads.2, hp])
        (by rw [hreads.2] at hmid ⊢; rw [← hp]; exact hmid) value stop).mpr ⟨ys, hy, hreads'⟩⟩

theorem map {reader : Reader α} {format : α → List UInt8 → Prop} (f : α → β)
    (h : Parses offset reader format) :
    Parses offset (reader >>= fun a => Pure.pure (f a)) (fun value bytes =>
      ∃ a, value = f a ∧ format a bytes) := by
  refine (bind h fun _ _ _ => pure _).congr ?_
  intro value bytes
  constructor
  · rintro ⟨a, xs, _, ha, ⟨rfl, rfl⟩, rfl⟩
    exact ⟨a, rfl, by rwa [List.append_nil]⟩
  · rintro ⟨a, rfl, ha⟩
    exact ⟨a, bytes, [], ha, ⟨rfl, rfl⟩, (List.append_nil bytes).symm⟩

theorem bytes (count : Nat) :
    Parses offset (Reader.bytes count)
      (fun value bytes => value = bytes ∧ bytes.length = count) := by
  intro start hp inside value stop
  have hextract : (start.data.extract start.position (start.position + count)).toList =
      start.rest.take count := by
    rw [Array.toList_extract, List.extract_eq_take_drop, Nat.add_sub_cancel_left]
    rfl
  have hlength := start.length_rest
  unfold Reader.bytes
  constructor
  · intro h
    split at h
    case isTrue hfits =>
      cases h
      rw [hextract]
      have htake : (start.rest.take count).length = count := by
        rw [List.length_take, hlength]
        omega
      exact ⟨_, ⟨rfl, htake⟩, List.take_prefix count start.rest, by rw [htake]⟩
    case isFalse => cases h
  · rintro ⟨bytes, ⟨rfl, rfl⟩, hbytes, rfl⟩
    have hle := hbytes.length_le
    rw [if_pos (by omega), hextract, ← List.prefix_iff_eq_take.mp hbytes]

theorem word (α : Type) [BigEndian α] :
    Parses offset (Reader.word α) (fun value bytes => bytes = BigEndian.encode value) := by
  refine (bind (bytes _) fun _ _ _ => pure _).congr ?_
  intro value bytes
  constructor
  · rintro ⟨_, xs, _, ⟨rfl, hlength⟩, ⟨rfl, rfl⟩, rfl⟩
    rw [List.append_nil, BigEndian.encode_decode hlength]
  · rintro rfl
    exact ⟨_, _, [], ⟨rfl, BigEndian.length_encode value⟩,
      ⟨(BigEndian.decode_encode value).symm, rfl⟩, (List.append_nil _).symm⟩

/-- The bytes that are stepped over may be any. -/
theorem align (boundary : Nat) : Parses offset (Reader.align boundary) (fun _ bytes =>
    bytes.length = (boundary - offset % boundary) % boundary) := by
  rintro start rfl inside value stop
  change Reader.skip ((boundary - start.position % boundary) % boundary) start = _ ↔ _
  have hlength := start.length_rest
  unfold Reader.skip
  constructor
  · intro h
    split at h
    case isTrue hfits =>
      cases h
      have htake : (start.rest.take ((boundary - start.position % boundary) % boundary)).length =
          (boundary - start.position % boundary) % boundary := by
        rw [List.length_take, hlength]
        omega
      exact ⟨_, htake, List.take_prefix _ start.rest, by rw [htake]⟩
    case isFalse => cases h
  · rintro ⟨bytes, hb, hbytes, rfl⟩
    have hle := hbytes.length_le
    rw [if_pos (by omega), hb]

theorem position :
    Parses offset Reader.position (fun value bytes => value = offset ∧ bytes = []) := by
  rintro start rfl inside value stop
  exact pure start.position start rfl inside value stop

end Parses

end Reader

end BytecodeFold
