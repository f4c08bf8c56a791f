import BytecodeFold.ConstantPool.Lookup
import BytecodeFold.Proofs.Outcome
import Mathlib.Data.List.Basic
import Mathlib.Order.Bounds.Basic

/-!
# Growth of the constant pool

A pool is built from the empty one by appending entries, so every index fits its type. Adding a
number gives an index that holds it and changes no entry that was there.
-/

namespace BytecodeFold

namespace Entry

/-- What an entry puts at the end of a pool. -/
def footprint (entry : Entry) : List (Option Entry) :=
  if entry.slots = 2 then [some entry, none] else [some entry]

theorem length_footprint (entry : Entry) : entry.footprint.length = entry.slots := by
  cases entry <;> rfl

theorem footprint_eq (entry : Entry) :
    ∃ more, entry.footprint = some entry :: more ∧ ∀ slot ∈ more, slot = none := by
  unfold footprint
  split
  · exact ⟨[none], rfl, by simp⟩
  · exact ⟨[], rfl, by simp⟩

end Entry

namespace ConstantPool

variable {pool grown : ConstantPool} {entry : Entry} {index : UInt16}

/-- The pools that can be built by appending entries. -/
inductive Built : ConstantPool → Prop where
  | empty : Built empty
  | push {pool : ConstantPool} (entry : Entry) (built : Built pool) : Built (pool.push entry).2

/-- Every usable index keeps its entry. -/
def Extends (pool grown : ConstantPool) : Prop :=
  ∀ index entry, pool.get? index = some entry → grown.get? index = some entry

theorem Extends.refl (pool : ConstantPool) : pool.Extends pool := fun _ _ h => h

theorem Extends.trans {larger : ConstantPool} (h : pool.Extends grown) (h' : grown.Extends larger) :
    pool.Extends larger :=
  fun index entry he => h' index entry (h index entry he)

/-- An entry is appended whole, or it does not fit and nothing changes. -/
theorem push_cases (pool : ConstantPool) (entry : Entry) :
    (pool.count + entry.slots ≤ 65535 ∧ ∃ grown,
      pool.push entry = (.ok (UInt16.ofNat pool.count), grown) ∧
        grown.slots.toList = pool.slots.toList ++ entry.footprint) ∨
    (65535 < pool.count + entry.slots ∧ pool.push entry = (.error .poolOverflow, pool)) := by
  by_cases hfits : pool.count + entry.slots ≤ 65535
  · refine .inl ⟨hfits, _, if_pos hfits, ?_⟩
    unfold Entry.footprint
    by_cases hs : entry.slots = 2
    · simp [hs]
    · simp [hs]
  · exact .inr ⟨Nat.not_le.mp hfits, if_neg hfits⟩

theorem count_appended (h : grown.slots.toList = pool.slots.toList ++ entry.footprint) :
    grown.count = pool.count + entry.slots := by
  rw [count, ← Array.length_toList, h, List.length_append, Array.length_toList,
    Entry.length_footprint, count]

theorem push_eq_ok (h : pool.push entry = (.ok index, grown)) :
    pool.count + entry.slots ≤ 65535 ∧ index = UInt16.ofNat pool.count ∧
      ∃ more, grown.slots.toList = pool.slots.toList ++ some entry :: more ∧
        ∀ slot ∈ more, slot = none := by
  rcases push_cases pool entry with ⟨hfits, appended, hp, hg⟩ | ⟨-, hp⟩
  · obtain ⟨more, hmore, hnone⟩ := entry.footprint_eq
    rw [hp] at h
    cases h
    exact ⟨hfits, rfl, more, hmore ▸ hg, hnone⟩
  · rw [hp] at h
    cases h

theorem count_push_le (h : pool.count ≤ 65535) : (pool.push entry).2.count ≤ 65535 := by
  rcases push_cases pool entry with ⟨hfits, grown, hp, hg⟩ | ⟨-, hp⟩
  · rw [hp, count_appended hg]
    exact hfits
  · rw [hp]
    exact h

theorem Built.count_le (built : pool.Built) : pool.count ≤ 65535 := by
  induction built with
  | empty => decide
  | push entry _ ih => exact count_push_le ih

theorem toNat_of_le_count (hcount : pool.count ≤ 65535) {i : Nat} (hi : i ≤ pool.count) :
    (UInt16.ofNat i).toNat = i := by
  rw [UInt16.toNat_ofNat', Nat.mod_eq_of_lt (by omega)]

theorem get?_eq_some : pool.get? index = some entry ↔
    pool.slots.toList[index.toNat]? = some (some entry) := by
  rw [get?, ← Array.getElem?_toList]
  cases h : pool.slots.toList[index.toNat]? with
  | none => simp
  | some slot => simp

theorem extends_of_append {more : List (Option Entry)}
    (h : grown.slots.toList = pool.slots.toList ++ more) : pool.Extends grown := by
  intro index entry he
  rw [get?_eq_some] at he ⊢
  obtain ⟨hlt, -⟩ := List.getElem?_eq_some_iff.mp he
  rw [h, List.getElem?_append_left hlt]
  exact he

theorem push_spec (h : pool.push entry = (.ok index, grown)) :
    pool.Extends grown ∧ grown.get? index = some entry := by
  obtain ⟨hfits, rfl, more, hg, -⟩ := push_eq_ok h
  refine ⟨extends_of_append hg, ?_⟩
  rw [get?_eq_some, toNat_of_le_count (by omega) (Nat.le_refl pool.count), hg, count,
    ← Array.length_toList, List.getElem?_append_right (Nat.le_refl _), Nat.sub_self]
  rfl

/-- The index that is found for an entry is its lowest one. -/
theorem indexOf?_eq_some_iff {i : Nat} :
    pool.indexOf? entry = some i ↔ IsLeast {i | pool.slots[i]? = some (some entry)} i := by
  rw [indexOf?, Array.findIdx?_eq_some_iff_getElem]
  constructor
  · rintro ⟨hlt, hp, hbelow⟩
    have hentry : pool.slots[i] = some entry := by
      cases hs : pool.slots[i] with
      | none => simp [hs] at hp
      | some candidate =>
        rw [hs] at hp
        exact congrArg some (eq_of_beq hp)
    refine ⟨Array.getElem?_eq_some_iff.mpr ⟨hlt, hentry⟩, fun j hj => ?_⟩
    obtain ⟨hj, hother⟩ := Array.getElem?_eq_some_iff.mp hj
    refine Nat.not_lt.mp fun hji => hbelow j hji ?_
    rw [hother]
    exact beq_self_eq_true entry
  · rintro ⟨hi, hleast⟩
    obtain ⟨hlt, hentry⟩ := Array.getElem?_eq_some_iff.mp hi
    refine ⟨hlt, by rw [hentry]; exact beq_self_eq_true entry, fun j hji hp => ?_⟩
    have hj : j < pool.slots.size := Nat.lt_trans hji hlt
    cases hs : pool.slots[j] with
    | none => simp [hs] at hp
    | some candidate =>
      rw [hs] at hp
      obtain rfl : candidate = entry := eq_of_beq hp
      exact Nat.not_le.mpr hji (hleast (Array.getElem?_eq_some_iff.mpr ⟨hj, hs⟩))

theorem indexOf?_spec {i : Nat} (built : pool.Built) (h : pool.indexOf? entry = some i) :
    pool.get? (UInt16.ofNat i) = some entry := by
  have hi := (indexOf?_eq_some_iff.mp h).1
  have hlt : i < pool.count := (Array.getElem?_eq_some_iff.mp hi).1
  rw [get?_eq_some, toNat_of_le_count built.count_le (Nat.le_of_lt hlt), Array.getElem?_toList]
  exact hi

/-- Interning changes no entry that was there. -/
theorem extends_intern (h : pool.intern entry = (.ok index, grown)) : pool.Extends grown := by
  unfold intern at h
  split at h
  case h_1 i hi =>
    cases h
    exact Extends.refl pool
  case h_2 => exact (push_spec h).1

/-- Interning fails only when the pool is full, and then leaves it as it was. -/
theorem intern_eq_error {e : Error} (h : pool.intern entry = (.error e, grown)) :
    e = .poolOverflow ∧ grown = pool := by
  unfold intern at h
  split at h
  · cases h
  · rcases push_cases pool entry with ⟨-, appended, hp, -⟩ | ⟨-, hp⟩
    · rw [hp] at h
      cases h
    · rw [hp] at h
      cases h
      exact ⟨rfl, rfl⟩

theorem eq_poolOverflow_of_intern {e : Error} (h : (pool.intern entry).1 = .error e) :
    e = .poolOverflow :=
  (intern_eq_error (Prod.ext h rfl)).1

theorem eq_of_intern_error {e : Error} (h : pool.intern entry = (.error e, grown)) : grown = pool :=
  (intern_eq_error h).2

/-- Interning reuses an entry or appends one. -/
theorem intern_cases (h : pool.intern entry = (.ok index, grown)) :
    grown = pool ∨ pool.push entry = (.ok index, grown) := by
  unfold intern at h
  split at h
  case h_1 =>
    cases h
    exact .inl rfl
  case h_2 => exact .inr h

/-- The index of an interned entry holds that entry, and nothing else has changed. -/
theorem intern_spec (built : pool.Built) (h : pool.intern entry = (.ok index, grown)) :
    pool.Extends grown ∧ grown.get? index = some entry := by
  refine ⟨extends_intern h, ?_⟩
  unfold intern at h
  split at h
  case h_1 i hi =>
    cases h
    exact indexOf?_spec built hi
  case h_2 => exact (push_spec h).2

theorem Built.intern (built : pool.Built) (entry : Entry) : (pool.intern entry).2.Built := by
  unfold ConstantPool.intern
  split
  · exact built
  · exact built.push entry

theorem addNumber_spec {number : Number} (built : pool.Built)
    (h : pool.addNumber number = (.ok index, grown)) :
    pool.Extends grown ∧ grown.get? index = some (.ofNumber number) :=
  intern_spec built h

theorem number_of_get? {number : Number} (h : pool.get? index = some (.ofNumber number)) :
    pool.number index = .ok number := by
  simp [ConstantPool.number, entry, h]

/-! ## Pools that grow by numbers -/

/-- The second pool is the first with numbers added that it did not hold. -/
inductive Gains (pool : ConstantPool) : ConstantPool → Prop where
  | refl : Gains pool pool
  | add {mid grown : ConstantPool} {number : Number} {index : UInt16} (gains : Gains pool mid)
      (missing : mid.indexOf? (.ofNumber number) = none)
      (pushed : mid.push (.ofNumber number) = (.ok index, grown)) : Gains pool grown

theorem gains_of_addNumber {number : Number} (h : pool.addNumber number = (.ok index, grown)) :
    pool.Gains grown := by
  unfold addNumber intern at h
  split at h
  case h_1 i hi =>
    cases h
    exact .refl
  case h_2 missing => exact .add .refl missing h

theorem indexOf?_eq_none (h : pool.indexOf? entry = none) (i : Nat) :
    pool.slots.toList[i]? ≠ some (some entry) := by
  intro hi
  rw [indexOf?, Array.findIdx?_eq_none_iff] at h
  have hentry := h (some entry) (Array.mem_toList_iff.mp (List.mem_of_getElem? hi))
  simp at hentry

namespace Gains

theorem trans {larger : ConstantPool} (h : pool.Gains grown) (h' : grown.Gains larger) :
    pool.Gains larger := by
  induction h' with
  | refl => exact h
  | add _ missing pushed ih => exact .add ih missing pushed

theorem slots_eq (h : pool.Gains grown) :
    ∃ more, grown.slots.toList = pool.slots.toList ++ more := by
  induction h with
  | refl => exact ⟨[], by simp⟩
  | add _ _ pushed ih =>
    obtain ⟨more, hmore⟩ := ih
    obtain ⟨-, -, padding, hgrown, -⟩ := push_eq_ok pushed
    exact ⟨_, by rw [hgrown, hmore, List.append_assoc]⟩

theorem built (h : pool.Gains grown) (built : pool.Built) : grown.Built := by
  induction h with
  | refl => exact built
  | @add mid _ number _ _ _ pushed ih =>
    have hpush := ih.push (.ofNumber number)
    rw [pushed] at hpush
    exact hpush

/-- An entry that was added is a number, and no index below it holds the same one. -/
theorem added (h : pool.Gains grown) {i : Nat} (hi : pool.count ≤ i)
    (hentry : grown.slots.toList[i]? = some (some entry)) :
    entry.number?.isSome = true ∧ ∀ j < i, grown.slots.toList[j]? ≠ some (some entry) := by
  induction h with
  | refl =>
    obtain ⟨hlt, -⟩ := List.getElem?_eq_some_iff.mp hentry
    rw [Array.length_toList] at hlt
    exact absurd hlt (Nat.not_lt.mpr hi)
  | @add mid _ number _ _ missing pushed ih =>
    obtain ⟨-, -, padding, hgrown, hpadding⟩ := push_eq_ok pushed
    rw [hgrown] at hentry ⊢
    rcases Nat.lt_trichotomy i mid.slots.toList.length with hlt | heq | hgt
    · rw [List.getElem?_append_left hlt] at hentry
      obtain ⟨hnumber, hbelow⟩ := ih hentry
      refine ⟨hnumber, fun j hj => ?_⟩
      rw [List.getElem?_append_left (Nat.lt_trans hj hlt)]
      exact hbelow j hj
    · rw [heq, List.getElem?_append_right (Nat.le_refl _), Nat.sub_self] at hentry
      cases hentry
      refine ⟨by simp, fun j hj => ?_⟩
      rw [List.getElem?_append_left (heq ▸ hj)]
      exact indexOf?_eq_none missing j
    · -- past the new entry there is at most the unusable half of a wide one
      rw [List.getElem?_append_right (Nat.le_of_lt hgt)] at hentry
      obtain ⟨k, hk⟩ := Nat.exists_eq_succ_of_ne_zero (Nat.sub_ne_zero_of_lt hgt)
      rw [hk, List.getElem?_cons_succ] at hentry
      cases hpadding _ (List.mem_of_getElem? hentry)

end Gains

/-! ## Lookups in a pool that has grown -/

theorem Extends.entry_eq_ok (h : pool.Extends grown) (he : pool.entry index = .ok entry) :
    grown.entry index = .ok entry := by
  unfold ConstantPool.entry at he ⊢
  cases hg : pool.get? index with
  | none =>
    rw [hg] at he
    cases he
  | some found =>
    rw [hg] at he
    cases he
    rw [h index entry hg]

theorem Extends.utf8_eq_ok {text : String} (h : pool.Extends grown)
    (ht : pool.utf8 index = .ok text) :
    grown.utf8 index = .ok text := by
  obtain ⟨entry, he, ht⟩ := Outcome.bind_eq_ok.mp ht
  exact Outcome.bind_eq_ok.mpr ⟨entry, h.entry_eq_ok he, ht⟩

theorem Extends.member_eq_ok {names : String × String} (h : pool.Extends grown)
    (hm : pool.member index = .ok names) : grown.member index = .ok names := by
  obtain ⟨reference, hr, hm⟩ := Outcome.bind_eq_ok.mp hm
  refine Outcome.bind_eq_ok.mpr ⟨reference, h.entry_eq_ok hr, ?_⟩
  cases hp : reference.nameAndType? with
  | none =>
    rw [hp] at hm
    cases hm
  | some pairIndex =>
    rw [hp] at hm
    obtain ⟨pair, hpair, hm⟩ := Outcome.bind_eq_ok.mp hm
    refine Outcome.bind_eq_ok.mpr ⟨pair, h.entry_eq_ok hpair, ?_⟩
    cases pair with
    | nameAndType name descriptor =>
      obtain ⟨nameText, hname, hm⟩ := Outcome.bind_eq_ok.mp hm
      obtain ⟨descriptorText, hdescriptor, hm⟩ := Outcome.bind_eq_ok.mp hm
      exact Outcome.bind_eq_ok.mpr ⟨nameText, h.utf8_eq_ok hname,
        Outcome.bind_eq_ok.mpr ⟨descriptorText, h.utf8_eq_ok hdescriptor, hm⟩⟩
    | _ => cases hm

theorem Extends.memberDescriptor_eq_ok {text : String} (h : pool.Extends grown)
    (hm : pool.memberDescriptor index = .ok text) : grown.memberDescriptor index = .ok text := by
  obtain ⟨names, hn, hm⟩ := Outcome.bind_eq_ok.mp hm
  exact Outcome.bind_eq_ok.mpr ⟨names, h.member_eq_ok hn, hm⟩

end ConstantPool

end BytecodeFold
