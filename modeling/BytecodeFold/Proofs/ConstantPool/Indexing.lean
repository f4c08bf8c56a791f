import BytecodeFold.Proofs.ConstantPool.Growth

/-!
# The index rules of the constant pool

Index 0 is reserved, and a wide entry takes the index after its own as well. A call appends whole
entries or leaves the pool alone, whether it succeeds or not, so these rules hold after any calls
on the empty pool. Every index below the count keeps what it holds, an entry that is added gets the
count as its index, and interning finds the lowest index of an entry before it appends one.
-/

namespace BytecodeFold

namespace Entry

/-- The entries that take two indices. -/
inductive Wide : Entry → Prop where
  | long (value : Int64) : Wide (.long value)
  | double (value : Binary64) : Wide (.double value)

theorem wide_iff {entry : Entry} : entry.Wide ↔ entry.slots = 2 := by
  constructor
  · rintro (_ | _) <;> rfl
  · intro h
    cases entry with
    | long value => exact .long value
    | double value => exact .double value
    | _ => cases h

theorem footprint_zero (entry : Entry) : entry.footprint[0]? = some (some entry) := by
  obtain ⟨more, hmore, -⟩ := entry.footprint_eq
  rw [hmore]
  rfl

theorem footprint_succ (entry : Entry) (i : Nat) (h : i + 1 < entry.slots) :
    entry.Wide ∧ entry.footprint[i + 1]? = some none := by
  have htwo : entry.slots = 2 := by
    cases entry with
    | long | double => rfl
    | _ =>
      simp only [slots] at h
      omega
  obtain rfl : i = 0 := by omega
  refine ⟨wide_iff.mpr htwo, ?_⟩
  rw [footprint, if_pos htwo]
  rfl

end Entry

namespace ConstantPool

variable {pool grown : ConstantPool} {entry : Entry}

/-! ## Calls -/

/-- The calls that may add to a pool. -/
inductive Call where
  | push (entry : Entry)
  | intern (entry : Entry)
  | addNumber (number : Number)
  | addUtf8 (text : String)
  | addClass (name : String)
  | addString (text : String)
  | addNameAndType (name descriptor : String)
  | addMethodRef (owner name descriptor : String)
  | addFieldRef (owner name descriptor : String)

def apply (pool : ConstantPool) : Call → Except Error UInt16 × ConstantPool
  | .push entry => pool.push entry
  | .intern entry => pool.intern entry
  | .addNumber number => pool.addNumber number
  | .addUtf8 text => pool.addUtf8 text
  | .addClass name => pool.addClass name
  | .addString text => pool.addString text
  | .addNameAndType name descriptor => pool.addNameAndType name descriptor
  | .addMethodRef owner name descriptor => pool.addMethodRef owner name descriptor
  | .addFieldRef owner name descriptor => pool.addFieldRef owner name descriptor

/-- The pool after some calls. A call that fails does not stop those after it. -/
def run (pool : ConstantPool) (calls : List Call) : ConstantPool :=
  calls.foldl (fun pool call => (pool.apply call).2) pool

section Keeps

variable {P : ConstantPool → Prop}

theorem intern_keeps (hpush : ∀ pool entry, P pool → P (pool.push entry).2) (entry : Entry)
    (h : P pool) : P (pool.intern entry).2 := by
  unfold intern
  split
  · exact h
  · exact hpush pool entry h

theorem andThen_keeps {added : Except Error UInt16 × ConstantPool}
    {next : UInt16 → ConstantPool → Except Error UInt16 × ConstantPool} (ha : P added.2)
    (hnext : ∀ index pool, P pool → P (next index pool).2) : P (andThen added next).2 := by
  obtain ⟨outcome, mid⟩ := added
  cases outcome with
  | error e => exact ha
  | ok index => exact hnext index mid ha

/-- Every call is made of single entries that are appended, so it keeps what appending one keeps. -/
theorem apply_keeps (hpush : ∀ pool entry, P pool → P (pool.push entry).2) (call : Call)
    (h : P pool) : P (pool.apply call).2 := by
  have hintern : ∀ (entry : Entry) (pool : ConstantPool), P pool → P (pool.intern entry).2 :=
    fun entry _ hp => intern_keeps hpush entry hp
  have hclass : ∀ (name : String) (pool : ConstantPool), P pool → P (pool.addClass name).2 :=
    fun name _ hp => andThen_keeps (hintern _ _ hp) fun _ _ => hintern _ _
  have hpair : ∀ (name descriptor : String) (pool : ConstantPool), P pool →
      P (pool.addNameAndType name descriptor).2 := fun name descriptor _ hp =>
    andThen_keeps (hintern _ _ hp) fun _ _ hp =>
      andThen_keeps (hintern _ _ hp) fun _ _ => hintern _ _
  cases call with
  | push entry => exact hpush pool entry h
  | intern entry => exact hintern entry pool h
  | addNumber number => exact hintern _ pool h
  | addUtf8 text => exact hintern _ pool h
  | addClass name => exact hclass name pool h
  | addString text => exact andThen_keeps (hintern _ _ h) fun _ _ => hintern _ _
  | addNameAndType name descriptor => exact hpair name descriptor pool h
  | addMethodRef owner name descriptor | addFieldRef owner name descriptor =>
    exact andThen_keeps (hclass owner pool h) fun _ _ hp =>
      andThen_keeps (hpair name descriptor _ hp) fun _ _ => hintern _ _

theorem run_keeps (hpush : ∀ pool entry, P pool → P (pool.push entry).2) (calls : List Call)
    (h : P pool) : P (pool.run calls) := by
  induction calls generalizing pool with
  | nil => exact h
  | cons call calls ih => exact ih (apply_keeps hpush call h)

end Keeps

theorem Built.run (built : pool.Built) (calls : List Call) : (pool.run calls).Built :=
  run_keeps (fun _ entry built => built.push entry) calls built

/-! ## Appending -/

theorem slots_push_leading (pool : ConstantPool) (entry : Entry) :
    pool.slots.toList <+: (pool.push entry).2.slots.toList := by
  rcases push_cases pool entry with ⟨-, grown, hp, hg⟩ | ⟨-, hp⟩
  · rw [hp, hg]
    exact List.prefix_append _ _
  · simp only [hp, List.prefix_refl]

theorem slots_apply_leading (pool : ConstantPool) (call : Call) :
    pool.slots.toList <+: (pool.apply call).2.slots.toList :=
  apply_keeps (P := fun other => pool.slots.toList <+: other.slots.toList)
    (fun other entry h => h.trans (slots_push_leading other entry)) call (List.prefix_refl _)

theorem slots_run_leading (pool : ConstantPool) (calls : List Call) :
    pool.slots.toList <+: (pool.run calls).slots.toList :=
  run_keeps (P := fun other => pool.slots.toList <+: other.slots.toList)
    (fun other entry h => h.trans (slots_push_leading other entry)) calls (List.prefix_refl _)

theorem slot_of_leading (h : pool.slots.toList <+: grown.slots.toList) {i : Nat}
    (hi : i < pool.count) :
    grown.slots[i]? = pool.slots[i]? := by
  rw [← Array.getElem?_toList, ← Array.getElem?_toList]
  obtain ⟨more, hmore⟩ := h
  rw [← hmore, List.getElem?_append_left (by rwa [Array.length_toList])]

/-! ## The rules -/

/-- Which indices below the count are usable. -/
structure WellIndexed (pool : ConstantPool) : Prop where
  reserved : pool.slots[0]? = some none
  wide : ∀ i entry, pool.slots[i]? = some (some entry) → entry.Wide → pool.slots[i + 1]? = some none
  usable : ∀ i, 0 < i → i < pool.count → (∃ entry, pool.slots[i]? = some (some entry)) ∨
    ∃ entry, pool.slots[i - 1]? = some (some entry) ∧ entry.Wide
  count_le : pool.count ≤ 65535

theorem wellIndexed_empty : empty.WellIndexed where
  reserved := rfl
  wide := by
    intro i entry h
    cases i with
    | zero => cases h
    | succ i => simp [empty] at h
  usable := by
    intro i hpos hlt
    simp only [count, empty, Array.size_singleton] at hlt
    omega
  count_le := by decide

/-- What stands at an index once an entry has been appended. -/
theorem slot_appended (h : grown.slots.toList = pool.slots.toList ++ entry.footprint) (i : Nat) :
    grown.slots[i]? =
      if i < pool.count then pool.slots[i]? else entry.footprint[i - pool.count]? := by
  rw [← Array.getElem?_toList, h, List.getElem?_append, Array.length_toList, Array.getElem?_toList]
  rfl

theorem WellIndexed.appended (well : pool.WellIndexed) (hfits : pool.count + entry.slots ≤ 65535)
    (h : grown.slots.toList = pool.slots.toList ++ entry.footprint) : grown.WellIndexed where
  reserved := by
    have hpos : 0 < pool.count := (Array.getElem?_eq_some_iff.mp well.reserved).1
    rw [slot_appended h, if_pos hpos]
    exact well.reserved
  wide := by
    intro i found hi hwide
    rw [slot_appended h] at hi ⊢
    by_cases hlt : i < pool.count
    · rw [if_pos hlt] at hi
      have hnext := well.wide i found hi hwide
      have hlt' : i + 1 < pool.count := (Array.getElem?_eq_some_iff.mp hnext).1
      rw [if_pos hlt']
      exact hnext
    · rw [if_neg hlt] at hi
      rw [if_neg (by omega)]
      -- the new entry itself, for its second half holds no entry
      cases hk : i - pool.count with
      | zero =>
        rw [hk, Entry.footprint_zero] at hi
        cases hi
        have htwo := Entry.wide_iff.mp hwide
        rw [show i + 1 - pool.count = 0 + 1 by omega]
        exact (entry.footprint_succ 0 (by omega)).2
      | succ k =>
        rw [hk] at hi
        have hk' : k + 1 < entry.slots := by
          rw [← Entry.length_footprint]
          exact (List.getElem?_eq_some_iff.mp hi).1
        rw [(entry.footprint_succ k hk').2] at hi
        cases hi
  usable := by
    intro i hpos hlt
    rw [count_appended h] at hlt
    rw [slot_appended h, slot_appended h]
    by_cases hold : i < pool.count
    · rw [if_pos hold, if_pos (by omega)]
      exact well.usable i hpos hold
    · rw [if_neg hold]
      cases hk : i - pool.count with
      | zero => exact .inl ⟨entry, entry.footprint_zero⟩
      | succ k =>
        have hwide := (entry.footprint_succ k (by omega)).1
        have htwo := Entry.wide_iff.mp hwide
        rw [if_neg (by omega), show i - 1 - pool.count = 0 by omega]
        exact .inr ⟨entry, entry.footprint_zero, hwide⟩
  count_le := by rwa [count_appended h]

theorem WellIndexed.push (well : pool.WellIndexed) (entry : Entry) :
    (pool.push entry).2.WellIndexed := by
  rcases push_cases pool entry with ⟨hfits, grown, hp, hg⟩ | ⟨-, hp⟩
  · rw [hp]
    exact well.appended hfits hg
  · rw [hp]
    exact well

theorem WellIndexed.run (well : pool.WellIndexed) (calls : List Call) :
    (pool.run calls).WellIndexed :=
  run_keeps (fun _ entry well => well.push entry) calls well

/-! ## Interning -/

/-- No lower index than this one holds the entry. -/
def FirstAt (pool : ConstantPool) (entry : Entry) (index : UInt16) : Prop :=
  pool.indexOf? entry = some index.toNat

namespace FirstAt

variable {index : UInt16}

theorem get? (h : pool.FirstAt entry index) : pool.get? index = some entry := by
  rw [get?_eq_some, Array.getElem?_toList]
  exact (indexOf?_eq_some_iff.mp h).1

theorem intern (h : pool.FirstAt entry index) : pool.intern entry = (.ok index, pool) := by
  unfold ConstantPool.intern
  rw [h]
  simp only [UInt16.ofNat_toNat]

/-- An entry that is appended later stands behind those that are there. -/
theorem mono (h : pool.FirstAt entry index) (leading : pool.slots.toList <+: grown.slots.toList) :
    grown.FirstAt entry index := by
  obtain ⟨hi, hleast⟩ := indexOf?_eq_some_iff.mp h
  have hlt : index.toNat < pool.count := (Array.getElem?_eq_some_iff.mp hi).1
  refine indexOf?_eq_some_iff.mpr ⟨?_, fun j hj => ?_⟩
  · exact (slot_of_leading leading hlt).trans hi
  · by_cases hjlt : j < pool.count
    · exact hleast ((slot_of_leading leading hjlt).symm.trans hj)
    · omega

end FirstAt

/-- An entry that could be interned is found again at its index. -/
theorem firstAt_of_intern {index : UInt16} (hcount : pool.count ≤ 65535)
    (h : pool.intern entry = (.ok index, grown)) : grown.FirstAt entry index := by
  unfold intern at h
  cases hfound : pool.indexOf? entry with
  | some i =>
    rw [hfound] at h
    cases h
    have hlt : i < pool.count :=
      (Array.getElem?_eq_some_iff.mp (indexOf?_eq_some_iff.mp hfound).1).1
    rw [FirstAt, toNat_of_le_count hcount (Nat.le_of_lt hlt)]
    exact hfound
  | none =>
    rw [hfound] at h
    rcases push_cases pool entry with ⟨-, grown', hp, hg⟩ | ⟨-, hp⟩
    · rw [hp] at h
      cases h
      rw [FirstAt, toNat_of_le_count hcount (Nat.le_refl _), indexOf?_eq_some_iff]
      refine ⟨?_, fun j hj => ?_⟩
      · rw [Set.mem_ofPred_eq, slot_appended hg, if_neg (Nat.lt_irrefl _), Nat.sub_self]
        exact entry.footprint_zero
      · refine Nat.not_lt.mp fun hlt => indexOf?_eq_none hfound j ?_
        rw [Set.mem_ofPred_eq, slot_appended hg, if_pos hlt] at hj
        rwa [Array.getElem?_toList]
    · rw [hp] at h
      cases h

/-! ## Any calls -/

/-- The rules that a pool and every call on it obey. Entries are equal when they agree in kind and
contents, numeric ones when they agree in kind and bits. -/
structure IndexDiscipline (pool : ConstantPool) : Prop extends pool.WellIndexed where
  unchanged : ∀ call i, i < pool.count → (pool.apply call).2.slots[i]? = pool.slots[i]?
  push_fits : ∀ entry, pool.count + entry.slots ≤ 65535 → ∃ index grown,
    pool.push entry = (.ok index, grown) ∧ index.toNat = pool.count ∧
      grown.get? index = some entry ∧ grown.count = pool.count + entry.slots
  push_overflows : ∀ entry, 65535 < pool.count + entry.slots →
    pool.push entry = (.error .poolOverflow, pool)
  intern_present : ∀ entry i, IsLeast {i : Nat | pool.slots[i]? = some (some entry)} i →
    ∃ index, index.toNat = i ∧ pool.intern entry = (.ok index, pool)
  intern_absent : ∀ entry, (∀ i : Nat, pool.slots[i]? ≠ some (some entry)) →
    pool.intern entry = pool.push entry
  intern_again : ∀ entry index grown, pool.intern entry = (.ok index, grown) →
    grown.intern entry = (.ok index, grown)

theorem WellIndexed.push_fits (well : pool.WellIndexed) (hfits : pool.count + entry.slots ≤ 65535) :
    ∃ index grown, pool.push entry = (.ok index, grown) ∧ index.toNat = pool.count ∧
      grown.get? index = some entry ∧ grown.count = pool.count + entry.slots := by
  rcases push_cases pool entry with ⟨-, grown, hp, hg⟩ | ⟨hover, -⟩
  · exact ⟨_, grown, hp, toNat_of_le_count well.count_le (Nat.le_refl _), (push_spec hp).2,
      count_appended hg⟩
  · omega

theorem WellIndexed.intern_present (well : pool.WellIndexed) {i : Nat}
    (h : IsLeast {i | pool.slots[i]? = some (some entry)} i) :
    ∃ index, index.toNat = i ∧ pool.intern entry = (.ok index, pool) := by
  have hlt : i < pool.count := (Array.getElem?_eq_some_iff.mp h.1).1
  have hi := toNat_of_le_count well.count_le (Nat.le_of_lt hlt)
  refine ⟨UInt16.ofNat i, hi, FirstAt.intern ?_⟩
  rw [FirstAt, hi, indexOf?_eq_some_iff]
  exact h

theorem intern_absent (h : ∀ i : Nat, pool.slots[i]? ≠ some (some entry)) :
    pool.intern entry = pool.push entry := by
  unfold intern
  cases hfound : pool.indexOf? entry with
  | none => rfl
  | some i => exact absurd (indexOf?_eq_some_iff.mp hfound).1 (h i)

/-- After any calls on the empty pool, failed ones included, the indices follow the rules, and so
does the next call. -/
theorem run_keeps_index_discipline (calls : List Call) : (empty.run calls).IndexDiscipline := by
  have well := wellIndexed_empty.run calls
  exact {
    well with
    unchanged := fun call _ hi => slot_of_leading (slots_apply_leading _ call) hi
    push_fits := fun _ hfits => well.push_fits hfits
    push_overflows := fun _ hover => if_neg (Nat.not_le.mpr hover)
    intern_present := fun _ _ h => well.intern_present h
    intern_absent := fun _ h => ConstantPool.intern_absent h
    intern_again := fun _ _ _ h => (firstAt_of_intern well.count_le h).intern }

/-- A `long` leaves a gap behind it, and an equal one is not added again. -/
example : (empty.run [.push (.long 7), .addNumber (.int 7), .addNumber (.long 7)]).slots =
    #[none, some (.long 7), none, some (.integer 7)] := by
  decide +kernel

end ConstantPool

end BytecodeFold
