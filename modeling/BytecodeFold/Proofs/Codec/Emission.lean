import BytecodeFold.Proofs.Codec.Format

/-!
# What the encoder writes

The bytes that the encoder writes for an instruction are in the format of the code array, and they
are as many as its size says. Type tags that have the same bytes come back as one of them, which
`normalise` names.
-/

namespace BytecodeFold

open BigEndian (encode)

/-- The tag that the bytes of a literal have. -/
def Number.pushTag (value : Number) (type : TypeTag) : TypeTag :=
  match value, type with
  | .int v, .int | .int v, .char =>
    if -1 ≤ v.toInt ∧ v.toInt ≤ 5 then .int
    else if fitsSigned 8 v.toInt then .byte
    else .short
  | _, _ => type

/-- The instruction with the tags that its bytes have. -/
def Instruction.normalise {τ : Type} : Instruction τ → Instruction τ
  | push value type => push value (value.pushTag type)
  | load slot type => load slot type.promote
  | store slot type => store slot type.promote
  | convert source target => convert source.promote target
  | arithmetic op type => arithmetic op type.promote
  | code => code

theorem Instruction.targets_normalise {τ : Type} (code : Instruction τ) :
    code.normalise.targets = code.targets := by
  cases code <;> rfl

/-- A switch has no more cases than four bytes can count. -/
def Instruction.FewCases {τ : Type} : Instruction τ → Prop
  | switch _ _ cases => cases.length < 2147483648
  | _ => True

theorem Instruction.fewCases_of_size {τ : Type} {code : Instruction τ} {offset : Nat} {long : Bool}
    (h : code.size offset long ≤ 65535) : code.FewCases := by
  cases code with
  | switch kind default cases =>
    change cases.length < 2147483648
    cases kind <;> simp only [size] at h <;> omega
  | _ => trivial

theorem Instruction.size_mapTargets {τ σ : Type} (f : τ → σ) (offset : Nat) (long : Bool)
    (code : Instruction τ) : (code.mapTargets f).size offset long = code.size offset long := by
  cases code with
  | switch kind default cases => cases kind <;> simp [mapTargets, size]
  | _ => rfl

namespace Encoding

/-! ## Opcodes of families -/

/-- The opcodes of the loads or of the stores. -/
structure LocalFamily (base shortBase : UInt8) (indexed : TypeTag → Shape)
    (direct : UInt16 → TypeTag → Shape) : Prop where
  indexed_eq : ∀ type : TypeTag, Shape.ofOpcode (base + type.familyIndex) = indexed type.promote
  direct_eq : ∀ n : Fin 4, ∀ type : TypeTag,
    Shape.ofOpcode (shortBase + 4 * type.familyIndex + (UInt16.ofNat n).toUInt8) =
      direct (UInt16.ofNat n) type.promote

theorem loads : LocalFamily Opcode.iload Opcode.iload0 .load .loadSlot := by
  constructor
  · intro type
    cases type <;> decide +kernel
  · intro n type
    cases type <;> revert n <;> decide +kernel

theorem stores : LocalFamily Opcode.istore Opcode.istore0 .store .storeSlot := by
  constructor
  · intro type
    cases type <;> decide +kernel
  · intro n type
    cases type <;> revert n <;> decide +kernel

theorem ofOpcode_arithmetic {op : ArithmeticOp} {type : TypeTag}
    (valid : ¬ ((op.isBitwise && type.isFloating) || type = .reference) = true) :
    Shape.ofOpcode (op.opcode type) = .arithmetic op type.promote := by
  have h : ∀ op ∈ ArithmeticOp.all, ∀ type ∈ TypeTag.all,
      ((op.isBitwise && type.isFloating) || type = .reference) = true ∨
        Shape.ofOpcode (op.opcode type) = .arithmetic op type.promote := by decide +kernel
  exact (h op (ArithmeticOp.mem_all op) type (TypeTag.mem_all type)).resolve_left valid

theorem ofOpcode_convert {source target : TypeTag} {opcode : UInt8}
    (h : source.conversionOpcode? target = some opcode) :
    Shape.ofOpcode opcode = .convert source.promote target := by
  have hall : ∀ source ∈ TypeTag.all, ∀ target ∈ TypeTag.all,
      (source.conversionOpcode? target).all (fun opcode =>
        Shape.ofOpcode opcode = .convert source.promote target) = true := by decide +kernel
  have hs := hall source (TypeTag.mem_all source) target (TypeTag.mem_all target)
  rw [h] at hs
  exact of_decide_eq_true hs

theorem ofOpcode_compare (kind : CompareKind) : Shape.ofOpcode kind.opcode = .compare kind := by
  cases kind <;> decide +kernel

theorem ofOpcode_branch (condition : Condition) :
    Shape.ofOpcode condition.opcode = .branch condition := by
  have h : ∀ condition ∈ Condition.all,
      Shape.ofOpcode condition.opcode = .branch condition := by decide +kernel
  exact h condition (Condition.mem_all condition)

/-! ## Literals -/

theorem smallOpcode?_eq_some {α : Type} [DecidableEq α] {first : UInt8} {literals : List α}
    {value : α} {form : PushForm} (h : Number.smallOpcode? first literals value = some form) :
    ∃ index, literals[index]? = some value ∧ form = .opcode (first + UInt8.ofNat index) := by
  obtain ⟨index, hi, rfl⟩ := Option.map_eq_some_iff.mp h
  obtain ⟨hlt, he, -⟩ := List.findIdx?_eq_some_iff_getElem.mp hi
  exact ⟨index, by rw [List.getElem?_eq_getElem hlt, beq_iff_eq.mp he], rfl⟩

theorem toInt32_toInt8 {v : Int32} (h : fitsSigned 8 v.toInt = true) : v.toInt8.toInt32 = v := by
  obtain ⟨hlow, hhigh⟩ := fitsSigned_iff.mp h
  apply Int32.toInt_inj.mp
  rw [Int8.toInt_toInt32, Int32.toInt_toInt8]
  exact Int.bmod_eq_of_le hlow hhigh

theorem toInt32_toInt16 {v : Int32} (h : fitsSigned 16 v.toInt = true) : v.toInt16.toInt32 = v := by
  obtain ⟨hlow, hhigh⟩ := fitsSigned_iff.mp h
  apply Int32.toInt_inj.mp
  rw [Int16.toInt_toInt32, Int32.toInt_toInt16]
  exact Int.bmod_eq_of_le hlow hhigh

theorem ofOpcode_smallInt {v : Int32} (low : -1 ≤ v.toInt) (high : v.toInt ≤ 5) :
    Shape.ofOpcode (Opcode.iconst0 + v.toInt8.toUInt8) = .literal (.int v) .int := by
  have h : ∀ n : Fin 7, Shape.ofOpcode (Opcode.iconst0 + (Int32.ofInt (n - 1)).toInt8.toUInt8) =
      .literal (.int (Int32.ofInt (n - 1))) .int := by decide +kernel
  have hn := h ⟨(v.toInt + 1).toNat, by omega⟩
  have hv : (((v.toInt + 1).toNat : Nat) : Int) - 1 = v.toInt := by omega
  dsimp only at hn
  rwa [hv, Int32.ofInt_toInt] at hn

/-- The bytes of a pushed literal. -/
inductive Pushed (value : Number) (type : TypeTag) : PushForm → Prop where
  | opcode {opcode : UInt8} (shape : Shape.ofOpcode opcode = .literal value (value.pushTag type)) :
      Pushed value type (.opcode opcode)
  | byte {v : Int8} (literal : value = .int v.toInt32) (tag : value.pushTag type = .byte) :
      Pushed value type (.byte v)
  | short {v : Int16} (literal : value = .int v.toInt32) (tag : value.pushTag type = .short) :
      Pushed value type (.short v)

theorem pushed_of_pushForm? {value : Number} {type : TypeTag} {form : PushForm}
    (h : value.pushForm? type = some form) : Pushed value type form := by
  cases value with
  | int v =>
    have hbyte : ∀ {tag : TypeTag}, (Number.int v).pushTag tag = .byte →
        fitsSigned 8 v.toInt = true → Pushed (.int v) tag (.byte v.toInt8) :=
      fun htag hfits => .byte (by rw [toInt32_toInt8 hfits]) htag
    have hshort : ∀ {tag : TypeTag}, (Number.int v).pushTag tag = .short →
        fitsSigned 16 v.toInt = true → Pushed (.int v) tag (.short v.toInt16) :=
      fun htag hfits => .short (by rw [toInt32_toInt16 hfits]) htag
    cases type with
    | byte =>
      obtain ⟨hfits, he⟩ := Option.ite_none_right_eq_some.mp h
      cases he
      exact hbyte rfl hfits
    | short =>
      obtain ⟨hfits, he⟩ := Option.ite_none_right_eq_some.mp h
      cases he
      exact hshort rfl hfits
    | int | char =>
      simp only [Number.pushForm?, Bool.and_eq_true, decide_eq_true_eq] at h
      by_cases hsmall : -1 ≤ v.toInt ∧ v.toInt ≤ 5
      · rw [if_pos hsmall] at h
        cases h
        refine .opcode ?_
        rw [Number.pushTag, if_pos hsmall]
        exact ofOpcode_smallInt hsmall.1 hsmall.2
      · rw [if_neg hsmall] at h
        by_cases hfits : fitsSigned 8 v.toInt = true
        · rw [if_pos hfits] at h
          cases h
          exact hbyte (by rw [Number.pushTag, if_neg hsmall, if_pos hfits]) hfits
        · rw [if_neg hfits] at h
          obtain ⟨hfits', he⟩ := Option.ite_none_right_eq_some.mp h
          cases he
          exact hshort (by rw [Number.pushTag, if_neg hsmall, if_neg hfits]) hfits'
    | long | float | double | reference => cases h
  | long v =>
    cases type with
    | long =>
      obtain ⟨index, hi, rfl⟩ := smallOpcode?_eq_some h
      refine .opcode ?_
      rcases index with _ | _ | index <;> cases hi <;> decide +kernel
    | _ => cases h
  | float v =>
    cases type with
    | float =>
      obtain ⟨index, hi, rfl⟩ := smallOpcode?_eq_some h
      refine .opcode ?_
      rcases index with _ | _ | _ | index <;> cases hi <;> decide +kernel
    | _ => cases h
  | double v =>
    cases type with
    | double =>
      obtain ⟨index, hi, rfl⟩ := smallOpcode?_eq_some h
      refine .opcode ?_
      rcases index with _ | _ | index <;> cases hi <;> decide +kernel
    | _ => cases h

/-! ## Keys of switches -/

theorem keysConsecutive_consecutive (count : Nat) (first : Int) :
    keysConsecutive (Decoding.consecutive count first) = true := by
  induction count generalizing first with
  | zero => rfl
  | succ count ih =>
    cases count with
    | zero => rfl
    | succ count =>
      have hrest := ih (first + 1)
      simp only [Decoding.consecutive, keysConsecutive, Bool.and_eq_true, beq_self_eq_true,
        true_and] at hrest ⊢
      exact hrest

theorem consecutive_of_keysConsecutive {key : Int} {keys : List Int}
    (h : keysConsecutive (key :: keys) = true) :
    key :: keys = Decoding.consecutive (keys.length + 1) key := by
  induction keys generalizing key with
  | nil => rfl
  | cons next keys ih =>
    simp only [keysConsecutive, Bool.and_eq_true, beq_iff_eq] at h
    rw [List.length_cons, Decoding.consecutive, h.1, ← ih h.2]

theorem getLast?_consecutive (count : Nat) (first : Int) :
    (Decoding.consecutive (count + 1) first).getLast? = some (first + count) := by
  induction count generalizing first with
  | zero => simp [Decoding.consecutive]
  | succ count ih =>
    rw [Decoding.consecutive, List.getLast?_cons, ih]
    simp only [Option.getD_some, Option.some.injEq]
    omega

theorem map_toInt_consecutive {count : Nat} {first : Int} (low : -2147483648 ≤ first)
    (high : first + count ≤ 2147483648) :
    ((Decoding.consecutive count first).map Int32.ofInt).map Int32.toInt =
      Decoding.consecutive count first := by
  induction count generalizing first with
  | zero => rfl
  | succ count ih =>
    rw [Decoding.consecutive, List.map_cons, List.map_cons, ih (by omega) (by omega),
      Int32.toInt_ofInt_of_le low (by omega)]

/-- The keys of a table are given by the first and the last one. -/
theorem table_keys_iff {keys : List Int32} {low high : Int32} :
    (low.toInt ≤ high.toInt ∧ keys =
        (Decoding.consecutive (high.toInt - low.toInt + 1).toNat low.toInt).map Int32.ofInt) ↔
      keysConsecutive (keys.map Int32.toInt) = true ∧ keys.head? = some low ∧
        keys.getLast? = some high := by
  constructor
  · rintro ⟨hle, rfl⟩
    obtain ⟨count, hcount⟩ := Int.le.dest hle
    have hlength : (high.toInt - low.toInt + 1).toNat = count + 1 := by omega
    have hhigh := high.toInt_lt
    rw [hlength, map_toInt_consecutive low.le_toInt (by omega)]
    refine ⟨keysConsecutive_consecutive _ _, ?_, ?_⟩
    · rw [Decoding.consecutive, List.map_cons, List.head?_cons, Int32.ofInt_toInt]
    · rw [List.getLast?_map, getLast?_consecutive, Option.map_some, hcount, Int32.ofInt_toInt]
  · rintro ⟨hkeys, hhead, hlast⟩
    cases keys with
    | nil => cases hhead
    | cons key keys =>
      cases hhead
      have hc := consecutive_of_keysConsecutive hkeys
      rw [List.length_map] at hc
      have hl := congrArg List.getLast? hc
      rw [getLast?_consecutive, ← List.map_cons, List.getLast?_map, hlast, Option.map_some,
        Option.some.injEq] at hl
      refine ⟨by omega, ?_⟩
      have hlength : (high.toInt - low.toInt + 1).toNat = keys.length + 1 := by omega
      rw [hlength, ← hc, ← List.map_cons, List.map_map]
      simp [Function.comp_def]

/-! ## Targets -/

section

variable {offsets : Handle → Option Nat} {handle : Handle} {offset : Nat}

/-- The offset of a handle that has one. -/
def placeOf (offsets : Handle → Option Nat) (handle : Handle) : Nat := (offsets handle).getD 0

def Placed (offsets : Handle → Option Nat) (handle : Handle) : Prop :=
  offsets handle = some (placeOf offsets handle)

theorem placed_of_eq_some {place : Nat} (h : offsets handle = some place) :
    Placed offsets handle := by
  rw [Placed, placeOf, h]
  rfl

theorem displacement_eq (hoffset : offsets handle = some offset) {target : Handle}
    (placed : Placed offsets target) :
    displacement offsets handle target = .ok ((placeOf offsets target : Int) - offset) := by
  simp only [displacement, hoffset, show offsets target = _ from placed]
  rfl

theorem shortDisplacement_eq_ok (hoffset : offsets handle = some offset) {target : Handle}
    (placed : Placed offsets target) {bytes : List UInt8} :
    shortDisplacement offsets handle target = .ok bytes ↔
      Decoding.ShortTarget offset (placeOf offsets target) bytes := by
  rw [shortDisplacement, displacement_eq hoffset placed, Outcome.ok_bind, Decoding.ShortTarget]
  split
  case isTrue hfits =>
    rw [Outcome.pure_eq_ok, Except.ok.injEq]
    exact ⟨fun h => ⟨hfits, h.symm⟩, fun h => h.2.symm⟩
  case isFalse hfar =>
    constructor
    · intro h
      cases h
    · intro h
      exact absurd h.1 hfar

theorem longDisplacement_eq (hoffset : offsets handle = some offset) {target : Handle}
    (placed : Placed offsets target) :
    longDisplacement offsets handle target =
      .ok (Decoding.longDistance offset (placeOf offsets target)) := by
  rw [longDisplacement, displacement_eq hoffset placed]
  rfl

theorem mapM_eq_ok {α β : Type} {f : α → Except Error β} {g : α → β} {as : List α}
    (h : ∀ a ∈ as, f a = .ok (g a)) : as.mapM f = .ok (as.map g) := by
  rw [Outcome.list_mapM_eq_ok]
  refine List.forall₂_map_right_iff.mpr (List.forall₂_same.mpr h)

/-- The cases of a switch with the offsets of their targets. -/
def placedCases (offsets : Handle → Option Nat) (cases : List (Int32 × Handle)) :
    List (Int32 × Nat) :=
  cases.map fun case => (case.1, placeOf offsets case.2)

theorem reach_placedCases (hoffset : offsets handle = some offset)
    (bounded : ∀ handle, placeOf offsets handle ≤ 65535) (cases : List (Int32 × Handle)) :
    Decoding.Reach offset (placedCases offsets cases) := by
  intro case hm
  obtain ⟨original, -, rfl⟩ := List.mem_map.mp hm
  have hs := bounded handle
  have ht := bounded original.2
  rw [placeOf, hoffset, Option.getD_some] at hs
  rw [fitsSigned_iff]
  constructor
  · change (-2147483648 : Int) ≤ _
    omega
  · change _ < (2147483648 : Int)
    omega

theorem map_fst_placedCases (cases : List (Int32 × Handle)) :
    (placedCases offsets cases).map (·.1) = cases.map (·.1) := by
  rw [placedCases, List.map_map]
  rfl

theorem switchTable_eq_ok (hoffset : offsets handle = some offset)
    {cases : List (Int32 × Handle)} (placed : ∀ case ∈ cases, Placed offsets case.2)
    (reach : Decoding.Reach offset (placedCases offsets cases)) {bytes : List UInt8} :
    switchCases offsets handle .table cases = .ok bytes ↔
      Decoding.Cases offset .table (placedCases offsets cases) bytes := by
  have htargets : cases.mapM (fun case => longDisplacement offsets handle case.2) =
      .ok (cases.map fun case => Decoding.longDistance offset (placeOf offsets case.2)) :=
    mapM_eq_ok fun case hm => longDisplacement_eq hoffset (placed case hm)
  have hbytes :
      (cases.map fun case => Decoding.longDistance offset (placeOf offsets case.2)).flatten =
      Decoding.tableBytes offset (placedCases offsets cases) := by
    rw [Decoding.tableBytes, placedCases, List.flatMap_map, List.flatMap_def]
  have hints : (cases.map (·.1)).map Int32.toInt = cases.map (·.1.toInt) := List.map_map
  simp only [Decoding.Cases, map_fst_placedCases, reach, true_and]
  simp only [← and_assoc, table_keys_iff]
  unfold switchCases
  cases hhead : cases.head? with
  | none =>
    rw [List.head?_eq_none_iff.mp hhead]
    constructor
    · intro h
      cases h
    · rintro ⟨low, high, ⟨⟨-, h⟩, -⟩, -⟩
      cases h
  | some first =>
    cases hlast : cases.getLast? with
    | none =>
      rw [List.getLast?_eq_none_iff.mp hlast] at hhead
      cases hhead
    | some last =>
      simp only [htargets, hints, hbytes, Outcome.ok_bind, Outcome.pure_eq_ok, List.head?_map,
        List.getLast?_map, hhead, hlast, Option.map_some, Option.some.injEq]
      by_cases hkeys : keysConsecutive (cases.map (·.1.toInt)) = true
      · rw [if_pos hkeys, Except.ok.injEq]
        constructor
        · rintro rfl
          exact ⟨first.1, last.1, ⟨⟨hkeys, rfl⟩, rfl⟩, rfl⟩
        · rintro ⟨_, _, ⟨⟨-, rfl⟩, rfl⟩, rfl⟩
          rfl
      · rw [if_neg hkeys]
        constructor
        · intro h
          cases h
        · rintro ⟨_, _, ⟨⟨h, -⟩, -⟩, -⟩
          exact absurd h hkeys

theorem switchLookup_eq_ok (hoffset : offsets handle = some offset)
    {cases : List (Int32 × Handle)} (placed : ∀ case ∈ cases, Placed offsets case.2)
    (reach : Decoding.Reach offset (placedCases offsets cases)) (few : cases.length < 2147483648)
    {bytes : List UInt8} :
    switchCases offsets handle .lookup cases = .ok bytes ↔
      Decoding.Cases offset .lookup (placedCases offsets cases) bytes := by
  have hpairs : cases.mapM (fun case => do
      return encode case.1 ++ (← longDisplacement offsets handle case.2)) =
      .ok (cases.map fun case =>
        encode case.1 ++ Decoding.longDistance offset (placeOf offsets case.2)) := by
    refine mapM_eq_ok fun case hm => ?_
    rw [longDisplacement_eq hoffset (placed case hm)]
    rfl
  have hbytes : (cases.map fun case =>
        encode case.1 ++ Decoding.longDistance offset (placeOf offsets case.2)).flatten =
      Decoding.lookupBytes offset (placedCases offsets cases) := by
    rw [Decoding.lookupBytes, placedCases, List.flatMap_map, List.flatMap_def]
  have hints : (placedCases offsets cases).map (·.1.toInt) = cases.map (·.1.toInt) := by
    rw [placedCases, List.map_map]
    rfl
  have hcount : (Int32.ofNat cases.length).toInt = cases.length :=
    Int32.toInt_ofNat_of_lt few
  have hlength : (placedCases offsets cases).length = cases.length := List.length_map _
  simp only [Decoding.Cases, hints, hlength, reach, true_and]
  unfold switchCases
  dsimp only
  rw [hpairs, Outcome.ok_bind, hbytes, Outcome.pure_eq_ok]
  by_cases hkeys : keysSorted (cases.map (·.1.toInt)) = true
  · rw [if_pos hkeys, Except.ok.injEq]
    constructor
    · rintro rfl
      exact ⟨_, hcount.symm, hkeys, rfl⟩
    · rintro ⟨count, hc, -, rfl⟩
      rw [← hcount] at hc
      rw [Int32.toInt_inj.mp hc]
  · rw [if_neg hkeys]
    constructor
    · intro h
      cases h
    · rintro ⟨_, -, h, -⟩
      exact absurd h hkeys

/-! ## Sizes -/

theorem length_push {value : Number} {type : TypeTag} {bytes : List UInt8}
    (h : push value type = .ok bytes) {long : Bool} :
    bytes.length = (Instruction.push value type : Instruction Handle).size offset long := by
  unfold push at h
  cases hf : value.pushForm? type with
  | none =>
    rw [hf] at h
    cases h
  | some form =>
    rw [hf] at h
    cases form <;> cases h <;> simp only [Instruction.size, hf] <;> rfl

theorem length_cases {kind : SwitchKind} {cases : List (Int32 × Nat)} {bytes : List UInt8}
    (h : Decoding.Cases offset kind cases bytes) {default : Nat} {long : Bool} :
    1 + switchPadding offset + 4 + bytes.length =
      (Instruction.switch kind default cases).size offset long := by
  have hword : ∀ n : Int32, (encode n).length = 4 := fun n => BigEndian.length_encode n
  cases kind with
  | table =>
    obtain ⟨low, high, -, -, -, rfl⟩ := h
    rw [List.length_append, List.length_append, hword, hword, Decoding.length_tableBytes]
    simp only [Instruction.size]
    omega
  | lookup =>
    obtain ⟨count, -, -, -, rfl⟩ := h
    rw [List.length_append, hword, Decoding.length_lookupBytes]
    simp only [Instruction.size]
    omega

/-! ## Instructions -/

variable {pool : ConstantPool}

theorem toUInt16_toUInt8 {n : UInt16} (h : n ≤ 0xFF) : n.toUInt8.toUInt16 = n := by
  have hn : n.toNat ≤ 255 := UInt16.le_iff_toNat_le.mp h
  apply UInt16.toNat.inj
  rw [UInt8.toNat_toUInt16, UInt16.toNat_toUInt8]
  omega

theorem toInt16_toInt8 {n : Int16} (h : fitsSigned 8 n.toInt = true) : n.toInt8.toInt16 = n := by
  obtain ⟨hlow, hhigh⟩ := fitsSigned_iff.mp h
  apply Int16.toInt_inj.mp
  rw [Int8.toInt_toInt16, Int16.toInt_toInt8]
  exact Int.bmod_eq_of_le hlow hhigh

theorem format_push {value : Number} {type : TypeTag} {bytes : List UInt8}
    (h : push value type = .ok bytes) :
    Decoding.Format pool offset (.push value (value.pushTag type)) bytes := by
  unfold push at h
  cases hf : value.pushForm? type with
  | none =>
    rw [hf] at h
    cases h
  | some form =>
    rw [hf] at h
    cases pushed_of_pushForm? hf with
    | opcode shape =>
      cases h
      exact .mk shape ⟨rfl, rfl⟩
    | @byte v literal tag =>
      cases h
      have hs : Shape.ofOpcode Opcode.bipush = .pushByte := by decide +kernel
      rw [tag, literal]
      exact .mk hs ⟨v, rfl, rfl⟩
    | @short v literal tag =>
      cases h
      have hs : Shape.ofOpcode Opcode.sipush = .pushShort := by decide +kernel
      rw [tag, literal]
      exact .mk hs ⟨v, rfl, rfl⟩

theorem format_loadConstant (index : UInt16) (wide : Bool) :
    Decoding.Format pool offset (.loadConstant index wide) (loadConstant index wide) := by
  have hldc : Shape.ofOpcode Opcode.ldc = .loadConstant := by decide +kernel
  have hldcW : Shape.ofOpcode Opcode.ldcW = .loadConstantIndexed false := by decide +kernel
  have hldc2W : Shape.ofOpcode Opcode.ldc2W = .loadConstantIndexed true := by decide +kernel
  cases wide with
  | true => exact .mk hldc2W ⟨index, rfl, rfl⟩
  | false =>
    simp only [loadConstant, Bool.false_eq_true, if_false]
    split
    case isTrue hsmall =>
      exact .mk hldc ⟨index.toUInt8, by rw [toUInt16_toUInt8 hsmall], (Decoding.encode_byte _).symm⟩
    case isFalse => exact .mk hldcW ⟨index, rfl, rfl⟩

theorem format_localAccess {base shortBase : UInt8} {indexed : TypeTag → Shape}
    {direct : UInt16 → TypeTag → Shape} {access : UInt16 → TypeTag → Instruction Nat}
    (family : LocalFamily base shortBase indexed direct)
    (hdirect : ∀ opcode slot type,
      Decoding.Operands pool offset opcode (direct slot type) (access slot type) [])
    (hindexed : ∀ opcode type, ∀ slot : UInt8, Decoding.Operands pool offset opcode (indexed type)
      (access slot.toUInt16 type) (encode slot))
    (hwide : ∀ opcode slot type,
      Decoding.WideOperands opcode (indexed type) (access slot type) (encode slot))
    (slot : UInt16) (type : TypeTag) :
    Decoding.Format pool offset (access slot type.promote)
      (localAccess base shortBase slot type) := by
  unfold localAccess
  dsimp only
  split
  case isTrue hsmall =>
    have hlt : slot.toNat < 4 := Nat.lt_succ_of_le (UInt16.le_iff_toNat_le.mp hsmall)
    have hs := family.direct_eq ⟨slot.toNat, hlt⟩ type
    rw [UInt16.ofNat_toNat] at hs
    exact .mk hs (hdirect _ _ _)
  case isFalse =>
    split
    case isTrue hbyte =>
      have ho := hindexed (base + type.familyIndex) type.promote slot.toUInt8
      rw [toUInt16_toUInt8 hbyte, Decoding.encode_byte] at ho
      exact .mk (family.indexed_eq type) ho
    case isFalse =>
      have hs : Shape.ofOpcode Opcode.wide = .widePrefix := by decide +kernel
      refine .mk hs ⟨_, _, rfl, ?_⟩
      rw [family.indexed_eq]
      exact hwide _ _ _

theorem format_increment (slot : UInt16) (amount : Int16) :
    Decoding.Format pool offset (.increment slot amount) (increment slot amount) := by
  have hiinc : Shape.ofOpcode Opcode.iinc = .increment := by decide +kernel
  have hwide : Shape.ofOpcode Opcode.wide = .widePrefix := by decide +kernel
  unfold increment
  split
  case isTrue hsmall =>
    obtain ⟨hslot, hamount⟩ := Bool.and_eq_true_iff.mp hsmall
    refine .mk hiinc ⟨slot.toUInt8, amount.toInt8, ?_, ?_⟩
    · rw [toUInt16_toUInt8 (of_decide_eq_true hslot), toInt16_toInt8 hamount]
    · rw [Decoding.encode_byte]
      rfl
  case isFalse =>
    refine .mk hwide ⟨_, _, rfl, ?_⟩
    rw [hiinc]
    exact ⟨slot, amount, rfl, rfl⟩

theorem switchCases_eq_ok (hoffset : offsets handle = some offset) {kind : SwitchKind}
    {cases : List (Int32 × Handle)} (placed : ∀ case ∈ cases, Placed offsets case.2)
    (bounded : ∀ handle, placeOf offsets handle ≤ 65535) (few : cases.length < 2147483648)
    {bytes : List UInt8} :
    switchCases offsets handle kind cases = .ok bytes ↔
      Decoding.Cases offset kind (placedCases offsets cases) bytes := by
  have hreach := reach_placedCases hoffset bounded cases
  cases kind with
  | table => exact switchTable_eq_ok hoffset placed hreach
  | lookup => exact switchLookup_eq_ok hoffset placed hreach few

theorem switch_eq_ok (hoffset : offsets handle = some offset) {kind : SwitchKind}
    {default : Handle} {cases : List (Int32 × Handle)}
    (placed : ∀ target ∈ (Instruction.switch kind default cases).targets, Placed offsets target)
    (bounded : ∀ handle, placeOf offsets handle ≤ 65535) (few : cases.length < 2147483648)
    {bytes : List UInt8} :
    switch offsets handle kind default cases = .ok bytes ↔
      ∃ rest, Decoding.Cases offset kind (placedCases offsets cases) rest ∧
        bytes = switchOpcode kind :: (List.replicate (switchPadding offset) 0 ++
          Decoding.longDistance offset (placeOf offsets default) ++ rest) := by
  obtain ⟨hdefault, hcases⟩ := List.forall_mem_cons.mp placed
  have hplaced : ∀ case ∈ cases, Placed offsets case.2 :=
    fun case hm => hcases _ (List.mem_map_of_mem hm)
  unfold switch
  rw [hoffset]
  dsimp only
  rw [longDisplacement_eq hoffset hdefault, Outcome.ok_bind, Outcome.bind_eq_ok]
  refine exists_congr fun rest => and_congr (switchCases_eq_ok hoffset hplaced bounded few) ?_
  rw [Outcome.pure_eq_ok, Except.ok.injEq, eq_comm]

theorem format_switch (hoffset : offsets handle = some offset) {kind : SwitchKind}
    {default : Handle} {cases : List (Int32 × Handle)}
    (placed : ∀ target ∈ (Instruction.switch kind default cases).targets, Placed offsets target)
    (bounded : ∀ handle, placeOf offsets handle ≤ 65535) (few : cases.length < 2147483648)
    {bytes : List UInt8} (h : switch offsets handle kind default cases = .ok bytes) :
    Decoding.Format pool offset
      (.switch kind (placeOf offsets default) (placedCases offsets cases)) bytes := by
  obtain ⟨rest, hrest, rfl⟩ := (switch_eq_ok hoffset placed bounded few).mp h
  have hs : Shape.ofOpcode (switchOpcode kind) = .switch kind := by
    cases kind <;> decide +kernel
  have hreach := reach_placedCases hoffset bounded [(0, default)] (0, placeOf offsets default)
    (List.mem_singleton.mpr rfl)
  exact .mk hs ⟨_, _, _, rest, rfl, List.length_replicate, hreach, hrest, rfl⟩

theorem shortTarget_of_ok (hoffset : offsets handle = some offset) {target : Handle}
    (placed : Placed offsets target) {opcode : UInt8} {bytes : List UInt8}
    (h : (do return opcode :: (← shortDisplacement offsets handle target)) = Except.ok bytes) :
    ∃ rest, bytes = opcode :: rest ∧
      Decoding.ShortTarget offset (placeOf offsets target) rest := by
  obtain ⟨rest, hrest, h⟩ := Outcome.bind_eq_ok.mp h
  cases h
  exact ⟨rest, rfl, (shortDisplacement_eq_ok hoffset placed).mp hrest⟩

theorem longTarget_of_ok (hoffset : offsets handle = some offset) {target : Handle}
    (placed : Placed offsets target) (bounded : ∀ handle, placeOf offsets handle ≤ 65535)
    {opcode : UInt8} {bytes : List UInt8}
    (h : (do return opcode :: (← longDisplacement offsets handle target)) = Except.ok bytes) :
    ∃ rest, bytes = opcode :: rest ∧
      Decoding.LongTarget offset (placeOf offsets target) rest := by
  rw [longDisplacement_eq hoffset placed] at h
  cases h
  exact ⟨_, rfl, reach_placedCases hoffset bounded [(0, target)] (0, placeOf offsets target)
    (List.mem_singleton.mpr rfl), rfl⟩

/-- What the encoder writes for an instruction is in the format, with the tags that its bytes
have and the offsets of its targets. -/
theorem format_instruction (hoffset : offsets handle = some offset) {code : Instruction Handle}
    {long : Bool} (placed : ∀ target ∈ code.targets, Placed offsets target)
    (bounded : ∀ handle, placeOf offsets handle ≤ 65535) (few : code.FewCases)
    (readable : ∀ kept, code = .other kept → Decoding.Format pool offset (.other kept)
      ((if kept.wide then [Opcode.wide] else []) ++ kept.opcode :: kept.operands))
    {bytes : List UInt8} (h : instruction offsets handle long code = .ok bytes) :
    Decoding.Format pool offset (code.normalise.mapTargets (placeOf offsets)) bytes := by
  have hgoto : Shape.ofOpcode Opcode.goto = .jump false := by decide +kernel
  have hgotoW : Shape.ofOpcode Opcode.gotoW = .jump true := by decide +kernel
  have hjsr : Shape.ofOpcode Opcode.jsr = .subroutine false := by decide +kernel
  have hjsrW : Shape.ofOpcode Opcode.jsrW = .subroutine true := by decide +kernel
  have hinvoke : Shape.ofOpcode Opcode.invokevirtual = .invokeVirtual := by decide +kernel
  cases code with
  | push value type => exact format_push h
  | loadConstant index wide =>
    cases h
    exact format_loadConstant index wide
  | load slot type =>
    cases h
    exact format_localAccess loads (fun _ _ _ => ⟨rfl, rfl⟩) (fun _ _ slot => ⟨slot, rfl, rfl⟩)
      (fun _ slot _ => ⟨slot, rfl, rfl⟩) slot type
  | store slot type =>
    cases h
    exact format_localAccess stores (fun _ _ _ => ⟨rfl, rfl⟩) (fun _ _ slot => ⟨slot, rfl, rfl⟩)
      (fun _ slot _ => ⟨slot, rfl, rfl⟩) slot type
  | convert source target =>
    unfold instruction at h
    cases ho : source.conversionOpcode? target with
    | none =>
      simp only [ho] at h
      cases h
    | some opcode =>
      simp only [ho] at h
      cases h
      exact .mk (ofOpcode_convert ho) ⟨rfl, rfl⟩
  | arithmetic op type =>
    unfold instruction at h
    dsimp only at h
    split at h
    case isTrue => cases h
    case isFalse hvalid =>
      cases h
      exact .mk (ofOpcode_arithmetic hvalid) ⟨rfl, rfl⟩
  | compare kind =>
    cases h
    exact .mk (ofOpcode_compare kind) ⟨rfl, rfl⟩
  | branch condition target =>
    obtain ⟨rest, rfl, ht⟩ :=
      shortTarget_of_ok hoffset (placed target (List.mem_singleton.mpr rfl)) h
    exact .mk (ofOpcode_branch condition) ⟨_, rfl, ht⟩
  | jump target =>
    have htarget := placed target (List.mem_singleton.mpr rfl)
    cases long with
    | true =>
      obtain ⟨rest, rfl, ht⟩ := longTarget_of_ok hoffset htarget bounded h
      exact .mk hgotoW ⟨_, rfl, ht⟩
    | false =>
      obtain ⟨rest, rfl, ht⟩ := shortTarget_of_ok hoffset htarget h
      exact .mk hgoto ⟨_, rfl, ht⟩
  | subroutine target =>
    have htarget := placed target (List.mem_singleton.mpr rfl)
    cases long with
    | true =>
      obtain ⟨rest, rfl, ht⟩ := longTarget_of_ok hoffset htarget bounded h
      exact .mk hjsrW ⟨_, rfl, ht⟩
    | false =>
      obtain ⟨rest, rfl, ht⟩ := shortTarget_of_ok hoffset htarget h
      exact .mk hjsr ⟨_, rfl, ht⟩
  | increment slot amount =>
    cases h
    exact format_increment slot amount
  | invokeVirtual index =>
    cases h
    exact .mk hinvoke ⟨index, rfl, rfl⟩
  | switch kind default cases =>
    exact format_switch hoffset placed bounded few h
  | other kept =>
    cases h
    exact readable kept rfl

theorem length_instruction (hoffset : offsets handle = some offset) {code : Instruction Handle}
    {long : Bool} (placed : ∀ target ∈ code.targets, Placed offsets target)
    (bounded : ∀ handle, placeOf offsets handle ≤ 65535) (few : code.FewCases)
    {bytes : List UInt8} (h : instruction offsets handle long code = .ok bytes) :
    bytes.length = code.size offset long := by
  have hword : ∀ n : UInt16, (encode n).length = 2 := fun n => BigEndian.length_encode n
  have hshort : ∀ opcode : UInt8, ∀ target ∈ code.targets,
      (do return opcode :: (← shortDisplacement offsets handle target)) = Except.ok bytes →
        bytes.length = 3 := by
    intro opcode target hm he
    obtain ⟨rest, rfl, -, rfl⟩ := shortTarget_of_ok hoffset (placed target hm) he
    rfl
  have hlong : ∀ opcode : UInt8, ∀ target ∈ code.targets,
      (do return opcode :: (← longDisplacement offsets handle target)) = Except.ok bytes →
        bytes.length = 5 := by
    intro opcode target hm he
    obtain ⟨rest, rfl, -, rfl⟩ := longTarget_of_ok hoffset (placed target hm) bounded he
    rfl
  cases code with
  | push value type => exact length_push h
  | loadConstant index wide =>
    cases h
    cases wide with
    | true => rfl
    | false =>
      by_cases hs : index ≤ 0xFF
      · simp [loadConstant, Instruction.size, hs]
      · simp [loadConstant, Instruction.size, hs, hword]
  | load slot type | store slot type =>
    cases h
    simp only [load, store, localAccess, Instruction.size]
    split
    · rfl
    · split <;> rfl
  | convert source target =>
    unfold instruction at h
    cases ho : source.conversionOpcode? target with
    | none =>
      simp only [ho] at h
      cases h
    | some opcode =>
      simp only [ho] at h
      cases h
      rfl
  | arithmetic op type =>
    unfold instruction at h
    dsimp only at h
    split at h
    case isTrue => cases h
    case isFalse =>
      cases h
      rfl
  | compare kind =>
    cases h
    rfl
  | branch condition target => exact hshort _ target (List.mem_singleton.mpr rfl) h
  | jump target | subroutine target =>
    cases long with
    | true => exact hlong _ target (List.mem_singleton.mpr rfl) h
    | false => exact hshort _ target (List.mem_singleton.mpr rfl) h
  | increment slot amount =>
    cases h
    simp only [increment, Instruction.size]
    split <;> rfl
  | invokeVirtual index =>
    cases h
    rfl
  | switch kind default cases =>
    obtain ⟨rest, hrest, rfl⟩ := (switch_eq_ok hoffset placed bounded few).mp h
    have hsize :=
      Instruction.size_mapTargets (placeOf offsets) offset long (.switch kind default cases)
    rw [← hsize, Instruction.mapTargets, ← placedCases, ← length_cases hrest, List.length_cons,
      List.length_append, List.length_append, List.length_replicate, Decoding.length_longDistance]
    omega
  | other kept =>
    cases h
    cases hw : kept.wide <;> simp [Instruction.size, hw] <;> omega

end

end Encoding

end BytecodeFold
