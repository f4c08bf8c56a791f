import BytecodeFold.Decoding
import BytecodeFold.Encoding
import BytecodeFold.Proofs.Codec.Parsing
import BytecodeFold.Proofs.Codec.Reading
import BytecodeFold.Proofs.ConstantPool.Growth

/-!
# The format of a code array

`Format` says which bytes stand for an instruction at an offset, and `Formats` the same of a whole
code array. Decoding an instruction parses its format: it accepts nothing else and misses nothing.
-/

namespace BytecodeFold

open BigEndian (encode)
open Reader (Parses)

theorem fitsSigned_iff {bits : Nat} {value : Int} : fitsSigned bits value = true ↔
    -(Nat.pow 2 (bits - 1) : Int) ≤ value ∧ value < (Nat.pow 2 (bits - 1) : Int) := by
  unfold fitsSigned
  rw [Bool.and_eq_true, decide_eq_true_iff, decide_eq_true_iff]
  exact and_comm

theorem fitsSigned_sixteen_iff {value : Int} :
    fitsSigned 16 value = true ↔ -32768 ≤ value ∧ value ≤ 32767 := by
  have hbound : ((Nat.pow 2 (16 - 1) : Nat) : Int) = 32768 := rfl
  rw [fitsSigned_iff]
  omega

namespace Decoding

/-! ## Targets -/

/-- A target within the reach of two bytes, given by its distance. -/
def ShortTarget (offset target : Nat) (bytes : List UInt8) : Prop :=
  fitsSigned 16 ((target : Int) - offset) = true ∧
    bytes = encode (Int16.ofInt ((target : Int) - offset))

/-- The distance to a target as four bytes. -/
def longDistance (offset target : Nat) : List UInt8 :=
  encode (Int32.ofInt ((target : Int) - offset))

/-- A target within the reach of four bytes, given by its distance. -/
def LongTarget (offset target : Nat) (bytes : List UInt8) : Prop :=
  fitsSigned 32 ((target : Int) - offset) = true ∧ bytes = longDistance offset target

theorem parses_branchTarget {position offset : Nat} {displacement : Int} :
    Parses position (branchTarget offset displacement) (fun target bytes =>
      (target : Int) = offset + displacement ∧ bytes = []) := by
  unfold branchTarget
  split
  case isTrue hge =>
    refine (Parses.pure _).congr ?_
    intro target bytes
    refine and_congr_left fun _ => ?_
    omega
  case isFalse hlt =>
    refine (Parses.throw _).congr ?_
    intro target bytes
    constructor
    · exact False.elim
    · rintro ⟨he, -⟩
      omega

theorem parses_shortTarget {position offset : Nat} :
    Parses position (shortTarget offset) (ShortTarget offset) := by
  refine (Parses.bind (.word Int16) fun _ _ _ => parses_branchTarget).congr ?_
  intro target bytes
  constructor
  · rintro ⟨distance, _, _, rfl, ⟨he, rfl⟩, rfl⟩
    have hd : (target : Int) - offset = distance.toInt := by omega
    rw [ShortTarget, hd, Int16.ofInt_toInt, List.append_nil, fitsSigned_iff]
    exact ⟨⟨distance.le_toInt, distance.toInt_lt⟩, rfl⟩
  · rintro ⟨hfits, rfl⟩
    obtain ⟨hlow, hhigh⟩ := fitsSigned_iff.mp hfits
    refine ⟨_, _, [], rfl, ⟨?_, rfl⟩, (List.append_nil _).symm⟩
    rw [Int16.toInt_ofInt_of_le hlow hhigh]
    omega

theorem parses_longTarget {position offset : Nat} :
    Parses position (longTarget offset) (LongTarget offset) := by
  refine (Parses.bind (.word Int32) fun _ _ _ => parses_branchTarget).congr ?_
  intro target bytes
  constructor
  · rintro ⟨distance, _, _, rfl, ⟨he, rfl⟩, rfl⟩
    have hd : (target : Int) - offset = distance.toInt := by omega
    rw [LongTarget, longDistance, hd, Int32.ofInt_toInt, List.append_nil, fitsSigned_iff]
    exact ⟨⟨distance.le_toInt, distance.toInt_lt⟩, rfl⟩
  · rintro ⟨hfits, rfl⟩
    obtain ⟨hlow, hhigh⟩ := fitsSigned_iff.mp hfits
    refine ⟨_, _, [], rfl, ⟨?_, rfl⟩, (List.append_nil _).symm⟩
    rw [Int32.toInt_ofInt_of_le hlow hhigh]
    omega

/-! ## Switches -/

/-- As many consecutive numbers from a first one on. -/
def consecutive : Nat → Int → List Int
  | 0, _ => []
  | count + 1, first => first :: consecutive count (first + 1)

/-- All targets are within the reach of four bytes. -/
def Reach (offset : Nat) (cases : List (Int32 × Nat)) : Prop :=
  ∀ case ∈ cases, fitsSigned 32 ((case.2 : Int) - offset) = true

def tableBytes (offset : Nat) (cases : List (Int32 × Nat)) : List UInt8 :=
  cases.flatMap fun case => longDistance offset case.2

def lookupBytes (offset : Nat) (cases : List (Int32 × Nat)) : List UInt8 :=
  cases.flatMap fun case => encode case.1 ++ longDistance offset case.2

theorem parses_tableCases {position offset count : Nat} {key : Int} {seen : List (Int32 × Nat)} :
    Parses position (tableCases offset count key seen) (fun result bytes =>
      ∃ cases, result = seen.reverse ++ cases ∧
        cases.map (·.1) = (consecutive count key).map Int32.ofInt ∧ Reach offset cases ∧
        bytes = tableBytes offset cases) := by
  induction count generalizing position key seen with
  | zero =>
    refine (Parses.pure _).congr ?_
    intro result bytes
    constructor
    · rintro ⟨rfl, rfl⟩
      exact ⟨[], (List.append_nil _).symm, rfl, by simp [Reach], rfl⟩
    · rintro ⟨cases, rfl, hkeys, -, rfl⟩
      rw [consecutive, List.map_nil, List.map_eq_nil_iff] at hkeys
      subst hkeys
      exact ⟨List.append_nil _, rfl⟩
  | succ count ih =>
    refine (Parses.bind parses_longTarget fun target _ _ => ih).congr ?_
    intro result bytes
    constructor
    · rintro ⟨target, _, _, ⟨hfits, rfl⟩, ⟨cases, rfl, hkeys, hreach, rfl⟩, rfl⟩
      refine ⟨(Int32.ofInt key, target) :: cases, by simp, by simp [consecutive, hkeys], ?_, rfl⟩
      exact List.forall_mem_cons.mpr ⟨hfits, hreach⟩
    · rintro ⟨cases, rfl, hkeys, hreach, rfl⟩
      cases cases with
      | nil => cases hkeys
      | cons case rest =>
        obtain ⟨hkey, hkeys⟩ := List.cons.inj hkeys
        obtain ⟨hfits, hreach⟩ := List.forall_mem_cons.mp hreach
        refine ⟨case.2, _, _, ⟨hfits, rfl⟩, ⟨rest, ?_, hkeys, hreach, rfl⟩, rfl⟩
        rw [← hkey]
        simp

theorem keysSorted_cons (key : Int) (keys : List Int) :
    Encoding.keysSorted (key :: keys) =
      ((keys.head?.all fun next => decide (key < next)) && Encoding.keysSorted keys) := by
  cases keys <;> simp [Encoding.keysSorted]

/-- The cases read are sorted, and the first of them may follow the one before it. -/
theorem keysSorted_seen (seen : List (Int32 × Nat)) (case : Int32 × Nat)
    (cases : List (Int32 × Nat)) :
    Encoding.keysSorted ((seen.take 1 ++ case :: cases).map (·.1.toInt)) = true ↔
      mayFollow case.1 seen = true ∧
        Encoding.keysSorted ((case :: cases).map (·.1.toInt)) = true := by
  cases seen with
  | nil => simp [mayFollow]
  | cons last seen =>
    simp [mayFollow, keysSorted_cons last.1.toInt (case.1.toInt :: _)]

theorem parses_lookupCases {position offset count : Nat} {seen : List (Int32 × Nat)} :
    Parses position (lookupCases offset count seen) (fun result bytes =>
      ∃ cases, result = seen.reverse ++ cases ∧ cases.length = count ∧
        Encoding.keysSorted ((seen.take 1 ++ cases).map (·.1.toInt)) = true ∧
        Reach offset cases ∧ bytes = lookupBytes offset cases) := by
  induction count generalizing position seen with
  | zero =>
    refine (Parses.pure _).congr ?_
    intro result bytes
    constructor
    · rintro ⟨rfl, rfl⟩
      refine ⟨[], (List.append_nil _).symm, rfl, ?_, by simp [Reach], rfl⟩
      cases seen <;> rfl
    · rintro ⟨cases, rfl, hlength, -, -, rfl⟩
      rw [List.length_eq_zero_iff] at hlength
      subst hlength
      exact ⟨List.append_nil _, rfl⟩
  | succ count ih =>
    have hrest : ∀ key : Int32, ∀ place, Parses place
        (if mayFollow key seen then do
          let target ← longTarget offset
          lookupCases offset count ((key, target) :: seen)
        else throw (.malformed (.unsortedKey offset key.toInt)))
        (fun result bytes => ∃ target cases, mayFollow key seen = true ∧
          result = seen.reverse ++ (key, target) :: cases ∧ cases.length = count ∧
          Encoding.keysSorted (((key, target) :: cases).map (·.1.toInt)) = true ∧
          Reach offset ((key, target) :: cases) ∧
          bytes = longDistance offset target ++ lookupBytes offset cases) := by
      intro key place
      split
      case isTrue hfollow =>
        refine (Parses.bind parses_longTarget fun _ _ _ => ih).congr ?_
        intro result bytes
        constructor
        · rintro ⟨target, _, _, ⟨hfits, rfl⟩, ⟨cases, rfl, hlength, hsorted, hreach, rfl⟩, rfl⟩
          exact ⟨target, cases, hfollow, by simp, hlength, hsorted,
            List.forall_mem_cons.mpr ⟨hfits, hreach⟩, rfl⟩
        · rintro ⟨target, cases, -, rfl, hlength, hsorted, hreach, rfl⟩
          obtain ⟨hfits, hreach⟩ := List.forall_mem_cons.mp hreach
          exact ⟨target, _, _, ⟨hfits, rfl⟩, ⟨cases, by simp, hlength, hsorted, hreach, rfl⟩, rfl⟩
      case isFalse hfollow =>
        refine (Parses.throw _).congr ?_
        intro result bytes
        constructor
        · exact False.elim
        · rintro ⟨target, cases, h, -⟩
          exact hfollow h
    refine (Parses.bind (.word Int32) fun key _ _ => hrest key _).congr ?_
    intro result bytes
    constructor
    · rintro ⟨key, _, _, rfl, ⟨target, cases, hfollow, rfl, hlength, hsorted, hreach, rfl⟩, rfl⟩
      refine ⟨(key, target) :: cases, rfl, by rw [List.length_cons, hlength],
        (keysSorted_seen seen _ cases).mpr ⟨hfollow, hsorted⟩, hreach, ?_⟩
      simp [lookupBytes]
    · rintro ⟨cases, rfl, hlength, hsorted, hreach, rfl⟩
      cases cases with
      | nil => cases hlength
      | cons case rest =>
        obtain ⟨hfollow, hsorted⟩ := (keysSorted_seen seen case rest).mp hsorted
        refine ⟨case.1, _, _, rfl,
          ⟨case.2, rest, hfollow, rfl, Nat.succ.inj hlength, hsorted, hreach, rfl⟩, ?_⟩
        simp [lookupBytes]

/-- A check that enough bytes are left changes nothing if all of them are read afterwards. -/
theorem parses_require {α : Type} {position count : Nat} {reader : Reader α}
    {format : α → List UInt8 → Prop} (h : Parses position reader format)
    (hlength : ∀ value bytes, format value bytes → count ≤ bytes.length) :
    Parses position (require count >>= fun _ => reader) format := by
  intro start hp inside value stop
  have hrequire : ∀ mid, require count start = .ok ((), mid) ↔
      count ≤ start.rest.length ∧ mid = start := by
    intro mid
    change (if start.remaining < count then throw .outOfBounds else pure () : Reader Unit) start =
      _ ↔ _
    rw [Cursor.length_rest]
    split
    case isTrue hlt =>
      constructor
      · intro he
        cases he
      · rintro ⟨hle, -⟩
        exact absurd hle (Nat.not_le.mpr hlt)
    case isFalse hge =>
      constructor
      · intro he
        cases he
        exact ⟨Nat.not_lt.mp hge, rfl⟩
      · rintro ⟨-, rfl⟩
        rfl
  rw [Reader.bind_eq_ok, ← h start hp inside]
  constructor
  · rintro ⟨_, mid, hr, hread⟩
    obtain ⟨-, rfl⟩ := (hrequire mid).mp hr
    exact hread
  · intro hread
    obtain ⟨bytes, hformat, hreads⟩ := (h start hp inside value stop).mp hread
    exact ⟨(), start, (hrequire start).mpr
      ⟨Nat.le_trans (hlength value bytes hformat) hreads.1.length_le, rfl⟩, hread⟩

theorem length_longDistance (offset target : Nat) : (longDistance offset target).length = 4 :=
  BigEndian.length_encode (Int32.ofInt _)

theorem length_tableBytes (offset : Nat) (cases : List (Int32 × Nat)) :
    (tableBytes offset cases).length = 4 * cases.length := by
  induction cases with
  | nil => rfl
  | cons case rest ih =>
    rw [tableBytes, List.flatMap_cons, List.length_append, length_longDistance, ← tableBytes, ih,
      List.length_cons]
    omega

theorem length_lookupBytes (offset : Nat) (cases : List (Int32 × Nat)) :
    (lookupBytes offset cases).length = 8 * cases.length := by
  induction cases with
  | nil => rfl
  | cons case rest ih =>
    have hkey : (encode case.1).length = 4 := BigEndian.length_encode case.1
    rw [lookupBytes, List.flatMap_cons, List.length_append, List.length_append, hkey,
      length_longDistance, ← lookupBytes, ih, List.length_cons]
    omega

/-- What follows the default target of a switch. -/
def Cases (offset : Nat) : SwitchKind → List (Int32 × Nat) → List UInt8 → Prop
  | .table, cases, bytes => ∃ low high : Int32, low.toInt ≤ high.toInt ∧
      cases.map (·.1) = (consecutive (high.toInt - low.toInt + 1).toNat low.toInt).map Int32.ofInt ∧
      Reach offset cases ∧ bytes = encode low ++ encode high ++ tableBytes offset cases
  | .lookup, cases, bytes => ∃ count : Int32, (cases.length : Int) = count.toInt ∧
      Encoding.keysSorted (cases.map (·.1.toInt)) = true ∧ Reach offset cases ∧
      bytes = encode count ++ lookupBytes offset cases

/-- What follows the opcode of a switch: padding up to a multiple of four, the default target
and the cases. -/
def Switch (offset : Nat) (kind : SwitchKind) (code : Instruction Nat)
    (bytes : List UInt8) : Prop :=
  ∃ padding default cases rest, code = .switch kind default cases ∧
    padding.length = switchPadding offset ∧
    fitsSigned 32 ((default : Int) - offset) = true ∧ Cases offset kind cases rest ∧
    bytes = padding ++ longDistance offset default ++ rest

theorem length_consecutive (count : Nat) (first : Int) :
    (consecutive count first).length = count := by
  induction count generalizing first with
  | zero => rfl
  | succ count ih => rw [consecutive, List.length_cons, ih]

theorem parses_switchCases {position offset : Nat} {kind : SwitchKind} :
    Parses position (switchCases offset kind) (Cases offset kind) := by
  cases kind with
  | table =>
    have hrest : ∀ low high : Int32, ∀ place, Parses place
        (if high.toInt < low.toInt then throw (.malformed (.emptyTable offset low.toInt high.toInt))
        else do
          require (4 * (high.toInt - low.toInt + 1).toNat)
          tableCases offset (high.toInt - low.toInt + 1).toNat low.toInt [])
        (fun cases bytes => low.toInt ≤ high.toInt ∧ cases.map (·.1) =
            (consecutive (high.toInt - low.toInt + 1).toNat low.toInt).map Int32.ofInt ∧
          Reach offset cases ∧ bytes = tableBytes offset cases) := by
      intro low high place
      split
      case isTrue hlt =>
        refine (Parses.throw _).congr fun _ _ => ⟨False.elim, fun h => ?_⟩
        exact absurd h.1 (Int.not_le.mpr hlt)
      case isFalse hge =>
        refine parses_require (parses_tableCases.congr ?_) ?_
        · intro cases bytes
          simp [Int.not_lt.mp hge]
        · rintro cases bytes ⟨-, hkeys, -, rfl⟩
          have hlength := congrArg List.length hkeys
          rw [List.length_map, List.length_map, length_consecutive] at hlength
          have hbytes := length_tableBytes offset cases
          omega
    refine (Parses.bind (.word Int32) fun low _ _ => .bind (.word Int32) fun high _ _ =>
      hrest low high _).congr ?_
    intro cases bytes
    simp [Cases, and_assoc]
  | lookup =>
    have hrest : ∀ count : Int32, ∀ place, Parses place
        (if count.toInt < 0 then throw (.malformed (.negativePairCount offset count.toInt))
        else do
          require (8 * count.toInt.toNat)
          lookupCases offset count.toInt.toNat [])
        (fun cases bytes => (cases.length : Int) = count.toInt ∧
          Encoding.keysSorted (cases.map (·.1.toInt)) = true ∧ Reach offset cases ∧
          bytes = lookupBytes offset cases) := by
      intro count place
      split
      case isTrue hlt =>
        refine (Parses.throw _).congr fun cases _ => ⟨False.elim, fun h => ?_⟩
        obtain ⟨hlength, -⟩ := h
        omega
      case isFalse hge =>
        refine parses_require (parses_lookupCases.congr ?_) ?_
        · intro cases bytes
          have hlength : cases.length = count.toInt.toNat ↔ (cases.length : Int) = count.toInt := by
            omega
          simp only [List.reverse_nil, List.nil_append, List.take_nil, exists_eq_left', hlength]
        · rintro cases bytes ⟨hlength, -, -, rfl⟩
          rw [length_lookupBytes]
          omega
    refine (Parses.bind (.word Int32) fun count _ _ => hrest count _).congr ?_
    intro cases bytes
    simp [Cases, and_assoc]

theorem parses_switch {offset : Nat} {kind : SwitchKind} :
    Parses (offset + 1) (switch offset kind) (Switch offset kind) := by
  refine (Parses.bind (.align 4) fun _ _ _ => .bind parses_longTarget fun default _ _ =>
    .map (Instruction.switch kind default) parses_switchCases).congr ?_
  intro code bytes
  constructor
  · rintro ⟨_, padding, _, hpadding, ⟨default, _, rest, ⟨hfits, rfl⟩, ⟨cases, rfl, hcases⟩, rfl⟩,
      rfl⟩
    exact ⟨padding, default, cases, rest, rfl, hpadding, hfits, hcases,
      (List.append_assoc _ _ _).symm⟩
  · rintro ⟨padding, default, cases, rest, rfl, hpadding, hfits, hcases, rfl⟩
    exact ⟨(), padding, _, hpadding, ⟨default, _, rest, ⟨hfits, rfl⟩, ⟨cases, rfl, hcases⟩, rfl⟩,
      List.append_assoc _ _ _⟩

/-! ## Instructions -/

theorem encode_byte (byte : UInt8) : encode byte = [byte] := by
  change [UInt8.ofNat (byte.toNat / 1)] = [byte]
  rw [Nat.div_one, UInt8.ofNat_toNat]

/-- What follows an opcode whose instruction is kept byte for byte. -/
def Kept (pool : ConstantPool) (offset : Nat) (opcode : UInt8) (info : OpcodeInfo)
    (code : Instruction Nat) (bytes : List UInt8) : Prop :=
  info.operands.length? = some bytes.length ∧
    ∃ stack, verbatimEffect pool offset opcode info bytes = .ok stack ∧
      code = .other ⟨opcode, false, bytes, stack, info.flow⟩

/-- What follows an opcode that comes after the one that widens operands. -/
def WideOperands (opcode : UInt8) : Shape → Instruction Nat → List UInt8 → Prop
  | .load type, code, bytes => ∃ slot : UInt16, code = .load slot type ∧ bytes = encode slot
  | .store type, code, bytes => ∃ slot : UInt16, code = .store slot type ∧ bytes = encode slot
  | .increment, code, bytes => ∃ (slot : UInt16) (amount : Int16),
      code = .increment slot amount ∧ bytes = encode slot ++ encode amount
  | _, code, bytes => opcode = Opcode.ret ∧ bytes.length = 2 ∧
      code = .other ⟨opcode, true, bytes, ⟨0, 0⟩, .subroutineReturn⟩

/-- What follows an opcode of a shape. -/
def Operands (pool : ConstantPool) (offset : Nat) (opcode : UInt8) :
    Shape → Instruction Nat → List UInt8 → Prop
  | .literal value type, code, bytes => code = .push value type ∧ bytes = []
  | .pushByte, code, bytes => ∃ value : Int8,
      code = .push (.int value.toInt32) .byte ∧ bytes = encode value
  | .pushShort, code, bytes => ∃ value : Int16,
      code = .push (.int value.toInt32) .short ∧ bytes = encode value
  | .loadConstant, code, bytes => ∃ index : UInt8,
      code = .loadConstant index.toUInt16 false ∧ bytes = encode index
  | .loadConstantIndexed wide, code, bytes => ∃ index : UInt16,
      code = .loadConstant index wide ∧ bytes = encode index
  | .load type, code, bytes => ∃ slot : UInt8, code = .load slot.toUInt16 type ∧ bytes = encode slot
  | .loadSlot slot type, code, bytes => code = .load slot type ∧ bytes = []
  | .store type, code, bytes => ∃ slot : UInt8, code = .store slot.toUInt16 type ∧
      bytes = encode slot
  | .storeSlot slot type, code, bytes => code = .store slot type ∧ bytes = []
  | .arithmetic op type, code, bytes => code = .arithmetic op type ∧ bytes = []
  | .increment, code, bytes => ∃ (slot : UInt8) (amount : Int8),
      code = .increment slot.toUInt16 amount.toInt16 ∧ bytes = encode slot ++ encode amount
  | .convert source target, code, bytes => code = .convert source target ∧ bytes = []
  | .compare kind, code, bytes => code = .compare kind ∧ bytes = []
  | .branch condition, code, bytes => ∃ target,
      code = .branch condition target ∧ ShortTarget offset target bytes
  | .jump long, code, bytes => ∃ target, code = .jump target ∧
      if long then LongTarget offset target bytes else ShortTarget offset target bytes
  | .subroutine long, code, bytes => ∃ target, code = .subroutine target ∧
      if long then LongTarget offset target bytes else ShortTarget offset target bytes
  | .switch kind, code, bytes => Switch offset kind code bytes
  | .invokeVirtual, code, bytes => ∃ index : UInt16, code = .invokeVirtual index ∧
      bytes = encode index
  | .widePrefix, code, bytes => ∃ opcode rest, bytes = opcode :: rest ∧
      WideOperands opcode (Shape.ofOpcode opcode) code rest
  | .verbatim info, code, bytes => Kept pool offset opcode info code bytes
  | .invalid, _, _ => False

/-- What the opcodes of a shape have in common: `fixed` ones have a single form, `wide` is the one
that widens operands. -/
inductive Family where
  | constant
  | slot
  | fixed
  | transfer
  | wide
  | invalid

def family : Shape → Family
  | .literal .. | .pushByte | .pushShort | .loadConstant | .loadConstantIndexed _ => .constant
  | .load _ | .loadSlot .. | .store _ | .storeSlot .. | .increment => .slot
  | .arithmetic .. | .convert .. | .compare _ | .invokeVirtual | .verbatim _ => .fixed
  | .branch _ | .jump _ | .subroutine _ | .switch _ => .transfer
  | .widePrefix => .wide
  | .invalid => .invalid

/-- The bytes of an instruction at an offset, with its targets as offsets. -/
def Format (pool : ConstantPool) (offset : Nat) (code : Instruction Nat)
    (bytes : List UInt8) : Prop :=
  ∃ opcode rest, bytes = opcode :: rest ∧
    Operands pool offset opcode (Shape.ofOpcode opcode) code rest

theorem Format.mk {pool : ConstantPool} {offset : Nat} {opcode : UInt8} {shape : Shape}
    {code : Instruction Nat} {rest : List UInt8} (hs : Shape.ofOpcode opcode = shape)
    (h : Operands pool offset opcode shape code rest) : Format pool offset code (opcode :: rest) :=
  ⟨opcode, rest, rfl, hs ▸ h⟩

theorem parses_verbatim {pool : ConstantPool} {position offset : Nat} {opcode : UInt8}
    {info : OpcodeInfo} :
    Parses position (verbatim pool offset opcode info) (Kept pool offset opcode info) := by
  unfold verbatim
  cases hlength : info.operands.length? with
  | none =>
    refine (Parses.throw _).congr fun code bytes => ⟨False.elim, fun h => ?_⟩
    rw [Kept, hlength] at h
    cases h.1
  | some length =>
    refine (Parses.bind (.bytes length) fun operands _ _ =>
      .map (fun stack => Instruction.other ⟨opcode, false, operands, stack, info.flow⟩)
        (.lift _)).congr ?_
    intro code bytes
    constructor
    · rintro ⟨_, operands, _, ⟨rfl, rfl⟩, ⟨stack, rfl, hstack, rfl⟩, rfl⟩
      rw [List.append_nil]
      exact ⟨hlength, stack, hstack, rfl⟩
    · rintro ⟨hl, stack, hstack, rfl⟩
      rw [hlength] at hl
      cases hl
      exact ⟨bytes, bytes, [], ⟨rfl, rfl⟩, ⟨stack, rfl, hstack, rfl⟩, (List.append_nil _).symm⟩

theorem parses_increment {slot amount : Type} [BigEndian slot] [BigEndian amount] {position : Nat}
    (f : slot → amount → Instruction Nat) :
    Parses position (do let s ← Reader.word slot; return f s (← Reader.word amount))
      (fun code bytes => ∃ s a, code = f s a ∧ bytes = encode s ++ encode a) := by
  refine (Parses.bind (.word slot) fun s _ _ => .map (f s) (.word amount)).congr ?_
  intro code bytes
  constructor
  · rintro ⟨s, _, _, rfl, ⟨a, rfl, rfl⟩, rfl⟩
    exact ⟨s, a, rfl, rfl⟩
  · rintro ⟨s, a, rfl, rfl⟩
    exact ⟨s, _, _, rfl, ⟨a, rfl, rfl⟩, rfl⟩

theorem parses_opcode {position : Nat} {next : UInt8 → Reader (Instruction Nat)}
    {format : UInt8 → Instruction Nat → List UInt8 → Prop}
    (h : ∀ opcode, Parses (position + 1) (next opcode) (format opcode)) :
    Parses position (Reader.word UInt8 >>= next) (fun code bytes =>
      ∃ opcode rest, bytes = opcode :: rest ∧ format opcode code rest) := by
  have hnext : ∀ opcode bytes, bytes = encode opcode →
      Parses (position + bytes.length) (next opcode) (format opcode) := by
    intro opcode bytes hb
    rw [hb, encode_byte]
    exact h opcode
  refine (Parses.bind (.word UInt8) hnext).congr ?_
  intro code bytes
  constructor
  · rintro ⟨opcode, _, rest, rfl, hrest, rfl⟩
    rw [encode_byte]
    exact ⟨opcode, rest, rfl, hrest⟩
  · rintro ⟨opcode, rest, rfl, hrest⟩
    exact ⟨opcode, _, rest, rfl, hrest, by rw [encode_byte]; rfl⟩

theorem parses_wideOperands {position offset : Nat} {opcode : UInt8} {shape : Shape} :
    Parses position (wideOperands offset opcode shape) (WideOperands opcode shape) := by
  cases shape with
  | load | store => exact .map _ (.word UInt16)
  | increment => exact parses_increment _
  | _ =>
    change Parses position (if opcode = Opcode.ret then _ else _) _
    split
    case isTrue hret =>
      refine (Parses.map _ (.bytes 2)).congr fun code bytes => ?_
      simp [WideOperands, hret, and_comm]
    case isFalse hret =>
      exact (Parses.throw _).congr fun _ _ => ⟨False.elim, fun h => hret h.1⟩

theorem parses_operands {pool : ConstantPool} {offset : Nat} {opcode : UInt8} {shape : Shape} :
    Parses (offset + 1) (operands pool offset opcode shape)
      (Operands pool offset opcode shape) := by
  cases shape with
  | literal | loadSlot | storeSlot | arithmetic | convert | compare => exact .pure _
  | pushByte | pushShort | loadConstant | loadConstantIndexed | load | store | invokeVirtual =>
    exact .map _ (.word _)
  | increment => exact parses_increment _
  | branch condition => exact .map _ parses_shortTarget
  | jump long | subroutine long =>
    cases long
    · exact .map _ parses_shortTarget
    · exact .map _ parses_longTarget
  | switch kind => exact parses_switch
  | widePrefix => exact parses_opcode fun _ => parses_wideOperands
  | verbatim info => exact parses_verbatim
  | invalid => exact .throw _

/-- Decoding an instruction parses its format. -/
theorem parses_instruction {pool : ConstantPool} {offset : Nat} :
    Parses offset (instruction pool) (Format pool offset) := by
  have hnext : ∀ place, ∀ bytes : List UInt8, place = offset ∧ bytes = [] →
      Parses (offset + bytes.length)
      (Reader.word UInt8 >>= fun opcode => operands pool place opcode (Shape.ofOpcode opcode))
      (Format pool offset) := by
    rintro place bytes ⟨rfl, rfl⟩
    exact parses_opcode fun _ => parses_operands
  refine (Parses.bind .position hnext).congr ?_
  intro code bytes
  simp

/-! ## Instructions that are kept byte for byte -/

/-- The effect of the operands is found again at any offset and in a pool that has grown. -/
theorem operandEffect_extends {pool grown : ConstantPool} (extended : pool.Extends grown)
    {offset : Nat} (offset' : Nat) {opcode : UInt8} {kind : OperandKind} {bytes : List UInt8}
    {effect : StackEffect} (h : operandEffect pool offset opcode kind bytes = .ok effect) :
    operandEffect grown offset' opcode kind bytes = .ok effect := by
  cases kind with
  | fieldRef | methodRef | invokeInterface | invokeDynamic =>
    obtain ⟨text, ht, h⟩ := Outcome.bind_eq_ok.mp h
    exact Outcome.bind_eq_ok.mpr ⟨text, extended.memberDescriptor_eq_ok ht, h⟩
  | multiANewArray =>
    unfold operandEffect at h ⊢
    dsimp only at h ⊢
    split at h
    case isTrue => cases h
    case isFalse hd =>
      rw [if_neg hd]
      exact h
  | _ => exact h

theorem verbatimEffect_extends {pool grown : ConstantPool} (extended : pool.Extends grown)
    {offset : Nat} (offset' : Nat) {opcode : UInt8} {info : OpcodeInfo} {bytes : List UInt8}
    {stack : StackEffect} (h : verbatimEffect pool offset opcode info bytes = .ok stack) :
    verbatimEffect grown offset' opcode info bytes = .ok stack := by
  obtain ⟨extra, hextra, h⟩ := Outcome.bind_eq_ok.mp h
  exact Outcome.bind_eq_ok.mpr ⟨extra, operandEffect_extends extended offset' hextra, h⟩

theorem opcode_of_widePrefix {opcode : UInt8} (h : Shape.ofOpcode opcode = .widePrefix) :
    opcode = Opcode.wide := by
  have hall : ∀ n : Fin 256, Shape.ofOpcode (UInt8.ofFin n) = .widePrefix →
      UInt8.ofFin n = Opcode.wide := by decide +kernel
  exact hall opcode.toFin h

/-- The forms of an instruction that is kept byte for byte. -/
theorem Format.other_cases {pool : ConstantPool} {offset : Nat} {code : Verbatim}
    {bytes : List UInt8} (h : Format pool offset (.other code) bytes) :
    (∃ info, Shape.ofOpcode code.opcode = .verbatim info ∧ code.wide = false ∧
        Kept pool offset code.opcode info (.other code) code.operands ∧
        bytes = code.opcode :: code.operands) ∨
      (code.wide = true ∧ code.opcode = Opcode.ret ∧ code.operands.length = 2 ∧
        code = ⟨code.opcode, true, code.operands, ⟨0, 0⟩, .subroutineReturn⟩ ∧
        bytes = Opcode.wide :: code.opcode :: code.operands) := by
  obtain ⟨opcode, rest, rfl, h⟩ := h
  cases hs : Shape.ofOpcode opcode with
  | verbatim info =>
    rw [hs] at h
    obtain ⟨hlength, stack, hstack, he⟩ := h
    cases he
    exact .inl ⟨info, hs, rfl, ⟨hlength, stack, hstack, rfl⟩, rfl⟩
  | widePrefix =>
    rw [hs] at h
    obtain ⟨inner, operands, rfl, h⟩ := h
    cases hi : Shape.ofOpcode inner with
    | load | store | increment => simp [hi, WideOperands] at h
    | _ =>
      rw [hi] at h
      obtain ⟨rfl, hlength, he⟩ := h
      cases he
      exact .inr ⟨rfl, rfl, hlength, rfl, by rw [opcode_of_widePrefix hs]⟩
  | _ => simp [hs, Operands, Switch] at h

theorem Format.other_bytes {pool : ConstantPool} {offset : Nat} {code : Verbatim}
    {bytes : List UInt8} (h : Format pool offset (.other code) bytes) :
    bytes = (if code.wide then [Opcode.wide] else []) ++ code.opcode :: code.operands := by
  rcases h.other_cases with ⟨info, -, hw, -, rfl⟩ | ⟨hw, -, -, -, rfl⟩
  · simp [hw]
  · simp [hw]

theorem Format.other_extends {pool grown : ConstantPool} (extended : pool.Extends grown)
    {offset : Nat} (offset' : Nat) {code : Verbatim} {bytes : List UInt8}
    (h : Format pool offset (.other code) bytes) : Format grown offset' (.other code) bytes := by
  rcases h.other_cases with ⟨info, hs, -, ⟨hlength, stack, hstack, he⟩, rfl⟩ |
    ⟨-, hret, hlength, he, rfl⟩
  · exact .mk hs ⟨hlength, stack, verbatimEffect_extends extended offset' hstack, he⟩
  · have hwide : Shape.ofOpcode Opcode.wide = .widePrefix := by decide +kernel
    have hshape : Shape.ofOpcode Opcode.ret =
        .verbatim ⟨"ret", .localSlot, 0, 0, .subroutineReturn⟩ := by decide +kernel
    refine .mk hwide ⟨_, _, rfl, ?_⟩
    rw [hret, hshape]
    exact ⟨rfl, hlength, congrArg Instruction.other (hret ▸ he)⟩

/-- An instruction that decoding gives for some bytes. -/
def Readable (pool : ConstantPool) (code : Verbatim) : Prop :=
  ∃ start stop, instruction pool start = .ok (.other code, stop)

theorem position_lt_of_instruction {pool : ConstantPool} {start stop : Cursor}
    {code : Instruction Nat} (h : instruction pool start = .ok (code, stop)) :
    start.position < start.data.size := by
  obtain ⟨offset, mid, hp, h⟩ := Reader.bind_eq_ok.mp h
  cases hp
  obtain ⟨opcode, mid, hr, -⟩ := Reader.bind_eq_ok.mp h
  obtain ⟨bytes, mid, hr, -⟩ := Reader.bind_eq_ok.mp hr
  unfold Reader.bytes at hr
  split at hr
  case isTrue hfits => exact hfits
  case isFalse => cases hr

theorem Readable.format {pool : ConstantPool} {code : Verbatim} (h : Readable pool code)
    (offset : Nat) : Format pool offset (.other code)
      ((if code.wide then [Opcode.wide] else []) ++ code.opcode :: code.operands) := by
  obtain ⟨start, stop, h⟩ := h
  have inside := Nat.le_of_lt (position_lt_of_instruction h)
  obtain ⟨bytes, hformat, -⟩ := (parses_instruction start rfl inside _ stop).mp h
  rw [← hformat.other_bytes]
  exact hformat.other_extends (.refl pool) offset

/-! ## Code arrays -/

/-- The bytes of instructions that stand one after another, each given with its offset. -/
def Formats (pool : ConstantPool) : Nat → List (Nat × Instruction Nat) → List UInt8 → Prop
  | _, [], bytes => bytes = []
  | offset, item :: items, bytes => ∃ xs ys, item.1 = offset ∧ Format pool offset item.2 xs ∧
      Formats pool (offset + xs.length) items ys ∧ bytes = xs ++ ys

theorem Format.ne_nil {pool : ConstantPool} {offset : Nat} {code : Instruction Nat}
    {bytes : List UInt8} (h : Format pool offset code bytes) : bytes ≠ [] := by
  obtain ⟨opcode, rest, rfl, -⟩ := h
  exact List.cons_ne_nil _ _

theorem formats_of_streams {pool : ConstantPool} {cursor : Cursor}
    {items : List (Nat × Instruction Nat)} (h : Streams pool cursor items)
    (inside : cursor.position ≤ cursor.data.size) :
    Formats pool cursor.position items cursor.rest := by
  induction h with
  | done ended =>
    apply List.eq_nil_of_length_eq_zero
    rw [Cursor.length_rest]
    omega
  | @read cursor rest decoded items more head tail ih =>
    obtain ⟨bytes, hformat, hreads⟩ := (parses_instruction cursor rfl inside decoded rest).mp head
    refine ⟨bytes, rest.rest, rfl, hformat, ?_, hreads.rest_eq⟩
    have htail := ih (hreads.position_le inside)
    rw [hreads.2] at htail ⊢
    exact htail

theorem streams_of_formats {pool : ConstantPool} {items : List (Nat × Instruction Nat)}
    {cursor : Cursor} (inside : cursor.position ≤ cursor.data.size)
    (h : Formats pool cursor.position items cursor.rest) : Streams pool cursor items := by
  induction items generalizing cursor with
  | nil =>
    refine .done fun hlt => ?_
    have hlength := cursor.length_rest
    rw [show cursor.rest = [] from h, List.length_nil] at hlength
    omega
  | cons item items ih =>
    obtain ⟨xs, ys, hoffset, hformat, htail, hrest⟩ := h
    have hreads : cursor.Reads xs ⟨cursor.data, cursor.position + xs.length⟩ :=
      ⟨⟨ys, hrest.symm⟩, rfl⟩
    have hmore : cursor.position < cursor.data.size := by
      have hlength := cursor.length_rest
      have hpos := List.length_pos_iff.mpr hformat.ne_nil
      rw [hrest, List.length_append] at hlength
      omega
    have hhead := (parses_instruction cursor rfl inside _ _).mpr ⟨xs, hformat, hreads⟩
    have hys := hreads.rest_eq
    rw [hrest] at hys
    have hitem : item = (cursor.position, item.2) := by rw [← hoffset]
    rw [hitem]
    refine .read hmore hhead (ih (hreads.position_le inside) ?_)
    rw [← List.append_cancel_left hys]
    exact htail

end Decoding

end BytecodeFold
