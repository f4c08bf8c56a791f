import BytecodeFold.Proofs.Codec.Format

/-!
# Instructions with distances

In a code array a branch does not hold the offset it goes to but the distance to it, and nothing
keeps a distance from leading out of the code. `Encoded` says which bytes stand for an instruction
with distances, wherever they lead. It is the format of decoding where they do not lead to before
the code; where one does, decoding finds the code malformed, whatever follows.
-/

namespace BytecodeFold

open BigEndian (encode)
open Reader (Parses)

namespace Instruction

variable {τ σ ρ : Type} {code : Instruction τ}

theorem mapTargets_mapTargets (f : τ → σ) (g : σ → ρ) (code : Instruction τ) :
    (code.mapTargets f).mapTargets g = code.mapTargets fun target => g (f target) := by
  cases code with
  | switch kind default cases => simp [mapTargets]
  | _ => rfl

theorem mapTargets_congr {f g : τ → σ} (h : ∀ target ∈ code.targets, f target = g target) :
    code.mapTargets f = code.mapTargets g := by
  cases code with
  | branch condition target | jump target | subroutine target =>
    rw [mapTargets, mapTargets, h target (List.mem_singleton.mpr rfl)]
  | switch kind default cases =>
    obtain ⟨hdefault, hcases⟩ := List.forall_mem_cons.mp h
    rw [mapTargets, mapTargets, hdefault]
    congr 1
    exact List.map_congr_left fun case hm =>
      congrArg (Prod.mk case.1) (hcases case.2 (List.mem_map_of_mem hm))
  | _ => rfl

/-- Targets that are replaced and put back again. -/
theorem mapTargets_cancel {f : τ → σ} {g : σ → τ}
    (h : ∀ target ∈ code.targets, g (f target) = target) :
    (code.mapTargets f).mapTargets g = code := by
  rw [mapTargets_mapTargets, mapTargets_congr h]
  cases code with
  | switch kind default cases => simp [mapTargets]
  | _ => rfl

end Instruction

namespace Decoding

/-! ## The format -/

/-- A distance within the reach of two bytes. -/
def ShortDistance (distance : Int) (bytes : List UInt8) : Prop :=
  fitsSigned 16 distance = true ∧ bytes = encode (Int16.ofInt distance)

/-- A distance within the reach of four bytes. -/
def LongDistance (distance : Int) (bytes : List UInt8) : Prop :=
  fitsSigned 32 distance = true ∧ bytes = encode (Int32.ofInt distance)

/-- What follows the default of a switch: the cases, with distances. -/
def CaseDistances : SwitchKind → List (Int32 × Int) → List UInt8 → Prop
  | .table, cases, bytes => ∃ low high : Int32, low.toInt ≤ high.toInt ∧
      cases.map (·.1) = (consecutive (high.toInt - low.toInt + 1).toNat low.toInt).map Int32.ofInt ∧
      (∀ case ∈ cases, fitsSigned 32 case.2 = true) ∧
      bytes = encode low ++ encode high ++ cases.flatMap fun case => encode (Int32.ofInt case.2)
  | .lookup, cases, bytes => ∃ count : Int32, (cases.length : Int) = count.toInt ∧
      Encoding.keysSorted (cases.map (·.1.toInt)) = true ∧
      (∀ case ∈ cases, fitsSigned 32 case.2 = true) ∧
      bytes = encode count ++ cases.flatMap fun case => encode case.1 ++ encode (Int32.ofInt case.2)

/-- What follows an opcode of a shape, with distances in the place of targets. -/
def Displaced (pool : ConstantPool) (offset : Nat) (opcode : UInt8) :
    Shape → Instruction Int → List UInt8 → Prop
  | .branch condition, code, bytes => ∃ distance,
      code = .branch condition distance ∧ ShortDistance distance bytes
  | .jump long, code, bytes => ∃ distance, code = .jump distance ∧
      if long then LongDistance distance bytes else ShortDistance distance bytes
  | .subroutine long, code, bytes => ∃ distance, code = .subroutine distance ∧
      if long then LongDistance distance bytes else ShortDistance distance bytes
  | .switch kind, code, bytes => ∃ padding default cases word rest,
      code = .switch kind default cases ∧
      padding.length = switchPadding offset ∧ LongDistance default word ∧
      CaseDistances kind cases rest ∧ bytes = padding ++ word ++ rest
  | shape, code, bytes => ∃ plain : Instruction Nat, plain.targets = [] ∧
      code = plain.mapTargets Int.ofNat ∧
      Operands pool offset opcode shape plain bytes

/-- The bytes of an instruction at an offset, with distances in the place of targets. -/
def Encoded (pool : ConstantPool) (offset : Nat) (code : Instruction Int)
    (bytes : List UInt8) : Prop :=
  ∃ opcode rest, bytes = opcode :: rest ∧
    Displaced pool offset opcode (Shape.ofOpcode opcode) code rest

variable {pool : ConstantPool} {position offset : Nat} {opcode : UInt8} {kind : SwitchKind}
  {bytes : List UInt8} {distance : Int}

theorem Encoded.ne_nil {code : Instruction Int} (h : Encoded pool offset code bytes) :
    bytes ≠ [] := by
  obtain ⟨opcode, rest, rfl, -⟩ := h
  exact List.cons_ne_nil _ _

/-! ## Distances to targets -/

/-- The distance from an instruction to a target. -/
def distanceTo (offset target : Nat) : Int := (target : Int) - offset

theorem caseDistances_iff {cases : List (Int32 × Nat)} :
    CaseDistances kind (cases.map fun case => (case.1, distanceTo offset case.2)) bytes ↔
      Cases offset kind cases bytes := by
  have hreach : (∀ case ∈ cases.map fun case => (case.1, distanceTo offset case.2),
      fitsSigned 32 case.2 = true) ↔ Reach offset cases := List.forall_mem_map
  cases kind with
  | table =>
    rw [CaseDistances, hreach, List.map_map, List.flatMap_map]
    exact Iff.rfl
  | lookup =>
    rw [CaseDistances, hreach, List.map_map, List.flatMap_map, List.length_map]
    exact Iff.rfl

theorem targets_of_wideOperands {shape : Shape} {code : Instruction Nat}
    (h : WideOperands opcode shape code bytes) : code.targets = [] := by
  cases shape with
  | load | store =>
    obtain ⟨slot, rfl, -⟩ := h
    rfl
  | increment =>
    obtain ⟨slot, amount, rfl, -⟩ := h
    rfl
  | _ =>
    obtain ⟨-, -, rfl⟩ := h
    rfl

/-- An instruction without targets looks the same with distances. -/
theorem plain_iff {code : Instruction Nat} {f : Nat → Int} {P : Instruction Nat → Prop}
    (hplain : P code → code.targets = []) :
    (∃ plain : Instruction Nat, plain.targets = [] ∧
      code.mapTargets f = plain.mapTargets Int.ofNat ∧ P plain) ↔ P code := by
  constructor
  · rintro ⟨plain, htargets, heq, h⟩
    have hsame : code = plain := by
      cases plain <;> cases htargets <;> cases code <;> cases heq <;> rfl
    rw [hsame]
    exact h
  · intro h
    refine ⟨code, hplain h, Instruction.mapTargets_congr fun target hm => ?_, h⟩
    rw [hplain h] at hm
    cases hm

theorem displaced_iff {shape : Shape} {code : Instruction Nat} :
    Displaced pool offset opcode shape (code.mapTargets (distanceTo offset)) bytes ↔
      Operands pool offset opcode shape code bytes := by
  cases shape with
  | branch condition | jump long | subroutine long =>
    constructor
    · rintro ⟨distance, hcode, hbytes⟩
      cases code <;> cases hcode
      exact ⟨_, rfl, hbytes⟩
    · rintro ⟨target, rfl, hbytes⟩
      exact ⟨_, rfl, hbytes⟩
  | switch kind =>
    constructor
    · rintro ⟨padding, _, _, _, rest, hcode, hpadding, ⟨hfits, rfl⟩, hcases, rfl⟩
      cases code <;> cases hcode
      exact ⟨padding, _, _, rest, rfl, hpadding, hfits, caseDistances_iff.mp hcases, rfl⟩
    · rintro ⟨padding, default, cases, rest, rfl, hpadding, hfits, hcases, rfl⟩
      exact ⟨padding, _, _, _, rest, rfl, hpadding, ⟨hfits, rfl⟩, caseDistances_iff.mpr hcases, rfl⟩
  | widePrefix =>
    refine plain_iff fun h => ?_
    obtain ⟨inner, rest, -, h⟩ := h
    exact targets_of_wideOperands h
  | verbatim info =>
    refine plain_iff fun h => ?_
    obtain ⟨-, stack, -, rfl⟩ := h
    rfl
  | invalid => exact plain_iff False.elim
  | literal | loadSlot | storeSlot | arithmetic | convert | compare =>
    refine plain_iff fun h => ?_
    rw [h.1]
    rfl
  | increment =>
    refine plain_iff fun h => ?_
    obtain ⟨slot, amount, rfl, -⟩ := h
    rfl
  | pushByte | pushShort | loadConstant | loadConstantIndexed | load | store | invokeVirtual =>
    refine plain_iff fun h => ?_
    obtain ⟨word, rfl, -⟩ := h
    rfl

/-- With targets as distances, the format of decoding is the encoding. -/
theorem encoded_iff {code : Instruction Nat} :
    Encoded pool offset (code.mapTargets (distanceTo offset)) bytes ↔
      Format pool offset code bytes :=
  exists_congr fun _ => exists_congr fun _ => and_congr_right fun _ => displaced_iff

/-- The offset at a distance. -/
def targetAt (offset : Nat) (distance : Int) : Nat := ((offset : Int) + distance).toNat

theorem distanceTo_targetAt (inside : 0 ≤ (offset : Int) + distance) :
    distanceTo offset (targetAt offset distance) = distance := by
  unfold distanceTo targetAt
  omega

/-- Distances that do not lead to before the code lead to targets. -/
theorem Encoded.format {code : Instruction Int} (h : Encoded pool offset code bytes)
    (inside : ∀ distance ∈ code.targets, 0 ≤ (offset : Int) + distance) :
    Format pool offset (code.mapTargets (targetAt offset)) bytes := by
  rw [← encoded_iff,
    Instruction.mapTargets_cancel fun distance hm => distanceTo_targetAt (inside _ hm)]
  exact h

end Decoding

/-! ## Refusals -/

namespace Reader

variable {α β : Type} {offset : Nat} {reader : Reader α} {next : α → Reader β}
  {xs ys bytes : List UInt8}

/-- On these bytes the reader finds the code malformed, whatever follows them. -/
def Refuses (offset : Nat) (reader : Reader α) (bytes : List UInt8) : Prop :=
  ∀ start : Cursor, start.position = offset → offset ≤ start.data.size → bytes <+: start.rest →
    ∃ cause, reader start = .error (.malformed cause)

namespace Refuses

theorem bind (h : Refuses offset reader xs) (leading : xs <+: bytes) :
    Refuses offset (reader >>= next) bytes := by
  intro start hp inside hbytes
  obtain ⟨cause, hcause⟩ := h start hp inside (leading.trans hbytes)
  refine ⟨cause, ?_⟩
  change (reader start >>= fun result => next result.1 result.2) = _
  rw [hcause, Outcome.error_bind]

theorem after {first : α → List UInt8 → Prop} {a : α} (hfirst : Parses offset reader first)
    (hxs : first a xs) (h : Refuses (offset + xs.length) (next a) ys) :
    Refuses offset (reader >>= next) (xs ++ ys) := by
  intro start hp inside hbytes
  have hreads : start.Reads xs ⟨start.data, start.position + xs.length⟩ :=
    ⟨(List.prefix_append xs ys).trans hbytes, rfl⟩
  have hok := (hfirst start hp inside a _).mpr ⟨xs, hxs, hreads⟩
  have hmid := hreads.position_le (hp ▸ inside)
  rw [hreads.rest_eq, List.prefix_append_right_inj] at hbytes
  obtain ⟨cause, hcause⟩ := h ⟨start.data, start.position + xs.length⟩ (by rw [hp])
    (by rw [← hp]; exact hmid) hbytes
  refine ⟨cause, ?_⟩
  change (reader start >>= fun result => next result.1 result.2) = _
  rw [hok, Outcome.ok_bind]
  exact hcause

end Refuses

end Reader

namespace Decoding

open Reader (Refuses)

variable {pool : ConstantPool} {position offset : Nat} {opcode : UInt8} {kind : SwitchKind}
  {bytes : List UInt8} {distance : Int}

theorem refuses_branchTarget (before : (offset : Int) + distance < 0) :
    Refuses position (branchTarget offset distance) [] := by
  intro start _ _ _
  rw [branchTarget, if_neg (Int.not_le.mpr before)]
  exact ⟨_, rfl⟩

theorem refuses_shortTarget (h : ShortDistance distance bytes)
    (before : (offset : Int) + distance < 0) :
    Refuses position (shortTarget offset) bytes := by
  obtain ⟨hfits, rfl⟩ := h
  obtain ⟨hlow, hhigh⟩ := fitsSigned_iff.mp hfits
  rw [← List.append_nil (encode _)]
  refine .after (.word Int16) rfl (refuses_branchTarget ?_)
  rwa [Int16.toInt_ofInt_of_le hlow hhigh]

theorem refuses_longTarget (h : LongDistance distance bytes)
    (before : (offset : Int) + distance < 0) :
    Refuses position (longTarget offset) bytes := by
  obtain ⟨hfits, rfl⟩ := h
  obtain ⟨hlow, hhigh⟩ := fitsSigned_iff.mp hfits
  rw [← List.append_nil (encode _)]
  refine .after (.word Int32) rfl (refuses_branchTarget ?_)
  rwa [Int32.toInt_ofInt_of_le hlow hhigh]

theorem LongDistance.longTarget (h : LongDistance distance bytes)
    (inside : 0 ≤ (offset : Int) + distance) :
    LongTarget offset (targetAt offset distance) bytes := by
  change LongDistance (distanceTo offset (targetAt offset distance)) bytes
  rwa [distanceTo_targetAt inside]

/-- A reader that goes on after a distance of four bytes refuses if the distance does, or if it
refuses what follows. -/
theorem refuses_after_longTarget {α : Type} {next : Nat → Reader α} {word rest : List UInt8}
    (h : LongDistance distance word)
    (hnext : 0 ≤ (offset : Int) + distance →
      Refuses (position + word.length) (next (targetAt offset distance)) rest) :
    Refuses position (longTarget offset >>= next) (word ++ rest) := by
  by_cases inside : 0 ≤ (offset : Int) + distance
  · exact .after parses_longTarget (h.longTarget inside) (hnext inside)
  · exact (refuses_longTarget h (Int.not_le.mp inside)).bind (List.prefix_append _ _)

theorem refuses_tableCases {cases : List (Int32 × Int)} {key : Int} {seen : List (Int32 × Nat)}
    (fits : ∀ case ∈ cases, fitsSigned 32 case.2 = true)
    (before : ∃ case ∈ cases, (offset : Int) + case.2 < 0) :
    Refuses position (tableCases offset cases.length key seen)
      (cases.flatMap fun case => encode (Int32.ofInt case.2)) := by
  induction cases generalizing position key seen with
  | nil =>
    obtain ⟨case, hm, -⟩ := before
    cases hm
  | cons case rest ih =>
    obtain ⟨hfits, hothers⟩ := List.forall_mem_cons.mp fits
    rw [List.flatMap_cons]
    refine refuses_after_longTarget ⟨hfits, rfl⟩ fun inside => ih hothers ?_
    obtain ⟨other, hm, hbefore⟩ := before
    rcases List.mem_cons.mp hm with rfl | hm
    · omega
    · exact ⟨other, hm, hbefore⟩

theorem refuses_lookupCases {cases : List (Int32 × Int)} {seen : List (Int32 × Nat)}
    (sorted : Encoding.keysSorted ((seen.take 1).map (·.1.toInt) ++ cases.map (·.1.toInt)) = true)
    (fits : ∀ case ∈ cases, fitsSigned 32 case.2 = true)
    (before : ∃ case ∈ cases, (offset : Int) + case.2 < 0) :
    Refuses position (lookupCases offset cases.length seen)
      (cases.flatMap fun case => encode case.1 ++ encode (Int32.ofInt case.2)) := by
  induction cases generalizing position seen with
  | nil =>
    obtain ⟨case, hm, -⟩ := before
    cases hm
  | cons case rest ih =>
    obtain ⟨hfits, hothers⟩ := List.forall_mem_cons.mp fits
    have hfollow : mayFollow case.1 seen = true ∧
        Encoding.keysSorted (case.1.toInt :: rest.map (·.1.toInt)) = true := by
      cases seen with
      | nil => exact ⟨rfl, sorted⟩
      | cons last seen => simpa [mayFollow, Encoding.keysSorted] using sorted
    rw [List.flatMap_cons, List.append_assoc]
    refine .after (.word Int32) rfl ?_
    rw [if_pos hfollow.1]
    refine refuses_after_longTarget ⟨hfits, rfl⟩ fun inside => ih hfollow.2 hothers ?_
    obtain ⟨other, hm, hbefore⟩ := before
    rcases List.mem_cons.mp hm with rfl | hm
    · omega
    · exact ⟨other, hm, hbefore⟩

/-- A check that enough bytes are left does not come in the way of a refusal. -/
theorem refuses_require {α : Type} {count : Nat} {reader : Reader α}
    (h : Refuses position reader bytes) (enough : count ≤ bytes.length) :
    Refuses position (require count >>= fun _ => reader) bytes := by
  intro start hp inside hbytes
  obtain ⟨cause, hcause⟩ := h start hp inside hbytes
  have hle := hbytes.length_le
  rw [Cursor.length_rest] at hle
  refine ⟨cause, ?_⟩
  have hrequire : require count start = .ok ((), start) := by
    change (if start.remaining < count then throw .outOfBounds else pure () : Reader Unit) start = _
    rw [if_neg (by rw [Cursor.remaining]; omega)]
    rfl
  change (require count start >>= fun result => reader result.2) = _
  rw [hrequire, Outcome.ok_bind]
  exact hcause

theorem refuses_switchCases {cases : List (Int32 × Int)} (h : CaseDistances kind cases bytes)
    (before : ∃ case ∈ cases, (offset : Int) + case.2 < 0) :
    Refuses position (switchCases offset kind) bytes := by
  have hword : ∀ n : Int32, (encode n).length = 4 := fun n => BigEndian.length_encode n
  cases kind with
  | table =>
    obtain ⟨low, high, hle, hkeys, hfits, rfl⟩ := h
    have hcount := congrArg List.length hkeys
    rw [List.length_map, List.length_map, length_consecutive] at hcount
    rw [List.append_assoc]
    refine .after (.word Int32) rfl (.after (.word Int32) rfl ?_)
    rw [if_neg (Int.not_lt.mpr hle), ← hcount]
    refine refuses_require (refuses_tableCases hfits before) ?_
    simp [List.length_flatMap, hword, Nat.mul_comm]
  | lookup =>
    obtain ⟨count, hcount, hsorted, hfits, rfl⟩ := h
    have hlength : count.toInt.toNat = cases.length := by omega
    refine .after (.word Int32) rfl ?_
    rw [if_neg (by omega), hlength]
    refine refuses_require (refuses_lookupCases hsorted hfits before) ?_
    simp [List.length_flatMap, hword, Nat.mul_comm]

theorem refuses_operands {shape : Shape} {code : Instruction Int}
    (h : Displaced pool offset opcode shape code bytes)
    (before : ∃ distance ∈ code.targets, (offset : Int) + distance < 0) :
    Refuses (offset + 1) (operands pool offset opcode shape) bytes := by
  obtain ⟨distance, hm, hbefore⟩ := before
  cases shape with
  | branch condition =>
    obtain ⟨distance, rfl, hbytes⟩ := h
    cases List.mem_singleton.mp hm
    exact (refuses_shortTarget hbytes hbefore).bind List.prefix_rfl
  | jump long | subroutine long =>
    obtain ⟨distance, rfl, hbytes⟩ := h
    cases List.mem_singleton.mp hm
    cases long with
    | false => exact (refuses_shortTarget hbytes hbefore).bind List.prefix_rfl
    | true => exact (refuses_longTarget hbytes hbefore).bind List.prefix_rfl
  | switch kind =>
    obtain ⟨padding, default, cases, word, rest, rfl, hpadding, hdefault, hcases, rfl⟩ := h
    rw [List.append_assoc]
    refine .after (a := ()) (.align 4) hpadding (refuses_after_longTarget hdefault fun inside => ?_)
    refine (refuses_switchCases hcases ?_).bind List.prefix_rfl
    rcases List.mem_cons.mp hm with rfl | hm
    · omega
    · obtain ⟨case, hcase, rfl⟩ := List.mem_map.mp hm
      exact ⟨case, hcase, hbefore⟩
  | _ =>
    obtain ⟨plain, htargets, rfl, -⟩ := h
    rw [Instruction.targets_mapTargets, htargets] at hm
    cases hm

/-- Decoding finds a branch to before the code malformed. -/
theorem refuses_instruction {code : Instruction Int} (h : Encoded pool offset code bytes)
    (before : ∃ distance ∈ code.targets, (offset : Int) + distance < 0) :
    Refuses offset (instruction pool) bytes := by
  obtain ⟨opcode, rest, rfl, h⟩ := h
  have hopcode : opcode :: rest = [] ++ (encode opcode ++ rest) := by
    rw [encode_byte]
    rfl
  have hlength : (encode opcode).length = 1 := by
    rw [encode_byte]
    rfl
  rw [hopcode]
  refine .after .position ⟨rfl, rfl⟩ (.after (.word UInt8) rfl ?_)
  rw [hlength]
  exact refuses_operands h before

end Decoding

end BytecodeFold
