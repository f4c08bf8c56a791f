import BytecodeFold.Descriptor
import BytecodeFold.Proofs.Outcome
import Mathlib.Data.List.TakeWhile

/-!
# The grammar of descriptors

Reading a descriptor accepts exactly what writing one produces. The readers take a type from the
front of a text, so what is shown of each of them also speaks about the part that it leaves unread.
-/

namespace BytecodeFold

variable {descriptor : String} {cs rest : List Char}

/-! ## Element types -/

namespace ElementType

/-- A class name is not empty and does not hold the character that ends it in a descriptor. -/
def WellNamed : ElementType → Prop
  | object name => name ≠ "" ∧ ';' ∉ name.toList
  | _ => True

/-- A name is read up to the first semicolon, whatever stands after that. -/
theorem span_name {name : List Char} (plain : ';' ∉ name) (rest : List Char) :
    (name ++ ';' :: rest).takeWhile (· != ';') = name ∧
      (name ++ ';' :: rest).dropWhile (· != ';') = ';' :: rest := by
  have hname : ∀ c ∈ name, (c != ';') = true := by
    intro c hm
    exact bne_iff_ne.mpr fun he => plain (he ▸ hm)
  rw [List.takeWhile_append_of_pos hname, List.dropWhile_append_of_pos hname]
  simp

theorem scan_object_eq_ok {element : ElementType} :
    scan descriptor ('L' :: cs) = .ok (element, rest) ↔
      ∃ name, element = object name ∧ element.WellNamed ∧ cs = name.toList ++ ';' :: rest := by
  constructor
  · intro h
    simp only [scan] at h
    split at h
    case h_1 => cases h
    case h_2 c tail hdrop =>
      have hc : c = ';' := by
        have hhead := List.head?_dropWhile_not (· != ';') cs
        rw [hdrop] at hhead
        simpa using hhead
      subst hc
      split at h
      case isTrue => cases h
      case isFalse hempty =>
        cases h
        refine ⟨_, rfl, ⟨fun hname => hempty ?_, fun hm => ?_⟩, ?_⟩
        · rw [List.isEmpty_iff, ← String.toList_ofList (l := List.takeWhile _ cs), hname]
          rfl
        · rw [String.toList_ofList] at hm
          simpa using List.mem_takeWhile_imp hm
        · rw [String.toList_ofList, ← hdrop, List.takeWhile_append_dropWhile]
  · rintro ⟨name, rfl, ⟨hname, plain⟩, rfl⟩
    obtain ⟨htake, hdrop⟩ := span_name plain rest
    have hempty : ¬ name.toList.isEmpty = true := by
      rw [List.isEmpty_iff]
      exact fun he => hname (String.toList_inj.mp he)
    simp only [scan, htake, hdrop]
    rw [if_neg hempty, String.ofList_toList]

theorem scan_eq_ok {element : ElementType} :
    scan descriptor cs = .ok (element, rest) ↔ element.WellNamed ∧ cs = element.chars ++ rest := by
  constructor
  · intro h
    unfold scan at h
    split at h
    case h_1 => cases h
    case h_10 tail =>
      obtain ⟨name, rfl, hname, rfl⟩ := scan_object_eq_ok.mp h
      exact ⟨hname, by simp [chars]⟩
    case h_11 => cases h
    all_goals
      cases h
      exact ⟨trivial, rfl⟩
  · rintro ⟨hname, rfl⟩
    cases element with
    | object name => exact scan_object_eq_ok.mpr ⟨name, rfl, hname, by simp⟩
    | _ => rfl

/-- No element type starts like a dimension, an end of parameters or a missing result. -/
theorem chars_eq_cons (element : ElementType) :
    ∃ c tail, element.chars = c :: tail ∧ c ≠ '[' ∧ c ≠ ')' ∧ c ≠ 'V' := by
  cases element <;> exact ⟨_, _, rfl, by decide⟩

end ElementType

/-! ## Field types -/

namespace FieldType

def WellNamed (field : FieldType) : Prop := field.element.WellNamed

theorem scan_eq_ok {field : FieldType} :
    scan descriptor cs = .ok (field, rest) ↔ field.WellNamed ∧ cs = field.chars ++ rest := by
  constructor
  · intro h
    unfold scan at h
    split at h
    case h_1 => cases h
    case h_2 element tail hscan =>
      cases h
      obtain ⟨hname, hrest⟩ := ElementType.scan_eq_ok.mp hscan
      have hbrackets : cs.takeWhile (· == '[') =
          List.replicate (cs.takeWhile (· == '[')).length '[' :=
        List.eq_replicate_iff.mpr ⟨rfl, fun c hm => by simpa using List.mem_takeWhile_imp hm⟩
      refine ⟨hname, ?_⟩
      rw [chars, ← hbrackets, List.append_assoc, ← hrest, List.takeWhile_append_dropWhile]
  · rintro ⟨hname, rfl⟩
    obtain ⟨dimensions, element⟩ := field
    obtain ⟨c, tail, hchars, hbracket, -⟩ := element.chars_eq_cons
    have hall : ∀ c ∈ List.replicate dimensions '[', (c == '[') = true := by simp
    have htake : (List.replicate dimensions '[' ++ (element.chars ++ rest)).takeWhile (· == '[') =
        List.replicate dimensions '[' := by
      rw [List.takeWhile_append_of_pos hall, hchars]
      simp [hbracket]
    have hdrop : (List.replicate dimensions '[' ++ (element.chars ++ rest)).dropWhile (· == '[') =
        element.chars ++ rest := by
      rw [List.dropWhile_append_of_pos hall, hchars]
      simp [hbracket]
    have hscan : ElementType.scan descriptor (element.chars ++ rest) = .ok (element, rest) :=
      ElementType.scan_eq_ok.mpr ⟨hname, rfl⟩
    rw [scan, chars, List.append_assoc, hdrop, htake, hscan, List.length_replicate]

theorem chars_eq_cons (field : FieldType) :
    ∃ c tail, field.chars = c :: tail ∧ c ≠ ')' ∧ c ≠ 'V' := by
  obtain ⟨dimensions, element⟩ := field
  cases dimensions with
  | zero =>
    obtain ⟨c, tail, hchars, -, hclose, hvoid⟩ := element.chars_eq_cons
    exact ⟨c, tail, by simp [chars, hchars], hclose, hvoid⟩
  | succ dimensions => exact ⟨_, _, rfl, by decide⟩

theorem parse_eq_ok {field : FieldType} :
    parse descriptor = .ok field ↔ field.WellNamed ∧ field.text = descriptor := by
  have hparse : parse descriptor = .ok field ↔
      scan descriptor descriptor.toList = .ok (field, []) := by
    unfold parse
    split <;> simp_all
  rw [hparse, scan_eq_ok, List.append_nil, text]
  refine and_congr_right fun _ => ?_
  rw [← String.toList_inj, String.toList_ofList, eq_comm]

end FieldType

/-! ## Method descriptors -/

namespace MethodDescriptor

def WellNamed (method : MethodDescriptor) : Prop :=
  (∀ field ∈ method.parameters, field.WellNamed) ∧ ∀ field ∈ method.result, field.WellNamed

theorem scanParameters_eq_ok {seen fields : List FieldType} :
    scanParameters descriptor cs seen = .ok (fields, rest) ↔
      ∃ read, fields = seen.reverse ++ read ∧ (∀ field ∈ read, field.WellNamed) ∧
        cs = read.flatMap FieldType.chars ++ ')' :: rest := by
  fun_induction scanParameters descriptor cs seen with
  | case1 seen =>
    constructor
    · intro h
      cases h
    · rintro ⟨read, -, -, h⟩
      simp at h
  | case2 seen tail =>
    constructor
    · intro h
      cases h
      exact ⟨[], by simp, by simp, rfl⟩
    · rintro ⟨read, rfl, -, h⟩
      cases read with
      | nil =>
        cases h
        simp
      | cons field read =>
        obtain ⟨c, chars, hchars, hclose, -⟩ := field.chars_eq_cons
        rw [List.flatMap_cons, hchars] at h
        exact absurd (List.cons.inj h).1.symm hclose
  | case3 seen c tail hclose e hscan =>
    constructor
    · intro h
      cases h
    · rintro ⟨read, -, hnames, h⟩
      cases read with
      | nil => exact absurd (List.cons.inj h).1 hclose
      | cons field read =>
        rw [List.flatMap_cons, List.append_assoc] at h
        rw [FieldType.scan_eq_ok.mpr ⟨hnames field List.mem_cons_self, h⟩] at hscan
        cases hscan
  | case4 seen c tail hclose field tail' hscan ih =>
    obtain ⟨hname, hfield⟩ := FieldType.scan_eq_ok.mp hscan
    rw [ih]
    constructor
    · rintro ⟨read, rfl, hnames, rfl⟩
      refine ⟨field :: read, by simp, List.forall_mem_cons.mpr ⟨hname, hnames⟩, ?_⟩
      rw [hfield, List.flatMap_cons, List.append_assoc]
    · rintro ⟨read, rfl, hnames, h⟩
      cases read with
      | nil => exact absurd (List.cons.inj h).1 hclose
      | cons other read =>
        obtain ⟨hother, hothers⟩ := List.forall_mem_cons.mp hnames
        rw [List.flatMap_cons, List.append_assoc] at h
        -- the reader is a function, so it has read the type that stands first
        have hagain := hscan.symm.trans (FieldType.scan_eq_ok.mpr ⟨hother, h⟩)
        cases hagain
        exact ⟨read, by simp, hothers, rfl⟩

/-- What stands after the parameters: a type, or the letter for no result. -/
def resultChars : Option FieldType → List Char
  | none => ['V']
  | some field => field.chars

theorem scanResult_eq_ok {result : Option FieldType} :
    scanResult descriptor cs = .ok (result, rest) ↔
      (∀ field ∈ result, field.WellNamed) ∧ cs = resultChars result ++ rest := by
  cases cs with
  | nil =>
    constructor
    · intro h
      cases h
    · rintro ⟨-, h⟩
      cases result with
      | none => cases h
      | some field =>
        obtain ⟨c, chars, hchars, -⟩ := field.chars_eq_cons
        rw [resultChars, hchars] at h
        cases h
  | cons c tail =>
    unfold scanResult
    dsimp only
    split
    case isTrue hvoid =>
      subst hvoid
      constructor
      · intro h
        cases h
        exact ⟨by simp, rfl⟩
      · rintro ⟨-, h⟩
        cases result with
        | none =>
          cases h
          rfl
        | some field =>
          obtain ⟨c, chars, hchars, -, hne⟩ := field.chars_eq_cons
          rw [resultChars, hchars] at h
          exact absurd (List.cons.inj h).1.symm hne
    case isFalse hvoid =>
      constructor
      · intro h
        split at h
        case h_1 => cases h
        case h_2 field tail' hscan =>
          cases h
          simpa [resultChars] using FieldType.scan_eq_ok.mp hscan
      · rintro ⟨hname, h⟩
        cases result with
        | none => exact absurd (List.cons.inj h).1 hvoid
        | some field => rw [FieldType.scan_eq_ok.mpr ⟨hname field rfl, h⟩]

theorem toList_text (method : MethodDescriptor) : method.text.toList =
    '(' :: (method.parameters.flatMap FieldType.chars ++ ')' :: resultChars method.result) := by
  rw [text, String.toList_ofList]
  cases method.result <;> rfl

theorem parse_eq_ok {method : MethodDescriptor} :
    parse descriptor = .ok method ↔ method.WellNamed ∧ method.text = descriptor := by
  rw [← String.toList_inj, toList_text]
  unfold parse
  cases descriptor.toList with
  | nil => simp
  | cons c cs =>
    dsimp only
    split
    case isFalse hopen =>
      constructor
      · intro h
        cases h
      · rintro ⟨-, h⟩
        exact absurd (List.cons.inj h).1.symm hopen
    case isTrue hopen =>
      subst hopen
      rw [List.cons.injEq, Outcome.bind_eq_ok]
      constructor
      · rintro ⟨⟨parameters, tail⟩, hparameters, h⟩
        obtain ⟨⟨result, left⟩, hresult, h⟩ := Outcome.bind_eq_ok.mp h
        obtain ⟨read, rfl, hread, rfl⟩ := scanParameters_eq_ok.mp hparameters
        obtain ⟨hnames, rfl⟩ := scanResult_eq_ok.mp hresult
        cases left with
        | cons => cases h
        | nil =>
          cases h
          exact ⟨⟨hread, hnames⟩, rfl, by simp⟩
      · rintro ⟨⟨hread, hnames⟩, -, rfl⟩
        refine ⟨(method.parameters, resultChars method.result), ?_, ?_⟩
        · exact scanParameters_eq_ok.mpr ⟨method.parameters, rfl, hread, rfl⟩
        · refine Outcome.bind_eq_ok.mpr ⟨(method.result, []), ?_, rfl⟩
          exact scanResult_eq_ok.mpr ⟨hnames, (List.append_nil _).symm⟩

end MethodDescriptor

/-- A class name may look like the descriptor of a method. -/
example : MethodDescriptor.parse "(L()V;[[J)V" =
    .ok ⟨[⟨0, .object "()V"⟩, ⟨2, .long⟩], none⟩ := by cbv

/-! ## Descriptors that are rejected -/

theorem Outcome.exists_error_iff {ε α : Type} {x : Except ε α} :
    (∃ e, x = .error e) ↔ ¬ ∃ a, x = .ok a := by
  cases x <;> simp

/-- A descriptor is read as a type exactly if it is the text of that type and the class names in the
type are such as can stand in a text; all other descriptors are rejected. The same holds of the
descriptors of methods. -/
theorem parse_inverts_text :
    (∀ descriptor field, FieldType.parse descriptor = .ok field ↔
      field.WellNamed ∧ field.text = descriptor) ∧
    (∀ descriptor, (∃ e, FieldType.parse descriptor = .error e) ↔
      ¬ ∃ field : FieldType, field.WellNamed ∧ field.text = descriptor) ∧
    (∀ descriptor method, MethodDescriptor.parse descriptor = .ok method ↔
      method.WellNamed ∧ method.text = descriptor) ∧
    ∀ descriptor, (∃ e, MethodDescriptor.parse descriptor = .error e) ↔
      ¬ ∃ method : MethodDescriptor, method.WellNamed ∧ method.text = descriptor := by
  refine ⟨fun _ _ => FieldType.parse_eq_ok, fun descriptor => ?_,
    fun _ _ => MethodDescriptor.parse_eq_ok, fun descriptor => ?_⟩
  · simp only [Outcome.exists_error_iff, FieldType.parse_eq_ok]
  · simp only [Outcome.exists_error_iff, MethodDescriptor.parse_eq_ok]

end BytecodeFold
