import BytecodeFold.Number.Operation

/-!
# Types of results

The type of a result is known from the types of the operands: a conversion gives its target type,
arithmetic the type in which its operands meet. Tags that promote to the same type give the same
result.
-/

namespace BytecodeFold

namespace TypeTag

theorem promote_promote (type : TypeTag) : type.promote.promote = type.promote := by
  cases type <;> rfl

theorem join_promote (left right : TypeTag) :
    left.promote.join right.promote = left.join right := by
  cases left <;> cases right <;> rfl

end TypeTag

namespace Number

variable {op : ArithmeticOp} {left right value : Number} {type leftType rightType : TypeTag}

theorem promote_naturalType (value : Number) : value.naturalType.promote = value.naturalType := by
  cases value <;> rfl

theorem naturalType_convert (value : Number) (h : type ≠ .reference) :
    (value.convert type).naturalType = type.promote := by
  cases type with
  | reference => exact absurd rfl h
  | _ => rfl

/-- Two operands of a type meet in that type. -/
theorem join_self (left : Number) (hl : leftType.promote = left.naturalType)
    (hr : rightType.promote = left.naturalType) : leftType.join rightType = left.naturalType := by
  rw [← TypeTag.join_promote, hl, hr]
  cases left <;> rfl

/-- An operand and an `int` meet in the type of the first. -/
theorem join_int (left : Number) (hl : leftType.promote = left.naturalType)
    (hr : rightType.promote = .int) : leftType.join rightType = left.naturalType := by
  rw [← TypeTag.join_promote, hl, hr]
  cases left <;> rfl

theorem ofDouble_promote (value : Binary64) (type : TypeTag) :
    ofDouble value type.promote = ofDouble value type := by
  cases type <;> rfl

theorem bitwise_promote (op : ArithmeticOp) (left right : Number) (type : TypeTag) :
    bitwise op left right type.promote = bitwise op left right type := by
  cases type <;> rfl

theorem evaluate_promote (op : ArithmeticOp) (left right : Number) (type : TypeTag) :
    evaluate op left right type.promote = evaluate op left right type := by
  have hi : type.promote.isIntegral = type.isIntegral := by
    cases type <;> rfl
  simp only [evaluate, ofDouble_promote, bitwise_promote, hi]

theorem naturalType_ofDouble (value : Binary64) (h : type ≠ .reference) :
    (ofDouble value type).naturalType = type.promote := by
  cases type with
  | reference => exact absurd rfl h
  | _ => rfl

theorem naturalType_bitwise (h : bitwise op left right type = .ok value) :
    value.naturalType = type.promote := by
  unfold bitwise at h
  split at h
  case h_1 hp =>
    cases h
    exact hp.symm
  case h_2 hp =>
    cases h
    exact hp.symm
  case h_3 => cases h

theorem naturalType_evaluate (ht : type ≠ .reference)
    (h : evaluate op left right type = .ok (some value)) : value.naturalType = type.promote := by
  have hbitwise : (bitwise op left right type).map some = .ok (some value) →
      value.naturalType = type.promote := by
    intro hb
    cases hr : bitwise op left right type with
    | error e =>
      rw [hr] at hb
      cases hb
    | ok result =>
      rw [hr] at hb
      cases hb
      exact naturalType_bitwise hr
  cases op with
  | add | sub | mul =>
    cases h
    exact naturalType_ofDouble _ ht
  | div | rem =>
    simp only [evaluate] at h
    split at h <;> cases h
    exact naturalType_ofDouble _ ht
  | shl | shr | ushr | and | or | xor => exact hbitwise h

/-- The value of an operation has the type in which its operands meet. -/
theorem naturalType_of_join
    (h : evaluate op left right (leftType.join rightType) = .ok (some value)) :
    value.naturalType = leftType.join rightType := by
  have hjoin : leftType.join rightType ≠ .reference ∧
      (leftType.join rightType).promote = leftType.join rightType := by
    cases leftType <;> cases rightType <;> decide
  rw [naturalType_evaluate hjoin.1 h, hjoin.2]

/-- A three-way comparison gives one of three results, and each is an `int`. -/
theorem toInt_compareThreeWay (kind : CompareKind) (left right : Number) :
    (Int32.ofInt (compareThreeWay kind left right)).toInt = compareThreeWay kind left right := by
  unfold compareThreeWay
  dsimp only
  split
  · rfl
  · rfl
  · rfl
  · cases kind <;> rfl

end Number

end BytecodeFold
