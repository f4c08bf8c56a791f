import BytecodeFold.Fold.Resolve
import BytecodeFold.Fold.Rule

/-!
# Folding comparisons

A branch on two literals that selects one of two `int` pushes becomes the push it selects:
the one it goes to if it is taken, the one after it if not. After a three-way comparison
the branch tests the result of that against zero.
-/

namespace BytecodeFold

namespace ComparisonMatch

/-- Whether the branch of a match is taken. -/
def taken (listing : Listing) (found : ComparisonMatch) (left right : Number) :
    Except Error Bool := do
  let some code := listing.get? found.branch | throw (.invalidHandle found.branch)
  let .branch condition _ := code
    | throw (.invalidOperand s!"{code.text} at {found.branch.text} is not a conditional branch")
  match condition, found.comparison.bind listing.get? with
  | .intCompare relation, none =>
    return relation.holds (compare left.toInt.toInt right.toInt.toInt)
  | .zero relation, some (.compare kind) =>
    return relation.holds (compare (Number.compareThreeWay kind left right) 0)
  | _, _ => throw (.unsupportedComparison s!"{code.mnemonic} on literal operands")

/-- The mnemonics of the comparison, if any, and the branch. -/
def mnemonics (listing : Listing) (found : ComparisonMatch) : String :=
  String.intercalate " "
    ((found.comparison.toList ++ [found.branch]).filterMap fun handle =>
      (listing.get? handle).map (·.mnemonic))

/-- Tries to fold a match. -/
def fold (listing : Listing) (pool : ConstantPool) (found : ComparisonMatch) :
    Except Error Attempt := do
  let (left, _) ← listing.operandValue pool found.left
  let (right, _) ← listing.operandValue pool found.right
  let selected := if ← found.taken listing left right then found.targetPush
    else found.fallthroughPush
  let some result := listing.get? selected | throw (.invalidHandle selected)
  replaceSegment listing found.left found.targetPush
    (return (result, pool,
      s!"{found.mnemonics listing} {left.text} {right.text} -> {result.text}"))

end ComparisonMatch

/-- The fold of comparisons between literals. -/
def comparisonFold : FoldRule ComparisonMatch where
  name := "comparison"
  description := "Replaces comparisons between constants with the constant they select"
  shortest := 6
  event := .comparisonFolded
  matchAt? := ComparisonMatch.at?
  attempt := ComparisonMatch.fold

end BytecodeFold
