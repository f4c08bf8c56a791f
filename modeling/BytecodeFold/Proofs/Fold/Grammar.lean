import BytecodeFold.Proofs.Fold.Shape
import Mathlib.Computability.Language
import Mathlib.Data.List.TakeWhile

/-!
# The grammars of the shapes

The shapes are written down here as grammars, apart from how they are looked for. A stream has the
arithmetic shape if it begins with a word of a regular language, and what belongs to the match after
the operator is the longest word of a second one. No stream can be read in two ways, and taking
lines off the front whenever they fit finds the reading if there is one.
-/

namespace BytecodeFold

open scoped Computability

namespace Instruction

variable {τ : Type}

def isIncrement : Instruction τ → Bool
  | increment .. => true
  | _ => false

def isGoto : Instruction τ → Bool
  | jump _ => true
  | _ => false

theorem isConversion_of_isOperand {code : Instruction τ} (h : code.isOperand = true) :
    code.isConversion = false := by
  cases code <;> first | rfl | cases h

theorem isConversion_of_isArithmetic {code : Instruction τ} (h : code.isArithmetic = true) :
    code.isConversion = false := by
  cases code <;> first | rfl | cases h

theorem isInvokeVirtual_of_isIncrement {code : Instruction τ} (h : code.isIncrement = true) :
    code.isInvokeVirtual = false := by
  cases code <;> first | rfl | cases h

theorem isGoto_of_isInvokeVirtual {code : Instruction τ} (h : code.isInvokeVirtual = true) :
    code.isGoto = false := by
  cases code <;> first | rfl | cases h

end Instruction

/-! ## Grammars -/

namespace Grammar

/-- One line whose instruction passes a test. -/
def one (accept : Instruction Handle → Bool) : Language Line :=
  {word | ∃ line, word = [line] ∧ accept line.instruction = true}

def optional (language : Language Line) : Language Line := 1 + language

/-- Operand, conversion?, operand, conversion?, operator. -/
def arithmetic : Language Line :=
  one Instruction.isOperand * optional (one Instruction.isConversion) *
    one Instruction.isOperand * optional (one Instruction.isConversion) *
    one Instruction.isArithmetic

/-- Any number of `invokevirtual`s, then any number of increment and jump pairs. -/
def tail : Language Line :=
  (one Instruction.isInvokeVirtual)∗ * (one Instruction.isIncrement * one Instruction.isGoto)∗

/-- The longest word of a language that a stream begins with. -/
structure Longest (language : Language Line) (stream word : List Line) : Prop where
  begins : word <+: stream
  mem : word ∈ language
  longest : ∀ other, other <+: stream → other ∈ language → other.length ≤ word.length

theorem mem_one {accept : Instruction Handle → Bool} {word : List Line} :
    word ∈ one accept ↔ ∃ line, word = [line] ∧ accept line.instruction = true := Iff.rfl

theorem mem_optional_one {accept : Instruction Handle → Bool} {word : List Line} :
    word ∈ optional (one accept) ↔ ∃ line? : Option Line, word = line?.toList ∧
      ∀ line ∈ line?, accept line.instruction = true := by
  rw [optional, Language.mem_add, Language.mem_one, mem_one]
  constructor
  · rintro (rfl | ⟨line, rfl, ha⟩)
    · exact ⟨none, rfl, by simp⟩
    · exact ⟨some line, rfl, by simpa using ha⟩
  · rintro ⟨line?, rfl, ha⟩
    cases line? with
    | none => exact .inl rfl
    | some line => exact .inr ⟨line, rfl, ha line rfl⟩

theorem mem_kstar_one {accept : Instruction Handle → Bool} {word : List Line} :
    word ∈ (one accept)∗ ↔ ∀ line ∈ word, accept line.instruction = true := by
  constructor
  · rw [Language.mem_kstar]
    rintro ⟨words, rfl, hwords⟩ line hm
    obtain ⟨part, hpart, hline⟩ := List.mem_flatten.mp hm
    obtain ⟨other, rfl, ha⟩ := hwords part hpart
    rw [List.mem_singleton.mp hline]
    exact ha
  · intro h
    refine Language.mem_kstar.mpr ⟨word.map ([·]), ?_, ?_⟩
    · induction word with
      | nil => rfl
      | cons line word ih => simpa using ih fun other hm => h other (List.mem_cons_of_mem _ hm)
    · intro part hpart
      obtain ⟨line, hm, rfl⟩ := List.mem_map.mp hpart
      exact ⟨line, rfl, h line hm⟩

/-! ## The tail -/

/-- The increment and jump pairs that a stream begins with. -/
def pairs : List Line → List Line
  | increment :: jump :: rest =>
    if increment.instruction.isIncrement && jump.instruction.isGoto then
      increment :: jump :: pairs rest
    else []
  | _ => []

theorem mem_kstar_pair {word : List Line} :
    word ∈ (one Instruction.isIncrement * one Instruction.isGoto)∗ ↔ pairs word = word := by
  constructor
  · rw [Language.mem_kstar]
    rintro ⟨words, rfl, hwords⟩
    induction words with
    | nil => rfl
    | cons part words ih =>
      obtain ⟨hpart, hmore⟩ := List.forall_mem_cons.mp hwords
      obtain ⟨_, ⟨increment, rfl, hi⟩, _, ⟨jump, rfl, hj⟩, rfl⟩ := Language.mem_mul.mp hpart
      simp only [List.flatten_cons, List.cons_append, List.nil_append, pairs, hi, hj, Bool.and_self,
        if_true, ih hmore]
  · intro h
    fun_induction pairs word with
    | case1 increment jump rest hpair ih =>
      obtain ⟨hi, hj⟩ := Bool.and_eq_true_iff.mp hpair
      have hrest := ih (by simpa using h)
      rw [← Language.one_add_self_mul_kstar_eq_kstar, Language.mem_add]
      refine .inr (Language.mem_mul.mpr ⟨[increment, jump], ?_, rest, hrest, rfl⟩)
      exact Language.mem_mul.mpr ⟨[increment], ⟨increment, rfl, hi⟩, [jump], ⟨jump, rfl, hj⟩, rfl⟩
    | case2 => cases h
    | case3 =>
      rw [← h]
      exact Language.nil_mem_kstar _

theorem pairs_begins (lines : List Line) : pairs lines <+: lines := by
  fun_induction pairs lines with
  | case1 increment jump rest _ ih => simpa using ih
  | case2 | case3 => exact List.nil_prefix

theorem pairs_pairs (lines : List Line) : pairs (pairs lines) = pairs lines := by
  fun_induction pairs lines with
  | case1 increment jump rest hpair ih => rw [pairs, if_pos hpair, ih]
  | case2 | case3 => rfl

/-- No word of pairs that a stream begins with is longer than all its pairs. -/
theorem length_le_pairs {word lines : List Line} (h : pairs word = word) (begins : word <+: lines) :
    word.length ≤ (pairs lines).length := by
  fun_induction pairs word generalizing lines with
  | case1 increment jump rest hpair ih =>
    obtain ⟨more, rfl⟩ := begins
    have hbegins : rest <+: rest ++ more := List.prefix_append rest more
    have hrest := ih (by simpa using h) hbegins
    rw [List.cons_append, List.cons_append, pairs, if_pos hpair]
    simpa using hrest
  | case2 => cases h
  | case3 => simp [← h]

/-- The tail that is taken line by line. -/
def greedyTail (rest : List Line) : List Line :=
  rest.takeWhile (·.instruction.isInvokeVirtual) ++
    pairs (rest.dropWhile (·.instruction.isInvokeVirtual))

theorem isInvokeVirtual_of_mem_takeWhile {rest : List Line} {line : Line}
    (h : line ∈ rest.takeWhile (·.instruction.isInvokeVirtual)) :
    line.instruction.isInvokeVirtual = true :=
  List.mem_takeWhile_imp (p := fun line : Line => line.instruction.isInvokeVirtual) h

/-- A word of the tail that goes on to a pair has all the `invokevirtual`s in front of it. -/
theorem dropWhile_invocations {invocations loops rest more : List Line}
    (hinvocations : ∀ line ∈ invocations, line.instruction.isInvokeVirtual = true)
    (hloops : pairs loops = loops) (hne : loops ≠ [])
    (hrest : invocations ++ loops ++ more = rest) :
    rest.takeWhile (·.instruction.isInvokeVirtual) = invocations ∧
      rest.dropWhile (·.instruction.isInvokeVirtual) = loops ++ more := by
  match loops with
  | [] => exact absurd rfl hne
  | [line] => cases hloops
  | increment :: jump :: loops =>
    have hincrement : increment.instruction.isInvokeVirtual = false := by
      apply Instruction.isInvokeVirtual_of_isIncrement
      by_contra hno
      rw [pairs, if_neg (by simp [hno])] at hloops
      cases hloops
    subst hrest
    rw [List.append_assoc, List.takeWhile_append_of_pos hinvocations,
      List.dropWhile_append_of_pos hinvocations]
    simp [hincrement]

theorem longest_greedyTail (rest : List Line) : Longest tail rest (greedyTail rest) where
  begins := by
    conv =>
      rhs
      rw [← List.takeWhile_append_dropWhile (p := (·.instruction.isInvokeVirtual)) (l := rest)]
    rw [greedyTail, List.prefix_append_right_inj]
    exact pairs_begins _
  mem := by
    refine Language.append_mem_mul (mem_kstar_one.mpr ?_) (mem_kstar_pair.mpr (pairs_pairs _))
    exact fun line hm => isInvokeVirtual_of_mem_takeWhile hm
  longest := by
    intro other begins hmem
    obtain ⟨invocations, hinvocations, loops, hloops, rfl⟩ := Language.mem_mul.mp hmem
    rw [mem_kstar_one] at hinvocations
    rw [mem_kstar_pair] at hloops
    obtain ⟨more, hrest⟩ := begins
    rw [greedyTail, List.length_append, List.length_append]
    by_cases hne : loops = []
    · have htaken : invocations <+: rest.takeWhile (·.instruction.isInvokeVirtual) := by
        rw [← hrest, hne, List.append_nil, List.takeWhile_append_of_pos hinvocations]
        exact List.prefix_append _ _
      have hle := htaken.length_le
      rw [hne, List.length_nil]
      omega
    · obtain ⟨htake, hdrop⟩ := dropWhile_invocations hinvocations hloops hne hrest
      have hbegins : loops <+: loops ++ more := List.prefix_append loops more
      have hle := length_le_pairs hloops hbegins
      rw [htake, hdrop]
      omega

theorem Longest.unique {language : Language Line} {stream word other : List Line}
    (h : Longest language stream word) (h' : Longest language stream other) : word = other := by
  have hle := h.longest other h'.begins h'.mem
  have hge := h'.longest word h.begins h.mem
  have hbegins : word <+: other := List.prefix_of_prefix_length_le h.begins h'.begins hge
  exact hbegins.eq_of_length (by omega)

/-- The pairs of a stream end in the one that the search for the last pair ends with. -/
theorem pairs_cases (lines : List Line) :
    (pairs lines = [] ∧ ∀ found, loopTail? lines found = found) ∨
    ∃ front increment jump, pairs lines = front ++ [increment, jump] ∧
      increment.instruction.isIncrement = true ∧ jump.instruction.isGoto = true ∧
      ∀ found, loopTail? lines found = some (increment.handle, jump.handle) := by
  fun_induction pairs lines with
  | case1 increment jump rest hpair ih =>
    obtain ⟨hi, hj⟩ := Bool.and_eq_true_iff.mp hpair
    have hstep : ∀ found, loopTail? (increment :: jump :: rest) found =
        loopTail? rest (some (increment.handle, jump.handle)) := by
      intro found
      obtain ⟨i, code, _⟩ := increment
      obtain ⟨j, code', _⟩ := jump
      cases code <;> cases hi
      cases code' <;> cases hj
      rfl
    rcases ih with ⟨hnil, hlast⟩ | ⟨front, increment', jump', heq, hi', hj', hlast⟩
    · exact .inr ⟨[], increment, jump, by rw [hnil]; rfl, hi, hj,
        fun found => (hstep found).trans (hlast _)⟩
    · exact .inr ⟨increment :: jump :: front, increment', jump', by rw [heq]; rfl, hi', hj',
        fun found => (hstep found).trans (hlast _)⟩
  | case2 increment jump rest hpair =>
    refine .inl ⟨rfl, fun found => ?_⟩
    unfold loopTail?
    split
    case h_1 heq =>
      cases heq
      exact absurd rfl hpair
    case h_2 => rfl
  | case3 lines hshort =>
    refine .inl ⟨rfl, fun found => ?_⟩
    unfold loopTail?
    split
    case h_1 => exact absurd rfl (hshort _ _ _)
    case h_2 => rfl

end Grammar

/-! ## Roles -/

/-- The increment and jump that a tail ends with. -/
def lastPair? (tail : List Line) : Option (Handle × Handle) :=
  match tail.reverse with
  | jump :: increment :: _ =>
    if increment.instruction.isIncrement && jump.instruction.isGoto then
      some (increment.handle, jump.handle)
    else none
  | _ => none

/-- An optional line in front of one that does not fit is taken if it is there. -/
theorem takeOptional_toList {accept : Instruction Handle → Bool} {optional : Option Line}
    (haccept : ∀ line ∈ optional, accept line.instruction = true) {next : Line}
    (hnext : accept next.instruction = false) (rest : List Line) :
    takeOptional accept (optional.toList ++ next :: rest) =
      (optional.map (·.handle), next :: rest) := by
  cases optional with
  | none => simp [takeOptional, takeLine?, hnext]
  | some line => simp [takeOptional, takeLine?, haccept line rfl]

/-- Whether an optional line is there can be told from the stream. -/
theorem optional_unique {accept : Instruction Handle → Bool} {first second : Option Line}
    (hfirst : ∀ line ∈ first, accept line.instruction = true)
    (hsecond : ∀ line ∈ second, accept line.instruction = true) {next other : Line}
    (hnext : accept next.instruction = false) (hother : accept other.instruction = false)
    {rest more : List Line} (h : first.toList ++ next :: rest = second.toList ++ other :: more) :
    first = second ∧ next = other ∧ rest = more := by
  cases first with
  | none =>
    cases second with
    | none => simpa using h
    | some line =>
      obtain ⟨rfl, -⟩ := List.cons.inj h
      simp [hsecond next rfl] at hnext
  | some line =>
    cases second with
    | none =>
      obtain ⟨rfl, -⟩ := List.cons.inj h
      simp [hfirst line rfl] at hother
    | some line' => simpa using h

namespace ArithmeticLines

/-- The stream begins with these lines, each of the kind of its role, and goes on with `rest`. -/
structure Parses (lines : ArithmeticLines) (stream rest : List Line) : Prop where
  stream_eq : stream = lines.left :: (lines.segment ++ rest)
  left : lines.left.instruction.isOperand = true
  leftConversion : ∀ line ∈ lines.leftConversion, line.instruction.isConversion = true
  right : lines.right.instruction.isOperand = true
  rightConversion : ∀ line ∈ lines.rightConversion, line.instruction.isConversion = true
  operator : lines.operator.instruction.isArithmetic = true

/-- The match of these lines, with the tail that follows them. -/
def matchWith (lines : ArithmeticLines) (tail : List Line) : ArithmeticMatch where
  left := lines.left.handle
  leftConversion := lines.leftConversion.map (·.handle)
  right := lines.right.handle
  rightConversion := lines.rightConversion.map (·.handle)
  operator := lines.operator.handle
  loopTail := lastPair? tail
  last := (tail.getLast?.getD lines.operator).handle

variable {lines : ArithmeticLines} {stream rest : List Line}

theorem Parses.of_named {found : ArithmeticMatch} (named : lines.Named found)
    (h : stream = lines.left :: (lines.segment ++ rest)) : lines.Parses stream rest :=
  ⟨h, named.left_operand, named.left_conversion, named.right_operand, named.right_conversion,
    named.operator_arithmetic⟩

theorem Parses.unique {lines' : ArithmeticLines} {rest' : List Line} (h : lines.Parses stream rest)
    (h' : lines'.Parses stream rest') : lines = lines' ∧ rest = rest' := by
  obtain ⟨left, leftConversion, right, rightConversion, operator⟩ := lines
  obtain ⟨left', leftConversion', right', rightConversion', operator'⟩ := lines'
  have heq := h.stream_eq.symm.trans h'.stream_eq
  simp only [segment, List.append_assoc, List.cons_append, List.nil_append, List.cons.injEq] at heq
  obtain ⟨rfl, hsegment⟩ := heq
  obtain ⟨rfl, rfl, hright⟩ := optional_unique h.leftConversion h'.leftConversion
    (Instruction.isConversion_of_isOperand h.right) (Instruction.isConversion_of_isOperand h'.right)
    hsegment
  obtain ⟨rfl, rfl, rfl⟩ := optional_unique h.rightConversion h'.rightConversion
    (Instruction.isConversion_of_isArithmetic h.operator)
    (Instruction.isConversion_of_isArithmetic h'.operator) hright
  exact ⟨rfl, rfl⟩

/-- The readings of a stream are the words of the grammar that it begins with. -/
theorem exists_parses_iff :
    (∃ (lines : ArithmeticLines) (rest : List Line), lines.Parses stream rest) ↔
      ∃ word ∈ Grammar.arithmetic, word <+: stream := by
  constructor
  · rintro ⟨lines, rest, h⟩
    refine ⟨lines.left :: lines.segment, ?_, rest, h.stream_eq.symm⟩
    have hword : lines.left :: lines.segment = [lines.left] ++ lines.leftConversion.toList ++
        [lines.right] ++ lines.rightConversion.toList ++ [lines.operator] := by
      simp [segment]
    rw [hword]
    refine Language.append_mem_mul (Language.append_mem_mul (Language.append_mem_mul
      (Language.append_mem_mul ⟨_, rfl, h.left⟩ ?_) ⟨_, rfl, h.right⟩) ?_) ⟨_, rfl, h.operator⟩
    · exact Grammar.mem_optional_one.mpr ⟨_, rfl, h.leftConversion⟩
    · exact Grammar.mem_optional_one.mpr ⟨_, rfl, h.rightConversion⟩
  · rintro ⟨word, hword, rest, rfl⟩
    obtain ⟨_, hfour, _, ⟨operator, rfl, ho⟩, rfl⟩ := Language.mem_mul.mp hword
    obtain ⟨_, hthree, _, hrc, rfl⟩ := Language.mem_mul.mp hfour
    obtain ⟨_, htwo, _, ⟨right, rfl, hr⟩, rfl⟩ := Language.mem_mul.mp hthree
    obtain ⟨_, ⟨left, rfl, hl⟩, _, hlc, rfl⟩ := Language.mem_mul.mp htwo
    obtain ⟨leftConversion, rfl, hleft⟩ := Grammar.mem_optional_one.mp hlc
    obtain ⟨rightConversion, rfl, hright⟩ := Grammar.mem_optional_one.mp hrc
    exact ⟨⟨left, leftConversion, right, rightConversion, operator⟩, rest,
      by simp [segment], hl, hleft, hr, hright, ho⟩

/-- The pair that a tail ends with, if it has one after its `invokevirtual`s. -/
theorem lastPair?_append {invocations : List Line}
    (h : ∀ line ∈ invocations, line.instruction.isInvokeVirtual = true) (lines : List Line) :
    lastPair? (invocations ++ Grammar.pairs lines) = loopTail? lines none := by
  rcases Grammar.pairs_cases lines with ⟨hnil, hlast⟩ | ⟨front, increment, jump, heq, hi, hj, hlast⟩
  · rw [hnil, hlast, List.append_nil]
    unfold lastPair?
    split
    case h_1 jump increment more hreverse =>
      have hjump : jump ∈ invocations := by
        rw [← List.mem_reverse, hreverse]
        exact List.mem_cons_self
      simp [Instruction.isGoto_of_isInvokeVirtual (h jump hjump)]
    case h_2 => rfl
  · rw [heq, hlast]
    simp [lastPair?, hi, hj]

theorem getLast?_append (invocations lines : List Line) (operator : Line) :
    ((invocations ++ Grammar.pairs lines).getLast?.getD operator).handle =
      (((loopTail? lines none).map (·.2)).or (invocations.getLast?.map (·.handle))).getD
        operator.handle := by
  rcases Grammar.pairs_cases lines with ⟨hnil, hlast⟩ | ⟨front, increment, jump, heq, hi, hj, hlast⟩
  · rw [hnil, hlast, List.append_nil]
    cases invocations.getLast? <;> rfl
  · rw [heq, hlast]
    simp

/-- Taking lines off the front finds the match of every reading. -/
theorem Parses.at?_eq (h : lines.Parses stream rest) :
    ArithmeticMatch.at? stream = some (lines.matchWith (Grammar.greedyTail rest)) := by
  have hinvocations : ∀ line ∈ rest.takeWhile (·.instruction.isInvokeVirtual),
      line.instruction.isInvokeVirtual = true :=
    fun line hm => Grammar.isInvokeVirtual_of_mem_takeWhile hm
  rw [h.stream_eq, segment, List.append_assoc, List.cons_append, List.append_assoc]
  simp only [ArithmeticMatch.at?, takeLine?, h.left, if_true, Option.bind_eq_bind, Option.bind_some,
    takeOptional_toList h.leftConversion (Instruction.isConversion_of_isOperand h.right), h.right,
    List.singleton_append, h.operator, Option.pure_def,
    takeOptional_toList h.rightConversion (Instruction.isConversion_of_isArithmetic h.operator)]
  rw [matchWith, Grammar.greedyTail, lastPair?_append hinvocations, getLast?_append]
  cases loopTail? (rest.dropWhile (·.instruction.isInvokeVirtual)) none with
  | some pair => rfl
  | none => cases (rest.takeWhile (·.instruction.isInvokeVirtual)).getLast? <;> rfl

end ArithmeticLines

/-- A match is found exactly for the readings of the stream. -/
theorem ArithmeticMatch.at?_eq_some_iff {stream : List Line} {found : ArithmeticMatch} :
    ArithmeticMatch.at? stream = some found ↔ ∃ (lines : ArithmeticLines) (rest tail : List Line),
      lines.Parses stream rest ∧ Grammar.Longest Grammar.tail rest tail ∧
        found = lines.matchWith tail := by
  constructor
  · intro h
    obtain ⟨lines, rest, hstream, named, -⟩ := at?_eq_some h
    have hparses := ArithmeticLines.Parses.of_named named hstream
    refine ⟨lines, rest, _, hparses, Grammar.longest_greedyTail rest, ?_⟩
    exact Option.some.inj (h.symm.trans hparses.at?_eq)
  · rintro ⟨lines, rest, tail, hparses, hlongest, rfl⟩
    rw [hparses.at?_eq, hlongest.unique (Grammar.longest_greedyTail rest)]

namespace ComparisonLines

/-- The stream begins with these lines, each of the kind of its role, and then has one more line,
`next`. The branch goes to the second push and the jump to `next`. -/
structure Parses (lines : ComparisonLines) (stream : List Line) (next : Line) (rest : List Line) :
    Prop where
  stream_eq : stream = lines.left :: (lines.segment ++ next :: rest)
  left : lines.left.instruction.isOperand = true
  right : lines.right.instruction.isOperand = true
  comparison : ∀ line ∈ lines.comparison, line.instruction.isComparison = true
  branch : ∃ condition, lines.branch.instruction = .branch condition lines.targetPush.handle ∧
    condition.operandCount = if lines.comparison.isSome then 1 else 2
  fallthroughPush : lines.fallthroughPush.instruction.isIntPush = true
  jump : lines.jump.instruction = .jump next.handle
  targetPush : lines.targetPush.instruction.isIntPush = true

/-- The match of these lines. -/
def toMatch (lines : ComparisonLines) : ComparisonMatch where
  left := lines.left.handle
  right := lines.right.handle
  comparison := lines.comparison.map (·.handle)
  branch := lines.branch.handle
  fallthroughPush := lines.fallthroughPush.handle
  jump := lines.jump.handle
  targetPush := lines.targetPush.handle

variable {lines : ComparisonLines} {stream rest : List Line} {next : Line}

theorem isComparison_of_branch {code : Instruction Handle} {condition : Condition} {target : Handle}
    (h : code = .branch condition target) : code.isComparison = false := by
  rw [h]
  rfl

theorem Parses.unique {lines' : ComparisonLines} {rest' : List Line} {next' : Line}
    (h : lines.Parses stream next rest) (h' : lines'.Parses stream next' rest') :
    lines = lines' ∧ next = next' ∧ rest = rest' := by
  obtain ⟨condition, hbranch, -⟩ := h.branch
  obtain ⟨condition', hbranch', -⟩ := h'.branch
  obtain ⟨left, right, comparison, branch, first, jump, second⟩ := lines
  obtain ⟨left', right', comparison', branch', first', jump', second'⟩ := lines'
  have heq := h.stream_eq.symm.trans h'.stream_eq
  simp only [segment, List.append_assoc, List.cons_append, List.nil_append, List.cons.injEq] at heq
  obtain ⟨rfl, rfl, hrest⟩ := heq
  obtain ⟨rfl, rfl, htail⟩ := optional_unique h.comparison h'.comparison
    (isComparison_of_branch hbranch) (isComparison_of_branch hbranch') hrest
  simp only [List.cons.injEq] at htail
  obtain ⟨rfl, rfl, rfl, rfl, rfl⟩ := htail
  exact ⟨rfl, rfl, rfl⟩

/-- Of the lines of the shape, a match is found if the branch takes as many operands as there
are. -/
theorem at?_of_named {found : ComparisonMatch} {condition : Condition}
    (named : lines.Named next.handle found)
    (hbranch : lines.branch.instruction = .branch condition lines.targetPush.handle) :
    ComparisonMatch.at? (lines.left :: (lines.segment ++ next :: rest)) =
      if condition.operandCount = (if lines.comparison.isSome then 1 else 2) then some lines.toMatch
      else none := by
  have hselection : ComparisonMatch.selection? (if lines.comparison.isSome then 1 else 2)
      (lines.branch :: lines.fallthroughPush :: lines.jump :: lines.targetPush :: next :: rest) =
      if condition.operandCount = (if lines.comparison.isSome then 1 else 2) then
        some (lines.branch.handle, lines.fallthroughPush.handle, lines.jump.handle,
          lines.targetPush.handle)
      else none := by
    have hjump := named.jump_eq
    obtain ⟨left, right, comparison, ⟨branch, code, _⟩, first, ⟨jump, code', _⟩, second⟩ := lines
    dsimp only at hbranch hjump
    subst hbranch hjump
    simp [ComparisonMatch.selection?, named.fallthrough_push, named.target_push]
  rw [segment]
  simp only [ComparisonMatch.at?, takeLine?, named.left_operand, if_true, Option.bind_eq_bind,
    Option.bind_some, List.cons_append, named.right_operand, List.append_assoc, List.nil_append,
    takeOptional_toList named.comparison_kind (isComparison_of_branch hbranch), Option.isSome_map,
    hselection]
  by_cases hcount : condition.operandCount = if lines.comparison.isSome then 1 else 2
  · rw [if_pos hcount, if_pos hcount]
    rfl
  · rw [if_neg hcount, if_neg hcount]
    rfl

theorem Parses.named (h : lines.Parses stream next rest) : lines.Named next.handle lines.toMatch :=
  ⟨rfl, rfl, rfl, rfl, rfl, rfl, rfl, h.left, h.right, h.comparison,
    h.branch.imp fun _ hbranch => hbranch.1, h.fallthroughPush, h.jump, h.targetPush⟩

end ComparisonLines

theorem ComparisonMatch.at?_eq_some_iff {stream : List Line} {found : ComparisonMatch} :
    ComparisonMatch.at? stream = some found ↔ ∃ (lines : ComparisonLines) (next : Line)
      (rest : List Line), lines.Parses stream next rest ∧ found = lines.toMatch := by
  constructor
  · intro h
    obtain ⟨lines, next, rest, rfl, named⟩ := at?_eq_some h
    obtain ⟨condition, hbranch⟩ := named.branch_eq
    rw [ComparisonLines.at?_of_named named hbranch] at h
    by_cases hcount : condition.operandCount = if lines.comparison.isSome then 1 else 2
    · rw [if_pos hcount] at h
      cases h
      exact ⟨lines, next, rest,
        ⟨rfl, named.left_operand, named.right_operand, named.comparison_kind,
        ⟨condition, hbranch, hcount⟩, named.fallthrough_push, named.jump_eq, named.target_push⟩,
          rfl⟩
    · rw [if_neg hcount] at h
      cases h
  · rintro ⟨lines, next, rest, hparses, rfl⟩
    obtain ⟨condition, hbranch, hcount⟩ := hparses.branch
    rw [hparses.stream_eq, ComparisonLines.at?_of_named hparses.named hbranch, if_pos hcount]

/-! ## Searches -/

/-- The result of a search through a stream is the match that starts first. -/
structure FindsFirst {α : Type} (matchAt? : Handle → Option α) (stream : List Line)
    (result : Option α) : Prop where
  some_iff : ∀ found, result = some found ↔
    ∃ skipped first rest, stream = skipped ++ first :: rest ∧
    (∀ line ∈ skipped, matchAt? line.handle = none) ∧ matchAt? first.handle = some found
  none_iff : result = none ↔ ∀ line ∈ stream, matchAt? line.handle = none

namespace FindsFirst

variable {α : Type} {matchAt? : Handle → Option α} {line : Line} {stream : List Line}

theorem nil : FindsFirst matchAt? [] none where
  some_iff := by simp
  none_iff := by simp

/-- A match at the front is the first. -/
theorem here {found : α} (h : matchAt? line.handle = some found) :
    FindsFirst matchAt? (line :: stream) (some found) where
  some_iff := by
    intro other
    constructor
    · intro he
      exact ⟨[], line, stream, rfl, by simp, h.trans he⟩
    · rintro ⟨skipped, first, rest, heq, hskipped, hfirst⟩
      cases skipped with
      | nil =>
        obtain ⟨rfl, -⟩ := List.cons.inj heq
        exact h.symm.trans hfirst
      | cons front skipped =>
        obtain ⟨rfl, -⟩ := List.cons.inj heq
        simp [h] at hskipped
  none_iff := by simp [h]

/-- Where no match starts the search goes on. -/
theorem there {result : Option α} (h : matchAt? line.handle = none)
    (hrest : FindsFirst matchAt? stream result) : FindsFirst matchAt? (line :: stream) result where
  some_iff := by
    intro found
    rw [hrest.some_iff]
    constructor
    · rintro ⟨skipped, first, rest, rfl, hskipped, hfirst⟩
      exact ⟨line :: skipped, first, rest, rfl, List.forall_mem_cons.mpr ⟨h, hskipped⟩, hfirst⟩
    · rintro ⟨skipped, first, rest, heq, hskipped, hfirst⟩
      cases skipped with
      | nil =>
        obtain ⟨rfl, -⟩ := List.cons.inj heq
        cases h.symm.trans hfirst
      | cons front skipped =>
        obtain ⟨-, heq⟩ := List.cons.inj heq
        exact ⟨skipped, first, rest, heq, (List.forall_mem_cons.mp hskipped).2, hfirst⟩
  none_iff := by
    rw [hrest.none_iff, List.forall_mem_cons]
    exact ⟨fun hnone => ⟨h, hnone⟩, fun hnone => hnone.2⟩

end FindsFirst

namespace Listing

variable {listing : Listing} {before after : List Line} {line : Line}

theorem Cut.findsFirst {α : Type} (cut : listing.Cut before line after)
    (distinct : listing.Distinct) (matchAt? : List Line → Option α) :
    FindsFirst (fun handle => matchAt? (listing.linesFrom handle)) (line :: after)
      (findMatch? matchAt? (listing.linesFrom line.handle)) := by
  induction after generalizing before line with
  | nil =>
    have hfrom := cut.linesFrom distinct
    rw [hfrom, findMatch?]
    cases hmatch : matchAt? [line] with
    | some found => exact .here (by rw [hfrom, hmatch])
    | none => exact .there (by rw [hfrom, hmatch]) .nil
  | cons next after ih =>
    have hfrom := cut.linesFrom distinct
    rw [hfrom, findMatch?]
    cases hmatch : matchAt? (line :: next :: after) with
    | some found => exact .here (by rw [hfrom, hmatch])
    | none =>
      have hrest := ih cut.forth
      rw [cut.forth.linesFrom distinct] at hrest
      exact .there (by rw [hfrom, hmatch]) hrest

/-- Both matchers accept exactly their grammars at every line of the stream, and name the only lines
that can play the roles. What an arithmetic match has after its operator is the longest tail. A
search ends with the match that starts first. -/
theorem matchers_accept_grammars (distinct : listing.Distinct)
    (cut : listing.Cut before line after) :
    ((∃ found, listing.matchArithmetic? line.handle = some found) ↔
      ∃ word ∈ Grammar.arithmetic, word <+: line :: after) ∧
    (∀ found, listing.matchArithmetic? line.handle = some found ↔ ∃ lines rest tail,
      ArithmeticLines.Parses lines (line :: after) rest ∧ Grammar.Longest Grammar.tail rest tail ∧
        found = lines.matchWith tail) ∧
    (∀ lines lines' rest rest', ArithmeticLines.Parses lines (line :: after) rest →
      ArithmeticLines.Parses lines' (line :: after) rest' → lines = lines') ∧
    (∀ found, listing.matchComparison? line.handle = some found ↔ ∃ lines next rest,
      ComparisonLines.Parses lines (line :: after) next rest ∧ found = lines.toMatch) ∧
    (∀ lines lines' next next' rest rest', ComparisonLines.Parses lines (line :: after) next rest →
      ComparisonLines.Parses lines' (line :: after) next' rest' → lines = lines') ∧
    FindsFirst listing.matchArithmetic? (line :: after) (listing.findArithmetic? line.handle) ∧
    FindsFirst listing.matchComparison? (line :: after) (listing.findComparison? line.handle) := by
  have hfrom := cut.linesFrom distinct
  have harithmetic : ∀ found, listing.matchArithmetic? line.handle = some found ↔ ∃ lines rest tail,
      ArithmeticLines.Parses lines (line :: after) rest ∧ Grammar.Longest Grammar.tail rest tail ∧
        found = lines.matchWith tail := by
    intro found
    rw [matchArithmetic?, hfrom, ArithmeticMatch.at?_eq_some_iff]
  refine ⟨?_, harithmetic, fun _ _ _ _ h h' => (h.unique h').1, ?_,
    fun _ _ _ _ _ _ h h' => (h.unique h').1, cut.findsFirst distinct _, cut.findsFirst distinct _⟩
  · rw [← ArithmeticLines.exists_parses_iff]
    constructor
    · rintro ⟨found, hfound⟩
      obtain ⟨lines, rest, -, hparses, -⟩ := (harithmetic found).mp hfound
      exact ⟨lines, rest, hparses⟩
    · rintro ⟨lines, rest, hparses⟩
      exact ⟨_, (harithmetic _).mpr ⟨lines, rest, _, hparses, Grammar.longest_greedyTail rest, rfl⟩⟩
  · intro found
    rw [matchComparison?, hfrom, ComparisonMatch.at?_eq_some_iff]

/-- A sum of two `long`s, one of them converted, with a call and two pairs after it. -/
def loopingSum : Listing where
  lines := #[⟨⟨0⟩, .load 1 .int, false⟩, ⟨⟨1⟩, .convert .int .long, false⟩,
    ⟨⟨2⟩, .push (.long 1) .long, false⟩, ⟨⟨3⟩, .arithmetic .add .long, false⟩,
    ⟨⟨4⟩, .invokeVirtual 7, false⟩, ⟨⟨5⟩, .increment 1 1, false⟩, ⟨⟨6⟩, .jump ⟨0⟩, false⟩,
    ⟨⟨7⟩, .increment 2 1, false⟩, ⟨⟨8⟩, .jump ⟨2⟩, false⟩, ⟨⟨9⟩, .increment 3 1, false⟩]
  fresh := 10
  handlers := #[]
  laidOut := false

theorem matchers_accept_grammars_loopingSum : loopingSum.matchArithmetic? ⟨0⟩ =
      some ⟨⟨0⟩, some ⟨1⟩, ⟨2⟩, none, ⟨3⟩, some (⟨7⟩, ⟨8⟩), ⟨8⟩⟩ ∧
    (∃ word ∈ Grammar.arithmetic, word <+: loopingSum.lines.toList) ∧
    ∃ lines rest tail, ArithmeticLines.Parses lines loopingSum.lines.toList rest ∧
      Grammar.Longest Grammar.tail rest tail ∧ lines.operator.handle = ⟨3⟩ ∧
      tail.getLast?.map (·.handle) = some ⟨8⟩ := by
  have hmatch : loopingSum.matchArithmetic? ⟨0⟩ =
      some ⟨⟨0⟩, some ⟨1⟩, ⟨2⟩, none, ⟨3⟩, some (⟨7⟩, ⟨8⟩), ⟨8⟩⟩ := by decide
  have distinct : loopingSum.Distinct := by unfold Distinct; decide
  have cut : loopingSum.Cut [] ⟨⟨0⟩, .load 1 .int, false⟩ (loopingSum.lines.toList.drop 1) := rfl
  obtain ⟨haccepts, hroles, -⟩ := matchers_accept_grammars distinct cut
  obtain ⟨lines, rest, tail, hparses, hlongest, hfound⟩ := (hroles _).mp hmatch
  have hoperator : lines.operator.handle = ⟨3⟩ := (congrArg ArithmeticMatch.operator hfound).symm
  refine ⟨hmatch, haccepts.mp ⟨_, hmatch⟩, lines, rest, tail, hparses, hlongest, hoperator, ?_⟩
  have hlast : (tail.getLast?.getD lines.operator).handle = ⟨8⟩ :=
    (congrArg ArithmeticMatch.last hfound).symm
  cases htail : tail.getLast? with
  | none =>
    rw [htail, Option.getD_none, hoperator] at hlast
    cases hlast
  | some line =>
    rw [htail, Option.getD_some] at hlast
    rw [Option.map_some, hlast]

end Listing

end BytecodeFold
