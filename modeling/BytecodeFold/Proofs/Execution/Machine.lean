import BytecodeFold.ConstantPool.Basic
import BytecodeFold.Listing.Basic
import Mathlib.Logic.Relation

/-!
# Running a listing

A machine runs the instructions of a listing on an operand stack and local variables. Literals,
locals, arithmetic, comparisons and jumps are computed here. Every other instruction is a request
to an arbitrary environment, which sees the stack and the world outside and changes both, but not
the locals. An instruction whose operands have the wrong types leaves the machine stuck.

What an instruction does is given in two steps: its effect on stack and locals, and then where
control goes, which is for the listing to say.
-/

namespace BytecodeFold

/-! ## Values -/

inductive Reference where
  | null
  | object (identity : Nat)
  deriving DecidableEq

/-- What the stack and the locals hold. A return address is the instruction after a subroutine
call, if there is one. -/
inductive Value where
  | number (value : Number)
  | reference (value : Reference)
  | address (next : Option Handle)
  deriving DecidableEq

def Value.type : Value → TypeTag
  | number value => value.naturalType
  | reference _ | address _ => .reference

/-- The contents of the local variables. Nothing can be read from a slot that was never written
and from half of a wide value. -/
abbrev Locals := Nat → Option Value

/-- Stores a value. It takes the slot after it too if it is wide, and what was stored across one
of its slots is gone. -/
def Locals.store (locals : Locals) (slot : Nat) (value : Value) : Locals := fun other =>
  if other = slot then some value
  else if other = slot + 1 ∧ value.type.isWide then none
  else if other + 1 = slot ∧ (locals other).any (·.type.isWide) then none
  else locals other

/-! ## The environment -/

inductive Request where
  /-- A constant of the pool that is not a number. -/
  | constant (entry : Entry)
  | invokeVirtual (index : UInt16)
  | perform (code : Verbatim)

inductive Response (W : Type) where
  | proceed (stack : List Value) (world : W)
  | throw (exception : Reference) (world : W)
  | finish (world : W)
  | stuck

/-- The answers to all requests, for worlds of type `W`. -/
structure Environment (W : Type) where
  respond : Request → List Value → W → Response W
  /-- The exception for a division by zero. -/
  divisionByZero : W → Reference × W
  /-- Whether a handler for a class takes an exception. -/
  catches : UInt16 → Reference → Bool

/-! ## Effects of instructions -/

/-- What an instruction does, up to where control goes. -/
inductive Effect where
  /-- Goes on with the next instruction. -/
  | advance (stack : List Value) (locals : Locals)
  | goto (target : Handle) (stack : List Value)
  | call (target : Handle)
  | ret (next : Option Handle)
  | request (request : Request)
  | divisionByZero
  | stuck

/-- Whether a condition holds of the operands on the stack, and the stack without them. -/
def Condition.test? : Condition → List Value → Option (Bool × List Value)
  | zero relation, .number (.int value) :: rest =>
    some (relation.holds (compare value.toInt 0), rest)
  | intCompare relation, .number (.int right) :: .number (.int left) :: rest =>
    some (relation.holds (compare left.toInt right.toInt), rest)
  | refEqual, .reference right :: .reference left :: rest => some (left = right, rest)
  | refNotEqual, .reference right :: .reference left :: rest => some (left ≠ right, rest)
  | null, .reference value :: rest => some (value = .null, rest)
  | nonNull, .reference value :: rest => some (value ≠ .null, rest)
  | _, _ => none

/-- The type of the right operand. The distance of a shift is an `int`. -/
def ArithmeticOp.rightType (op : ArithmeticOp) (type : TypeTag) : TypeTag :=
  if op.isShift then .int else type.promote

def Instruction.effect (pool : ConstantPool) (stack : List Value) (locals : Locals) :
    Instruction Handle → Effect
  | push value _ => .advance (.number value :: stack) locals
  | loadConstant index wide =>
    match pool.get? index with
    | some entry =>
      match entry.number? with
      | some value =>
        if value.naturalType.isWide = wide then .advance (.number value :: stack) locals else .stuck
      | none => .request (.constant entry)
    | none => .stuck
  | load slot type =>
    match locals slot.toNat with
    | some (.address _) | none => .stuck
    | some value => if value.type = type.promote then .advance (value :: stack) locals else .stuck
  | store slot type =>
    match stack with
    | value :: rest =>
      if value.type = type.promote then .advance rest (locals.store slot.toNat value) else .stuck
    | [] => .stuck
  | convert source target =>
    match stack with
    | .number value :: rest =>
      if value.naturalType = source.promote then
        .advance (.number (value.convert target) :: rest) locals
      else .stuck
    | _ => .stuck
  | arithmetic op type =>
    match stack with
    | .number right :: .number left :: rest =>
      if left.naturalType = type.promote ∧ right.naturalType = op.rightType type then
        match Number.evaluate op left right type with
        | .ok (some value) => .advance (.number value :: rest) locals
        | .ok none => .divisionByZero
        | .error _ => .stuck
      else .stuck
    | _ => .stuck
  | compare kind =>
    match stack with
    | .number right :: .number left :: rest =>
      if left.naturalType = kind.operandType ∧ right.naturalType = kind.operandType then
        .advance (.number (.int (Int32.ofInt (Number.compareThreeWay kind left right))) :: rest)
          locals
      else .stuck
    | _ => .stuck
  | branch condition target =>
    match condition.test? stack with
    | some (true, rest) => .goto target rest
    | some (false, rest) => .advance rest locals
    | none => .stuck
  | jump target => .goto target stack
  | increment slot amount =>
    match locals slot.toNat with
    | some (.number (.int value)) =>
      .advance stack (locals.store slot.toNat (.number (.int (value + amount.toInt32))))
    | _ => .stuck
  | invokeVirtual index => .request (.invokeVirtual index)
  | subroutine target => .call target
  | switch _ default cases =>
    match stack with
    | .number (.int key) :: rest => .goto ((cases.lookup key).getD default) rest
    | _ => .stuck
  | other code =>
    match code.retSlot? with
    | some slot =>
      match locals slot.toNat with
      | some (.address next) => .ret next
      | _ => .stuck
    | none => .request (.perform code)

/-! ## Machines -/

/-- A request with the stack and the world it was made on. -/
structure Call (W : Type) where
  request : Request
  stack : List Value
  world : W

structure State (W : Type) where
  current : Option Handle
  stack : List Value
  locals : Locals
  world : W
  /-- The requests so far, the last one first. -/
  calls : List (Call W)

inductive Ending where
  | returned
  | uncaught (exception : Reference)
  /-- Control went to where there is no instruction. -/
  | leftCode

/-- How a run ended, with what the environment has seen of it. -/
structure Finish (W : Type) where
  ending : Ending
  world : W
  calls : List (Call W)

inductive Transition (W : Type) where
  | next (state : State W)
  | halt (finish : Finish W)
  | stuck

/-- Whether a handle lies in the part of the stream that an exception handler covers. -/
def Listing.covers (listing : Listing) (entry : ExceptionHandler) (handle : Handle) : Bool :=
  match listing.indexOf? entry.start, listing.indexOf? handle with
  | some start, some index =>
    start ≤ index && match entry.stop with
      | some stop => (listing.indexOf? stop).any (index < ·)
      | none => true
  | _, _ => false

structure Machine (W : Type) where
  listing : Listing
  pool : ConstantPool
  environment : Environment W

namespace Machine

variable {W : Type}

/-- The handler that takes an exception thrown at a handle: the first that covers it and is for
such exceptions. -/
def handler? (machine : Machine W) (handle : Handle) (exception : Reference) : Option Handle :=
  (machine.listing.handlers.find? fun entry => machine.listing.covers entry handle &&
    (entry.catchType = 0 || machine.environment.catches entry.catchType exception)).map (·.handler)

def throw (machine : Machine W) (handle : Handle) (state : State W) (exception : Reference) :
    Transition W :=
  match machine.handler? handle exception with
  | some target => .next { state with current := some target, stack := [.reference exception] }
  | none => .halt ⟨.uncaught exception, state.world, state.calls⟩

/-- Makes a request to the environment. -/
def ask (machine : Machine W) (handle : Handle) (state : State W) (request : Request) :
    Transition W :=
  let calls := ⟨request, state.stack, state.world⟩ :: state.calls
  match machine.environment.respond request state.stack state.world with
  | .proceed stack world =>
    .next { state with current := machine.listing.next? handle, stack, world, calls }
  | .throw exception world => machine.throw handle { state with world, calls } exception
  | .finish world => .halt ⟨.returned, world, calls⟩
  | .stuck => .stuck

/-- Applies the effect of the instruction at a handle. -/
def apply (machine : Machine W) (handle : Handle) (state : State W) : Effect → Transition W
  | .advance stack locals =>
    .next { state with current := machine.listing.next? handle, stack, locals }
  | .goto target stack => .next { state with current := some target, stack }
  | .call target => .next { state with
      current := some target, stack := .address (machine.listing.next? handle) :: state.stack }
  | .ret next => .next { state with current := next }
  | .request request => machine.ask handle state request
  | .divisionByZero =>
    let (exception, world) := machine.environment.divisionByZero state.world
    machine.throw handle { state with world } exception
  | .stuck => .stuck

def step (machine : Machine W) (state : State W) : Transition W :=
  match state.current.bind fun handle => (machine.listing.get? handle).map (handle, ·) with
  | some (handle, code) =>
    machine.apply handle state (code.effect machine.pool state.stack state.locals)
  | none => .halt ⟨.leftCode, state.world, state.calls⟩

/-- The state in which a method is entered with these locals. -/
def start (machine : Machine W) (initial : Locals) (world : W) : State W where
  current := machine.listing.head?
  stack := []
  locals := initial
  world := world
  calls := []

/-! ## Runs -/

def Reaches (machine : Machine W) : State W → State W → Prop :=
  Relation.ReflTransGen fun state next => machine.step state = .next next

def NeverStuck (machine : Machine W) (state : State W) : Prop :=
  ∀ reached, machine.Reaches state reached → machine.step reached ≠ .stuck

def Halts (machine : Machine W) (state : State W) (finish : Finish W) : Prop :=
  ∃ reached, machine.Reaches state reached ∧ machine.step reached = .halt finish

/-- At some point of the run the environment has seen these calls and is in this world. -/
def Observed (machine : Machine W) (state : State W) (world : W) (calls : List (Call W)) : Prop :=
  ∃ reached, machine.Reaches state reached ∧ reached.world = world ∧ reached.calls = calls

end Machine

/-- The second machine does what the first one does, as far as the environment can see. A run
that goes on for ever makes the same calls too. -/
structure SameBehaviour {W : Type} (first second : Machine W) (initial : Locals)
    (world : W) : Prop where
  halts (finish : Finish W) :
    first.Halts (first.start initial world) finish ↔
    second.Halts (second.start initial world) finish
  observed (seen : W) (calls : List (Call W)) :
    first.Observed (first.start initial world) seen calls ↔
      second.Observed (second.start initial world) seen calls
  neverStuck : second.NeverStuck (second.start initial world)

end BytecodeFold
