import LivingDoc.Fixture.Basic
import LivingDoc.Text.Uppercase

/-!
# Invoking operations by name

From "the document names an operation" to "the operation has answered" (specification, 4.3): the
operation is looked up, the arguments are put into the slots of its parameters and converted, and
only then is the fixture called.  Whatever goes wrong is an `Invocation.Fault`.  The parts are those
of the invoker: `lookUp` is its `resolve`, `bindArguments` its `bind`, and `invoke` its `invoke`.

* `bindArguments` gives one value for each parameter, or says why it cannot.
* `invoke` makes at most one call.
-/

namespace LivingDoc

/-- An argument with its value, by position or by the name of its parameter. -/
structure Argument where
  name : Option String
  value : Value
deriving DecidableEq, Repr

namespace Invocation

/-! ## 1. Faults -/

/-- Why an operation gave no value.  Arity, names and types are found out before the call; the last
two are answers of the fixture. -/
inductive Fault where
  | operationNotFound (operation typeName : String)
  | arity (operation : String) (expected actual : Nat)
  | unknownParameter (operation parameter : String)
  | duplicateParameter (operation parameter : String)
  | coercion (operation parameter : String) (type : ParamType) (value : Value)
  | raised (operation message : String) (causes : List String)
  | panicked (operation message : String)
deriving DecidableEq, Repr

def Fault.message : Fault → String
  | .operationNotFound o t => "No operation named '" ++ o ++ "' on fixture " ++ t
  | .arity o e a =>
    "'" ++ o ++ "' expects " ++ toString e ++ " argument(s) but " ++ toString a ++ " were given"
  | .unknownParameter o p => "'" ++ o ++ "' has no parameter named '" ++ p ++ "'"
  | .duplicateParameter o p =>
    "parameter '" ++ p ++ "' of '" ++ o ++ "' was given more than once"
  | .coercion o p t v =>
    "cannot convert " ++ v.display ++ " (" ++ v.kind ++ ") to " ++ t.name ++ " for parameter '" ++ p
      ++ "' of '" ++ o ++ "'"
  | .raised o m _ => o ++ " failed: " ++ m
  | .panicked o m => o ++ " panicked: " ++ m

/-- The lines that support the message: the chain of the errors behind a raised one. -/
def Fault.context : Fault → List String
  | .raised _ _ causes => causes.map ("caused by: " ++ ·)
  | _ => []

/-! ## 2. Looking the operation up -/

/-- The names under which a property may be asked for: `get<Name>` and `is<Name>`, in this order. -/
def accessorNames (operation : String) : List String :=
  if operation.isEmpty then []
  else ["get" ++ Text.capitalized operation, "is" ++ Text.capitalized operation]

/-- The operation that serves a name: the invoker's `resolve`.  The name itself comes first.
Without arguments an accessor serves as well, and here the rule is narrower than the specification's
"property-style fallbacks `get<Name>` and `is<Name>` are tried" (4.3): the first accessor that
exists is taken, and only then is it looked at whether it takes no parameters.  So a `get<Name>`
with parameters hides `is<Name>`. -/
def lookUp (resolve : String → Option Signature) (operation : String) (bare : Bool) :
    Option Signature :=
  match resolve operation with
  | some s => some s
  | none =>
    if bare then ((accessorNames operation).findSome? resolve).filter (·.params.isEmpty) else none

/-! ## 3. Binding the arguments -/

/-- Put the arguments into slots from left to right, which is the first loop of the invoker's
`bind`.  An argument by name goes to the first parameter of that name; one by position goes to the
place `next`, which counts the arguments by position alone and passes over no slot that a name has
taken.  The faults are found in this order: a name that no parameter has, a slot there is no
parameter for, a slot that is taken. -/
def fillSlots (s : Signature) (given : Nat) :
    List Argument → (next : Nat) → List (Option Value) → Except Fault (List (Option Value))
  | [], _, slots => .ok slots
  | a :: rest, next, slots =>
    let place := match a.name with
      | some n => s.paramIndex? n
      | none => some next
    match place with
    | none => .error (.unknownParameter s.name (a.name.getD ""))
    | some i =>
      match slots[i]?, s.params[i]? with
      | some none, _ =>
        fillSlots s given rest (if a.name.isSome then next else next + 1)
          (slots.set i (some a.value))
      | some (some _), some p => .error (.duplicateParameter s.name p.name)
      | _, _ => .error (.arity s.name s.params.length given)

/-- Convert the values in the slots to the types of their parameters, from left to right: the second
loop of `bind`.  A slot left empty and a value that does not convert are found in the order of the
parameters, and the arity that is reported counts all arguments given. -/
def convertSlots (s : Signature) (given : Nat) :
    List Param → List (Option Value) → Except Fault (List Value)
  | p :: ps, some v :: slots =>
    match v.coerce p.type with
    | .error v => .error (.coercion s.name p.name p.type v)
    | .ok w => (convertSlots s given ps slots).map fun ws => w :: ws
  | _ :: _, none :: _ => .error (.arity s.name s.params.length given)
  | _, _ => .ok []

/-- The values for the parameters of an operation, in their order: the invoker's `bind`
(specification, 4.3: arity mismatch, unknown named parameter and coercion failure are errors). -/
def bindArguments (s : Signature) (as : List Argument) : Except Fault (List Value) :=
  match fillSlots s as.length as 0 (List.replicate s.params.length none) with
  | .error f => .error f
  | .ok slots => convertSlots s as.length s.params slots

/-! ## 4. The call -/

/-- What the answer to a call comes to (`raised`, and what is caught of a panic).  A panic that
leaves no message gets one. -/
def resultOf (operation : String) : Reply → Except Fault Value
  | .returned v => .ok v
  | .raised m causes => .error (.raised operation m causes)
  | .panicked m => .error (.panicked operation (m.getD "unknown panic payload"))

/-- The result of an invocation, the calls made for it, and the state of the fixture after it. -/
structure Invoked (σ : Type) where
  result : Except Fault Value
  calls : List Call
  state : σ

/-- Invoke an operation of a fixture.  The call is made under the name in the signature, which for
an accessor is not the name that the document uses; a fault before the call leaves the state as it
is. -/
def invoke {σ : Type} (f : Fixture σ) (s : σ) (operation : String) (as : List Argument) :
    Invoked σ :=
  match lookUp (f.resolve s) operation as.isEmpty with
  | none => ⟨.error (.operationNotFound operation f.typeName), [], s⟩
  | some signature =>
    match bindArguments signature as with
    | .error e => ⟨.error e, [], s⟩
    | .ok values =>
      let (reply, s') := f.call s signature.name values
      ⟨resultOf signature.name reply, [⟨f.typeName, signature.name, values⟩], s'⟩

end Invocation

end LivingDoc
