import GraphWire.Model.Encoding

/-!
# Sessions

A session is a sequence of calls on one builder.  A `Call` names one of them with its arguments, so
that what holds of every use of a builder can be said of lists of calls.
-/

namespace GraphWire

inductive Call where
  | prepare (alignment additional : Number)
  | write (type : Scalar) (value : type.Value)
  | writeOffset (target : Number)
  | addField (slot : Number) (field : Field)
  | startTable (fieldCount : Number)
  | endTable
  | startVector (elementSize count alignment : Number)
  | endVector
  | scalars (type : Scalar) (values : List type.Value)
  | offsets (targets : List Number)
  | string (bytes : List UInt8)
  | attrs (attrs : Attrs)
  | payload (payload : Payload)
  | operator (operator : Operator)
  | constant (constant : Constant)
  | valueNode
  | node (node : Node)
  | graph (graph : Graph)
  | model (model : Model)
  | finish (root : Number) (options : FinishOptions)
  | bytes
  | offset
  | clear

inductive Answer where
  | nothing
  | offset (offset : Nat)
  | bytes (bytes : List UInt8)
deriving DecidableEq, Repr

variable {σ : Type} [Store σ]

def Call.perform : Call → BuildOver σ Answer
  | prepare alignment additional => nothing (Build.prepare alignment additional)
  | write type value => nothing (Build.write type value)
  | writeOffset target => nothing (Build.writeOffset target)
  | addField slot field => nothing (Build.addField slot field)
  | startTable fieldCount => nothing (Build.startTable fieldCount)
  | endTable => Answer.offset <$> Build.endTable
  | startVector elementSize count alignment =>
      nothing (Build.startVector elementSize count alignment)
  | endVector => Answer.offset <$> Build.endVector
  | scalars type values => Answer.offset <$> Build.scalars type values
  | offsets targets => Answer.offset <$> Build.offsets targets
  | string content => Answer.offset <$> Build.stringBytes content
  | attrs content => Answer.offset <$> content.write
  | payload content => Answer.offset <$> content.write
  | operator content => Answer.offset <$> content.write
  | constant content => Answer.offset <$> content.write
  | valueNode => Answer.offset <$> Build.valueNode
  | node content => Answer.offset <$> content.write
  | graph content => Answer.offset <$> content.write
  | model content => Answer.offset <$> content.write
  | finish root options => nothing (Build.finish root options)
  | bytes => Answer.bytes <$> Build.bytes
  | offset => do return .offset (← get).offset
  | clear => nothing Build.clear
where
  /-- A computation without a result of its own. -/
  nothing (computation : BuildOver σ Unit) : BuildOver σ Answer := do
    computation
    return .nothing

/-- The outcome of a call and the builder after it, also when the call failed. -/
def Builder.step (builder : Builder σ) (call : Call) : Except BuildError Answer × Builder σ :=
  match call.perform builder with
  | .ok answer next => (.ok answer, next)
  | .error error next => (.error error, next)

/-- The outcomes of a sequence of calls and the builder after it. -/
def Builder.run (builder : Builder σ) :
    List Call → List (Except BuildError Answer) × Builder σ
  | [] => ([], builder)
  | call :: calls =>
      let (outcome, next) := builder.step call
      let (outcomes, last) := next.run calls
      (outcome :: outcomes, last)

end GraphWire
