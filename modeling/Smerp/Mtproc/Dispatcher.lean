import Smerp.Protocol.LineBuffers

/-!
# The command dispatcher

`CommandDispatcher` of `examples/mtproc/dispatcher.cpp`: it recognises the commands of the protocol
and the methods of a table, parses the arguments of a method, and calls it. The methods and the
generators that they create are arguments. The default constructor follows a `NULL` pointer in
`resetCommand`; the model starts where `init` has been called with an instance, and leaves the state
`Null` to the enumeration.
-/

namespace Smerp.Mtproc

open Lib Protocol

/-! ## Methods -/

/-- `Generator::State` -/
inductive GeneratorState where
  | init
  | processing
  | endOfMessage
  | endOfInput
  | error
  deriving DecidableEq, Repr

/-- The interface `Generator` of `include/protocol/generator.hpp`, as far as the dispatcher uses
it. -/
structure Generator (γ : Type) where
  state : γ → GeneratorState
  getError : γ → Int
  protocolInput : γ → List Byte → γ
  setEoD : γ → γ

/-- `Method::Context`: the data of the instance and the generator, `none` is the `NULL` pointer. -/
structure Context (δ γ : Type) where
  data : δ
  contentIterator : Option γ
  deriving DecidableEq, Repr

/-- `Method`: its name, a string without zeros, and its function. -/
structure Method (δ γ : Type) where
  name : List Byte
  call : Context δ γ → List (List Byte) → Int × Context δ γ

/-! ## The dispatcher -/

/-- What can end a call of the handler: the exception `IllegalState`, and the faults of the
blocks. -/
inductive Failure where
  | illegalState
  | fault (fault : Fault)
  deriving DecidableEq, Repr

/-- The states of the dispatcher. -/
inductive DispatcherState where
  | null
  | init
  | selected
  | argumentsParsed
  | running
  | waitForInput
  deriving DecidableEq, Repr

/-- `CommandDispatcher`. The line buffer is the one that the argument buffer writes to. -/
structure CommandDispatcher (δ γ : Type) where
  cmdBuffer : CmdBuffer
  argBuffer : CArgBuffer (Buffer 256)
  parser : CmdParser
  context : Context δ γ
  methodIdx : Nat
  state : DispatcherState
  deriving DecidableEq, Repr

/-- `Command` -/
inductive Command where
  | unknown
  | empty
  | caps
  | quit
  | method
  deriving DecidableEq, Repr

/-- The command of an index that the parser returns. -/
def Command.ofIndex : Int → Command
  | 0 => .empty
  | 1 => .caps
  | 2 => .quit
  | -1 => .unknown
  | _ => .method

/-- `IOState` -/
inductive IOState where
  | readInput
  | writeOutput
  | close
  deriving DecidableEq, Repr

/-- A fault of the blocks ends the call. -/
def orFault {α : Type} : Except Fault α → Except Failure α
  | .ok value => .ok value
  | .error fault => .error (.fault fault)

/-- The commands of the protocol. -/
def protocolCmds : List (List Byte) := [text "", text "caps", text "quit"]

namespace CommandDispatcher

variable {δ γ : Type}

/-- The constructor, over uninitialised memory, and `init` with an instance; `none` is the exception
`Bad`. -/
def new (line : Buffer 256) (mt : List (Method δ γ)) (data : δ) :
    Option (CommandDispatcher δ γ) := do
  let parser ← CmdParser.build (protocolCmds ++ mt.map Method.name)
  return {
    cmdBuffer := .new
    argBuffer := .new line.init
    parser := parser
    context := ⟨data, none⟩
    methodIdx := 0
    state := .init }

/-- `resetCommand` -/
def resetCommand (d : CommandDispatcher δ γ) : CommandDispatcher δ γ :=
  { d with
    methodIdx := 0
    argBuffer := d.argBuffer.init
    cmdBuffer := d.cmdBuffer.init
    state := .init
    context := { d.context with contentIterator := none } }

/-- `protocolInput`, for the bytes `[start, stop)` of the block. -/
def protocolInput (G : Generator γ) (d : CommandDispatcher δ γ) (block : InputBlock)
    (start stop : Nat) :
    Except Failure (CommandDispatcher δ γ) :=
  if d.state = .waitForInput then
    match d.context.contentIterator with
    | some iterator => do
        let _ ← orFault (block.get start)
        let iterator := G.protocolInput iterator (Block.slice block.bytes start (stop - start))
        return { d with
          state := .running
          context := { d.context with contentIterator := some iterator } }
    | none => .error .illegalState
  else .error .illegalState

/-- `setEoD` -/
def setEoD (G : Generator γ) (d : CommandDispatcher δ γ) : CommandDispatcher δ γ :=
  { d with context := { d.context with contentIterator := d.context.contentIterator.map G.setEoD } }

/-- `case Selected` of `getCommand`, with the position behind the arguments. The state does not
change when the arguments are complete. -/
def getArguments (d : CommandDispatcher δ γ) (get : Nat → Except Fault Byte) (itr eoM : Nat) :
    Except Failure (Command × Nat × CommandDispatcher δ γ) := do
  let (done, itr, argBuffer) ← orFault (getLine get itr eoM d.argBuffer)
  let d := { d with argBuffer := argBuffer }
  -- `case ArgumentsParsed` follows without a `break`, but nothing assigns this state
  return (if !done then .unknown else .method, itr, d)

/-- `getCommand`: the command, the position behind it, and the dispatcher. Every state has its case,
so the throw at the end is never reached. -/
def getCommand (d : CommandDispatcher δ γ) (get : Nat → Except Fault Byte) (itr eoM : Nat) :
    Except Failure (Command × Nat × CommandDispatcher δ γ) :=
  match d.state with
  | .selected => d.getArguments get itr eoM
  | .argumentsParsed => .ok (.method, itr, d)
  | .running | .waitForInput | .null | .init => do
      -- the front of a command word that was cut is lost here
      let d := d.resetCommand
      let (ci, itr, cmdBuffer) ← orFault (d.parser.getCommand get itr eoM d.cmdBuffer)
      let d := { d with cmdBuffer := cmdBuffer }
      match Command.ofIndex ci with
      | .method => getArguments { d with methodIdx := ci.toNat - 3, state := .selected } get itr eoM
      | cmd => return (cmd, itr, d)

/-- `case Running` of `call`, with the error code for the client. -/
def callMethod (mt : List (Method δ γ)) (G : Generator γ) (d : CommandDispatcher δ γ) :
    Except Failure (IOState × Int × CommandDispatcher δ γ) :=
  match mt[d.methodIdx]? with
  | none => .error (.fault .wildRead)
  | some method =>
      let (returnCode, context) := method.call d.context d.argBuffer.argv
      let d := { d with context := context }
      if returnCode ≠ 0 then .ok (.close, returnCode, d.resetCommand)
      -- without a generator the `switch` is left, and `Close` is returned behind it
      else match context.contentIterator with
        | none => .ok (.close, returnCode, d)
        | some iterator =>
            match G.state iterator with
            | .init | .processing => .ok (.writeOutput, returnCode, d)
            | .error => .ok (.close, G.getError iterator, d.resetCommand)
            | .endOfInput => .ok (.close, returnCode, d.resetCommand)
            | .endOfMessage => .ok (.readInput, returnCode, { d with state := .waitForInput })

/-- `call` -/
def call (mt : List (Method δ γ)) (G : Generator γ) (d : CommandDispatcher δ γ) :
    Except Failure (IOState × Int × CommandDispatcher δ γ) :=
  match d.state with
  | .null | .init | .selected => .error .illegalState
  | .argumentsParsed => callMethod mt G { d with state := .running }
  | .waitForInput | .running => callMethod mt G d

/-- The loop of `getCaps`. -/
def appendCaps (buffer : Buffer 256) (names : List (List Byte)) : Buffer 256 :=
  ((text ", ").intercalate names).foldl Buffer.pushBack buffer

/-- `getCaps` -/
def getCaps (d : CommandDispatcher δ γ) (mt : List (Method δ γ)) :
    List Byte × CommandDispatcher δ γ :=
  let lineBuffer := appendCaps d.argBuffer.content.init (mt.map Method.name)
  (lineBuffer.content, { d with argBuffer := { d.argBuffer with content := lineBuffer } })

end CommandDispatcher

end Smerp.Mtproc
