import Intcode.Config
import Intcode.Fault
import Intcode.Pipeline
import Intcode.Program
import Intcode.Text.Part
import Intcode.Text.Quoted

/-! Failures of a command, and the chain of messages they are shown as: what failed, then what
caused it. -/
namespace Intcode

inductive Failure where
  | image (error : ImageError)
  | config (error : ConfigError)
  | machine (fault : Fault)
  | pipeline (error : PipelineError)
  | stream (reason : String)
  | json (reason : String)
  | badPoke (argument : String)
  | badInput (token : String)
  | inputExhausted (cursor : Nat)
  | inputClosed
deriving DecidableEq

/-- A message, and below it the messages of its causes. -/
structure ErrorChain where
  primary : String
  causes : List String
deriving DecidableEq

namespace ErrorChain

/-- The causes to show below a message. One whose text is already part of the message shown just
above it is left out. -/
def causesBelow (above : String) : List String → List String
  | [] => []
  | cause :: rest =>
    if Text.hasPart cause.toList above.toList then causesBelow above rest
    else cause :: causesBelow cause rest

def ofTexts (primary : String) (sources : List String) : ErrorChain :=
  { primary, causes := causesBelow primary sources }

/-- The messages on lines of their own. -/
def body (chain : ErrorChain) : String :=
  chain.primary ++ String.join (chain.causes.map ("\n  caused by: " ++ ·))

end ErrorChain

/-- The reason inside the message, which is a source of its own. -/
def ImageError.sources : ImageError → List String
  | unreadable _ reason => [reason]
  | _ => []

def ConfigError.sources : ConfigError → List String
  | unreadable _ reason | malformed _ reason => [reason]

def PipelineError.sources : PipelineError → List String
  | stage _ fault => [fault.message]
  | _ => []

namespace Failure

def message : Failure → String
  | image _ => "cannot load program image"
  | config _ => "cannot load configuration"
  | machine _ => "machine faulted"
  | pipeline _ => "pipeline failed"
  | stream _ => "i/o error"
  | json _ => "cannot encode output as json"
  | badPoke argument => "invalid --poke " ++ Text.quoted argument ++ ": expected ADDR=VALUE"
  | badInput token => "invalid input value " ++ Text.quoted token
  | inputExhausted cursor =>
    "program wants more input at address " ++ toString cursor ++
      "; queue it with --input or pass --interactive"
  | inputClosed => "interactive input ended while the machine was waiting"

/-- The messages of what caused a failure, each the cause of the one before. -/
def sources : Failure → List String
  | image error => error.message :: error.sources
  | config error => error.message :: error.sources
  | machine fault => [fault.message]
  | pipeline error => error.message :: error.sources
  | stream reason | json reason => [reason]
  | _ => []

def chain (f : Failure) : ErrorChain := ErrorChain.ofTexts f.message f.sources

end Failure

end Intcode
