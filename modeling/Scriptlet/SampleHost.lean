import Scriptlet.Native

/-!
# A sample host

A host with functions of the kinds that hosts have: one makes an array, one reads values, two fail,
one writes to a location, one calls a function, and one does nothing.  Results about the evaluator
hold for any host; this one serves the command and the runs on fixed inputs.

Hosts register such functions through `bind` of §6 of the specification.
-/

namespace Scriptlet

namespace HostFunction

/-- An array of all arguments. -/
def collect : HostFunction := ⟨"collect", 0, ""⟩

/-- The sum of all arguments. -/
def sum : HostFunction := ⟨"sum", 0, ""⟩

/-- Fails, with the text of the first argument. -/
def fail : HostFunction := ⟨"fail", 0, ""⟩

/-- Fails with a message at a line of its own. -/
def failAt (line : Nat) (message : String) : HostFunction := ⟨"failAt", line, message⟩

/-- Writes the second argument to the location that the first one refers to. -/
def write : HostFunction := ⟨"write", 0, ""⟩

/-- Calls the first argument with the others. -/
def apply : HostFunction := ⟨"apply", 0, ""⟩

def first : HostFunction := ⟨"first", 0, ""⟩

end HostFunction

namespace SampleHost
open Eval

def sumFrom (fuel : Nat) (total : Value) : List Value → Eval Value
  | [] => return total
  | v :: vs => do
    let next ← look (·.add fuel total v)
    sumFrom fuel next vs

def run (call : FunctionId → List Argument → Eval Value) (fuel : Nat) (f : HostFunction)
    (args : List Value) : Eval Value :=
  match f.name with
  | "collect" => return .array (← fresh (·.newArray args.toArray))
  | "sum" => sumFrom fuel (.int 0) args
  | "fail" => do
    match args with
    | [] => fail (.native "failed: ")
    | v :: _ => do
      let text ← look (·.display fuel v)
      fail (.native s!"failed: {text}")
  | "failAt" => failAt f.line (.native f.text)
  | "write" =>
    match args with
    | .reference r :: v :: _ => do
      write fuel r v
      return .bool true
    | _ => return .bool false
  | "apply" => do
    match ← Native.argument fuel args 0 with
    | .function g => call g ((args.drop 1).map .positional)
    | _ => fail (.native "apply: not a function")
  -- Any other tag stands for `first`.
  | _ => return args.head?.getD .invalid

instance host : Host := ⟨run⟩

end SampleHost
end Scriptlet
