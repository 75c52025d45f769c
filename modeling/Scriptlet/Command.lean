import Scriptlet.Interpreter
import Scriptlet.Listing
import Scriptlet.SampleHost

/-!
# The command line

The command runs one script: the text of an option, a file, or what is on standard input.  It prints
the text of the result, after listings of the tokens and of the tree if they are asked for.

The command is a thin layer around the entry point `run` of §6 of the specification; all that it
decides itself is how arguments are read and which of the reports is printed.
-/

namespace Scriptlet.Command

/-! ## 1. Arguments

Options may be written with their value behind an equals sign or as the next argument.  A double
dash ends the options. -/

structure Options where
  path : Option String
  source : Option String
  defines : List (String × String)
  tokens : Bool
  tree : Bool
  bare : Bool
  deriving DecidableEq, Repr

def Options.initial : Options := ⟨none, none, [], false, false, false⟩

inductive Plan where
  | run (options : Options)
  | help
  /-- The arguments are refused. -/
  | refuse
  deriving DecidableEq, Repr

inductive ValueOption where
  | source
  | define
  deriving DecidableEq, Repr

def splitEquals (cs : List Char) : List Char × Option (List Char) :=
  match cs.dropWhile (· ≠ '=') with
  | [] => (cs, none)
  | _ :: value => (cs.takeWhile (· ≠ '='), some value)

/-- A definition `name=value`; blanks around the name are dropped, and it must not be empty. -/
def readDefine? (text : String) : Option (String × String) :=
  match splitEquals text.toList with
  | (name, some value) =>
    let name := Text.trim name
    if name.isEmpty then none else some (String.ofList name, String.ofList value)
  | (_, none) => none

namespace Options

/-- Takes in the value of an option.  The source can be given only once. -/
def addValue? (o : Options) (option : ValueOption) (value : String) : Option Options :=
  match option with
  | .source => if o.source.isSome then none else some { o with source := some value }
  | .define => (readDefine? value).map fun d => { o with defines := o.defines ++ [d] }

/-- Sets a flag.  Each can be given only once. -/
def addFlag? (o : Options) (name : String) : Option Options :=
  if name = "tokens" ∧ !o.tokens then some { o with tokens := true }
  else if name = "ast" ∧ !o.tree then some { o with tree := true }
  else if name = "bare" ∧ !o.bare then some { o with bare := true }
  else none

/-- Takes in a path.  There can be only one, and it is not empty. -/
def addPath? (o : Options) (path : String) : Option Options :=
  if o.path.isSome || path.isEmpty then none else some { o with path := some path }

end Options

def longOption? (name : String) : Option ValueOption :=
  if name = "eval" then some .source else if name = "define" then some .define else none

def shortOption? (c : Char) : Option ValueOption :=
  if c = 'e' then some .source else if c = 'D' then some .define else none

/-- Whether an argument is an option and so cannot be the value of one. -/
def looksLikeOption (arg : String) : Bool :=
  arg.toList.head? = some '-' && arg.length > 1

def planPaths (o : Options) : List String → Plan
  | [] => if o.path.isSome && o.source.isSome then .refuse else .run o
  | path :: rest =>
    match o.addPath? path with
    | some o => planPaths o rest
    | none => .refuse

/-- What the arguments ask for, in addition to the options taken in already. -/
def planFrom (o : Options) (args : List String) : Plan :=
  match args with
  | [] => planPaths o []
  | arg :: rest =>
    let continueWith (o? : Option Options) : Plan :=
      match o? with
      | some o => planFrom o rest
      | none => .refuse
    let takeNext (option : ValueOption) : Plan :=
      match rest with
      | [] => .refuse
      | value :: more =>
        if looksLikeOption value then .refuse
        else match o.addValue? option value with
          | some o => planFrom o more
          | none => .refuse
    match arg.toList with
    | ['-', '-'] => planPaths o rest
    | '-' :: '-' :: body =>
      let (name, value) := splitEquals body
      match longOption? (String.ofList name), value with
      | some option, some v => continueWith (o.addValue? option (String.ofList v))
      | some option, none => takeNext option
      | none, none =>
        if name = "help".toList then .help else continueWith (o.addFlag? (String.ofList name))
      | none, some _ => .refuse
    | '-' :: c :: body =>
      match shortOption? c, body with
      | some option, [] => takeNext option
      | some option, '=' :: v => continueWith (o.addValue? option (String.ofList v))
      | some option, v => continueWith (o.addValue? option (String.ofList v))
      | none, _ => if c = 'h' then .help else .refuse
    | _ => continueWith (o.addPath? arg)
termination_by args.length

def plan (args : List String) : Plan := planFrom .initial args

/-! ## 2. Running

Reading a file is left to the outermost layer, so a report is a function of the options and the
text. -/

inductive Input where
  | text (source : String)
  | file (path : String)
  | standard
  deriving DecidableEq, Repr

def Options.input (o : Options) : Input :=
  match o.source, o.path with
  | some source, _ => .text source
  | none, some path => .file path
  | none, none => .standard

def Input.describe : Input → String
  | text _ => "source"
  | file path => path
  | standard => "stdin"

structure Report where
  exitCode : Nat
  output : String
  errors : String
  deriving DecidableEq, Repr

def Report.failure (output message : String) : Report := ⟨1, output, s!"Error: {message}\n"⟩

def Report.unreadable (input : Input) (reason : String) : Report :=
  .failure "" s!"failed to read {input.describe}\n\nCaused by:\n    {reason}"

/-- The value of a definition: a truth value, a number or else a string. -/
def literal (text : String) : Value :=
  if text = "true" then .bool true
  else if text = "false" then .bool false
  else match Numeral.readInt? text.toList, Numeral.readFloat? text.toList with
    | some n, _ => .int n
    | none, some x => .float x
    | none, none => .str text

def tokenListing (tokens : List Token) : String :=
  String.join (tokens.map fun t => t.describe ++ "\n")

namespace Options

def environment (o : Options) : Env × Store :=
  let (env, σ) := Store.empty.newRoot o.bare
  (env, o.defines.foldl (fun σ (name, text) => σ.define env name (literal text)) σ)

def listTokens (o : Options) (i : Interpreter) (source : String) :
    Except SyntaxError String × Interpreter :=
  if o.tokens then
    match i.tokenize source with
    | (.ok tokens, i) => (.ok (tokenListing tokens.content), i)
    | (.error e, i) => (.error e, i)
  else (.ok "", i)

def listTree (o : Options) (i : Interpreter) (source : String) :
    Option (Except SyntaxError String × Interpreter) :=
  if o.tree then
    match i.parse source with
    | some (.ok tree, i) => some (.ok (Program.describe tree.content ++ "\n"), i)
    | some (.error e, i) => some (.error e, i)
    | none => none
  else some (.ok "", i)

def execute (fuel : Nat) (o : Options) (source : String) : Option Report := do
  let (env, σ) := o.environment
  match o.listTokens (.ofEnv env) source with
  | (.error e, _) => return .failure "" e.message
  | (.ok tokens, i) =>
    match ← o.listTree i source with
    | (.error e, _) => return .failure tokens e.message
    | (.ok tree, i) => do
      let listings := tokens ++ tree
      let report ← i.run fuel source σ
      match report.outcome with
      | .error e => return .failure listings e.message
      | .ok .invalid => return ⟨0, listings, ""⟩
      | .ok v => return ⟨0, listings ++ (← report.store.display fuel v) ++ "\n", ""⟩

end Options

def usage : String :=
  "Usage: scriptlet [-e SOURCE] [-D NAME=VALUE]... [--tokens] [--ast] [--bare] [PATH]\n"

/-- Fuel beyond any run that ends in practice. -/
def ampleFuel : Nat := 1 <<< 60

end Scriptlet.Command
