import TypeBounds.Log
import TypeBounds.Text.Integer
import TypeBounds.Text.Quoted

/-!
# Arguments of the commands

There are two commands, `solve` and `dump`, and each takes one file. Flags stand before or after it,
up to an argument `--`. A flag takes its value after an equals sign or from the next argument; a
switch needs none. Arguments are read from left to right and the first mistake counts; the number of
files is looked at last.
-/

namespace TypeBounds.Command

inductive Verb where
  /-- prints the signature of the function -/
  | solve
  /-- prints the graph -/
  | dump
  deriving DecidableEq

def Verb.ofWord? : String → Option Verb
  | "solve" => some .solve
  | "dump" => some .dump
  | _ => none

inductive Flag where
  | flavor
  | logLevel
  | steps
  | dump
  deriving DecidableEq

namespace Flag

def name : Flag → String
  | flavor => "flavor"
  | logLevel => "log-level"
  | steps => "steps"
  | dump => "dump"

/-- The letter that stands for a flag. -/
def letter? : Flag → Option Char
  | logLevel => some 'l'
  | _ => none

/-- The value of a switch that is given without one. -/
def impliedValue? : Flag → Option String
  | steps => some "true"
  | dump => some "true"
  | _ => none

/-- All ways to give a flag, as messages show them. -/
def label (f : Flag) : String :=
  match f.letter? with
  | some c => "-" ++ c.toString ++ ", --" ++ f.name
  | none => "--" ++ f.name

end Flag

/-- The flags of a command. -/
def Verb.flags : Verb → List Flag
  | solve => [.flavor, .logLevel, .steps, .dump]
  | dump => [.flavor, .logLevel]

structure Options where
  /-- the policy in place of the problem's own, if not empty -/
  flavor : String := ""
  logLevel : Log.Level := .error
  /-- whether the steps are printed -/
  steps : Bool := false
  /-- whether the graph is printed too -/
  dump : Bool := false

/-- What is wrong with arguments. -/
inductive UsageError where
  | badSyntax (arg : String)
  | unknownFlag (name : String)
  | unknownLetter (letter : Char) (letters : String)
  | missingValue (arg : String)
  | missingLetterValue (letter : Char) (letters : String)
  | badNumber (flag : Flag) (value : String) (fault : Text.NumberFault)
  | badTruth (flag : Flag) (value : String)
  | fileCount (received : Nat)

namespace UsageError

def badValue (flag : Flag) (value reader fault : String) : String :=
  "invalid argument " ++ Text.quote value ++ " for " ++ Text.quote flag.label ++ " flag: " ++
    reader ++ ": parsing " ++ Text.quote value ++ ": " ++ fault

def message : UsageError → String
  | badSyntax arg => "bad flag syntax: " ++ arg
  | unknownFlag name => "unknown flag: --" ++ name
  | unknownLetter c letters => "unknown shorthand flag: " ++ Text.quoteChar c ++ " in -" ++ letters
  | missingValue arg => "flag needs an argument: " ++ arg
  | missingLetterValue c letters =>
    "flag needs an argument: " ++ Text.quoteChar c ++ " in -" ++ letters
  | badNumber flag value fault => badValue flag value "strconv.ParseInt" fault.message
  | badTruth flag value => badValue flag value "strconv.ParseBool" "invalid syntax"
  | fileCount received => "accepts 1 arg(s), received " ++ toString received

end UsageError

/-- The words for a truth value. -/
def truth? (word : String) : Option Bool :=
  if ["1", "t", "T", "true", "TRUE", "True"].contains word then some true
  else if ["0", "f", "F", "false", "FALSE", "False"].contains word then some false
  else none

/-- Sets a flag. -/
def Options.set (o : Options) (f : Flag) (value : String) : Except UsageError Options :=
  let truth : Except UsageError Bool := match truth? value with
    | some b => .ok b
    | none => .error (.badTruth f value)
  match f with
  | .flavor => .ok { o with flavor := value }
  | .logLevel =>
    match Text.integer value with
    | .ok n => .ok { o with logLevel := n }
    | .error fault => .error (.badNumber f value fault)
  | .steps => truth.map fun b => { o with steps := b }
  | .dump => truth.map fun b => { o with dump := b }

/-! ## One argument -/

/-- What one argument means. -/
inductive Meaning where
  | file
  | endOfFlags
  | set (flag : Flag) (value : String)
  /-- the next argument is the value; the error counts if there is none -/
  | setNext (flag : Flag) (missing : UsageError)
  | wrong (e : UsageError)

/-- What a flag given by its name means; `body` is the argument without its dashes. -/
def meaningOfName (v : Verb) (arg : String) (body : List Char) : Meaning :=
  let name := String.ofList (body.takeWhile (· ≠ '='))
  match v.flags.find? (·.name = name), body.dropWhile (· ≠ '=') with
  | none, _ => .wrong (.unknownFlag name)
  | some f, _ :: value => .set f (String.ofList value)
  | some f, [] =>
    match f.impliedValue? with
    | some value => .set f value
    | none => .setNext f (.missingValue arg)

/-- The character whose number is the first byte of a character. -/
def firstByte (c : Char) : Char := Char.ofNat ((c.toString.toUTF8.toList.headD 0).toNat)

/-- What a flag given by its letter means; the value may follow directly. -/
def meaningOfLetter (v : Verb) (letter : Char) (rest : List Char) : Meaning :=
  let letters := String.ofList (letter :: rest)
  match v.flags.find? (·.letter? = some letter), rest with
  | none, _ => .wrong (.unknownLetter (firstByte letter) letters)
  | some f, [] => .setNext f (.missingLetterValue letter letters)
  | some f, '=' :: c :: value => .set f (String.ofList (c :: value))
  | some f, value => .set f (String.ofList value)

/-- What an argument means. A dash alone is a file. -/
def meaning (v : Verb) (arg : String) : Meaning :=
  match arg.toList with
  | ['-', '-'] => .endOfFlags
  | '-' :: '-' :: c :: cs =>
    if c = '-' || c = '=' then .wrong (.badSyntax arg) else meaningOfName v arg (c :: cs)
  | '-' :: c :: cs => meaningOfLetter v c cs
  | _ => .file

/-! ## All arguments -/

/-- Reads arguments, given the options and files before them. -/
def readArguments (v : Verb) (o : Options) (files : List String) :
    List String → Except UsageError (Options × List String)
  | [] => .ok (o, files)
  | arg :: args =>
    match meaning v arg with
    | .file => readArguments v o (files ++ [arg]) args
    | .endOfFlags => .ok (o, files ++ args)
    | .wrong e => .error e
    | .set f value => do readArguments v (← o.set f value) files args
    | .setNext f missing =>
      match args with
      | [] => .error missing
      | value :: args => do readArguments v (← o.set f value) files args

/-- A command with its options and its file. -/
structure Invocation where
  verb : Verb
  options : Options
  file : String

/-- **Reads the arguments of a command.** -/
def Invocation.read (v : Verb) (args : List String) : Except UsageError Invocation := do
  let (o, files) ← readArguments v {} [] args
  match files with
  | [file] => pure ⟨v, o, file⟩
  | _ => throw (.fileCount files.length)

end TypeBounds.Command
