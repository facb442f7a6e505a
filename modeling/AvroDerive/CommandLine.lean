import AvroDerive.Job

/-! # The command line

Options may stand anywhere before `--`, each at most once; the input and the output are the two
arguments that are no options.
-/

namespace AvroDerive.CommandLine

/-- The arguments read so far. -/
structure Draft where
  positional : List String := []
  ns : Option String := none
  rootName : Option String := none
  maxDepth : Option Nat := none
  splitRecords : Bool := false
  verbose : Bool := false

inductive Request where
  | help
  | misuse (problem : String)
  | run (job : Job) (verbose : Bool)

/-- A number below `2 ^ 64`, with or without a plus sign. -/
def count? (text : String) : Option Nat :=
  let digits := match text.toList with
    | '+' :: rest => rest
    | cs => cs
  if digits.isEmpty || !digits.all Char.isDigit then none
  else
    let n := digits.foldl (fun n c => 10 * n + (c.toNat - '0'.toNat)) 0
    if n < 0x10000000000000000 then some n else none

/-- Sets an option that takes a value. -/
def Draft.setValue (d : Draft) (option value : String) : Except String Draft :=
  match option with
  | "namespace" =>
    if d.ns.isSome then .error "repeated option" else .ok { d with ns := some value }
  | "root-class-name" =>
    if d.rootName.isSome then .error "repeated option"
    else .ok { d with rootName := some value }
  | "max-recursion-depth" =>
    match count? value with
    | some n =>
      if d.maxDepth.isSome then .error "repeated option" else .ok { d with maxDepth := some n }
    | none => .error "no number"
  | _ => .error "unknown option"

def Draft.setVerbose (d : Draft) : Except String Draft :=
  if d.verbose then .error "repeated option" else .ok { d with verbose := true }

def Draft.setSplit (d : Draft) : Except String Draft :=
  if d.splitRecords then .error "repeated option" else .ok { d with splitRecords := true }

def Draft.addPositional (d : Draft) (arg : String) : Except String Draft :=
  if 2 ≤ d.positional.length then .error "unexpected argument"
  else .ok { d with positional := d.positional ++ [arg] }

def takesValue (option : String) : Bool :=
  option ∈ ["namespace", "root-class-name", "max-recursion-depth"]

/-- Whether an argument can be the value of the option before it. -/
def isValue (arg : String) : Bool := arg = "-" || arg.toList.head? != some '-'

/-- What an argument asks for. -/
inductive Meaning where
  | positional
  | escape
  | valued (option : String)
  | assigned (option value : String)
  | flag (name : String)
  /-- A cluster of one-letter flags. -/
  | letters (cs : List Char)

def meaning (arg : String) : Meaning :=
  match arg.toList with
  | ['-'] => .positional
  | ['-', '-'] => .escape
  | '-' :: '-' :: long =>
    match Text.cut '=' long with
    | (option, some value) => .assigned (String.ofList option) (String.ofList value)
    | (option, none) =>
      if takesValue (String.ofList option) then .valued (String.ofList option)
      else .flag (String.ofList option)
  | '-' :: letters => .letters letters
  | _ => .positional

/-- Reads a cluster; `none` asks for help. -/
def Draft.readLetters (d : Draft) : List Char → Except String (Option Draft)
  | [] => .ok (some d)
  | 'v' :: rest => do readLetters (← d.setVerbose) rest
  | 'h' :: _ => .ok none
  | _ => .error "unknown option"

def Draft.finish (d : Draft) : Request :=
  match d.positional with
  | [input, output] =>
    let defaults : Options := {}
    let options : Options :=
      { ns := d.ns
        rootName := d.rootName.getD defaults.rootName
        splitRecords := d.splitRecords
        maxDepth := d.maxDepth.getD defaults.maxDepth }
    .run { input, output, options } d.verbose
  | _ => .misuse "missing argument"

def Draft.readPositionals (d : Draft) : List String → Request
  | [] => d.finish
  | arg :: rest =>
    match d.addPositional arg with
    | .ok d => readPositionals d rest
    | .error problem => .misuse problem

/-- Reads arguments in order; the first problem, or the first wish for help, decides. -/
def Draft.read (d : Draft) : List String → Request
  | [] => d.finish
  | arg :: rest =>
    let next (step : Except String Draft) : Request :=
      match step with
      | .ok d => read d rest
      | .error problem => .misuse problem
    match meaning arg with
    | .positional => next (d.addPositional arg)
    | .escape => d.readPositionals rest
    | .assigned option value =>
      if takesValue option then next (d.setValue option value) else .misuse "unknown option"
    | .flag "help" => .help
    | .flag "verbose" => next d.setVerbose
    | .flag "split-top-level-records" => next d.setSplit
    | .flag _ => .misuse "unknown option"
    | .letters cs =>
      match d.readLetters cs with
      | .ok (some d) => read d rest
      | .ok none => .help
      | .error problem => .misuse problem
    | .valued option =>
      match rest with
      | value :: rest =>
        if isValue value then
          match d.setValue option value with
          | .ok d => read d rest
          | .error problem => .misuse problem
        else .misuse "missing value"
      | [] => .misuse "missing value"

def parse (args : List String) : Request := Draft.read {} args

inductive Level where
  | info
  | warn
  | error
  deriving DecidableEq, Repr

def Level.text : Level → String
  | .info => "INFO"
  | .warn => "WARN"
  | .error => "ERROR"

def eventLevel : Job.Event → Level
  | .warning _ => .warn
  | _ => .info

def eventText : Job.Event → String
  | .converting uri ns => "Converting " ++ uri ++ " with namespace " ++ ns
  | .warning w => w.message
  | .writing path => "Writing " ++ path

/-- Control characters that a terminal may act on are escaped in the log. -/
def logChar (c : Char) : List Char :=
  let digits := Nat.toDigits 16 c.toNat
  if c ∈ ['\x07', '\x08', '\x0c', '\x1b', '\x7f'] then
    '\\' :: 'x' :: (List.replicate (2 - digits.length) '0' ++ digits)
  else if 0x80 ≤ c.toNat ∧ c.toNat < 0xA0 then '\\' :: 'u' :: '\x7b' :: (digits ++ ['\x7d'])
  else [c]

def logLine (level : Level) (message : String) : String :=
  level.text ++ " " ++ String.ofList (message.toList.flatMap logChar)

/-- The log lines for events; progress is told only if asked for. -/
def eventLines (verbose : Bool) (events : List Job.Event) : List String :=
  (events.filter fun e => verbose || eventLevel e ≠ .info).map fun e =>
    logLine (eventLevel e) (eventText e)

/-- The log line and the error line of a job that failed. -/
def failureLines (job : Job) (f : Failure) : String × String :=
  (logLine .error ("Conversion of " ++ job.input ++ " failed"), "Error: " ++ f.message)

/-- What the command leaves behind. -/
structure Outcome where
  code : Nat
  log : List String
  errors : List String
  files : FileSystem

/-- Runs the command on a file system. -/
def execute (fs : FileSystem) (args : List String) : Outcome :=
  match parse args with
  | .help => { code := 0, log := [], errors := [], files := fs }
  | .misuse _ => { code := 2, log := [], errors := [], files := fs }
  | .run job verbose =>
    let outcome := job.run fs (Source.ofFiles fs)
    let log := eventLines verbose outcome.events
    match outcome.result with
    | .ok _ => { code := 0, log, errors := [], files := outcome.files }
    | .error f =>
      let (line, error) := failureLines job f
      { code := 1, log := log ++ [line], errors := [error], files := outcome.files }

end AvroDerive.CommandLine
