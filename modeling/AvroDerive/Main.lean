import AvroDerive.CommandLine

/-! # The program

The command line on the files of the machine.
-/

namespace AvroDerive.Program

/-- The refusal with an error number, which some calls give as a negative one. -/
def osError (code : UInt32) (details : String) : FileSystem.Error :=
  let number := if code < 0x80000000 then code.toNat else (-code).toNat
  match number with
  | 2 => .missing
  | 17 => .present
  | 20 => .notDirectory
  | 21 => .isDirectory
  | 36 => .nameTooLong
  | n => .other (details ++ " (os error " ++ toString n ++ ")")

/-- What the machine refuses, in the terms of the file system. -/
def refusal : IO.Error → FileSystem.Error
  | .noFileOrDirectory _ code details => osError code details
  | .alreadyExists _ code details => osError code details
  | .inappropriateType _ code details => osError code details
  | .invalidArgument _ code details => osError code details
  | .permissionDenied _ code details => osError code details
  | .userError _ => .notText
  | e => .other (toString e)

/-- Reads a file. No file is read whose name is no text. -/
def readFile (path : List UInt8) : IO (Except FileSystem.Error String) := do
  if !Text.isText path then return .error .missing
  try return .ok (← IO.FS.readFile (String.ofList (Text.decodeLossy path)))
  catch e => return .error (refusal e)

/-- Prepares a job. A file that turns out to be needed is read, and the job prepared again. -/
partial def prepare (workingDirectory : String) (job : Job)
    (files : List (List UInt8 × Except FileSystem.Error String)) :
    IO (Except Failure Json × List Job.Event) := do
  let source := Source.ofReader fun path => (files.lookup path).getD (.error .missing)
  let prepared := job.prepare workingDirectory source
  match prepared.1 with
  | .error (.fetch (.file path _)) =>
    if (files.lookup path).isSome then return prepared
    else prepare workingDirectory job ((path, ← readFile path) :: files)
  | _ => return prepared

def makeOne (path : String) : IO (Option FileSystem.Error) := do
  try
    IO.FS.createDir path
    return none
  catch e =>
    match refusal e with
    | .present => return if ← ((← IO.currentDir) / path).isDir then none else some .present
    | e => return some e

/-- Makes the first of the paths. If something on its way is missing, the others are made before. -/
def makeAfter : List String → IO (Option FileSystem.Error)
  | [] => return none
  | path :: shorter => do
    match ← makeOne path with
    | some .missing =>
      match ← makeAfter shorter with
      | none => makeOne path
      | refused => return refused
    | result => return result

def perform (action : Job.Action) : IO (Option Job.Refusal) := do
  match action with
  | .makeDirectory path =>
    if path = "" then return none
    return (← makeAfter (path :: Path.parents path)).map (path, ·)
  | .write path text =>
    try
      IO.FS.writeFile path text
      return none
    catch e => return some (path, refusal e)

def printEvents (verbose : Bool) (events : List Job.Event) : IO Unit := do
  for line in CommandLine.eventLines verbose events do
    IO.eprintln line

def performAll (job : Job) (verbose : Bool) : List Job.Action → IO (Option Job.Refusal)
  | [] => return none
  | action :: rest => do
    printEvents verbose (job.announce action)
    match ← perform action with
    | none => performAll job verbose rest
    | some refusal => return some refusal

def fail (job : Job) (f : Failure) : IO UInt32 := do
  let (line, error) := CommandLine.failureLines job f
  IO.eprintln line
  IO.eprintln error
  return 1

def run (job : Job) (verbose : Bool) : IO UInt32 := do
  let (result, events) ← prepare (← IO.currentDir).toString job []
  printEvents verbose events
  match result with
  | .error f => fail job f
  | .ok schema =>
    match ← performAll job verbose (job.actions schema) with
    | none => return 0
    | some (path, e) => fail job (.write path e)

def usage : String :=
  "Convert JSON Schema to Avro Schema\n\n" ++
  "Arguments:\n" ++
  "  <JSONSCHEMA>  Path or URL of the schema, optionally with a #/pointer fragment\n" ++
  "  <AVRO>        Path of the Avro schema file, or of a directory when splitting\n\n" ++
  "Options:\n" ++
  "  --namespace <NAMESPACE>          Namespace override\n" ++
  "  --root-class-name <NAME>         Root record name [default: document]\n" ++
  "  --split-top-level-records        Write each top-level record to a file of its own\n" ++
  "  --max-recursion-depth <DEPTH>    Depth past which the generic type is used [default: 64]\n" ++
  "  -v, --verbose                    Log progress as well as warnings\n" ++
  "  -h, --help                       Print help\n"

def start (args : List String) : IO UInt32 :=
  match CommandLine.parse args with
  | .help => do
    IO.print usage
    return 0
  | .misuse problem => do
    IO.eprintln ("error: " ++ problem ++ "\n\n" ++ usage)
    return 2
  | .run job verbose => run job verbose

end AvroDerive.Program

def main (args : List String) : IO UInt32 := AvroDerive.Program.start args
