import AvroDerive.Convert.Document
import AvroDerive.Json.Printer
import AvroDerive.Schema.Namespace

/-! # Jobs

A job reads a document, converts it and writes the schema: as one file, or each of its records as a
file of its own. What to write is settled before the first write.
-/

namespace AvroDerive

structure Job where
  /-- A path or a URL, with a fragment if only a part of the document is meant. -/
  input : String
  /-- The file to write, or the directory for the files of the records. -/
  output : String
  options : Options := {}
  deriving DecidableEq, Repr

namespace Job

inductive Action where
  | makeDirectory (path : String)
  | write (path text : String)
  deriving DecidableEq, Repr

/-- What a job tells while it runs. -/
inductive Event where
  | converting (uri ns : String)
  | warning (w : Warning)
  | writing (path : String)

/-- The name of a written record. -/
def recordName? (schema : Json) : Option String :=
  if (schema.get? "type").bind Json.asString? = some "record" then
    (schema.get? "name").bind Json.asString?
  else none

/-- The file of a record below a directory. -/
def recordFile (directory name : String) : String := Path.join directory (name ++ ".avsc")

/-- The writes that leave a schema at the output. -/
def actions (job : Job) (schema : Json) : List Action :=
  if job.options.splitRecords then
    let schemas := match schema with
      | .arr items => items
      | single => [single]
    .makeDirectory job.output :: schemas.filterMap fun item =>
      (recordName? item).map fun name => .write (recordFile job.output name) item.pretty
  else [.write job.output schema.pretty]

/-- The document of a job and its URL. -/
def load (workingDirectory : String) (source : Source) (job : Job) :
    Except Failure (Json × Url) := do
  match Url.parse (Location.baseUri workingDirectory job.input) with
  | .error e => throw (.invalidReference job.input e)
  | .ok url =>
    let url := url.withoutFragment
    match source url with
    | .error e => throw (.fetch e)
    | .ok text =>
      match Json.parse? text with
      | some document => return (document, url)
      | none => throw (.invalidJson url.text)

/-- Everything a job does before it writes: the schema, or why there is none, and what it told. -/
def prepare (workingDirectory : String) (source : Source) (job : Job) :
    Except Failure Json × List Event :=
  match load workingDirectory source job with
  | .error f => (.error f, [])
  | .ok (document, url) =>
    let ns := Schema.deriveNamespace document job.input job.options.ns
    let cfg : Setting := { rootNs := ns, options := job.options, source, workingDirectory }
    let (result, warnings) :=
      Convert.convert cfg document (Location.baseUri workingDirectory job.input)
    (result.map Output.toJson, .converting url.text ns :: warnings.map .warning)

/-- The refusal that ended a list of actions, and the path it concerns. -/
abbrev Refusal := String × FileSystem.Error

/-- What performs actions on files, or refuses them. -/
abbrev Device := FileSystem → Action → FileSystem × Option Refusal

/-- The device that refuses only what the files do not allow. -/
def perform : Device
  | fs, .makeDirectory path =>
    let (fs, error) := fs.makeDirectory path
    (fs, error.map (path, ·))
  | fs, .write path text =>
    match fs.write path text with
    | .ok fs => (fs, none)
    | .error e => (fs, some (path, e))

/-- What is told before an action: each file of a record is announced. -/
def announce (job : Job) : Action → List Event
  | .write path _ => if job.options.splitRecords then [.writing path] else []
  | .makeDirectory _ => []

/-- Performs actions up to the first that is refused. -/
def performAll (device : Device) (job : Job) (fs : FileSystem) :
    List Action → FileSystem × List Event × Option Refusal
  | [] => (fs, [], none)
  | a :: rest =>
    match device fs a with
    | (fs, none) =>
      let (fs, events, refusal) := performAll device job fs rest
      (fs, announce job a ++ events, refusal)
    | (fs, some refusal) => (fs, announce job a, some refusal)

structure Outcome where
  result : Except Failure Json
  events : List Event
  files : FileSystem

/-- Runs a job on a device with its files, with the documents from a source. -/
def runOn (device : Device) (fs : FileSystem) (source : Source) (job : Job) : Outcome :=
  let workingDirectory := "/" ++ "/".intercalate fs.workingDirectory
  match prepare workingDirectory source job with
  | (.error f, events) => { result := .error f, events, files := fs }
  | (.ok schema, events) =>
    let (files, announced, refusal) := performAll device job fs (actions job schema)
    { result := match refusal with
        | some (path, e) => .error (.write path e)
        | none => .ok schema
      events := events ++ announced
      files }

/-- Runs a job on a file system, with the documents from a source. -/
def run (fs : FileSystem) (source : Source) (job : Job) : Outcome := runOn perform fs source job

end Job

end AvroDerive
