import PerpExchange.Json.Writer
import PerpExchange.Service

/-!
The service as a program. Settings come from the environment, batches from standard input, one a
line, and instructions go to standard output, one a line. Snapshots are kept in step with the
directory the settings name.
-/

namespace PerpExchange.Program

open Json

/-- The variables of this process. -/
def environment : IO (List (String × String)) := do
  let bytes ← IO.FS.readBinFile "/proc/self/environ"
  let text := (ofUtf8? bytes.toList).getD ""
  return (text.splitOn "\x00").filterMap fun entry =>
    match entry.splitOn "=" with
    | name :: value => some (name, "=".intercalate value)
    | [] => none

/-- The files and directories in a directory, which is made if need be. -/
def readDirectory (path : String) : IO Directory := do
  IO.FS.createDirAll path
  let mut items : List (String × DirectoryItem) := []
  for entry in ← (← IO.FS.realPath path).readDir do
    let item ←
      if ← entry.path.isDir then pure DirectoryItem.directory
      else pure (DirectoryItem.file (← IO.FS.readBinFile entry.path).toList)
    items := (entry.fileName, item) :: items
  return ⟨some items.reverse⟩

/-- Writes the files that are new or changed, and deletes those that are gone. -/
def writeDirectory (path : String) (old new : Directory) : IO Unit := do
  let file (name : String) : String := path ++ "/" ++ name
  for name in new.names do
    if let some bytes := new.read? name then
      if old.read? name ≠ some bytes then
        IO.FS.writeBinFile (file (name ++ ".tmp")) bytes.toByteArray
        IO.FS.rename (file (name ++ ".tmp")) (file name)
  for name in old.names do
    if (old.read? name).isSome ∧ (new.read? name).isNone then IO.FS.removeFile (file name)

/-- A notice as the program prints it, if it does. -/
def noticeText? : ServiceNotice → Option String
  | .instruction block i =>
    some (write (ofFields [("block_number", encode block), ("instruction", i.toJson)]))
  | .ordersRemoved .. | .malformedLine => none

def printNew (old new : Service) : IO Unit := do
  let fresh := new.notices.take (new.notices.length - old.notices.length)
  for notice in fresh.reverse do
    if let some text := noticeText? notice then IO.println text

/-- The exit code for a failure. A process that is ended shows the code of an abort. -/
def exitCode (failure : ServiceFailure) : UInt32 := (failure.exitCode?.getD 134).toUInt32

/-- Takes lines until there are none or the service ends. -/
def serve (path : Option String) (start : Service) : IO UInt32 := do
  let input ← IO.getStdin
  let mut service := start
  repeat
    let line ← input.getLine
    if line.isEmpty then break
    let (next, ended) := service.takeLine line
    printNew service next
    if let (some path, some old, some new) := (path, service.directory?, next.directory?) then
      writeDirectory path old new
    service := next
    if let some failure := ended then return exitCode failure
  IO.eprintln (write service.node.intake.metrics.toJson)
  return 0

end PerpExchange.Program

open PerpExchange in
def main : IO UInt32 := do
  match Settings.ofVariables? (← Program.environment) with
  | .error fault => return Program.exitCode (.ofFault fault)
  | .ok given =>
    let settings := given.getD default
    let directory ← match settings.snapshotDir.filter (SnapshotPlace.ofPath · = .kept) with
      | some path => Program.readDirectory path
      | none => pure Directory.empty
    match Service.start settings directory with
    | .error failure => return Program.exitCode failure
    | .ok started => Program.serve settings.snapshotDir started.service
