/-
The program: a machine filled from files, run, and written back.

What happens is decided by `Machine.run` alone.  This module reads the files that the
arguments name into a machine, prints what the run printed, and writes what it changed.
No connection can be made from here, so the machine's network is down.
-/
import AttestedLedger.Archive.File
import AttestedLedger.Command.Run
import Std.Time.DateTime.Timestamp

namespace AttestedLedger.Program

/-- The content of a file, or nothing if there is no such file. -/
def content? (path : String) : IO (Option Bytes) := do
  try return some (← IO.FS.readBinFile path).toList
  catch
    | .noFileOrDirectory .. => return none
    | e => throw e

/-- Make a directory, and tell whether it is there. -/
def makeDirectory (path : String) : IO Bool := do
  try
    IO.FS.createDirAll path
    return true
  catch _ => return false

/-- Where the identity of a directory is kept. -/
def identityPath (dir : String) : String := dir ++ "/identity.json"

/-- Where the archive of a directory is kept. -/
def archivePath (dir : String) : String := dir ++ "/chain"

/-- What a directory keeps. -/
def readDir (dir : String) : IO DataDir := do
  let identityFile ← content? (identityPath dir)
  match ← content? (archivePath dir) with
  | none => return ⟨identityFile, .empty⟩
  | some content =>
    match Archive.ofFile? content with
    | some archive => return ⟨identityFile, archive⟩
    | none => throw (.userError "Failed to open storage")

/-- Write what changed in a directory. -/
def writeDir (path : String) (before after : DataDir) : IO Unit := do
  match after.identityFile with
  | some file =>
    if before.identityFile ≠ some file then IO.FS.writeBinFile (identityPath path) ⟨file.toArray⟩
  | none => pure ()
  let file := after.archive.toFile
  if before.archive.toFile ≠ file then IO.FS.writeBinFile (archivePath path) ⟨file.toArray⟩

/-- An identity nobody else has, from at most `tries` draws. -/
def drawIdentity : (tries : Nat) → IO Identity
  | 0 => throw (.userError "no random secret")
  | tries + 1 => do
    match Identity.ofSecret? (← IO.getRandomBytes 32).toList with
    | some identity => return identity
    | none => drawIdentity tries

/-- The nanoseconds since the epoch. -/
def readClock : IO UInt64 := do
  let now ← Std.Time.Timestamp.now
  return UInt64.ofNat now.toNanosecondsSinceUnixEpoch.toInt.toNat

/-- The machine an invocation runs on.  Its directory is made only if its parameters are sound. -/
def machineFor (invocation : Invocation) : IO Machine := do
  let configs ← match invocation.config with
    | none => pure []
    | some path => do
      let file ← try content? path catch _ => pure none
      pure (file.toList.map (path, ·))
  let bare : Machine := ⟨configs, [], [], .down, ← readClock, ← drawIdentity 64⟩
  match bare.paramsFor invocation with
  | .error _ => return bare
  | .ok _ =>
    if ← makeDirectory invocation.dataDir then
      return bare.withDataDir invocation.dataDir (← readDir invocation.dataDir)
    else return { bare with blocked := [invocation.dataDir] }

/-- Carry out an invocation. -/
def carryOut (invocation : Invocation) : IO UInt32 := do
  let before ← machineFor invocation
  let (after, result) := before.run invocation
  match before.dataDirs, after.dataDirs with
  | (path, old) :: _, (_, new) :: _ => writeDir path old new
  | _, _ => pure ()
  match result with
  | .ok lines =>
    for line in lines do IO.println line
    return 0
  | .error e =>
    IO.eprintln e.report
    return 1

/-- What is told to a user whose arguments are not understood. -/
def usage : String :=
  "Usage: attested-ledger [--data-dir DIR] [--config FILE] " ++
    "(node [--mine] [--port PORT] [--peer ADDRESS]... | info | identity | " ++
    "send PEER RECIPIENT AMOUNT)"

end AttestedLedger.Program

open AttestedLedger in
/-- Run the program. -/
def main (arguments : List String) : IO UInt32 := do
  match Invocation.parse arguments with
  | some invocation => Program.carryOut invocation
  | none =>
    IO.eprintln Program.usage
    return 2
