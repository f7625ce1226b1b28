import VendorSync.CommandLine.Report

/-! The program: runs on the files of the system and prints the report. -/
namespace VendorSync.CommandLine

/-- What the system says about a file that cannot be read or written. Depending on the call that
fails, its code comes with or without a minus sign. -/
def Fault.ofError (e : IO.Error) : Fault :=
  match e with
  | .noFileOrDirectory .. => .notFound
  | .permissionDenied .. => .denied
  | .inappropriateType _ code _ =>
    if code == 20 || code == 0 - 20 then .notADirectory
    else if code == 21 || code == 0 - 21 then .isADirectory
    else .system (toString e)
  | .resourceExhausted _ code _ =>
    if code == 28 || code == 0 - 28 then .noSpace else .system (toString e)
  | _ => .system (toString e)

/-- The files of the system. -/
def Storage.device : Storage IO where
  read path := do
    try
      match String.fromUTF8? (← IO.FS.readBinFile path) with
      | some s => return .ok s.toList
      | none => return .error .notText
    catch e => return .error (.ofError e)
  write path text := do
    try
      IO.FS.withFile path .write fun handle => do
        handle.putStr (String.ofList text)
        -- Without it, a text that finds no room is missed only when the file is closed.
        handle.flush
      return .ok ()
    catch e => return .error (.ofError e)

end VendorSync.CommandLine

open VendorSync.CommandLine in
def main (arguments : List String) : IO UInt32 := do
  let report ← run .device arguments
  IO.eprint (String.ofList report.stderr)
  IO.print (String.ofList report.stdout)
  return report.status.toUInt32
