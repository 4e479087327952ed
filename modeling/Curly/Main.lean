import Curly.Command.Run

/-! The command-line program. -/

open Curly

/-- Reads the bytes of a file. -/
def readBytes (path : String) : IO (Except FileError (List UInt8)) := do
  try
    let bytes ← IO.FS.readBinFile path
    return .ok bytes.toList
  catch
    | .noFileOrDirectory .. => return .error .notFound
    | .permissionDenied .. => return .error .denied
    | .inappropriateType .. => return .error .isDirectory
    | e => throw e

def main (arguments : List String) : IO UInt32 := do
  let content ← match Command.readArguments arguments with
    | .ok (.analyse options) => readBytes options.file
    | _ => pure (.error .notFound)
  match Command.run arguments (fun _ => content) none with
  | .ok output =>
    IO.print output.out
    IO.eprint output.err
    return output.status.toUInt32
  | .error e =>
    IO.eprintln (e.message "")
    return 1
