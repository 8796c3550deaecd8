import Lir.CommandLine

/-!
The program: reads its arguments and the input file, prints what `Output.ofCommand` gives.
-/

set_option autoImplicit false

namespace Lir

def readPath (path : String) : IO (Except ReadError ByteArray) := do
  try
    return .ok (← IO.FS.readBinFile path)
  catch
    | .noFileOrDirectory .. => return .error .notFound
    | error => return .error (.system (toString error))

def commandContents : Command → IO (Except ReadError ByteArray)
  | .run input _ _ => readPath input
  | _ => return .error .notFound

end Lir

def main (arguments : List String) : IO UInt32 := do
  let command := Lir.Command.ofArguments arguments
  let contents ← Lir.commandContents command
  let output := Lir.Output.ofCommand (fun _ => contents) command
  IO.eprint output.stderr
  IO.print output.stdout
  return output.code.toUInt32
