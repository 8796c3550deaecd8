import Lir.Source.Loader

/-!
Programs from files. What a path holds is handed in; this module says what it means.
-/

set_option autoImplicit false

namespace Lir

inductive ReadError where
  | notFound
  | notText
  | system (reason : String)
  deriving DecidableEq

namespace ReadError

def reason : ReadError → String
  | .notFound => "No such file or directory (os error 2)"
  | .notText => "stream did not contain valid UTF-8"
  | .system reason => reason

end ReadError

structure FileError where
  path : String
  cause : ReadError
  deriving DecidableEq

namespace FileError

def message (e : FileError) : String := "Failed to read " ++ e.path ++ ": " ++ e.cause.reason

end FileError

def decodeText (bytes : ByteArray) : Except ReadError String :=
  match String.fromUTF8? bytes with
  | some text => .ok text
  | none => .error .notText

def readSource (path : String) (contents : Except ReadError ByteArray) :
    Except FileError String :=
  match contents.bind decodeText with
  | .ok text => .ok text
  | .error cause => .error ⟨path, cause⟩

def Program.loadFile (path : String) (contents : Except ReadError ByteArray) :
    Except FileError (Program × List Warning) :=
  (readSource path contents).map Program.load

end Lir
