import MipsToolchain.CommandLine.Run

namespace MipsToolchain.CommandLine

def fileError (name : String) (e : IO.Error) : FileError :=
  match e with
  | .noFileOrDirectory .. => .missing name
  | e => .other (toString e)

def systemHost : Host IO where
  read name := do
    match ← (IO.FS.readBinFile name).toBaseIO with
    | .ok bytes => return .ok bytes
    | .error e => return .error (fileError name e)
  write name bytes := do
    match ← (IO.FS.writeBinFile name bytes).toBaseIO with
    | .ok () => return .ok ()
    | .error e => return .error (fileError name e)
  out bytes := do (← IO.getStdout).write bytes
  err bytes := do (← IO.getStderr).write bytes

end MipsToolchain.CommandLine

open MipsToolchain.CommandLine in
def main (args : List String) : IO UInt32 := do
  let e ← run systemHost args
  return e.code.toUInt32
