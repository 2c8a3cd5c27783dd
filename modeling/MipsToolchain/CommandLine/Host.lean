import MipsToolchain.Text.RawText

namespace MipsToolchain.CommandLine

inductive FileError where
  | missing (name : String)
  | other (text : String)
deriving DecidableEq, Repr

def FileError.message : FileError → String
  | missing name => "open " ++ name ++ ": no such file or directory"
  | other text => text

structure Host (m : Type → Type) where
  read : String → m (Except FileError ByteArray)
  write : String → ByteArray → m (Except FileError Unit)
  out : ByteArray → m Unit
  err : ByteArray → m Unit

inductive Exit where
  | success
  | failure
  | trouble
deriving DecidableEq, Repr

def Exit.code : Exit → UInt8
  | success => 0
  | failure => 1
  | trouble => 2

/-- Work with a host, which can end the program early. -/
abbrev Session (m : Type → Type) := ReaderT (Host m) (ExceptT Exit m)

namespace Session

variable {m : Type → Type} [Monad m]

def print (t : RawText) : Session m Unit := fun h => h.out t.bytes.toByteArray

def printError (t : RawText) : Session m Unit := fun h => h.err t.bytes.toByteArray

def stop {α : Type} (e : Exit) (message : RawText) : Session m α := do
  print (message ++ "\n")
  throw e

def fail {α : Type} (e : Exit) (message : RawText) : Session m α := do
  printError (message ++ "\n")
  throw e

def read (name : String) : Session m ByteArray := do
  match ← (fun h => h.read name : Session m _) with
  | .ok bytes => return bytes
  | .error e => stop .trouble e.message

def write (name : String) (bytes : List UInt8) : Session m Unit := do
  match ← (fun h => h.write name bytes.toByteArray : Session m _) with
  | .ok () => return ()
  | .error e => stop .trouble e.message

def run (s : Session m Unit) (h : Host m) : m Exit := do
  match ← (ReaderT.run s h).run with
  | .ok () => return .success
  | .error e => return e

end Session

end MipsToolchain.CommandLine
