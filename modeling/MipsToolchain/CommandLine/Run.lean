import MipsToolchain.Assembly.Assemble
import MipsToolchain.CommandLine.Arguments
import MipsToolchain.CommandLine.Host
import MipsToolchain.CommandLine.Usage
import MipsToolchain.Diagnostic.LogEntry
import MipsToolchain.Diagnostic.Printer
import MipsToolchain.Object.Listing
import MipsToolchain.Object.Summary
import MipsToolchain.ObjectFile.Reader
import MipsToolchain.ObjectFile.Writer
import MipsToolchain.Settings.Reader

namespace MipsToolchain.CommandLine

def baseName (path : String) : String :=
  let trimmed := (path.toList.reverse.dropWhile (· = '/')).reverse
  if path.isEmpty then "."
  else if trimmed.isEmpty then "/"
  else String.ofList (trimmed.reverse.takeWhile (· ≠ '/')).reverse

/-- The end of a path from its last dot on, if that is in the last part. -/
def extension (path : String) : List Char :=
  let reversed := path.toList.reverse
  let tail := reversed.takeWhile fun c => c ≠ '.' && c ≠ '/'
  match reversed.drop tail.length with
  | '.' :: _ => '.' :: tail.reverse
  | _ => []

def replaceExtension (path : String) (new : String) : String :=
  String.ofList (path.toList.take (path.toList.length - (extension path).length)) ++ new

section

variable {m : Type → Type} [Monad m]

open Session

def unlessFault {α : Type} (x : Except Fault α) : Session m α :=
  match x with
  | .ok a => pure a
  | .error f => fail .trouble ("panic: " ++ f.message?.getD "runtime error")

def readSettings (name : String) : Session m Settings := do
  let bytes ← read name
  match ← unlessFault (Settings.ofBytes bytes.data.toList) with
  | .ok s => return s
  | .error e => stop .trouble ((name ++ ": ") ++ e.message)

/-- The settings of a run: those of a file or else the standard ones, below the flags. -/
def chooseSettings (o : Options) : Session m Settings := do
  let s ← if o.config.isEmpty then pure {} else readSettings o.config
  match (o.applyTo s).validate with
  | .ok s => return s
  | .error e => stop .trouble e.message

def showDiagnostics (o : Options) (files : List Source.File) (ds : List Diagnostic) :
    Session m Unit :=
  printError <|
    if o.json then String.join (ds.map Diagnostic.logStructured)
    else Diagnostic.printAll false files ds

def readSource (name : String) : Session m Source.File := do
  let bytes := (← read name).data.toList
  if RawText.isText bytes then return .ofText name (RawText.textOf bytes)
  else stop .trouble (name ++ ": source file is not valid UTF-8 text")

def readObject (path : String) : Session m ObjectFile.File := do
  let bytes ← read path
  let name := baseName path
  match ← unlessFault (ObjectFile.unmarshal name bytes.data.toList) with
  | .ok f => return f
  | .error e => stop .trouble ((name ++ ": ") ++ e.message)

/-- The module of an object file. An executable file has no module to link. -/
def readModule (path : String) : Session m Module := do
  let f ← readObject path
  if f.isExecutable then stop .trouble (path ++ ": cannot link an executable file")
  return f.module

def bytesOrStop (x : Except ObjectFile.WriteError (List UInt8)) : Session m (List UInt8) :=
  match x with
  | .ok bytes => pure bytes
  | .error e => stop .trouble e.message

def assembleOrFail (o : Options) (s : Settings) (files : List Source.File) :
    Session m (List Module) := do
  let r ← unlessFault (assembleFiles s files)
  showDiagnostics o files r.diagnostics
  let failures := (r.value.filter (·.failed)).length
  if 0 < failures then
    fail .failure s!"{Diagnostic.errorCount r.diagnostics} error(s) in {failures} file(s)"
  return r.value

def linkInto (o : Options) (s : Settings) (modules : List Module) : Session m Unit := do
  let r ← unlessFault (link s modules)
  showDiagnostics o [] r.diagnostics
  match r.value with
  | none => fail .failure s!"linking failed with {Diagnostic.errorCount r.diagnostics} error(s)"
  | some p => write (o.output.getD "a.out") (← bytesOrStop (ObjectFile.marshalProgram p))

def runAssemble (o : Options) (paths : List String) : Session m Unit := do
  let s ← chooseSettings o
  let files ← paths.mapM readSource
  let output := o.output.getD ""
  if !output.isEmpty && files.length ≠ 1 then
    stop .trouble "output can only be given for a single source file"
  let modules ← assembleOrFail o s files
  (files.zip modules).forM fun (f, module) => do
    let bytes ← bytesOrStop (ObjectFile.marshal module)
    write (if output.isEmpty then replaceExtension f.name ".o" else output) bytes

def runBuild (o : Options) (paths : List String) : Session m Unit := do
  let s ← chooseSettings o
  let files ← paths.mapM readSource
  let modules ← assembleOrFail o s files
  linkInto o s modules

def runLink (o : Options) (paths : List String) : Session m Unit := do
  let s ← chooseSettings o
  let modules ← paths.mapM readModule
  linkInto o s modules

def runDisassemble (o : Options) (path : String) : Session m Unit := do
  let s ← chooseSettings o
  let f ← readObject path
  (f.module.disassembly ⟨s.version⟩).forM fun l => print (l ++ "\n")

/-- The module that a file holds or, if it is a source file, assembles to. -/
def loadModule (o : Options) (path : String) : Session m Module := do
  if extension path = ['.', 's'] then
    let file ← readSource path
    let s ← chooseSettings o
    let r ← unlessFault (assembleFile s file)
    showDiagnostics o [file] r.diagnostics
    return r.value
  else return (← readObject path).module

def runDump (o : Options) (path : String) : Session m Unit := do
  let module ← loadModule o path
  let summary ← unlessFault module.summary
  print (summary.render ++ "\n")

def tokenLine (t : Token) : String :=
  s!"{t.location.line}:{t.location.column + 1}\t" ++ t.kind.name ++ "\t" ++ Text.quoted t.text
    ++ "\n"

def runTokens (o : Options) (path : String) : Session m Unit := do
  let file ← readSource path
  let r := tokenizeFile file
  showDiagnostics o [file] r.diagnostics
  r.value.forM fun l => do
    let shown := if o.all then l.tokens else l.significant
    print (String.join (shown.map tokenLine))

def Command.run (c : Command) (a : Arguments) : Session m Unit := do
  let o := a.options
  if o.help then print (c.description ++ "\n\n" ++ c.usage)
  else if !c.accepts a.operands.length then stop .failure c.usage
  else match c, a.operands with
    | .assemble, paths => runAssemble o paths
    | .build, paths => runBuild o paths
    | .link, paths => runLink o paths
    | .disassemble, path :: _ => runDisassemble o path
    | .dump, path :: _ => runDump o path
    | .tokens, path :: _ => runTokens o path
    | _, [] => pure ()

def explain (a : Arguments) : Session m Unit :=
  if a.options.help then print (description ++ "\n\n" ++ usage)
  else if a.options.release then print "go-mips (unknown version)\n"
  else print (usage ++ "\n")

def argumentsOrFail (flags : List Flag) (usage : String) (args : List String) :
    Session m Arguments :=
  match Arguments.parse flags args with
  | .ok a => pure a
  | .error e => fail .failure ("Error: " ++ e.message ++ "\n" ++ usage)

def session (args : List String) : Session m Unit := do
  match findCommand args with
  | .error e =>
    fail .failure ("Error: " ++ e.message ++ "\nRun 'go-mips --help' for usage.")
  | .ok (none, args) => explain (← argumentsOrFail rootFlags usage args)
  | .ok (some c, args) => c.run (← argumentsOrFail c.flags c.usage args)

def run (h : Host m) (args : List String) : m Exit := (session args).run h

end

end MipsToolchain.CommandLine
