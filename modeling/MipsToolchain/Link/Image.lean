import MipsToolchain.Link.Resolve

namespace MipsToolchain

structure Program where
  image : Module
  entry : UInt32
  globals : Globals
deriving DecidableEq

def Program.address? (p : Program) (n : Name) : Option UInt32 := do
  let s ← p.image.symbol? n
  let a ← s.address
  pure (Isa.lowWord a.value)

namespace Layout

def copyParts (n : Name) : List Nat → List Module → Module.Edit Unit
  | _, [] => pure ()
  | [], _ :: _ => throw .outOfRange
  | offset :: offsets, m :: ms => do
    match m.section? n with
    | none => pure ()
    | some s =>
      Module.align n s.alignment
      if (← get).offset n ≠ offset then throw .inconsistentLayout
      discard (Module.append n s.bytes)
    copyParts n offsets ms

def copySection (ms : List Module) (s : OutputSection) : Module.Edit Unit := do
  discard (Module.addSection s.name s.flags)
  modify (·.updateSection s.name ({ · with virtualAddress := s.address.toUInt64 }))
  copyParts s.name s.offsets ms

def exportGlobal (g : Global) : Module.Edit Unit := do
  discard (Module.tryDefine g.name g.symbol.type (some (.absolute g.address)) g.symbol.origin)
  discard (Module.declare g.name g.symbol.binding)

def image (l : Layout) (order : ByteOrder) (gs : Globals) (ms : List Module) :
    Except Fault Module := do
  let build : Module.Edit Unit := do
    l.sections.forM (copySection ms)
    gs.sorted.forM exportGlobal
  let (_, m) ← ({ name := "image", order : Module }).perform build
  pure m.finalize

end Layout

def checkModules : List Module → Reported Bool
  | [] => pure true
  | m :: ms => do
    let ok ← check m
    let oks ← checkModules ms
    pure (ok && oks)
where
  check (m : Module) : Reported Bool := do
    if m.failed then
      report .moduleFailed .none [] [.text m.name]
      pure false
    else if !m.finalized then
      report .notFinalized .none [] [.text m.name]
      pure false
    else pure true

/-- The address of the entry symbol, or the text base if there is none. -/
def resolveEntry (l : LinkSettings) (gs : Globals) : Reported UInt32 :=
  match gs.get? l.entry with
  | some g => pure (Isa.lowWord g.address)
  | none => do
    report .missingEntry .none [] [.text l.entry, .int l.textBase.toNat]
    pure l.textBase

/-- All that linking determines before the image is put together. -/
structure Linkage where
  layout : Layout
  globals : Globals
  modules : List Module
  entry : UInt32
deriving DecidableEq

/-- Lay modules out and patch them, unless one of them cannot be linked at all. -/
def linkage (s : Settings) (ms : List Module) : Guarded (Option Linkage) := do
  if ← checkModules ms then
    let layout := Layout.ofModules s.link ms
    Layout.checkOverlaps layout.sections
    let globals ← Globals.ofModules layout ms
    let modules ← linkModules layout globals 0 ms
    let entry ← resolveEntry s.link globals
    pure (some ⟨layout, globals, modules, entry⟩)
  else pure none

/-- Link modules into a program, which exists if no error is reported. -/
def link (s : Settings) (ms : List Module) : Guarded (Option Program) :=
  match linkage s ms with
  | .error f => .error f
  | .ok r =>
    let ds := Diagnostic.promoteIf s.strict r.diagnostics
    match r.value with
    | none => .ok ⟨none, ds⟩
    | some l =>
      if 0 < Diagnostic.errorCount ds then .ok ⟨none, ds⟩
      else match l.layout.image s.order l.globals l.modules with
        | .error f => .error f
        | .ok image => .ok ⟨some ⟨image, l.entry, l.globals⟩, ds⟩

end MipsToolchain
