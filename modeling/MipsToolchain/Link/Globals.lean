import MipsToolchain.Link.Layout

namespace MipsToolchain

/-- A symbol that all modules can see, with its final address and the module that defines it. -/
structure Global where
  symbol : Symbol
  address : Int64
  module : Nat
deriving DecidableEq, Repr

namespace Global

def name (g : Global) : Name := g.symbol.name

def render (g : Global) : Except Fault String := do
  let binding ← g.symbol.binding.name
  pure (g.name.text ++ " = " ++ Text.markedHex g.address.toInt ++ " (" ++ binding ++ ")")

end Global

/-- The exported symbols of all modules, with one entry a name. -/
structure Globals where
  entries : List Global
deriving DecidableEq, Repr

namespace Globals

def empty : Globals := ⟨[]⟩

def get? (gs : Globals) (n : Name) : Option Global := gs.entries.find? (·.name = n)

def insert (gs : Globals) (g : Global) : Globals :=
  if (gs.get? g.name).isSome then
    ⟨gs.entries.map fun h => if h.name = g.name then g else h⟩
  else ⟨gs.entries ++ [g]⟩

def sorted (gs : Globals) : List Global :=
  gs.entries.mergeSort fun a b => a.name.le b.name

/-- Add a definition. Of two global ones the first stays and the second is reported, and a global
one replaces a weak one. -/
def merge (gs : Globals) (names : List String) (g : Global) : Guarded Globals :=
  match gs.get? g.name with
  | none => pure (gs.insert g)
  | some prev =>
    if prev.symbol.binding = .global ∧ g.symbol.binding = .global then do
      let first ← (elementAt names prev.module : Except Fault String)
      let second ← (elementAt names g.module : Except Fault String)
      report .duplicateGlobal g.symbol.origin [g.name.text]
        [.text g.name, .text first, .text second]
      pure gs
    else if prev.symbol.binding = .weak ∧ g.symbol.binding = .global then pure (gs.insert g)
    else pure gs

def addSymbols (l : Layout) (names : List String) (index : Nat) :
    List Symbol → Globals → Guarded Globals
  | [], gs => pure gs
  | s :: ss, gs => do
    match s.address with
    | some a =>
      if s.isExported then
        let address ← l.resolve index a
        let gs ← gs.merge names ⟨s, address, index⟩
        addSymbols l names index ss gs
      else addSymbols l names index ss gs
    | none => addSymbols l names index ss gs

def addModules (l : Layout) (names : List String) :
    Nat → List Module → Globals → Guarded Globals
  | _, [], gs => pure gs
  | index, m :: ms, gs => do
    let gs ← addSymbols l names index m.symbols gs
    addModules l names (index + 1) ms gs

def ofModules (l : Layout) (ms : List Module) : Guarded Globals :=
  addModules l (ms.map (·.name)) 0 ms empty

end Globals

end MipsToolchain
