import MipsToolchain.Link.Globals
import MipsToolchain.Object.Relocate

namespace MipsToolchain

/-- The address that a reference of the module with the given index is about. The name of a section
stands for that module's part of it. Symbols that the module keeps to itself come first, and names
that it shares mean the same in all modules. A weak symbol without definition is zero. -/
def resolveReference (l : Layout) (gs : Globals) (index : Nat) (m : Module) (r : Reference) :
    Except Fault (Option Int64) :=
  if m.isSectionName r.symbol then (l.resolve index (.relative r.symbol 0)).map some
  else match m.symbol? r.symbol with
    | none => .ok ((gs.get? r.symbol).map (·.address))
    | some s =>
      match s.address, s.isExported, gs.get? r.symbol with
      | some a, false, _ => (l.resolve index a).map some
      | _, _, some g => .ok (some g.address)
      | some a, _, none => (l.resolve index a).map some
      | none, _, none => .ok (if s.binding = .weak then some 0 else none)

/-- How far a reference moves. Branches count from the word behind them. -/
def relocationDelta (l : Layout) (index : Nat) (r : Reference) (target : Int64) :
    Except Fault Int64 :=
  if r.kind = .pcrel16 then
    (l.resolve index r.location).map fun place => target - (place + 4)
  else .ok target

def linkReference (l : Layout) (gs : Globals) (index : Nat) (m : Module) (r : Reference) :
    Guarded Module := do
  match ← resolveReference l gs index m r with
  | none =>
    report .unresolvedSymbol .none [r.symbol.text] [.text r.symbol, .text m.name]
    pure m
  | some target =>
    let delta ← relocationDelta l index r target
    match ← (m.relocate r delta).run with
    | .ok m' => pure m'
    | .error e =>
      report .relocationFailed .none [r.symbol.text] [.text r.symbol, .text e.message]
      pure m

def linkReferences (l : Layout) (gs : Globals) (index : Nat) :
    List Reference → Module → Guarded Module
  | [], m => pure m
  | r :: rs, m => do
    let m ← linkReference l gs index m r
    linkReferences l gs index rs m

def linkModules (l : Layout) (gs : Globals) : Nat → List Module → Guarded (List Module)
  | _, [] => pure []
  | index, m :: ms => do
    let m' ← linkReferences l gs index m.references m
    let ms' ← linkModules l gs (index + 1) ms
    pure (m' :: ms')

end MipsToolchain
