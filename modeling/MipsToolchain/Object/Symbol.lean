import MipsToolchain.Fault
import MipsToolchain.Object.Address
import MipsToolchain.Source.File

namespace MipsToolchain

inductive SymbolType where
  | unknown
  | label
  | constant
  | unassigned (code : UInt8)
deriving DecidableEq, Repr

namespace SymbolType

def ofCode (code : UInt8) : SymbolType :=
  match code with
  | 0 => unknown
  | 1 => label
  | 2 => constant
  | _ => unassigned code

def code : SymbolType → UInt8
  | unknown => 0
  | label => 1
  | constant => 2
  | unassigned code => code

def name : SymbolType → String
  | label => "label"
  | constant => "macro"
  | _ => "unknown"

end SymbolType

inductive Binding where
  | internal
  | global
  /-- Visible everywhere, but gives way to a global symbol of its name. -/
  | weak
  | unassigned (code : UInt8)
deriving DecidableEq, Repr

namespace Binding

def ofCode (code : UInt8) : Binding :=
  match code with
  | 0 => internal
  | 1 => global
  | 2 => weak
  | _ => unassigned code

def code : Binding → UInt8
  | internal => 0
  | global => 1
  | weak => 2
  | unassigned code => code

def name : Binding → Except Fault String
  | internal => .ok "local"
  | global => .ok "global"
  | weak => .ok "weak"
  | unassigned _ => .error .unreachable

end Binding

/-- A named place or constant. It has an address from its definition on. -/
structure Symbol where
  name : Name
  type : SymbolType
  binding : Binding := .internal
  address : Option Address
  /-- Whether the symbol was mentioned before it was defined. -/
  forward : Bool := false
  origin : Source.Location
deriving DecidableEq, Repr

namespace Symbol

def isDefined (s : Symbol) : Bool := s.address.isSome

def isExported (s : Symbol) : Bool := s.binding != .internal

def mention (name : Name) : Symbol :=
  ⟨name, .unknown, .internal, none, true, .none⟩

def render (s : Symbol) : Except Fault String := do
  let binding ← s.binding.name
  let head := binding ++ " " ++ s.type.name ++ " " ++ s.name.text
  match s.address with
  | some a => pure (head ++ " = " ++ a.render)
  | none => pure (head ++ " (undefined)")

end Symbol

end MipsToolchain
