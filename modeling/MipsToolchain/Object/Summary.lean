import MipsToolchain.Object.Module
import MipsToolchain.Text.Record

namespace MipsToolchain

open Text

def Section.summary (s : Section) : Record :=
  .fields "cmd.SectionView" [
    ("Name", .atom s.name.quoted),
    ("Flags", .atom (quoted s.flags.render)),
    ("Size", .atom (toString s.length)),
    ("Address", .atom (quoted (markedHex s.virtualAddress.toNat)))]

def Address.quoted (a : Address) : String :=
  let offset := markedHex a.value.toInt
  if a.isRelocatable then (a.sectionName ++ ("+" ++ offset)).quoted
  else Text.quoted offset

def Symbol.summary (s : Symbol) : Except Fault Record := do
  let binding ← s.binding.name
  pure <| .fields "cmd.SymbolView" [
    ("Name", .atom s.name.quoted),
    ("Type", .atom (quoted s.type.name)),
    ("Binding", .atom (quoted binding)),
    ("Address", .atom ((s.address.map Address.quoted).getD (quoted "undefined")))]

def Reference.summary (r : Reference) : Record :=
  .fields "cmd.ReferenceView" [
    ("Location", .atom r.location.quoted),
    ("Symbol", .atom r.symbol.quoted),
    ("Kind", .atom (quoted r.kind.name)),
    ("Addend", .atom (toString r.addend.toInt))]

def Module.summary (m : Module) : Except Fault Record := do
  let symbols ← m.symbols.mapM Symbol.summary
  pure <| .fields "cmd.ModuleView" [
    ("Name", .atom (quoted m.name)),
    ("Failed", .atom (toString m.failed)),
    ("Sections", .list "[]cmd.SectionView" (m.sections.map Section.summary)),
    ("Symbols", .list "[]cmd.SymbolView" symbols),
    ("References", .list "[]cmd.ReferenceView" (m.references.map Reference.summary))]

end MipsToolchain
