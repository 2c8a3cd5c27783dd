import MipsToolchain.Isa.Table
import MipsToolchain.Object.Relocate

namespace MipsToolchain

/-- The words of a section with their offsets. Bytes behind the last whole word are left out. -/
def Module.sectionWords (m : Module) (s : Section) : List (Nat × UInt32) :=
  (List.range (s.length / 4)).filterMap fun k =>
    (Module.wordBytes? s (4 * k)).map fun bs => (4 * k, m.order.ofBytes bs)

def Section.pc (s : Section) (offset : Nat) : UInt32 :=
  s.virtualAddress.toUInt32 + offset.toUInt32

/-- The words of the executable sections that are not zero, with their addresses. -/
def Module.codeWords (m : Module) : List (UInt32 × UInt32) :=
  (m.sections.filter (·.flags.exec)).flatMap fun s =>
    (m.sectionWords s).filterMap fun (offset, w) => if w = 0 then none else some (s.pc offset, w)

def Module.listing (m : Module) (t : Isa.Table) : List String :=
  m.codeWords.map fun (pc, w) =>
    Text.hexWord pc ++ " " ++ Text.hexWord w ++ " " ++ t.disassemble w pc

def blankPaddedWord (w : UInt32) : String :=
  let digits := Text.hex w.toNat
  String.ofList (List.replicate (8 - digits.length) ' ') ++ digits

/-- The lines for one word: its labels, and then the word with the references that patch it. -/
def Module.wordLines (m : Module) (t : Isa.Table) (s : Section) (offset : Nat) (w : UInt32) :
    List RawText :=
  let place : Address := .relative s.name (Int64.ofNat offset)
  let labels : List RawText :=
    (m.symbols.filter (·.address = some place)).map fun l => l.name ++ ":"
  let references : List RawText :=
    (m.references.filter (·.location = place)).map fun r => "  # " ++ r.render
  let pc := s.pc offset
  let word := blankPaddedWord pc ++ ":  " ++ Text.hexWord w ++ "  " ++ t.disassemble w pc
  labels ++ [word ++ RawText.join references]

def Module.sectionListing (m : Module) (t : Isa.Table) (s : Section) : List RawText :=
  ("Disassembly of section " ++ s.name ++ ":")
    :: (m.sectionWords s).flatMap fun (offset, w) => m.wordLines t s offset w

def Module.disassembly (m : Module) (t : Isa.Table) : List RawText :=
  (m.sections.filter fun s => s.flags.exec && decide (0 < s.length)).flatMap (m.sectionListing t)

end MipsToolchain
