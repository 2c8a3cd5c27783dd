import MipsToolchain.Isa.Field
import MipsToolchain.Object.Module

namespace MipsToolchain

inductive AccessError where
  | unknownSection (name : Name)
  | outOfBounds (location : Address)
deriving DecidableEq, Repr

def AccessError.message : AccessError → RawText
  | unknownSection name => "unknown section \"" ++ name ++ "\""
  | outOfBounds location => "location " ++ location.render ++ " out of bounds"

inductive RelocationError where
  | access (e : AccessError)
  | unpaired (r : Reference) (e : AccessError)
  | jumpMisaligned (r : Reference)
  | branchMisaligned (r : Reference)
  | overflow (r : Reference) (displacement : Int64)
deriving DecidableEq, Repr

namespace RelocationError

def message : RelocationError → RawText
  | access e => e.message
  | unpaired r e => r.render ++ " has no paired lower half: " ++ e.message
  | jumpMisaligned r => r.render ++ ": jump target misaligned"
  | branchMisaligned r => r.render ++ ": branch target misaligned"
  | overflow r d => r.render ++ s!": relocated value out of range ({d.toInt})"

def isOverflow : RelocationError → Bool
  | overflow _ _ => true
  | _ => false

end RelocationError

namespace Module

/-- The section that holds the word at an address. The end of the word is computed with wrap-around,
so that the largest offsets pass this check. -/
def wordAt (m : Module) (loc : Address) : Except AccessError Section :=
  match m.section? loc.sectionName with
  | none => .error (.unknownSection loc.sectionName)
  | some s =>
    if loc.value < 0 ∨ Int64.ofNat s.length < loc.value + 4 then .error (.outOfBounds loc)
    else .ok s

def wordBytes? (s : Section) (offset : Nat) : Option (List UInt8) :=
  if offset + 4 ≤ s.length then
    some [s.bytes.get! offset, s.bytes.get! (offset + 1), s.bytes.get! (offset + 2),
      s.bytes.get! (offset + 3)]
  else none

def putBytes (s : Section) (offset : Nat) (bs : List UInt8) : Section :=
  { s with bytes := (bs.zipIdx offset).foldl (fun bytes b => bytes.set! b.2 b.1) s.bytes }

def readWord (m : Module) (loc : Address) : ExceptT AccessError (Except Fault) UInt32 := do
  let s ← ExceptT.mk (.ok (m.wordAt loc))
  match wordBytes? s loc.value.toInt.toNat with
  | some bs => pure (m.order.ofBytes bs)
  | none => ExceptT.lift (.error .outOfRange)

/-- Overwrite a word, which a finalized module permits too. -/
def writeWord (m : Module) (loc : Address) (w : UInt32) :
    ExceptT AccessError (Except Fault) Module := do
  let s ← ExceptT.mk (.ok (m.wordAt loc))
  let offset := loc.value.toInt.toNat
  match wordBytes? s offset with
  | some _ => pure (m.updateSection loc.sectionName (putBytes · offset (m.order.wordBytes w)))
  | none => ExceptT.lift (.error .outOfRange)

/-- The new contents of a word when what it refers to moves by `delta` bytes. The lower half that
goes with the upper half of an address is read from the module. -/
def relocatedWord (m : Module) (r : Reference) (w : UInt32) (delta : Int64) :
    ExceptT RelocationError (Except Fault) UInt32 :=
  let d := Isa.lowWord delta
  match r.kind with
  | .absolute32 => pure (w + d)
  | .low16 => pure ((w &&& 0xffff0000) ||| ((w + d) &&& 0xffff))
  | .high16 => do
    let lower ← ExceptT.adapt (.unpaired r) (m.readWord (r.location.add 4))
    let full := (((w &&& 0xffff) <<< (16 : UInt32)) ||| (lower &&& 0xffff)) + d
    pure ((w &&& 0xffff0000) ||| (full >>> (16 : UInt32)))
  | .jump26 =>
    if delta % 4 ≠ 0 then throw (.jumpMisaligned r)
    else pure (Isa.withJumpField w (Isa.jumpField w + Isa.lowWord (delta >>> 2)))
  | .pcrel16 =>
    if delta % 4 ≠ 0 then throw (.branchMisaligned r)
    else
      let displacement := Isa.signExtend (Isa.immediateField w) 16 + (delta >>> 2)
      if Isa.fitsSigned displacement 16 then
        pure (Isa.withImmediateField w (Isa.lowWord displacement))
      else throw (.overflow r displacement)
  | .unassigned _ => ExceptT.lift (.error .unreachable)

/-- Patch the word of a reference when what it refers to moves by `delta` bytes. -/
def relocate (m : Module) (r : Reference) (delta : Int64) :
    ExceptT RelocationError (Except Fault) Module := do
  let w ← ExceptT.adapt .access (m.readWord r.location)
  let w' ← m.relocatedWord r w delta
  ExceptT.adapt .access (m.writeWord r.location w')

end Module

end MipsToolchain
