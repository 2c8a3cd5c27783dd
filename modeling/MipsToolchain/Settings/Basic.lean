import MipsToolchain.ByteOrder
import MipsToolchain.Isa.Version
import MipsToolchain.Text.Hex

namespace MipsToolchain

structure LinkSettings where
  textBase : UInt32 := 0x00400000
  dataBase : UInt32 := 0x10010000
  entry : RawText := "main"
deriving DecidableEq, Repr

structure Settings where
  version : Isa.Version := .standard
  /-- Whether pseudo-instructions may be used. -/
  pseudo : Bool := true
  order : ByteOrder := .big
  /-- Whether warnings count as errors. -/
  strict : Bool := false
  link : LinkSettings := {}
deriving DecidableEq, Repr

inductive InvalidSettings where
  | textBase (address : UInt32)
  | dataBase (address : UInt32)
  | noEntry
deriving DecidableEq, Repr

def InvalidSettings.message : InvalidSettings → String
  | textBase a => "text base " ++ Text.markedHex a.toNat ++ " is not word aligned"
  | dataBase a => "data base " ++ Text.markedHex a.toNat ++ " is not word aligned"
  | noEntry => "entry symbol cannot be empty"

def Settings.validate (s : Settings) : Except InvalidSettings Settings :=
  if s.link.textBase % 4 ≠ 0 then .error (.textBase s.link.textBase)
  else if s.link.dataBase % 4 ≠ 0 then .error (.dataBase s.link.dataBase)
  else if s.link.entry.isEmpty then .error .noEntry
  else .ok s

end MipsToolchain
