namespace MipsToolchain.Text

/-- A terminal escape sequence under construction, as the attribute codes gathered so far. -/
structure Ansi where
  codes : List Nat
deriving DecidableEq, Repr

namespace Ansi

def plain : Ansi := ⟨[]⟩

def reset : Ansi := ⟨[0]⟩

def withCode (a : Ansi) (code : Nat) : Ansi := ⟨a.codes ++ [code]⟩

def bold (a : Ansi) : Ansi := a.withCode 1

/-- Colours are numbers of 64 bits, and so are their codes. -/
def foreground (a : Ansi) (colour : UInt64) : Ansi := a.withCode (colour + 30).toNat

def red : UInt64 := 1

def yellow : UInt64 := 3

def cyan : UInt64 := 6

def render (a : Ansi) : String :=
  let codes := if a.codes.isEmpty then "" else "[" ++ ";".intercalate (a.codes.map toString)
  "\x1b" ++ codes ++ "m"

/-- Text between an escape and a reset, or the bare text where colour is off. -/
def wrap (enabled : Bool) (a : Ansi) (text : String) : String :=
  if enabled then a.render ++ text ++ reset.render else text

@[simp]
theorem wrap_false (a : Ansi) (text : String) : wrap false a text = text := rfl

end Ansi

def optional : Option String → String
  | some text => s!"Some({text})"
  | none => "None"

end MipsToolchain.Text
