import MipsToolchain.Source.File
import MipsToolchain.Text.Quoted

namespace MipsToolchain

inductive TokenKind where
  | unknown
  | label
  | directive
  | instruction
  | register
  | immediate
  | string
  | char
  | comment
  | whitespace
  | identifier
  | operator
  | comma
  | lparen
  | rparen
deriving DecidableEq, Repr

namespace TokenKind

def all : List TokenKind := [
  unknown, label, directive, instruction, register, immediate, string, char, comment, whitespace,
  identifier, operator, comma, lparen, rparen]

def name : TokenKind → String
  | unknown => "unknown"
  | label => "label"
  | directive => "directive"
  | instruction => "instruction"
  | register => "register"
  | immediate => "immediate"
  | string => "string"
  | char => "char"
  | comment => "comment"
  | whitespace => "whitespace"
  | identifier => "identifier"
  | operator => "operator"
  | comma => "comma"
  | lparen => "lparen"
  | rparen => "rparen"

/-- The name that belongs to a number, also where no kind has that number. -/
def nameOfIndex (n : Nat) : String :=
  match all[n]? with
  | some k => k.name
  | none => s!"kind({n})"

end TokenKind

structure Token where
  text : String
  kind : TokenKind
  location : Source.Location
deriving DecidableEq, Repr

namespace Token

def render (t : Token) : String :=
  t.kind.name ++ "(" ++ Text.quoted t.text ++ ")@" ++ t.location.render

def describe (t : Token) : String :=
  match t.kind with
  | .string | .char => t.kind.name ++ " literal"
  | _ => t.kind.name ++ " \"" ++ t.text ++ "\""

/-- Blanks and comments carry no meaning. -/
def isSignificant (t : Token) : Bool :=
  t.kind != .whitespace && t.kind != .comment

end Token

structure TokenLine where
  file : String
  number : Int
  text : String
  tokens : List Token
deriving DecidableEq, Repr

namespace TokenLine

def significant (l : TokenLine) : List Token := l.tokens.filter Token.isSignificant

def location (l : TokenLine) : Source.Location := ⟨l.file, l.number, 0⟩

end TokenLine

end MipsToolchain
