namespace MipsToolchain

/-- How serious a problem is. Only errors make assembling or linking fail. -/
inductive Severity where
  | message
  | warning
  | error
  | unassigned (code : UInt8)
deriving DecidableEq, Repr

namespace Severity

def ofCode (code : UInt8) : Severity :=
  match code with
  | 0 => message
  | 1 => warning
  | 2 => error
  | _ => unassigned code

def name : Severity → String
  | message => "message"
  | warning => "warning"
  | error => "error"
  | unassigned code => s!"severity({code})"

def promote : Severity → Severity
  | warning => error
  | s => s

@[simp]
theorem promote_promote (s : Severity) : s.promote.promote = s.promote := by
  cases s <;> rfl

end Severity

end MipsToolchain
