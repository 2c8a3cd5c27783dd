import MipsToolchain.Expr.Eval
import MipsToolchain.Object.Module

namespace MipsToolchain

structure Environment where
  module : Module
  current : Name
  /-- Whether the temporary register is kept for pseudo-instructions. -/
  reserveTemporary : Bool := true
  /-- Whether instructions could change places, which they never do. -/
  reorder : Bool := true
deriving DecidableEq

namespace Environment

def initial (m : Module) : Environment := ⟨m, StandardSection.text.name, true, true⟩

def flags (env : Environment) : SectionFlags :=
  match env.module.section? env.current with
  | some s => s.flags
  | none => standardFlags env.current

def location (env : Environment) : Address :=
  .relative env.current (Int64.ofNat (env.module.offset env.current))

/-- The address of a symbol that is defined and cannot be overridden by another module. The name of
a section stands for its start. -/
def resolve (env : Environment) (n : Name) : Option Address :=
  match env.module.symbol? n with
  | some s => if s.binding = .weak then none else s.address
  | none => if env.module.isSectionName n then some (.relative n 0) else none

def context (env : Environment) : EvalContext := ⟨env.resolve, env.location⟩

def edit {α : Type} (env : Environment) (e : Module.Edit α) : Except Fault (α × Environment) :=
  match env.module.perform e with
  | .ok (a, m) => .ok (a, { env with module := m })
  | .error f => .error f

def apply {α : Type} (env : Environment) (e : Module.Edit α) : Except Fault Environment :=
  (env.edit e).map (·.2)

def switch (env : Environment) (n : Name) (flags : SectionFlags) : Except Fault Environment :=
  (env.apply (Module.addSection n flags)).map ({ · with current := n })

end Environment

end MipsToolchain
