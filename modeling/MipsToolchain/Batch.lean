namespace MipsToolchain

/-- Do a job for every item. Results come in the order of the items, and the first failure ends the
whole. -/
def runBatch {α β ε : Type} (job : α → Except ε β) : List α → Except ε (List β)
  | [] => .ok []
  | a :: as =>
    match job a with
    | .error e => .error e
    | .ok b => (runBatch job as).map (b :: ·)

end MipsToolchain
