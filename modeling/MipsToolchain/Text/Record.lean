namespace MipsToolchain.Text

inductive Record where
  | atom (text : String)
  | list (type : String) (items : List Record)
  | fields (type : String) (entries : List (String × Record))

namespace Record

/-- Lists that are longer than this are not shown. -/
def listLimit : Nat := 1024

def indent (lines : List String) : List String := lines.map ("  " ++ ·)

def withComma : List String → List String
  | [] => []
  | [l] => [l ++ ","]
  | l :: ls => l :: withComma ls

/-- The fields up to and including the first that takes several lines, and the others. -/
def splitRun :
    List (String × List String) → List (String × List String) × List (String × List String)
  | [] => ([], [])
  | f :: fs =>
    if f.2.length > 1 then ([f], fs)
    else
      let (run, rest) := splitRun fs
      (f :: run, rest)

def alignField (width : Nat) (f : String × List String) : List String :=
  let label := f.1 ++ ":" ++ String.ofList (List.replicate (width - f.1.length + 1) ' ')
  match f.2 with
  | [] => [label]
  | l :: ls => (label ++ l) :: ls

/-- Fields as lines. The values of a run of fields stand in one column, and a value of several
lines ends a run. -/
def align (fs : List (String × List String)) : List String :=
  go fs.length fs
where
  go : Nat → List (String × List String) → List String
    | 0, _ => []
    | fuel + 1, fs =>
      let (run, rest) := splitRun fs
      let width := (run.map (·.1.length)).foldl max 0
      run.flatMap (fun f => withComma (alignField width f))
        ++ (if rest.isEmpty then [] else go fuel rest)

mutual

def lines : Record → List String
  | atom text => [text]
  | list type items =>
    if items.isEmpty then [type ++ "(nil)"]
    else if items.length > listLimit then [type ++ "\x7b...\x7d"]
    else (type ++ "\x7b") :: indent (itemLines items) ++ ["\x7d"]
  | fields type entries => (type ++ "\x7b") :: indent (align (entryLines entries)) ++ ["\x7d"]

def itemLines : List Record → List String
  | [] => []
  | r :: rs => withComma r.lines ++ itemLines rs

def entryLines : List (String × Record) → List (String × List String)
  | [] => []
  | (n, r) :: es => (n, r.lines) :: entryLines es

end

def render (r : Record) : String := "\n".intercalate r.lines

end Record

end MipsToolchain.Text
