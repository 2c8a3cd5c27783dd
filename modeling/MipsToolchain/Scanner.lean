import MipsToolchain.Fault

namespace MipsToolchain

/-- Patterns over characters. A scanner says how many characters it matches at the start of a text,
where none means that it does not match. -/
inductive Scanner where
  | unit (cs : List Char)
  | caseless (s : String)
  | within (lo hi : Char)
  | all (xs : List Scanner)
  | any (xs : List Scanner)
  | many (x : Scanner)
  | sequence (xs : List Scanner)
  | sequenceOpt (xs : List Scanner)

namespace Scanner

/-- A text that equals another one, letter case in ASCII apart, and is at least as long as that
one's encoding. -/
def matchCaseless (s : String) (text : List Char) : Nat :=
  if text.length < s.utf8ByteSize then 0
  else if (s.toList.map Char.toLower).isPrefixOf (text.map Char.toLower) then s.utf8ByteSize
  else 0

def matchWithin (lo hi : Char) : List Char → Nat
  | [] => 0
  | c :: _ => if lo ≤ c ∧ c ≤ hi then 1 else 0

def matchMany (f : List Char → Nat) (text : List Char) : Nat :=
  match text with
  | [] => 0
  | c :: r =>
    let n := f (c :: r)
    if n = 0 then 0 else n + matchMany f (r.drop (n - 1))
termination_by text.length
decreasing_by
  simp only [List.length_drop, List.length_cons]
  omega

mutual

def run : Scanner → List Char → Nat
  | unit cs, text => if cs.isPrefixOf text then cs.length else 0
  | caseless s, text => matchCaseless s text
  | within lo hi, text => matchWithin lo hi text
  | all xs, text => (runAll xs text).getD 0
  | any xs, text => runAny xs text
  | many x, text => matchMany (run x) text
  | sequence xs, text => (runSequence xs text).getD 0
  | sequenceOpt xs, text => (runSequenceOpt xs text).getD 0

/-- The longest match, if all of them match. -/
def runAll : List Scanner → List Char → Option Nat
  | [], _ => some 0
  | x :: xs, text =>
    match run x text with
    | 0 => none
    | n => (runAll xs text).map (max n)

def runAny : List Scanner → List Char → Nat
  | [], _ => 0
  | x :: xs, text =>
    match run x text with
    | 0 => runAny xs text
    | n => n

/-- One match after the other, each of something. -/
def runSequence : List Scanner → List Char → Option Nat
  | [], _ => some 0
  | x :: xs, text =>
    match run x text with
    | 0 => none
    | n => (runSequence xs (text.drop n)).map (n + ·)

/-- One match after the other, where the last may be of nothing. -/
def runSequenceOpt : List Scanner → List Char → Option Nat
  | [], _ => some 0
  | [x], text => some (run x text)
  | x :: xs, text =>
    match run x text with
    | 0 => none
    | n => (runSequenceOpt xs (text.drop n)).map (n + ·)

end

def accepts (x : Scanner) (text : List Char) : Bool :=
  !text.isEmpty && x.run text == text.length

/-- The text behind a number of characters, which have to be there. -/
def behind (text : List Char) (k : Nat) : Except Fault (List Char) :=
  if k ≤ text.length then .ok (text.drop k) else .error .outOfRange

/-- Whether the characters from a place on are the given ones, up to what is folded together. -/
def agreeFrom (fold : Char → Char) (text : List Char) : Nat → List Char → Except Fault Bool
  | _, [] => .ok true
  | k, c :: cs => do
    let d ← elementAt text k
    if fold c = fold d then agreeFrom fold text (k + 1) cs else return false

/-- Match again and again behind what is matched already. Every round but the last matches
something, so that there is a bound on their number. -/
def scanMany (f : List Char → Except Fault Nat) (text : List Char) : Nat → Nat → Except Fault Nat
  | rounds, index =>
    if index < text.length then
      match rounds with
      | 0 => .error .unreachable
      | rounds + 1 => do
        let n ← f (← behind text index)
        if n = 0 then return index else scanMany f text rounds (index + n)
    else .ok index

mutual

/-- How many characters a scanner matches, like `run`, but by places in the text. All characters are
looked up and all texts are cut off where the counts so far lead, so that these have to be right. -/
def scan : Scanner → List Char → Except Fault Nat
  | unit cs, text =>
    if text.length < cs.length then .ok 0
    else do return if ← agreeFrom id text 0 cs then cs.length else 0
  | caseless s, text =>
    if text.length < s.utf8ByteSize then .ok 0
    else do return if ← agreeFrom Char.toLower text 0 s.toList then s.utf8ByteSize else 0
  | within lo hi, text =>
    if text.length = 0 then .ok 0
    else do
      let c ← elementAt text 0
      return if lo ≤ c ∧ c ≤ hi then 1 else 0
  | all xs, text => scanAll xs text 0
  | any xs, text => scanAny xs text
  | many x, text => scanMany (scan x) text text.length 0
  | sequence xs, text => scanSequence xs text 0
  | sequenceOpt xs, text => scanSequenceOpt xs text 0

def scanAll : List Scanner → List Char → Nat → Except Fault Nat
  | [], _, longest => .ok longest
  | x :: xs, text, longest => do
    let n ← scan x text
    if n = 0 then return 0 else scanAll xs text (max longest n)

def scanAny : List Scanner → List Char → Except Fault Nat
  | [], _ => .ok 0
  | x :: xs, text => do
    let n ← scan x text
    if 0 < n then return n else scanAny xs text

def scanSequence : List Scanner → List Char → Nat → Except Fault Nat
  | [], _, index => .ok index
  | x :: xs, text, index =>
    if index = text.length then .ok 0
    else do
      let n ← scan x (← behind text index)
      if n = 0 then return 0 else scanSequence xs text (index + n)

def scanSequenceOpt : List Scanner → List Char → Nat → Except Fault Nat
  | [], _, index => .ok index
  | [x], text, index =>
    if index = text.length then .ok index
    else do return index + (← scan x (← behind text index))
  | x :: xs, text, index =>
    if index = text.length then .ok 0
    else do
      let n ← scan x (← behind text index)
      if n = 0 then return 0 else scanSequenceOpt xs text (index + n)

end

end Scanner

end MipsToolchain
