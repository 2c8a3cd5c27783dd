import MipsToolchain.Yaml.Tag

namespace MipsToolchain.Yaml

/-- A value in a document. Lines count from one. -/
inductive Node where
  | scalar (line : Nat) (tag : Tag) (text : String)
  | sequence (line : Nat) (tag : Tag) (items : List Node)
  | mapping (line : Nat) (tag : Tag) (entries : List (Node × Node))
  /-- The name of another node, which is found by its number. No two aliases share a place. -/
  | reference (line : Nat) (name : String) (target place : Nat)
deriving Repr

namespace Node

def line : Node → Nat
  | scalar l .. => l
  | sequence l .. => l
  | mapping l .. => l
  | reference l .. => l

def text : Node → String
  | scalar _ _ t => t
  | reference _ n .. => n
  | _ => ""

def tag? : Node → Option Tag
  | scalar _ t _ => some t
  | sequence _ t _ => some t
  | mapping _ t _ => some t
  | reference .. => none

def missing (line : Nat) : Node := scalar line .null ""

/-- Two keys of one shape clash if their texts agree. -/
def clashes (a b : Node) : Bool :=
  match a, b with
  | scalar .., scalar .. => a.text == b.text
  | sequence .., sequence .. => true
  | mapping .., mapping .. => true
  | reference .., reference .. => a.text == b.text
  | _, _ => false

def isMapping : Node → Bool
  | mapping .. => true
  | _ => false

/-- Whether a key stands for the entries of other mappings. -/
def isMerge : Node → Bool
  | scalar _ t s => t = .merge && s == "<<"
  | _ => false

end Node

structure Document where
  root : Node
  named : List (Nat × Node) := []
  /-- No way through the document that passes an alias at most once is longer than this. -/
  depth : Nat := 0

def Document.node? (d : Document) (n : Nat) : Option Node := d.named.lookup n

end MipsToolchain.Yaml
