import MipsToolchain.Text.LowerCase
import MipsToolchain.Text.RawText

namespace MipsToolchain

inductive ByteOrder where
  | big
  | little
deriving DecidableEq, Repr

structure UnknownByteOrder where
  text : RawText
deriving DecidableEq, Repr

def UnknownByteOrder.message (e : UnknownByteOrder) : RawText :=
  "unknown byte order \"" ++ e.text ++ "\" (expected big or little)"

namespace ByteOrder

def name : ByteOrder → String
  | big => "big"
  | little => "little"

def parse (text : RawText) : Except UnknownByteOrder ByteOrder :=
  let key := Text.lower text.text
  if key ∈ ["big", "be", "eb"] then .ok big
  else if key ∈ ["little", "le", "el"] then .ok little
  else .error ⟨text⟩

def arrange {α : Type} : ByteOrder → List α → List α
  | big, bs => bs
  | little, bs => bs.reverse

theorem arrange_arrange {α : Type} (o : ByteOrder) (bs : List α) :
    o.arrange (o.arrange bs) = bs := by
  cases o <;> simp [arrange]

@[simp]
theorem length_arrange {α : Type} (o : ByteOrder) (bs : List α) :
    (o.arrange bs).length = bs.length := by
  cases o <;> simp [arrange]

def wordBytes (o : ByteOrder) (w : UInt32) : List UInt8 :=
  o.arrange [(w >>> 24).toUInt8, (w >>> 16).toUInt8, (w >>> 8).toUInt8, w.toUInt8]

def halfBytes (o : ByteOrder) (h : UInt16) : List UInt8 :=
  o.arrange [(h >>> 8).toUInt8, h.toUInt8]

def fold (bs : List UInt8) : UInt32 :=
  bs.foldl (fun acc b => acc <<< 8 ||| b.toUInt32) 0

def ofBytes (o : ByteOrder) (bs : List UInt8) : UInt32 :=
  fold (o.arrange bs)

@[simp]
theorem length_wordBytes (o : ByteOrder) (w : UInt32) : (o.wordBytes w).length = 4 := by
  simp [wordBytes]

@[simp]
theorem length_halfBytes (o : ByteOrder) (h : UInt16) : (o.halfBytes h).length = 2 := by
  simp [halfBytes]

end ByteOrder

end MipsToolchain
