import MipsToolchain.ObjectFile.Reader
import MipsToolchain.Proofs.Effects
import MipsToolchain.Proofs.Word.Bits

namespace MipsToolchain

namespace ObjectFile

theorem number32_bytes32 (n : UInt32) : number32 (bytes32 n) = n :=
  ByteOrder.ofBytes_wordBytes .big n

theorem number16_bytes16 (n : UInt16) : number16 (bytes16 n) = n := by
  have hn := n.toNat_lt
  have hhigh : (n >>> 8).toUInt8.toNat = n.toNat / 0x100 % 256 := by
    simp [UInt16.toNat_shiftRight, Nat.shiftRight_eq_div_pow]
  have hlow : n.toUInt8.toNat = n.toNat % 256 := by simp
  have hbytes : bytes16 n = [(n >>> 8).toUInt8, n.toUInt8] := rfl
  rw [number16, hbytes, ← UInt16.toNat_inj, UInt32.toNat_toUInt16]
  simp only [ByteOrder.fold, List.foldl_cons, List.foldl_nil, ByteOrder.toNat_shl_or_byte, hhigh,
    hlow, UInt32.toNat_zero]
  omega

@[simp]
theorem length_bytes32 (n : UInt32) : (bytes32 n).length = 4 := ByteOrder.length_wordBytes _ _

@[simp]
theorem length_bytes16 (n : UInt16) : (bytes16 n).length = 2 := ByteOrder.length_halfBytes _ _

theorem split_append {n : Nat} {bs : List UInt8} (h : bs.length = n) (rest : List UInt8) :
    split n (bs ++ rest) = .ok (bs, rest) := by
  subst h
  simp [split, List.splitAt_eq]

section Tables

variable {α : Type} {size : Nat} {encode : α → List UInt8} {decode : List UInt8 → α}

theorem readTable_encode (hsize : ∀ e, (encode e).length = size) (hdecode : ∀ e, decode (encode e) = e)
    (es : List α) (rest : List UInt8) :
    readTable size decode es.length (es.flatMap encode ++ rest) = .ok (es, rest) := by
  induction es with
  | nil => rfl
  | cons e es ih =>
    rw [List.flatMap_cons, List.append_assoc, List.length_cons, readTable,
      split_append (hsize e)]
    change (readTable size decode es.length (es.flatMap encode ++ rest) >>= fun x =>
      pure (decode (encode e) :: x.1, x.2)) = _
    rw [ih, hdecode]
    rfl

end Tables

theorem SymbolEntry.decode_encode (e : SymbolEntry) : decode e.encode = e := by
  have hflags : e.encode.take 4 = bytes32 e.flags := rfl
  have hvalue : (e.encode.drop 4).take 4 = bytes32 e.value := rfl
  have hname : (e.encode.drop 8).take 4 = bytes32 e.nameIndex := rfl
  have hobject : (e.encode.drop 12).take 2 = bytes16 e.objectIndex := rfl
  rw [decode, hflags, hvalue, hname, hobject]
  simp only [number32_bytes32, number16_bytes16]

theorem RelocationEntry.decode_encode (e : RelocationEntry) : decode e.encode = e := by
  have haddress : e.encode.take 4 = bytes32 e.address := rfl
  have hsection : e.encode.getD 4 0 = e.sectionId := rfl
  have htype : e.encode.getD 5 0 = e.type := rfl
  rw [decode, haddress, hsection, htype, number32_bytes32]

theorem words32_append (n : UInt32) (rest : List UInt8) :
    words32 (bytes32 n ++ rest) = n :: words32 rest :=
  congrArg (· :: words32 rest) (number32_bytes32 n)

theorem words32_flatMap (ns : List UInt32) (rest : List UInt8) :
    words32 (ns.flatMap bytes32 ++ rest) = ns ++ words32 rest := by
  induction ns with
  | nil => rfl
  | cons n ns ih =>
    rw [List.flatMap_cons, List.append_assoc, words32_append, ih]
    rfl

namespace Header

theorem length_encode {h : Header} (hs : h.sizes.length = 6) : h.encode.length = headerSize := by
  simp [encode, headerSize, List.length_flatMap, hs, List.map_const']

theorem words32_encode (h : Header) : words32 (h.encode.drop 4) =
    h.flags :: h.entry :: (h.sizes ++ [h.relocations, h.references, h.definitions, h.strings]) := by
  have hdrop : h.encode.drop 4 = bytes32 h.flags ++ (bytes32 h.entry ++ (h.sizes.flatMap bytes32
      ++ (bytes32 h.relocations ++ (bytes32 h.references ++ (bytes32 h.definitions
        ++ (bytes32 h.strings ++ [])))))) := by
    simp only [encode, List.append_assoc, List.append_nil]
    rfl
  simp only [hdrop, words32_append, words32_flatMap]
  rfl

theorem readHeader_encode {h : Header} (hm : h.magic = ObjectFile.magic)
    (hv : h.version = formatVersion) (hs : h.sizes.length = 6) (rest : List UInt8) :
    readHeader (h.encode ++ rest) = .ok (h, rest) := by
  have hlen := length_encode hs
  have hsplit : (h.encode ++ rest).splitAt headerSize = (h.encode, rest) := by
    rw [List.splitAt_eq, ← hlen]
    simp
  have hmagic : number16 (h.encode.take 2) = ObjectFile.magic := by
    have htake : h.encode.take 2 = bytes16 h.magic := by
      simp only [encode, List.append_assoc]
      rfl
    rw [htake, number16_bytes16, hm]
  have hversion : number16 ((h.encode.drop 2).take 2) = formatVersion := by
    have htake : (h.encode.drop 2).take 2 = bytes16 h.version := by
      simp only [encode, List.append_assoc]
      rfl
    rw [htake, number16_bytes16, hv]
  unfold readHeader
  rw [hsplit]
  dsimp only
  rw [if_neg (by omega), hmagic, hversion, words32_encode, if_neg (by simp), if_neg (by simp)]
  cases h
  simp only at hm hv hs
  simp [hm, hv, hs, List.getD_eq_getElem?_getD]

end Header

end ObjectFile

end MipsToolchain
