import MipsToolchain.Proofs.Object.Building
import MipsToolchain.Proofs.Object.Relocation

namespace MipsToolchain

namespace ByteOrder

theorem length_flatMap_wordBytes (o : ByteOrder) (ws : List UInt32) :
    (ws.flatMap o.wordBytes).length = 4 * ws.length := by
  induction ws with
  | nil => rfl
  | cons w ws ih =>
    rw [List.flatMap_cons, List.length_append, length_wordBytes, ih, List.length_cons]
    omega

theorem getElem?_flatMap_wordBytes (o : ByteOrder) (ws : List UInt32) (i : Nat) :
    (ws.flatMap o.wordBytes)[i]? = (ws[i / 4]?).bind fun w => (o.wordBytes w)[i % 4]? := by
  induction ws generalizing i with
  | nil => simp
  | cons w ws ih =>
    rw [List.flatMap_cons]
    by_cases hi : i < 4
    · rw [List.getElem?_append_left (by rwa [length_wordBytes]), Nat.div_eq_of_lt hi,
        Nat.mod_eq_of_lt hi]
      rfl
    · rw [List.getElem?_append_right (by rw [length_wordBytes]; omega), length_wordBytes, ih,
        show i / 4 = (i - 4) / 4 + 1 by omega, show i % 4 = (i - 4) % 4 by omega]
      rfl

end ByteOrder

namespace Module

theorem ext_putBytes {s t : Section} {k j : Nat} {bs cs : List UInt8} (hs : s.name = t.name)
    (hf : s.flags = t.flags) (hv : s.virtualAddress = t.virtualAddress)
    (ha : s.alignment = t.alignment)
    (h : ∀ i : Nat, (putBytes s k bs).contents[i]? = (putBytes t j cs).contents[i]?) :
    putBytes s k bs = putBytes t j cs :=
  Section.ext hs hf hv ha (List.ext_getElem? h)

theorem putBytes_comm (s : Section) {k j : Nat} {bs cs : List UInt8}
    (h : k + bs.length ≤ j ∨ j + cs.length ≤ k) :
    putBytes (putBytes s k bs) j cs = putBytes (putBytes s j cs) k bs := by
  refine ext_putBytes rfl rfl rfl rfl fun i => ?_
  simp only [contents_putBytes_cut, length_putBytes]
  by_cases hk : k ≤ i ∧ i < k + bs.length ∧ i < s.length
  · rw [if_neg (by omega), if_pos hk, if_pos hk]
  · rw [if_neg hk, if_neg hk]

theorem putBytes_word (s : Section) (o : ByteOrder) (k : Nat) {ws : List UInt32} {j : Nat}
    (hj : j < ws.length) (w : UInt32) :
    putBytes (putBytes s k (ws.flatMap o.wordBytes)) (k + 4 * j) (o.wordBytes w) =
      putBytes s k ((ws.set j w).flatMap o.wordBytes) := by
  refine ext_putBytes rfl rfl rfl rfl fun i => ?_
  simp only [contents_putBytes_cut, length_putBytes, ByteOrder.length_flatMap_wordBytes,
    ByteOrder.length_wordBytes, List.length_set, ByteOrder.getElem?_flatMap_wordBytes]
  by_cases hi : k ≤ i ∧ i < k + 4 * ws.length ∧ i < s.length
  · rw [if_pos hi]
    by_cases hw : k + 4 * j ≤ i ∧ i < k + 4 * j + 4 ∧ i < s.length
    · rw [if_pos hw, if_pos hi, show (i - k) / 4 = j by omega, List.getElem?_set_self hj,
        show (i - k) % 4 = i - (k + 4 * j) by omega]
      rfl
    · rw [if_neg hw, if_pos hi, List.getElem?_set_ne (by omega)]
  · rw [if_neg hi, if_neg (by omega), if_neg hi]

theorem updateSection_congr {m : Module} {n : Name} {f g : Section → Section}
    (h : ∀ s, f s = g s) : m.updateSection n f = m.updateSection n g := by
  rw [funext h]

theorem updateSection_comp (m : Module) (n : Name) {f : Section → Section}
    (hf : ∀ s, (f s).name = s.name) (g : Section → Section) :
    (m.updateSection n f).updateSection n g = m.updateSection n fun s => g (f s) := by
  simp only [updateSection, List.map_map]
  refine congrArg (fun ss => { m with sections := ss }) (List.map_congr_left fun s _ => ?_)
  by_cases hs : s.name = n
  · simp [hs, hf]
  · simp [hs]

theorem updateSection_comm (m : Module) {n n' : Name} (hn : n ≠ n') {f g : Section → Section}
    (hf : ∀ s, (f s).name = s.name) (hg : ∀ s, (g s).name = s.name) :
    (m.updateSection n f).updateSection n' g = (m.updateSection n' g).updateSection n f := by
  simp only [updateSection, List.map_map]
  refine congrArg (fun ss => { m with sections := ss }) (List.map_congr_left fun s _ => ?_)
  by_cases hs : s.name = n
  · have hne : s.name ≠ n' := fun h => hn (hs.symm.trans h)
    simp [hs, hf, hn]
  · by_cases hs' : s.name = n'
    · simp [hs', hn.symm, hg]
    · simp [hs, hs']

def putWords (n : Name) (k : Nat) (ws : List UInt32) (rs : List Reference) (m : Module) : Module :=
  { m.updateSection n (putBytes · k (ws.flatMap m.order.wordBytes)) with references := rs }

end Module

/-- Whether a word at an address shares no byte with a stretch of a section. -/
def Address.ClearOf (a : Address) (n : Name) (k l : Nat) : Prop :=
  a.sectionName = n → a.offset + 4 ≤ k ∨ k + l ≤ a.offset

instance (a : Address) (n : Name) (k l : Nat) : Decidable (a.ClearOf n k l) :=
  inferInstanceAs (Decidable (_ → _))

/-- Whether neither the word of a reference nor the lower half that it reads is in a stretch of a
section. -/
def Reference.ClearOf (r : Reference) (n : Name) (k l : Nat) : Prop :=
  r.location.ClearOf n k l ∧ (r.kind = .high16 → (r.location.add 4).ClearOf n k l)

instance (r : Reference) (n : Name) (k l : Nat) : Decidable (r.ClearOf n k l) :=
  inferInstanceAs (Decidable (_ ∧ (_ → _)))

namespace Module

open Address (inSection toInt_inSection offset_inSection)

section PutWords

variable {n : Name} {k : Nat} {ws : List UInt32} {rs : List Reference} {m : Module}

theorem length_section?_putWords (n' : Name) :
    ((putWords n k ws rs m).section? n').map Section.length =
      (m.section? n').map Section.length :=
  length_section?_patch n'

theorem byte?_putWords (n' : Name) (j : Nat) :
    (putWords n k ws rs m).byte? n' j =
      if n' = n ∧ k ≤ j ∧ j < k + 4 * ws.length ∧ j < m.offset n then
        (ws.flatMap m.order.wordBytes)[j - k]?
      else m.byte? n' j := by
  have hu : (putWords n k ws rs m).section? n' =
      if n' = n then (m.section? n).map (putBytes · k (ws.flatMap m.order.wordBytes))
      else m.section? n' := by
    exact section?_updateSection m n n' _ fun _ => rfl
  by_cases hn : n' = n
  · subst hn
    rw [if_pos rfl] at hu
    cases hs : m.section? n' with
    | none =>
      rw [hs] at hu
      simp [byte?, hu, hs, offset]
    | some s =>
      rw [hs, Option.map_some] at hu
      rw [byte?_eq hu, byte?_eq hs, contents_putBytes_cut, ByteOrder.length_flatMap_wordBytes,
        offset, hs]
      simp
  · rw [if_neg hn] at hu
    simp [byte?, hu, hn]

theorem readWord_putWords_clear {a : Address} (h : a.ClearOf n k (4 * ws.length)) :
    (putWords n k ws rs m).readWord a = m.readWord a :=
  readWord_congr rfl (length_section?_putWords _) fun i hi => by
    rw [byte?_putWords, if_neg]
    rintro ⟨hn, hle, hlt, -⟩
    have hclear := h hn
    omega

theorem run_writeWord (m : Module) (a : Address) (w : UInt32) :
    (m.writeWord a w).run = match (m.section? a.sectionName).map Section.length with
      | none => .ok (.error (.unknownSection a.sectionName))
      | some len =>
        if a.value < 0 ∨ Int64.ofNat len < a.value + 4 then .ok (.error (.outOfBounds a))
        else if a.offset + 4 ≤ len then
          .ok (.ok (m.updateSection a.sectionName (putBytes · a.offset (m.order.wordBytes w))))
        else .error .outOfRange := by
  rw [writeWord, wordAt]
  cases m.section? a.sectionName with
  | none => rfl
  | some s =>
    dsimp only [Option.map_some]
    split
    · rfl
    · rw [mk_ok_bind]
      by_cases hle : a.offset + 4 ≤ s.length
      · obtain ⟨bs, hbs⟩ := wordBytes?_eq_some_of_le hle
        rw [if_pos hle, ← Address.offset, hbs]
        rfl
      · have hbs : wordBytes? s a.offset = none := if_neg hle
        rw [if_neg hle, ← Address.offset, hbs]
        rfl

theorem putWords_updateSection {a : Address} (h : a.ClearOf n k (4 * ws.length)) (w : UInt32) :
    (putWords n k ws rs m).updateSection a.sectionName
        (putBytes · a.offset (m.order.wordBytes w)) =
      putWords n k ws rs
        (m.updateSection a.sectionName (putBytes · a.offset (m.order.wordBytes w))) := by
  let put : Section → Section := (putBytes · k (ws.flatMap m.order.wordBytes))
  let patch : Section → Section := (putBytes · a.offset (m.order.wordBytes w))
  have hcomm : (m.updateSection n put).updateSection a.sectionName patch =
      (m.updateSection a.sectionName patch).updateSection n put := by
    by_cases hn : a.sectionName = n
    · have hclear := h hn
      rw [hn, updateSection_comp m n (f := put) (fun _ => rfl) patch,
        updateSection_comp m n (f := patch) (fun _ => rfl) put]
      refine updateSection_congr fun s => putBytes_comm s ?_
      rw [ByteOrder.length_flatMap_wordBytes, ByteOrder.length_wordBytes]
      exact hclear.symm
    · exact updateSection_comm m (Ne.symm hn) (fun _ => rfl) fun _ => rfl
  have hboth := congrArg (fun m' : Module => { m' with references := rs }) hcomm
  exact hboth

theorem writeWord_putWords_clear {a : Address} (h : a.ClearOf n k (4 * ws.length)) (w : UInt32) :
    ((putWords n k ws rs m).writeWord a w).run =
      (m.writeWord a w).run.map (Except.map (putWords n k ws rs)) := by
  rw [run_writeWord, run_writeWord, length_section?_putWords]
  cases (m.section? a.sectionName).map Section.length with
  | none => rfl
  | some len =>
    dsimp only
    split
    · rfl
    · split
      · exact congrArg (fun m' => Except.ok (Except.ok m')) (putWords_updateSection h w)
      · rfl

theorem relocate_putWords_clear {r : Reference} (h : r.ClearOf n k (4 * ws.length))
    (delta : Int64) :
    ((putWords n k ws rs m).relocate r delta).run =
      (m.relocate r delta).run.map (Except.map (putWords n k ws rs)) := by
  have hword : ∀ w, (putWords n k ws rs m).relocatedWord r w delta = m.relocatedWord r w delta :=
    fun w => relocatedWord_congr fun hk => readWord_putWords_clear (h.2 hk)
  simp only [relocate, readWord_putWords_clear h.1, hword, ExceptT.run_bind]
  rcases (ExceptT.adapt RelocationError.access (m.readWord r.location)).run with f | ⟨e | w⟩
  · rfl
  · rfl
  · change (m.relocatedWord r w delta).run >>= _ = ((m.relocatedWord r w delta).run >>= _).map _
    rcases (m.relocatedWord r w delta).run with f | ⟨e | w'⟩
    · rfl
    · rfl
    · change Except.map (Except.mapError RelocationError.access) (writeWord _ r.location w').run =
        Except.map _ (Except.map (Except.mapError RelocationError.access)
          (m.writeWord r.location w').run)
      rw [writeWord_putWords_clear h.1]
      rcases (m.writeWord r.location w').run with f | ⟨e | m'⟩ <;> rfl

end PutWords

theorem not_outOfBounds {n : Name} {k len : Nat} (hk : k + 4 ≤ len) (hl : len < 0x8000000000000000) :
    ¬((inSection n k).value < 0 ∨ Int64.ofNat len < (inSection n k).value + 4) := by
  have hlen : (Int64.ofNat len).toInt = len := Int64.toInt_ofNat_of_lt hl
  have hend : (inSection n k).value + 4 = Int64.ofNat (k + 4) := by
    rw [Int64.ofNat_add]
    rfl
  have hend' : (Int64.ofNat (k + 4)).toInt = (k + 4 : Nat) := Int64.toInt_ofNat_of_lt (by omega)
  have hvalue : (inSection n k).value.toInt = k := toInt_inSection (by omega)
  rw [hend, Int64.lt_iff_toInt_lt, Int64.lt_iff_toInt_lt, hlen, hend', hvalue]
  rintro (h | h)
  · exact absurd h (by simp)
  · omega

theorem readWord_of_wordIn? {m : Module} {n : Name} {k : Nat} {w : UInt32}
    (hw : m.wordIn? m.order n k = some w) (hs : m.offset n < 0x8000000000000000) :
    (m.readWord (inSection n k)).run = .ok (.ok w) := by
  have hk := le_offset_of_wordIn? hw
  obtain ⟨s, hsec⟩ := Option.isSome_iff_exists.mp
    (section?_of_lt_offset (show k < m.offset n by omega))
  have hlen : m.offset n = s.length := by simp [offset, hsec]
  rw [hlen] at hk hs
  have hat : m.wordAt (inSection n k) = .ok s := by
    rw [wordAt, show (inSection n k).sectionName = n from rfl, hsec]
    exact if_neg (not_outOfBounds hk hs)
  obtain ⟨bs, hbs⟩ := wordBytes?_eq_some_of_le hk
  have hword := wordIn?_eq_of_wordBytes? (o := m.order) hsec hbs
  rw [hw] at hword
  rw [readWord, hat, mk_ok_bind, ← Address.offset, offset_inSection (by omega), hbs,
    Option.some.inj hword]
  rfl

section InSlot

variable {n : Name} {k : Nat} {ws : List UInt32} {rs : List Reference} {m : Module} {j : Nat}

theorem wordIn?_putWords (hb : k + 4 * ws.length ≤ m.offset n) {w : UInt32} (hw : ws[j]? = some w) :
    (putWords n k ws rs m).wordIn? m.order n (k + 4 * j) = some w := by
  have hj := (List.getElem?_eq_some_iff.mp hw).1
  have hbytes := wordIn?_eq_of_bytes (m := putWords n k ws rs m) (o := m.order) (n := n)
    (k := k + 4 * j) (ByteOrder.length_wordBytes m.order w) fun i hi => by
      rw [byte?_putWords, if_pos ⟨rfl, by omega, by omega, by omega⟩,
        ByteOrder.getElem?_flatMap_wordBytes, show (k + 4 * j + i - k) / 4 = j by omega, hw,
        show (k + 4 * j + i - k) % 4 = i by omega]
      rfl
  rw [hbytes, ByteOrder.ofBytes_wordBytes]

theorem offset_putWords (n' : Name) : (putWords n k ws rs m).offset n' = m.offset n' := by
  rw [offset, offset, length_section?_putWords]

theorem readWord_putWords (hb : k + 4 * ws.length ≤ m.offset n)
    (hs : m.offset n < 0x8000000000000000) {w : UInt32} (hw : ws[j]? = some w) :
    ((putWords n k ws rs m).readWord (inSection n (k + 4 * j))).run = .ok (.ok w) :=
  readWord_of_wordIn? (wordIn?_putWords hb hw) (by rwa [offset_putWords])

theorem writeWord_putWords (hb : k + 4 * ws.length ≤ m.offset n)
    (hs : m.offset n < 0x8000000000000000) (hj : j < ws.length) (w : UInt32) :
    ((putWords n k ws rs m).writeWord (inSection n (k + 4 * j)) w).run =
      .ok (.ok (putWords n k (ws.set j w) rs m)) := by
  obtain ⟨s, hsec⟩ := Option.isSome_iff_exists.mp
    (section?_of_lt_offset (show k < m.offset n by omega))
  have hlen : m.offset n = s.length := by simp [offset, hsec]
  rw [hlen] at hb hs
  have hsection : (m.section? (inSection n (k + 4 * j)).sectionName).map Section.length =
      some s.length := congrArg (Option.map Section.length) hsec
  rw [run_writeWord, length_section?_putWords, hsection]
  dsimp only
  rw [if_neg (not_outOfBounds (by omega) hs), if_pos (by rw [offset_inSection (by omega)]; omega),
    offset_inSection (by omega)]
  refine congrArg (fun m' => Except.ok (Except.ok m')) ?_
  have hupdate : (m.updateSection n (putBytes · k (ws.flatMap m.order.wordBytes))).updateSection n
      (putBytes · (k + 4 * j) (m.order.wordBytes w)) =
      m.updateSection n (putBytes · k ((ws.set j w).flatMap m.order.wordBytes)) :=
    (updateSection_comp m n (f := (putBytes · k _)) (fun _ => rfl) _).trans
      (updateSection_congr fun s => putBytes_word s m.order k hj w)
  exact congrArg (fun m' : Module => { m' with references := rs }) hupdate

theorem relocate_putWords (hb : k + 4 * ws.length ≤ m.offset n)
    (hs : m.offset n < 0x8000000000000000) {r : Reference}
    (hloc : r.location = inSection n (k + 4 * j)) {w : UInt32} (hw : ws[j]? = some w)
    {delta : Int64} {res : Except RelocationError UInt32}
    (hres : ((putWords n k ws rs m).relocatedWord r w delta).run = .ok res) :
    ((putWords n k ws rs m).relocate r delta).run =
      .ok (res.map fun w' => putWords n k (ws.set j w') rs m) := by
  have hread : ((putWords n k ws rs m).readWord r.location).run = .ok (.ok w) := by
    rw [hloc]
    exact readWord_putWords hb hs hw
  have hadapt : (ExceptT.adapt RelocationError.access
      ((putWords n k ws rs m).readWord r.location)).run = .ok (.ok w) :=
    run_adapt_eq_ok.mpr hread
  simp only [relocate, ExceptT.run_bind, hadapt]
  change ((putWords n k ws rs m).relocatedWord r w delta).run >>= _ = _
  rw [hres]
  cases res with
  | error e => rfl
  | ok w' =>
    have hwrite : ((putWords n k ws rs m).writeWord r.location w').run =
        .ok (.ok (putWords n k (ws.set j w') rs m)) := by
      rw [hloc]
      exact writeWord_putWords hb hs (List.getElem?_eq_some_iff.mp hw).1 w'
    exact run_adapt_eq_ok.mpr hwrite

end InSlot

end Module

end MipsToolchain
