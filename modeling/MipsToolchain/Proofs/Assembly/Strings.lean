import MipsToolchain.Proofs.Assembly.Disassembly
import MipsToolchain.Proofs.Object.Results
import MipsToolchain.Proofs.Token.Quotation

namespace MipsToolchain

theorem printable_quote (s : String) :
    Printable (Literal.quote s).toList [(.string, Literal.quote s)] where
  reads _ _ _ h := .string s h
  starts := ⟨'"', _, String.toList_ofList, by decide⟩
  operand := ⟨by simp, by simp [TokenKind.separators]⟩

namespace Environment

variable {env : Environment} {b : StatementBody}

def stringDirectiveName (terminated : Bool) : String := if terminated then ".asciiz" else ".ascii"

/-- The bytes that such a directive stores for a string. -/
def stringBytes (terminated : Bool) (s : String) : List UInt8 :=
  s.toUTF8.data.toList ++ if terminated then [0] else []

theorem isHead_stringDirectiveName (terminated : Bool) :
    Lexeme.isHead (stringDirectiveName terminated) ∧
      Lexeme.headKind (stringDirectiveName terminated) = .directive ∧
      Text.lower (stringDirectiveName terminated) = stringDirectiveName terminated := by
  cases terminated <;> decide +kernel

theorem apply_append (hopen : env.module.finalized = false) (bytes : ByteArray) :
    ∃ m, env.apply (Module.append env.current bytes) = .ok { env with module := m } ∧
      Module.Appends env.current bytes.data.toList env.module m := by
  obtain ⟨⟨k, m⟩, hm⟩ := Module.exists_append hopen env.current bytes
  exact ⟨m, by rw [apply, edit, hm]; rfl, (Module.appends_append hm).2⟩

theorem statement_directive (hkind : b.head.kind = .directive)
    (hname : b.name ∉ [".word", ".half"]) (env : Environment) (enc : Encoder) :
    env.statement enc ⟨[], some b⟩ = env.directive b := by
  have hdirective : b.isDirective := by simp [StatementBody.isDirective, hkind]
  have hinstruction : ¬b.isInstruction := by simp [StatementBody.isInstruction, hkind]
  have halign : alignmentOf b = 0 := by
    rw [alignmentOf, if_neg hinstruction]
    split <;> simp_all
  have hlabels : defineLabels [] env = pure env := rfl
  simp only [statement, Option.map_some, Option.getD_some, halign, Nat.lt_irrefl, if_false,
    pure_bind, hlabels, hdirective, if_true]

theorem statement_string (hopen : env.module.finalized = false) (hbits : env.flags.nobits = false)
    {terminated : Bool} {t : Token} (hkind : b.head.kind = .directive)
    (hname : b.name = stringDirectiveName terminated) (hargs : b.args = [[t]])
    (ht : t.kind = .string) (enc : Encoder) :
    ∃ m, env.statement enc ⟨[], some b⟩ = pure { env with module := m } ∧
      Module.Appends env.current (stringBytes terminated (Literal.unquote t.text).1) env.module
        m := by
  have haligned : b.name ∉ [".word", ".half"] := by
    rw [hname]
    cases terminated <;> decide
  have hstring : env.directive b = env.stringDirective b terminated := by
    unfold directive
    rw [hname]
    cases terminated <;> rfl
  have hcount : b.checkCount 1 none = pure true := if_pos (by simp [hargs])
  have hinitialised : env.checkInitialised b = pure true := by
    rw [checkInitialised, hbits]
    rfl
  let text := (Literal.unquote t.text).1
  let bytes := if terminated then text.toByteArray.push 0 else text.toByteArray
  have hargument : b.stringArgument [t] = pure (some text) := if_pos ht
  have hbytes : bytes.data.toList = stringBytes terminated text := by
    cases terminated <;> simp [bytes, stringBytes]
  obtain ⟨m, hm, happends⟩ := apply_append hopen bytes
  refine ⟨m, ?_, hbytes ▸ happends⟩
  -- From here on the directive is run step by step, with a known result at each of them.
  rw [statement_directive hkind haligned, hstring, stringDirective, hcount, hinitialised, hargs,
    stringArguments, hargument]
  refine (pure_bind true _).trans ?_
  rw [if_pos rfl]
  refine (pure_bind true _).trans ?_
  rw [if_pos rfl]
  refine (pure_bind (some text) _).trans ?_
  dsimp only
  rw [hm]
  exact pure_bind _ _

end Environment

/-- A string that is spelled as a literal in a directive is stored as its bytes, with nothing to
report. In general a literal loses its last quote if it was scanned as closed, and not otherwise,
and its unknown escapes are found where they are. -/
theorem strings_denote :
    (∀ (env : Environment) (enc : Encoder) (file : String) (number : Int) (terminated : Bool)
        (s : String), env.module.finalized = false → env.flags.nobits = false →
      ∃ m, env.line enc file number
          ((if terminated then ".asciiz " else ".ascii ") ++ Literal.quote s) =
            .ok ⟨{ env with module := m }, []⟩ ∧
        Module.Appends env.current (s.toUTF8.data.toList ++ if terminated then [0] else [])
          env.module m) ∧
      ∀ (text : String) (l : Lexeme), l ∈ Lexeme.scan text → l.shape = .string ∨ l.shape = .char →
        ∃ q w, (q = '"' ∨ q = '\'') ∧ l.text = q :: (w ++ if l.closed then [q] else []) ∧
          Literal.body l.text = w ∧ Literal.unquote l.string =
            (String.ofList (Literal.resolve 1 w).1, Literal.unknownEscapes l.text) := by
  refine ⟨fun env enc file number terminated s hopen hbits => ?_,
    fun text l hl hs => Literal.unquote_of_scan hl hs⟩
  obtain ⟨hhead, hkind, hlower⟩ := Environment.isHead_stringDirectiveName terminated
  have hprint : List.Forall₂ Printable ([Literal.quote s].map String.toList)
      [[(.string, Literal.quote s)]] := .cons (printable_quote s) .nil
  obtain ⟨b, hb, htext, hargs, hline⟩ :=
    Environment.line_printed hhead hprint env enc file number
  obtain ⟨ts, rest, hbargs, hts, hrest⟩ := List.map_eq_cons_iff.mp hargs
  obtain ⟨t, us, rfl, ht, hus⟩ := List.map_eq_cons_iff.mp hts
  rw [List.map_eq_nil_iff.mp hrest, List.map_eq_nil_iff.mp hus] at hbargs
  obtain ⟨m, hm, happends⟩ := Environment.statement_string hopen hbits (hb.trans hkind)
    (by rw [StatementBody.name, htext, hlower]) hbargs (congrArg Prod.fst ht) enc
  have hquote : t.text = Literal.quote s := congrArg Prod.snd ht
  rw [hquote, Literal.unquote_quote] at happends
  refine ⟨m, ?_, happends⟩
  have hsource : (if terminated then ".asciiz " else ".ascii ") ++ Literal.quote s =
      lineText (Environment.stringDirectiveName terminated) [Literal.quote s] := by
    cases terminated <;> rfl
  rw [hsource, hline, hm]
  rfl

theorem strings_denote_initial :
    (∃ m, (Environment.initial { name := "m", order := .big }).line ⟨⟨.mips1⟩, true⟩ "f.s" 1
          (".asciiz " ++ Literal.quote "\"\n") =
        .ok ⟨{ Environment.initial { name := "m", order := .big } with module := m }, []⟩ ∧
      Module.Appends StandardSection.text.name [34, 10, 0] { name := "m", order := .big } m) ∧
    ∃ q w, (q = '"' ∨ q = '\'') ∧ ['"', '\\', 'q', '\\', '"'] = q :: (w ++ []) ∧
      Literal.body ['"', '\\', 'q', '\\', '"'] = w ∧
      Literal.unquote "\"\\q\\\"" = (String.ofList (Literal.resolve 1 w).1, [1]) := by
  refine ⟨strings_denote.1 (.initial { name := "m", order := .big }) ⟨⟨.mips1⟩, true⟩ "f.s" 1 true
    "\"\n" rfl rfl, ?_⟩
  have hscan : Lexeme.scan "\"\\q\\\"" = [⟨.string, ['"', '\\', 'q', '\\', '"'], 0, false⟩] := by
    decide +kernel
  exact strings_denote.2 _ _ (hscan ▸ List.mem_singleton_self _) (by decide)

end MipsToolchain
