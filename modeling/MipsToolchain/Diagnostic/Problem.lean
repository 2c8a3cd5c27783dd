import MipsToolchain.Diagnostic.Severity

namespace MipsToolchain

inductive Problem where
  | unterminatedString
  | unterminatedChar
  | invalidCharLiteral
  | invalidEscape
  | unexpectedCharacter
  | relocatableAdd
  | relocatableSubtract
  | relocatableSubtrahend
  | relocatableOperand
  | divisionByZero
  | incompleteExpression
  | unbalancedParenthesis
  | unexpectedExprToken
  | malformedNumber
  | unknownInstruction
  | unsupportedInstruction
  | argumentCount
  | argumentKind
  | unknownRegister
  | immediateTruncated
  | pseudoDisabled
  | branchOutOfRange
  | branchMisaligned
  | jumpRegion
  | relocatableShift
  | reservedRegister
  | notExecutable
  | unexpectedToken
  | unknownDirective
  | directiveArgumentCount
  | directiveArgument
  | dataInBss
  | relocatableData
  | alignmentRange
  | negativeSpace
  | unknownSetOption
  | dataTruncated
  | sectionTooLarge
  | duplicateSymbol
  | illegalSymbolName
  | bindingConflict
  | moduleFailed
  | duplicateGlobal
  | unresolvedSymbol
  | relocationFailed
  | missingEntry
  | sectionOverlap
  | notFinalized
deriving DecidableEq, Repr

namespace Problem

def all : List Problem := [
  unterminatedString, unterminatedChar, invalidCharLiteral, invalidEscape, unexpectedCharacter,
  relocatableAdd, relocatableSubtract, relocatableSubtrahend, relocatableOperand, divisionByZero,
  incompleteExpression, unbalancedParenthesis, unexpectedExprToken, malformedNumber,
  unknownInstruction, unsupportedInstruction, argumentCount, argumentKind, unknownRegister,
  immediateTruncated, pseudoDisabled, branchOutOfRange, branchMisaligned, jumpRegion,
  relocatableShift, reservedRegister, notExecutable, unexpectedToken, unknownDirective,
  directiveArgumentCount, directiveArgument, dataInBss, relocatableData, alignmentRange,
  negativeSpace, unknownSetOption, dataTruncated, sectionTooLarge, duplicateSymbol,
  illegalSymbolName, bindingConflict, moduleFailed, duplicateGlobal, unresolvedSymbol,
  relocationFailed, missingEntry, sectionOverlap, notFinalized]

structure Entry where
  provider : String
  number : Nat
  severity : Severity
  key : String
  template : String

/-- In a template `%s` and `%d` stand for an argument as it is, `%c` for the character with that
number, `%q` for a quoted argument and `%#x` for hexadecimal. -/
def entry : Problem → Entry
  | unterminatedString =>
    ⟨"LEX", 1, .error, "lex.unterminated-string", "unterminated string literal"⟩
  | unterminatedChar =>
    ⟨"LEX", 2, .error, "lex.unterminated-char", "unterminated character literal"⟩
  | invalidCharLiteral =>
    ⟨"LEX", 3, .error, "lex.invalid-char", "character literal must contain exactly one character"⟩
  | invalidEscape =>
    ⟨"LEX", 4, .error, "lex.invalid-escape", "unknown escape sequence \\%c"⟩
  | unexpectedCharacter =>
    ⟨"LEX", 5, .error, "lex.unexpected-character", "unexpected character %q"⟩
  | relocatableAdd =>
    ⟨"EXP", 1, .error, "expr.relocatable-add", "cannot add two relocatable symbols"⟩
  | relocatableSubtract =>
    ⟨"EXP", 2, .error, "expr.relocatable-subtract", "cannot subtract two relocatable symbols"⟩
  | relocatableSubtrahend =>
    ⟨"EXP", 3, .error, "expr.relocatable-subtrahend",
      "cannot subtract a relocatable symbol from a constant "
        ++ "(a negated address cannot be relocated)"⟩
  | relocatableOperand =>
    ⟨"EXP", 4, .error, "expr.relocatable-operand", "cannot %s relocatable"⟩
  | divisionByZero =>
    ⟨"EXP", 5, .error, "expr.division-by-zero", "division by zero"⟩
  | incompleteExpression =>
    ⟨"EXP", 6, .error, "expr.incomplete", "incomplete expression"⟩
  | unbalancedParenthesis =>
    ⟨"EXP", 7, .error, "expr.unbalanced-parenthesis", "unbalanced parenthesis"⟩
  | unexpectedExprToken =>
    ⟨"EXP", 8, .error, "expr.unexpected-token", "unexpected %s in expression"⟩
  | malformedNumber =>
    ⟨"EXP", 9, .error, "expr.malformed-number", "malformed number %s"⟩
  | unknownInstruction =>
    ⟨"INS", 1, .error, "insn.unknown", "unknown instruction %s"⟩
  | unsupportedInstruction =>
    ⟨"INS", 2, .error, "insn.unsupported-version",
      "instruction %s requires architecture %s (selected %s)"⟩
  | argumentCount =>
    ⟨"INS", 3, .error, "insn.argument-count", "instruction %s expects %d argument(s), found %d"⟩
  | argumentKind =>
    ⟨"INS", 4, .error, "insn.argument-kind", "argument %d of %s must be %s"⟩
  | unknownRegister =>
    ⟨"INS", 5, .error, "insn.unknown-register", "unknown register %s"⟩
  | immediateTruncated =>
    ⟨"INS", 6, .warning, "insn.immediate-truncated",
      "value %d does not fit in %d bits, truncated to %d"⟩
  | pseudoDisabled =>
    ⟨"INS", 7, .error, "insn.pseudo-disabled",
      "pseudo-instruction %s used whilst pseudo-instructions are disabled"⟩
  | branchOutOfRange =>
    ⟨"INS", 8, .error, "insn.branch-range", "branch displacement %d out of range"⟩
  | branchMisaligned =>
    ⟨"INS", 9, .error, "insn.branch-alignment", "branch target is not word aligned"⟩
  | jumpRegion =>
    ⟨"INS", 10, .warning, "insn.jump-region",
      "jump target %#x lies outside the current 256MB region"⟩
  | relocatableShift =>
    ⟨"INS", 11, .error, "insn.relocatable-shift", "shift amount cannot be relocatable"⟩
  | reservedRegister =>
    ⟨"INS", 12, .warning, "insn.reserved-register",
      "register $at is reserved for the assembler (use .set noat)"⟩
  | notExecutable =>
    ⟨"INS", 13, .warning, "insn.not-executable",
      "instruction emitted into non-executable section %s"⟩
  | unexpectedToken =>
    ⟨"ASM", 1, .error, "asm.unexpected-token", "unexpected %s"⟩
  | unknownDirective =>
    ⟨"ASM", 2, .error, "asm.unknown-directive", "unknown directive %s"⟩
  | directiveArgumentCount =>
    ⟨"ASM", 3, .error, "asm.directive-argument-count", "directive %s expects %s argument(s)"⟩
  | directiveArgument =>
    ⟨"ASM", 4, .error, "asm.directive-argument", "invalid argument for %s"⟩
  | dataInBss =>
    ⟨"ASM", 5, .error, "asm.data-in-bss", "directive %s cannot initialise data in section %s"⟩
  | relocatableData =>
    ⟨"ASM", 6, .error, "asm.relocatable-data",
      "relocatable value cannot be stored in %d byte(s)"⟩
  | alignmentRange =>
    ⟨"ASM", 7, .error, "asm.alignment-range", "alignment %d out of range (0..%d)"⟩
  | negativeSpace =>
    ⟨"ASM", 8, .error, "asm.negative-space", "cannot reserve %d bytes"⟩
  | unknownSetOption =>
    ⟨"ASM", 9, .warning, "asm.unknown-set-option", "unknown .set option %s ignored"⟩
  | dataTruncated =>
    ⟨"ASM", 10, .warning, "asm.data-truncated", "value %d does not fit in %d byte(s)"⟩
  | sectionTooLarge =>
    ⟨"ASM", 11, .error, "asm.section-too-large",
      "cannot reserve %d bytes in section %s (limit %d)"⟩
  | duplicateSymbol =>
    ⟨"SYM", 1, .error, "sym.duplicate", "symbol %s already defined"⟩
  | illegalSymbolName =>
    ⟨"SYM", 2, .error, "sym.illegal-name", "illegal symbol name %s"⟩
  | bindingConflict =>
    ⟨"SYM", 3, .error, "sym.binding-conflict", "symbol %s cannot change binding from %s to %s"⟩
  | moduleFailed =>
    ⟨"LNK", 1, .error, "link.module-failed", "module %s failed to assemble"⟩
  | duplicateGlobal =>
    ⟨"LNK", 2, .error, "link.duplicate-global", "symbol %s defined in both %s and %s"⟩
  | unresolvedSymbol =>
    ⟨"LNK", 3, .error, "link.unresolved-symbol",
      "unresolved external symbol %s (referenced from %s)"⟩
  | relocationFailed =>
    ⟨"LNK", 4, .error, "link.relocation-failed", "cannot relocate reference to %s: %s"⟩
  | missingEntry =>
    ⟨"LNK", 5, .warning, "link.missing-entry", "entry symbol %s not found, defaulting to %#x"⟩
  | sectionOverlap =>
    ⟨"LNK", 6, .error, "link.section-overlap", "section %s overlaps section %s"⟩
  | notFinalized =>
    ⟨"LNK", 7, .error, "link.not-finalized", "module %s has not been finalized"⟩

def severity (p : Problem) : Severity := p.entry.severity

def template? (key : String) : Option String :=
  (all.find? (·.entry.key = key)).map (·.entry.template)

end Problem

end MipsToolchain
