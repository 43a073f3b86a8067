import Assembler.Expansion
import Assembler.Table.Document

namespace Assembler

inductive SessionError where
  | table (e : TableError)
  | code (e : Error)
  deriving DecidableEq, Repr

structure FreeRegisters where
  first : Option Text
  many : Option (List Text)
  count : Nat
  deriving DecidableEq, Repr

namespace Table

def freeRegisters (t : Table) (used : List Text) (n : Nat) : FreeRegisters :=
  ⟨t.firstFree? used, t.takeFree? used n, t.freeCount used⟩

end Table

structure Session where
  table : Table
  expansion : Expansion
  used : List Text
  deriving DecidableEq

namespace Session

inductive Request where
  | setWidths (word opcode : UInt32)
  | setOpcode (m : Mnemonic) (opcode : Word)
  | removeOpcode (m : Mnemonic)
  | setRegisters (names : List Text)
  | setLimit (m : Mnemonic) (max : Word)
  | begin (templates : List Text)
  | bind (name value : Text)
  | declare (name : Text)
  | use (names : List Text)
  | encode (mnemonic : Text) (operands : List Text)
  | encodeLine (line : Text)
  | resolve (token : Text)
  | free (n : Nat)
  | assemble
  | dump
  deriving DecidableEq, Repr

inductive Answer where
  | valid
  | lines (ls : List Text)
  | word (w : Word)
  | words (ws : List Word)
  | register (r : RegisterOperand)
  | free (f : FreeRegisters)
  | document (t : Text)
  deriving DecidableEq, Repr

def ofTable (t : Table) : Session := ⟨t, .ofTemplates [], []⟩

def after (s : Session) : Request → Session
  | .setWidths word opcode =>
      { s with table := { s.table with wordWidth := word, opcodeWidth := opcode } }
  | .setOpcode m opcode =>
      { s with table := { s.table with opcodes := s.table.opcodes.insert m opcode } }
  | .removeOpcode m => { s with table := { s.table with opcodes := s.table.opcodes.erase m } }
  | .setRegisters names => { s with table := { s.table with registers := names } }
  | .setLimit m max =>
      match LimitKey.ofMnemonic? m with
      | some k => { s with table := { s.table with limits := s.table.limits.set k max } }
      | none => s
  | .begin templates => { s with expansion := .ofTemplates templates }
  | .bind name value => { s with expansion := s.expansion.bind name value }
  | .declare name => { s with expansion := s.expansion.declare name }
  | .use names => { s with used := s.used ++ names }
  | _ => s

def validity (s : Session) : Except SessionError Answer :=
  match s.table.check with
  | .ok () => .ok .valid
  | .error e => .error (.table e)

def expansionLines (s : Session) : Except SessionError Answer :=
  match s.expansion.expand s.table s.used with
  | .ok ls => .ok (.lines ls)
  | .error e => .error (.code e)

def onMachine (s : Session) (f : Machine → Except Error Answer) : Except SessionError Answer :=
  match Machine.ofTable s.table with
  | .error e => .error (.table e)
  | .ok M => (f M).mapError .code

def answer (s : Session) : Request → Except SessionError Answer
  | .setWidths _ _ | .setOpcode _ _ | .removeOpcode _ | .setRegisters _ | .setLimit _ _ =>
      s.validity
  | .begin templates => .ok (.lines templates)
  | .bind _ _ | .declare _ | .use _ => s.expansionLines
  | .encode mnemonic operands =>
      s.onMachine fun M => (M.encodeTokens mnemonic operands).map .word
  | .encodeLine line => s.onMachine fun M => (M.encodeLine line).map .word
  | .resolve token => ((s.table.resolve token).map .register).mapError .code
  | .free n => .ok (.free (s.table.freeRegisters s.used n))
  | .assemble => s.onMachine fun M => (s.expansion.assemble M s.used).map .words
  | .dump => .ok (.document s.table.document.compact)

def step (s : Session) (r : Request) : Session × Except SessionError Answer :=
  (s.after r, (s.after r).answer r)

def run (s : Session) : List Request → List (Except SessionError Answer)
  | [] => []
  | r :: rest => (s.step r).2 :: run (s.step r).1 rest

end Session

end Assembler
