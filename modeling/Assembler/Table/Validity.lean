import Assembler.Table
import Assembler.Text.Quoted

namespace Assembler

inductive WidthError where
  | noRoom (opcodeWidth wordWidth : UInt32)
  | overflow (opcodeWidth : UInt32)
  deriving DecidableEq, Repr

inductive TableError where
  | badWidths (e : WidthError)
  | missingMnemonic (m : Mnemonic)
  | opcodeTooWide (m : Mnemonic) (opcode : Word) (width : UInt32)
  | duplicateOpcode (opcode : Word)
  | tooManyRegisters (count : Nat)
  | badRegisterName (name : Text)
  | duplicateRegister (name : Text)
  | limitTooWide (m : Mnemonic) (max : Word) (width : Nat)
  deriving DecidableEq, Repr

def WidthError.message : WidthError → String
  | noRoom opcodeWidth wordWidth =>
      s!"Opcode width {opcodeWidth.toNat} leaves no room for operands in a " ++
        s!"{wordWidth.toNat}-bit word"
  | overflow _ => "attempt to add with overflow"

namespace TableError

def message : TableError → String
  | badWidths e => e.message
  | missingMnemonic m => s!"Mnemonic {m} is missing from the opcode table"
  | opcodeTooWide m opcode width =>
      s!"Opcode {String.ofList opcode.hexadecimal} for {m} does not fit in {width.toNat} bits"
  | duplicateOpcode opcode =>
      s!"Opcode {String.ofList opcode.hexadecimal} is assigned to more than one mnemonic"
  | tooManyRegisters count =>
      s!"{count} registers do not fit in a {registerBits}-bit register field"
  | badRegisterName name =>
      s!"Register name {String.ofList (Text.quoted name)} is not a valid identifier"
  | duplicateRegister name => s!"Register {String.ofList name} appears more than once"
  | limitTooWide m max width => s!"Limit for {m} ({max.toNat}) does not fit in {width} bits"

end TableError

def isIdentifier : Text → Bool
  | [] => false
  | c :: t => c.isAlpha && t.all fun d => d.isAlphanum || d == '_'

namespace Table

def leastOperandWidth : Nat := 12

-- A width has thirty-two bits, and the sum may take one more.
def neededWidth? (t : Table) : Option UInt32 :=
  if t.opcodeWidth.toNat + leastOperandWidth < UInt32.size then
    some (t.opcodeWidth + UInt32.ofNat leastOperandWidth)
  else none

def checkWidths (t : Table) : Except TableError Unit :=
  if t.opcodeWidth = 0 ∨ 16 < t.wordWidth.toNat then
    .error (.badWidths (.noRoom t.opcodeWidth t.wordWidth))
  else
    match t.neededWidth? with
    | none => .error (.badWidths (.overflow t.opcodeWidth))
    | some needed =>
        if t.wordWidth < needed then .error (.badWidths (.noRoom t.opcodeWidth t.wordWidth))
        else .ok ()

def checkOpcodes (t : Table) (seen : List Word) : List Mnemonic → Except TableError Unit
  | [] => .ok ()
  | m :: rest =>
      match t.opcodes.get? m with
      | none => .error (.missingMnemonic m)
      | some opcode =>
          if opcode.toNat >>> t.opcodeWidth.toNat ≠ 0 then
            .error (.opcodeTooWide m opcode t.opcodeWidth)
          else if opcode ∈ seen then .error (.duplicateOpcode opcode)
          else checkOpcodes t (opcode :: seen) rest

def checkNames (seen : List Text) : List Text → Except TableError Unit
  | [] => .ok ()
  | name :: rest =>
      if !isIdentifier name then .error (.badRegisterName name)
      else if Text.upperCase name ∈ seen then .error (.duplicateRegister name)
      else checkNames (Text.upperCase name :: seen) rest

def checkRegisters (t : Table) : Except TableError Unit :=
  if 1 <<< registerBits < t.registers.length then .error (.tooManyRegisters t.registers.length)
  else checkNames [] t.registers

def checkLimits (t : Table) : List Mnemonic → Except TableError Unit
  | [] => .ok ()
  | m :: rest =>
      match t.limit? m with
      | none => checkLimits t rest
      | some max =>
          if max.toNat >>> t.literalWidth ≠ 0 then .error (.limitTooWide m max t.literalWidth)
          else checkLimits t rest

def check (t : Table) : Except TableError Unit := do
  t.checkWidths
  t.checkOpcodes [] Mnemonic.all
  t.checkRegisters
  t.checkLimits Mnemonic.all

@[simp] theorem check_standard : standard.check = .ok () := by rfl

end Table

end Assembler
