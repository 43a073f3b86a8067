import Assembler.Word
import Assembler.Field

namespace Assembler

structure Limits where
  ldv : Word
  lda : Word
  ldm : Word
  jmp : Word
  deriving DecidableEq, Repr

namespace Limits

def get (l : Limits) : LimitKey → Word
  | .ldv => l.ldv
  | .lda => l.lda
  | .ldm => l.ldm
  | .jmp => l.jmp

def set (l : Limits) (k : LimitKey) (max : Word) : Limits :=
  match k with
  | .ldv => { l with ldv := max }
  | .lda => { l with lda := max }
  | .ldm => { l with ldm := max }
  | .jmp => { l with jmp := max }

@[simp] theorem get_set (l : Limits) (k : LimitKey) (max : Word) (j : LimitKey) :
    (l.set k max).get j = if j = k then max else l.get j := by
  cases k <;> cases j <;> rfl

end Limits

@[ext] structure OpcodeMap where
  get? : Mnemonic → Option Word

namespace OpcodeMap

instance : DecidableEq OpcodeMap := fun a b =>
  decidable_of_iff (∀ m ∈ Mnemonic.all, a.get? m = b.get? m)
    ⟨fun h => OpcodeMap.ext (funext fun m => h m m.mem_all), fun h _ _ => h ▸ rfl⟩

def empty : OpcodeMap := ⟨fun _ => none⟩

def insert (map : OpcodeMap) (m : Mnemonic) (opcode : Word) : OpcodeMap :=
  ⟨fun k => if k = m then some opcode else map.get? k⟩

@[simp] theorem get?_insert (map : OpcodeMap) (m : Mnemonic) (opcode : Word) (k : Mnemonic) :
    (map.insert m opcode).get? k = if k = m then some opcode else map.get? k := rfl

def erase (map : OpcodeMap) (m : Mnemonic) : OpcodeMap :=
  ⟨fun k => if k = m then none else map.get? k⟩

def contains (map : OpcodeMap) (m : Mnemonic) : Bool := (map.get? m).isSome

def toList (map : OpcodeMap) : List (Mnemonic × Word) :=
  Mnemonic.all.filterMap fun m => (map.get? m).map fun opcode => (m, opcode)

def consecutive : OpcodeMap := ⟨fun m => some (BitVec.ofNat 16 (Mnemonic.all.idxOf m))⟩

end OpcodeMap

structure Table where
  wordWidth : UInt32
  opcodeWidth : UInt32
  opcodes : OpcodeMap
  registers : List Text
  limits : Limits
  deriving DecidableEq

namespace Table

def standard : Table where
  wordWidth := 16
  opcodeWidth := 4
  opcodes := .consecutive
  registers := [['A'], ['B'], ['C'], ['D']]
  limits := ⟨1023, 1023, 1023, 1023⟩

def registerCode? (t : Table) (name : Text) : Option Nat :=
  (t.registers.findIdx? fun r => Text.sameLetters r name).filter (· < 256)

def registerName? (t : Table) (code : Nat) : Option Text := t.registers[code]?

def limit? (t : Table) (m : Mnemonic) : Option Word := (LimitKey.ofMnemonic? m).map t.limits.get

def operandWidth (t : Table) : Nat := t.wordWidth.toNat - t.opcodeWidth.toNat

def literalWidth (t : Table) : Nat := t.operandWidth - registerBits

end Table

namespace Field

def width (f : Field) (t : Table) : Nat :=
  match f.kind with
  | .register => registerBits
  | .small w => w
  | .literal _ => t.literalWidth

def max? (f : Field) (t : Table) : Option Word :=
  match f.kind with
  | .register => none
  | .small w => some (BitVec.ofNat 16 ((1 <<< w) - 1))
  | .literal key => some (t.limits.get key)

end Field

end Assembler
