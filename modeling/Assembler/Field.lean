import Assembler.Mnemonic

namespace Assembler

inductive LimitKey where
  | ldv | lda | ldm | jmp
  deriving DecidableEq, Repr

namespace LimitKey

def all : List LimitKey := [ldv, lda, ldm, jmp]

@[simp] theorem mem_all (k : LimitKey) : k ∈ all := by cases k <;> decide

def mnemonic : LimitKey → Mnemonic
  | ldv => .ldv
  | lda => .lda
  | ldm => .ldm
  | jmp => .jmp

def name (k : LimitKey) : Text := k.mnemonic.name

def ofName? (t : Text) : Option LimitKey := all.find? fun k => k.name == t

@[simp] theorem ofName?_name (k : LimitKey) : ofName? k.name = some k := by cases k <;> decide

def ofMnemonic? : Mnemonic → Option LimitKey
  | .ldv => some ldv
  | .lda => some lda
  | .ldm => some ldm
  | .jmp => some jmp
  | _ => none

@[simp] theorem ofMnemonic?_mnemonic (k : LimitKey) : ofMnemonic? k.mnemonic = some k := by
  cases k <;> rfl

theorem ofMnemonic?_eq_some_iff {m : Mnemonic} {k : LimitKey} :
    ofMnemonic? m = some k ↔ k.mnemonic = m := by
  cases m <;> cases k <;> decide

end LimitKey

def registerBits : Nat := 2

namespace Field

inductive Kind where
  | register
  | small (width : Nat)
  | literal (key : LimitKey)
  deriving DecidableEq, Repr

end Field

structure Field where
  name : Text
  shift : Nat
  kind : Field.Kind
  deriving DecidableEq, Repr

namespace Field

def destination : Field := ⟨['D'], 0, .register⟩

def source : Field := ⟨['S'], registerBits, .register⟩

def long (name : Char) (key : LimitKey) : Field := ⟨[name], registerBits, .literal key⟩

end Field

namespace Mnemonic

-- `psh` and `jmr` leave the place of the destination empty.
def layout : Mnemonic → List Field
  | mov | ldr | ldp | jlt => [.destination, .source]
  | ldv => [.destination, .long 'V' .ldv]
  | lda => [.destination, .long 'M' .lda]
  | ldm => [.destination, .long 'M' .ldm]
  | ath =>
      [.destination, .source, ⟨['O', 'P'], 4, .small 4⟩, ⟨['M'], 8, .small 1⟩,
        ⟨['B'], 9, .small 3⟩]
  | cal | pop => [.destination]
  | psh | jmr => [.source]
  | ret | sys | hlt => []
  | jmp => [.long 'M' .jmp]

def arity (m : Mnemonic) : Nat := m.layout.length

end Mnemonic

end Assembler
