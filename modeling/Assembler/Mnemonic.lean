import Assembler.Text.Blank

namespace Assembler

inductive Mnemonic where
  | mov | ldv | lda | ldm | ldr | ldp | ath | cal | ret | jlt | psh | pop | sys | hlt | jmp | jmr
  deriving DecidableEq, Repr

namespace Mnemonic

def all : List Mnemonic :=
  [mov, ldv, lda, ldm, ldr, ldp, ath, cal, ret, jlt, psh, pop, sys, hlt, jmp, jmr]

@[simp] theorem mem_all (m : Mnemonic) : m ∈ all := by cases m <;> decide

def name : Mnemonic → Text
  | mov => "MOV".toList
  | ldv => "LDV".toList
  | lda => "LDA".toList
  | ldm => "LDM".toList
  | ldr => "LDR".toList
  | ldp => "LDP".toList
  | ath => "ATH".toList
  | cal => "CAL".toList
  | ret => "RET".toList
  | jlt => "JLT".toList
  | psh => "PSH".toList
  | pop => "POP".toList
  | sys => "SYS".toList
  | hlt => "HLT".toList
  | jmp => "JMP".toList
  | jmr => "JMR".toList

def ofName? (t : Text) : Option Mnemonic := all.find? fun m => m.name == t

@[simp] theorem ofName?_name (m : Mnemonic) : ofName? m.name = some m := by cases m <;> decide

def ofToken? (t : Text) : Option Mnemonic :=
  all.find? fun m => Text.sameLetters m.name (Text.trim t)

end Mnemonic

instance : ToString Mnemonic := ⟨fun m => String.ofList m.name⟩

end Assembler
