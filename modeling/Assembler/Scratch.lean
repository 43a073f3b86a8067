import Assembler.Table

namespace Assembler.Table

def free (t : Table) (used : List Text) : List Text := t.registers.filter (· ∉ used)

def firstFree? (t : Table) (used : List Text) : Option Text := t.registers.find? (· ∉ used)

def takeFree? (t : Table) (used : List Text) (n : Nat) : Option (List Text) :=
  let picks := (t.free used).take n
  if picks.length = n then some picks else none

def freeCount (t : Table) (used : List Text) : Nat := (t.free used).length

end Assembler.Table
