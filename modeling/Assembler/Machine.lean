import Assembler.Table.Validity

namespace Assembler

structure Machine where
  table : Table
  checked : table.check = .ok ()

namespace Machine

def ofTable (t : Table) : Except TableError Machine :=
  match h : t.check with
  | .ok () => .ok ⟨t, h⟩
  | .error e => .error e

@[simp] theorem ofTable_table (M : Machine) : ofTable M.table = .ok M := by
  obtain ⟨t, h⟩ := M
  unfold ofTable
  split
  · rfl
  · next e he => rw [h] at he; cases he

@[simp] theorem ofTable_eq_error_iff {t : Table} {e : TableError} :
    ofTable t = .error e ↔ t.check = .error e := by
  unfold ofTable
  split
  · next h => simp [h]
  · next e' h => simp [h]

def standard : Machine := ⟨.standard, Table.check_standard⟩

end Machine

end Assembler
