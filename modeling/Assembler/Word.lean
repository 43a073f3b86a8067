import Assembler.Text

namespace Assembler

abbrev Word := BitVec 16

namespace Word

def slice (shift width : Nat) : Word := BitVec.ofNat 16 ((1 <<< width) - 1) <<< shift

def store (w : Word) (shift width : Nat) (value : Word) : Word :=
  (w &&& ~~~(slice shift width)) ||| ((value <<< shift) &&& slice shift width)

def read (w : Word) (shift width : Nat) : Nat := (w.toNat >>> shift) % (1 <<< width)

def bytes (w : Word) : List UInt8 :=
  [UInt8.ofNat (w.toNat % 256), UInt8.ofNat (w.toNat / 256)]

def ofBytes : List UInt8 → List Word
  | low :: high :: rest => BitVec.ofNat 16 (high.toNat * 256 + low.toNat) :: ofBytes rest
  | _ => []

@[simp] theorem ofBytes_append_bytes (w : Word) (rest : List UInt8) :
    ofBytes (w.bytes ++ rest) = w :: ofBytes rest := by
  have h := w.isLt
  have high : w.toNat / 256 < 256 := by omega
  simp only [bytes, List.cons_append, List.nil_append, ofBytes, List.cons.injEq, and_true]
  apply BitVec.eq_of_toNat_eq
  simp only [BitVec.toNat_ofNat, UInt8.toNat_ofNat']
  omega

def hexadecimal (w : Word) : Text := "0x".toList ++ Text.hexadecimal w.toNat

def line (w : Word) : Text :=
  "0x".toList ++ Text.padded 4 (Text.hexadecimal w.toNat) ++ ' ' ::
    Text.padded 16 (Nat.toDigits 2 w.toNat)

end Word

end Assembler
