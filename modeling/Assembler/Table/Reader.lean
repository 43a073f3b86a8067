import Assembler.Json.Token
import Assembler.Table.Document
import Assembler.Table.Validity

namespace Assembler

namespace Table.Reader

inductive Shape where
  | table | width | opcodeMap | word | sequence | string | limits
  deriving DecidableEq, Repr

def Shape.text : Shape → String
  | table => "struct Architecture"
  | width => "u32"
  | opcodeMap => "a map from mnemonic to opcode"
  | word => "u16"
  | sequence => "a sequence"
  | string => "a string"
  | limits => "struct Limits"

inductive Found where
  | null
  | bool (b : Bool)
  | number (n : Json.Number)
  | string (t : Text)
  | sequence
  | map
  deriving DecidableEq, Repr

def Found.text : Found → String
  | null => "null"
  | bool b => s!"boolean `{b}`"
  | number (.integer n) => s!"integer `{n}`"
  | number (.floating bits) => s!"floating point `{String.ofList (Json.Number.floatText bits)}`"
  | string t => s!"string {String.ofList (Text.quoted t)}"
  | sequence => "sequence"
  | map => "map"

end Table.Reader

inductive ReadError where
  | fault (f : Json.Fault)
  | wrongType (found : Table.Reader.Found) (expected : Table.Reader.Shape)
  | wrongValue (n : Int) (expected : Table.Reader.Shape)
  | unknownMnemonic (key : Text)
  | duplicateKey (name : Text)
  | duplicateMnemonic (m : Mnemonic)
  deriving DecidableEq, Repr

namespace ReadError

def mnemonicList : String :=
  ", ".intercalate (Mnemonic.all.map fun m => s!"`{m}`")

def detail : ReadError → String
  | fault .unfinished => "unexpected end of text"
  | fault .malformed => "malformed text"
  | wrongType found expected => s!"invalid type: {found.text}, expected {expected.text}"
  | wrongValue n expected => s!"invalid value: integer `{n}`, expected {expected.text}"
  | unknownMnemonic key =>
      s!"unknown variant `{String.ofList key}`, expected one of {mnemonicList}"
  | duplicateKey name => s!"duplicate field `{String.ofList name}`"
  | duplicateMnemonic m => s!"Mnemonic {m} appears more than once"

def message (e : ReadError) : String := s!"Invalid architecture JSON: {e.detail}"

end ReadError

namespace Table.Reader

open Json (Token)

inductive Slot where
  | document
  | part (k : Key)
  | opcode (m : Mnemonic)
  | register
  | limit (k : LimitKey)
  | skipped
  deriving DecidableEq, Repr

inductive Object where
  | table (seen : List Key)
  | opcodes
  | limits (seen : List LimitKey)
  | skipped
  deriving DecidableEq, Repr

inductive Sequence where
  | table (rest : List Key)
  | registers
  | limits (rest : List LimitKey)
  | skipped
  deriving DecidableEq, Repr

inductive Frame where
  | object (o : Object)
  | sequence (s : Sequence)
  deriving DecidableEq, Repr

inductive Expected where
  | value (slot : Slot)
  | first
  | key
  | colon (slot : Slot)
  | next
  deriving DecidableEq, Repr

structure State where
  table : Table
  stack : List Frame
  expected : Expected
  deriving DecidableEq

def State.initial : State := ⟨.standard, [], .value .document⟩

def Frame.close : Frame → Token
  | .object _ => .closeObject
  | .sequence _ => .closeArray

def Sequence.next? : Sequence → Option (Slot × Sequence)
  | .table [] => none
  | .table (k :: rest) => some (.part k, .table rest)
  | .registers => some (.register, .registers)
  | .limits [] => none
  | .limits (k :: rest) => some (.limit k, .limits rest)
  | .skipped => some (.skipped, .skipped)

def Object.member : Object → Text → Except ReadError (Slot × Object)
  | .table seen, key =>
      match Key.ofName? key with
      | none => .ok (.skipped, .table seen)
      | some k =>
          if k ∈ seen then .error (.duplicateKey key) else .ok (.part k, .table (k :: seen))
  | .opcodes, key =>
      match Mnemonic.ofName? key with
      | none => .error (.unknownMnemonic key)
      | some m => .ok (.opcode m, .opcodes)
  | .limits seen, key =>
      match LimitKey.ofName? key with
      | none => .ok (.skipped, .limits seen)
      | some k =>
          if k ∈ seen then .error (.duplicateKey key) else .ok (.limit k, .limits (k :: seen))
  | .skipped, _ => .ok (.skipped, .skipped)

namespace State

def enter (s : State) (frame : Frame) : State :=
  { s with stack := frame :: s.stack, expected := .first }

def complete (s : State) (t : Table) : State := { s with table := t, expected := .next }

end State

def faultOf : Token → ReadError
  | .brokenNumber f | .brokenString f false | .fault f => .fault f
  | _ => .fault .malformed

def mismatch (expected : Shape) : Token → ReadError
  | .null => .wrongType .null expected
  | .bool b => .wrongType (.bool b) expected
  | .number n =>
      match n.number? with
      | some number => .wrongType (.number number) expected
      | none => .fault .malformed
  | .string t => .wrongType (.string t) expected
  | .openArray => .wrongType .sequence expected
  | .openObject => .wrongType .map expected
  | token => faultOf token

def natural (expected : Shape) (bound : Nat) : Token → Except ReadError Nat
  | .number n =>
      match n.number? with
      | some (.integer i) =>
          if 0 ≤ i ∧ i < bound then .ok i.toNat else .error (.wrongValue i expected)
      | _ => .error (mismatch expected (.number n))
  | token => .error (mismatch expected token)

def width (token : Token) : Except ReadError UInt32 :=
  (natural .width 0x100000000 token).map UInt32.ofNat

def word (token : Token) : Except ReadError Word :=
  (natural .word 0x10000 token).map (BitVec.ofNat 16)

def skip (s : State) : Token → Except ReadError State
  | .null | .bool _ | .number _ | .string _ | .unpairedString => .ok (s.complete s.table)
  | .openArray => .ok (s.enter (.sequence .skipped))
  | .openObject => .ok (s.enter (.object .skipped))
  | .brokenString f _ | .fault f => .error (.fault f)
  | _ => .error (.fault .malformed)

def value (s : State) : Slot → Token → Except ReadError State
  | .document, .openObject => .ok (s.enter (.object (.table [])))
  | .document, .openArray => .ok (s.enter (.sequence (.table Key.all)))
  | .document, token => .error (mismatch .table token)
  | .part .wordWidth, token =>
      (width token).map fun w => s.complete { s.table with wordWidth := w }
  | .part .opcodeWidth, token =>
      (width token).map fun w => s.complete { s.table with opcodeWidth := w }
  | .part .opcodes, .openObject =>
      .ok ({ s with table := { s.table with opcodes := .empty } }.enter (.object .opcodes))
  | .part .opcodes, token => .error (mismatch .opcodeMap token)
  | .part .registers, .openArray =>
      .ok ({ s with table := { s.table with registers := [] } }.enter (.sequence .registers))
  | .part .registers, token => .error (mismatch .sequence token)
  | .part .limits, .openObject => .ok (s.enter (.object (.limits [])))
  | .part .limits, .openArray => .ok (s.enter (.sequence (.limits LimitKey.all)))
  | .part .limits, token => .error (mismatch .limits token)
  | .opcode m, token =>
      match word token with
      | .error e => .error e
      | .ok w =>
          if s.table.opcodes.contains m then .error (.duplicateMnemonic m)
          else .ok (s.complete { s.table with opcodes := s.table.opcodes.insert m w })
  | .register, .string name =>
      .ok (s.complete { s.table with registers := s.table.registers ++ [name] })
  | .register, token => .error (mismatch .string token)
  | .limit k, token =>
      (word token).map fun w => s.complete { s.table with limits := s.table.limits.set k w }
  | .skipped, token => skip s token

def keyText : Object → Token → Except ReadError Text
  | _, .string t => .ok t
  | .skipped, .unpairedString => .ok []
  | .skipped, .brokenString f _ => .error (.fault f)
  | _, .brokenString f false => .error (.fault f)
  | _, _ => .error (.fault .malformed)

def key (s : State) (o : Object) (rest : List Frame) (token : Token) : Except ReadError State :=
  match keyText o token with
  | .error e => .error e
  | .ok t =>
      (o.member t).map fun place =>
        { s with stack := .object place.2 :: rest, expected := .colon place.1 }

def content (s : State) (frame : Frame) (rest : List Frame) (token : Token) :
    Except ReadError State :=
  match frame with
  | .object o => key s o rest token
  | .sequence q =>
      match q.next? with
      | some place => value { s with stack := .sequence place.2 :: rest } place.1 token
      | none => .error (.fault .malformed)

def afterComma (s : State) (frame : Frame) (rest : List Frame) : Except ReadError State :=
  match frame with
  | .object _ => .ok { s with expected := .key }
  | .sequence q =>
      match q.next? with
      | some place =>
          .ok { s with stack := .sequence place.2 :: rest, expected := .value place.1 }
      | none => .error (.fault .malformed)

def step (s : State) (token : Token) : Except ReadError State :=
  match s.expected, s.stack with
  | .value slot, _ => value s slot token
  | .colon slot, _ =>
      if token = .colon then .ok { s with expected := .value slot }
      else .error (.fault .malformed)
  | .first, frame :: rest =>
      if token = frame.close then .ok { s with stack := rest, expected := .next }
      else content s frame rest token
  | .key, .object o :: rest => key s o rest token
  | .next, frame :: rest =>
      if token = frame.close then .ok { s with stack := rest, expected := .next }
      else if token = .comma then afterComma s frame rest
      else .error (.fault .malformed)
  | _, _ => .error (.fault .malformed)

def run (s : State) (tokens : List Token) : Except ReadError State := tokens.foldlM step s

def finish (s : State) : Except ReadError Table :=
  if s.stack = [] ∧ s.expected = .next then .ok s.table else .error (.fault .unfinished)

end Table.Reader

inductive LoadError where
  | unreadable (e : ReadError)
  | invalid (e : TableError)
  deriving DecidableEq, Repr

namespace Table

def read (t : Text) : Except ReadError Table :=
  (Reader.run .initial (Json.Token.scan t)).bind Reader.finish

def load (t : Text) : Except LoadError Table :=
  match read t with
  | .error e => .error (.unreadable e)
  | .ok table =>
      match table.check with
      | .error e => .error (.invalid e)
      | .ok () => .ok table

end Table

end Assembler
