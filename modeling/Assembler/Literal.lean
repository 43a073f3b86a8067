import Assembler.Text.Digit

namespace Assembler.Literal

def least : Int := -0x8000000000000000

def greatest : Int := 0x7FFFFFFFFFFFFFFF

def extend (sign : Int) (value : Int) : Text → Option Int
  | [] => some value
  | c :: t =>
      match Digit.ofChar? c with
      | none => none
      | some d =>
          let next := value * 10 + sign * d.val
          if greatest < next then some greatest
          else if next < least then some least
          else extend sign next t

def digits? (sign : Int) : Text → Option Int
  | [] => none
  | t => extend sign 0 t

def read? : Text → Option Int
  | '-' :: t => digits? (-1) t
  | '+' :: t => digits? 1 t
  | t => digits? 1 t

end Assembler.Literal
