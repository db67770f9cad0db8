namespace Conduit.Hexadecimal

def digits (n : Nat) : List Char :=
  Nat.toDigits 16 n

def plain (n : Nat) : String :=
  "0x" ++ String.ofList (digits n)

def wide (n : Nat) : String :=
  "0x" ++ String.ofList (List.replicate (16 - (digits n).length) '0' ++ digits n)

end Conduit.Hexadecimal
