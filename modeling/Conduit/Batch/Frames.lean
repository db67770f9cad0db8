import Conduit.Batch.Varint

namespace Conduit.Frames

def frame (packet : List UInt8) : List UInt8 :=
  Varint.write packet.length ++ packet

def join (packets : List (List UInt8)) : List UInt8 :=
  packets.flatMap frame

def split (bytes : List UInt8) : Except BatchFlaw (List (List UInt8)) :=
  match bytes with
  | [] => .ok []
  | byte :: more =>
    match _h : Varint.read (byte :: more) with
    | (.error flaw, _) => .error flaw
    | (.ok length, rest) =>
      let packet := rest.take length
      if packet.length < length then .error (.overrun length rest.length)
      else (split (rest.drop length)).map (packet :: ·)
termination_by bytes.length
decreasing_by
  have := Varint.length_read_lt _h
  simp only [List.length_drop]
  omega

end Conduit.Frames
