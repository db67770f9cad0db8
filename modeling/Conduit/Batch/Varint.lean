import Conduit.Packet.Error

namespace Conduit.Varint

/-- The longest form of a 32-bit number. -/
def maxLength : Nat := 5

def write (n : Nat) : List UInt8 :=
  if n < 128 then [UInt8.ofNat n] else UInt8.ofNat (n % 128 + 128) :: write (n / 128)
termination_by n

/-- Reads groups from bit `shift` on, and says what is left. -/
def readFrom (shift value : Nat) (bytes : List UInt8) : Except BatchFlaw Nat × List UInt8 :=
  if 35 < shift then (.error .varintWide, bytes)
  else
    match bytes with
    | [] => (.error .varintCut, [])
    | byte :: rest =>
      let value := value + (byte.toNat % 128) <<< shift
      if byte.toNat < 128 then (.ok value, rest) else readFrom (shift + 7) value rest

def read (bytes : List UInt8) : Except BatchFlaw Nat × List UInt8 :=
  readFrom 0 0 bytes

theorem length_readFrom_le (shift value : Nat) (bytes : List UInt8) :
    (readFrom shift value bytes).2.length ≤ bytes.length := by
  fun_induction readFrom shift value bytes with
  | case1 => simp
  | case2 => simp
  | case3 => simp
  | case4 _ _ _ _ _ _ _ ih => simp only [List.length_cons]; omega

theorem length_read_lt {bytes rest : List UInt8} {n : Nat} (h : read bytes = (.ok n, rest)) :
    rest.length < bytes.length := by
  unfold read readFrom at h
  split at h
  · simp at h
  · split at h
    · simp at h
    · next byte more =>
      have := length_readFrom_le (0 + 7) (0 + (byte.toNat % 128) <<< 0) more
      dsimp only at h
      split at h
      · simp only [Prod.mk.injEq] at h
        simp [← h.2]
      · rw [h] at this
        dsimp only at this
        simp only [List.length_cons]
        omega

end Conduit.Varint
