import Conduit.Proofs.Batch.Framing

namespace Conduit.Frames

structure Tile where
  header : List UInt8
  packet : List UInt8
  reads : Varint.read header = (.ok packet.length, [])

def Tile.bytes (tile : Tile) : List UInt8 :=
  tile.header ++ tile.packet

def cover (tiles : List Tile) : List UInt8 :=
  tiles.flatMap Tile.bytes

/-- No tile begins these bytes: no length does, or one that more bytes would have to follow. -/
inductive Broken : List UInt8 → BatchFlaw → Prop
  | header {bytes left : List UInt8} {flaw : BatchFlaw} :
      bytes ≠ [] → Varint.read bytes = (.error flaw, left) → Broken bytes flaw
  | packet {bytes left : List UInt8} {length : Nat} :
      Varint.read bytes = (.ok length, left) → left.length < length →
      Broken bytes (.overrun length left.length)

variable {bytes rest : List UInt8} {flaw : BatchFlaw} {packets : List (List UInt8)}

theorem read_tile (tile : Tile) (rest : List UInt8) :
    Varint.read (tile.bytes ++ rest) = (.ok tile.packet.length, tile.packet ++ rest) := by
  rw [Tile.bytes, List.append_assoc, Varint.read_append tile.reads, List.nil_append]

theorem split_tile (tile : Tile) (rest : List UInt8) :
    split (tile.bytes ++ rest) = (split rest).map (tile.packet :: ·) := by
  rw [split_cons (read_tile tile rest) (by rw [List.length_append]; omega), List.drop_left,
    List.take_left]

theorem split_cover (tiles : List Tile) (rest : List UInt8) :
    split (cover tiles ++ rest) = (split rest).map (tiles.map Tile.packet ++ ·) := by
  induction tiles with
  | nil =>
    rw [cover, List.flatMap_nil, List.nil_append]
    cases split rest <;> rfl
  | cons tile tiles ih =>
    rw [cover, List.flatMap_cons, List.append_assoc, split_tile, ← cover, ih]
    cases split rest <;> rfl

theorem Broken.split_eq (h : Broken bytes flaw) : split bytes = .error flaw := by
  cases h with
  | header hne hread => exact split_refused hne hread
  | packet hread hlt => exact split_overrun hread hlt

theorem exists_cover (bytes : List UInt8) :
    ∃ tiles rest, bytes = cover tiles ++ rest ∧ (rest = [] ∨ ∃ flaw, Broken rest flaw) := by
  induction hn : bytes.length using Nat.strong_induction_on generalizing bytes with
  | _ n ih =>
    cases bytes with
    | nil => exact ⟨[], [], rfl, .inl rfl⟩
    | cons byte more =>
      rcases hread : Varint.read (byte :: more) with ⟨flaw | length, left⟩
      · exact ⟨[], byte :: more, rfl, .inr ⟨flaw, .header (List.cons_ne_nil _ _) hread⟩⟩
      by_cases hlt : left.length < length
      · exact ⟨[], byte :: more, rfl, .inr ⟨_, .packet hread hlt⟩⟩
      · obtain ⟨header, hbytes, hwhole, hlen, hvalue⟩ := Varint.read_eq_ok_iff.mp hread
        have hpacket : (left.take length).length = length :=
          List.length_take_of_le (Nat.not_lt.mp hlt)
        have hreads : Varint.read header = (.ok (left.take length).length, []) :=
          Varint.read_eq_ok_iff.mpr
            ⟨header, (List.append_nil header).symm, hwhole, hlen, hvalue.trans hpacket.symm⟩
        have hshort := Varint.length_read_lt hread
        obtain ⟨tiles, rest, hrest, hend⟩ :=
          ih _ (by rw [← hn, List.length_drop]; omega) (left.drop length) rfl
        refine ⟨⟨header, left.take length, hreads⟩ :: tiles, rest, ?_, hend⟩
        rw [hbytes, cover, List.flatMap_cons, ← cover, List.append_assoc, ← hrest, Tile.bytes,
          List.append_assoc, List.take_append_drop]

/-- Packets come of the bytes that their tiles cover. -/
theorem split_eq_ok_iff : split bytes = .ok packets ↔
    ∃ tiles, bytes = cover tiles ∧ packets = tiles.map Tile.packet := by
  constructor
  · intro h
    obtain ⟨tiles, rest, rfl, rfl | ⟨flaw, hbroken⟩⟩ := exists_cover bytes
    · rw [split_cover, split, Except.map, List.append_nil] at h
      cases h
      exact ⟨tiles, List.append_nil _, rfl⟩
    · rw [split_cover, hbroken.split_eq] at h
      cases h
  · rintro ⟨tiles, rfl, rfl⟩
    rw [← List.append_nil (cover tiles), split_cover, split, Except.map, List.append_nil]

/-- A byte string is refused for what stands behind its last tile. -/
theorem split_eq_error_iff : split bytes = .error flaw ↔
    ∃ tiles rest, bytes = cover tiles ++ rest ∧ Broken rest flaw := by
  constructor
  · intro h
    obtain ⟨tiles, rest, rfl, rfl | ⟨flaw', hbroken⟩⟩ := exists_cover bytes
    · rw [split_cover, split] at h
      cases h
    · rw [split_cover, hbroken.split_eq] at h
      cases h
      exact ⟨tiles, rest, rfl, hbroken⟩
  · rintro ⟨tiles, rest, rfl, hbroken⟩
    rw [split_cover, hbroken.split_eq]
    rfl

end Conduit.Frames
