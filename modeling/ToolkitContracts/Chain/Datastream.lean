import ToolkitContracts.Chain.Types
import ToolkitContracts.Lib.Codec

/-!
# The bytes of table rows

A row is stored as the bytes of its fields, one after the other: integers of a fixed width,
lowest byte first; names and symbols as the 64-bit integers they are; a vector or a string
behind its length, which is written in groups of seven bits.
-/

namespace ToolkitContracts
namespace Datastream

def uint64 : Codec ℕ := .le 8

/-- A `uint32_t`, and the second of a `time_point_sec`. -/
def uint32 : Codec ℕ := .le 4

/-- `unsigned_int`, a `varuint32`. -/
def unsignedInt : Codec ℕ := .groups 5

def name : Codec Name := uint64.imap (fun v => ⟨UInt64.ofNat v⟩) Name.raw

def symbol : Codec Symbol := uint64.imap (fun v => ⟨UInt64.ofNat v⟩) Symbol.raw

/-- A `bool`: every byte but zero is read as true. -/
def bool : Codec Bool := (Codec.le 1).imap (fun v => decide (v ≠ 0)) Bool.toNat

/-- A `std::vector`. -/
def vector {α : Type} (c : Codec α) : Codec (List α) := .list unsignedInt c

/-- A `std::string`, each character one byte. -/
def string : Codec (List Char) := vector ((Codec.le 1).imap Char.ofNat Char.toNat)

/-! ## Round trips -/

theorem uint64_roundTrips {v : ℕ} (h : v < 2 ^ 64) : uint64.RoundTrips v :=
  Codec.le_roundTrips h

theorem uint32_roundTrips {v : ℕ} (h : v < 2 ^ 32) : uint32.RoundTrips v :=
  Codec.le_roundTrips h

theorem unsignedInt_roundTrips {v : ℕ} (h : v < 2 ^ 32) : unsignedInt.RoundTrips v := by
  apply Codec.groups_roundTrips
  · omega
  · omega

theorem name_roundTrips (n : Name) : name.RoundTrips n := by
  apply Codec.imap_roundTrips
  · exact uint64_roundTrips n.value.toNat_lt
  · simp [Name.raw]

theorem symbol_roundTrips (s : Symbol) : symbol.RoundTrips s := by
  apply Codec.imap_roundTrips
  · exact uint64_roundTrips s.value.toNat_lt
  · simp [Symbol.raw]

theorem bool_roundTrips (b : Bool) : bool.RoundTrips b := by
  apply Codec.imap_roundTrips
  · exact Codec.le_roundTrips (by cases b <;> decide)
  · cases b <;> rfl

theorem vector_roundTrips {α : Type} {c : Codec α} {l : List α} (hsize : l.length < 2 ^ 32)
    (h : ∀ a ∈ l, c.RoundTrips a) : (vector c).RoundTrips l :=
  Codec.list_roundTrips (unsignedInt_roundTrips hsize) h

/-- A text of single-byte characters is read back. -/
theorem string_roundTrips {s : List Char} (hsize : s.length < 2 ^ 32)
    (h : ∀ c ∈ s, c.toNat < 256) : string.RoundTrips s := by
  apply vector_roundTrips hsize
  intro c hc
  apply Codec.imap_roundTrips
  · exact Codec.le_roundTrips (h c hc)
  · exact Char.ofNat_toNat c

end Datastream
end ToolkitContracts
