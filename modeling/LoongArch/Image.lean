import LoongArch.Numeral

/-!
# Images

The bytes of a program and the addresses at which they are meant to be. An image is a list of segments;
where segments overlap, the first one that contains an address serves it.
-/

set_option autoImplicit false

namespace LoongArch

structure Segment where
  name : String
  base : Word
  bytes : ByteArray
  permissions : String
  kind : String

namespace Segment

def raw (index : Nat) (base : Word) (bytes : ByteArray) : Segment where
  name := "segment" ++ Numeral.decimal index
  base := base
  bytes := bytes
  permissions := "r-x"
  kind := "raw"

/-- The address after the last byte. It wraps where the bytes reach the end of the address space. -/
def limit (segment : Segment) : Word :=
  segment.base + UInt32.ofNat segment.bytes.size

/-- Whether an address lies in a segment. A segment whose end wraps contains nothing. -/
def contains (segment : Segment) (address : Word) : Bool :=
  segment.base ≤ address && address < segment.limit

def byte? (segment : Segment) (address : Word) : Option UInt8 :=
  segment.bytes[(address - segment.base).toNat]?

theorem byte_eq {segment : Segment} {address : Word}
    (lower : segment.base.toNat ≤ address.toNat) :
    segment.byte? address = segment.bytes[address.toNat - segment.base.toNat]? := by
  rw [byte?, UInt32.toNat_sub_of_le _ _ (UInt32.le_iff_toNat_le.mpr lower)]

theorem contains_iff_limit {segment : Segment} {address : Word} :
    segment.contains address = true ↔
      segment.base.toNat ≤ address.toNat ∧ address.toNat < segment.limit.toNat := by
  simp only [contains, Bool.and_eq_true, decide_eq_true_eq, UInt32.le_iff_toNat_le,
    UInt32.lt_iff_toNat_lt]

/-- No segment contains the last address, since its end would have to lie behind it. -/
theorem ne_last_of_contains {segment : Segment} {address : Word}
    (inside : segment.contains address = true) : address ≠ 0xFFFFFFFF := by
  rintro rfl
  have upper := (contains_iff_limit.mp inside).2
  have small := segment.limit.toNat_lt
  have last : (0xFFFFFFFF : Word).toNat = 2 ^ 32 - 1 := rfl
  omega

end Segment

structure Image where
  segments : List Segment

inductive LoadError where
  | skipTooLong
  | lengthTooLong
deriving DecidableEq, Repr

def LoadError.message : LoadError → String
  | skipTooLong => "--skip exceeds file size"
  | lengthTooLong => "--len exceeds remaining file size after skip"

namespace Image

def raw (base : Word) (bytes : ByteArray) : Image where
  segments := [.raw 0 base bytes]

/-- The image of a file from which `skip` bytes are left out at the start. At most `length?` of the
others are taken, or all of them. -/
def load (file : ByteArray) (base : Word) (skip : Nat) (length? : Option Nat) :
    Except LoadError Image :=
  if skip ≤ file.size then
    let length := length?.getD (file.size - skip)
    if length ≤ file.size - skip then .ok (raw base (file.extract skip (skip + length)))
    else .error .lengthTooLong
  else .error .skipTooLong

def contains (image : Image) (address : Word) : Bool :=
  image.segments.any (·.contains address)

def byte? (image : Image) (address : Word) : Option UInt8 :=
  (image.segments.find? (·.contains address)).bind (·.byte? address)

def word? (image : Image) (address : Word) : Option Word :=
  ([0, 1, 2, 3].mapM fun index => image.byte? (address + index)).map Word.ofBytes

theorem mapM_eq_some_iff {Key Value : Type} {read : Key → Option Value} {keys : List Key}
    {values : List Value} : keys.mapM read = some values ↔ keys.map read = values.map some := by
  induction keys generalizing values with
  | nil => cases values <;> simp
  | cons key rest hypothesis =>
    cases values with
    | nil => simp [List.mapM_cons, Option.bind_eq_some_iff]
    | cons value others => simp [List.mapM_cons, Option.bind_eq_some_iff, hypothesis]

theorem word_eq_some_iff {image : Image} {address value : Word} :
    image.word? address = some value ↔ ∃ contents : List UInt8,
      (contents.length = 4 ∧ ∀ index (bound : index < contents.length),
        image.byte? (address + .ofNat index) = some contents[index]) ∧
      Word.ofBytes contents = value := by
  have listed : ([0, 1, 2, 3] : List Word) = (List.range 4).map .ofNat := rfl
  simp only [word?, Option.map_eq_some_iff, mapM_eq_some_iff]
  refine exists_congr fun contents => and_congr_left fun _ => ?_
  rw [listed, List.ext_getElem_iff]
  simp only [List.length_map, List.length_range, List.getElem_map, List.getElem_range]
  exact ⟨fun ⟨length, bytes⟩ => ⟨length.symm, fun index bound => bytes index (by omega) bound⟩,
    fun ⟨length, bytes⟩ => ⟨length.symm, fun index _ bound => bytes index bound⟩⟩

theorem exists_segment_of_byte {image : Image} {address : Word} {value : UInt8}
    (served : image.byte? address = some value) :
    ∃ segment ∈ image.segments, segment.contains address = true := by
  obtain ⟨segment, found, _⟩ := Option.bind_eq_some_iff.mp served
  exact ⟨segment, List.mem_of_find?_eq_some found, (List.find?_eq_some_iff_append.mp found).1⟩

theorem to_nat_add_four_of_word {image : Image} {address value : Word}
    (served : image.word? address = some value) : (address + 4).toNat = address.toNat + 4 := by
  obtain ⟨contents, ⟨length, bytes⟩, _⟩ := word_eq_some_iff.mp served
  rw [UInt32.toNat_add]
  refine Nat.mod_eq_of_lt (Nat.lt_of_not_ge fun wraps => ?_)
  have four : (4 : Word).toNat = 4 := rfl
  have small := address.toNat_lt
  obtain ⟨segment, _, inside⟩ :=
    exists_segment_of_byte (bytes (2 ^ 32 - 1 - address.toNat) (by omega))
  apply Segment.ne_last_of_contains inside
  have last : (0xFFFFFFFF : Word).toNat = 2 ^ 32 - 1 := rfl
  rw [← UInt32.toNat_inj, UInt32.toNat_add, UInt32.toNat_ofNat', last]
  omega

end Image
end LoongArch
