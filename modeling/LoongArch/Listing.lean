import LoongArch.Assembly
import LoongArch.Image

/-!
# Listing a range of addresses

A listing takes up one address after another, four apart, until it reaches the end of the range or an
address at which the image holds no complete word. The next address may wrap, but a word in an image
never reaches the last address. So a listing only moves forward, and it comes to an end.
-/

set_option autoImplicit false

namespace LoongArch

structure Listing where
  pc : Word
  lines : Array String
deriving DecidableEq, Repr

namespace Listing

inductive Progress where
  | finished (lines : Array String)
  | continued (listing : Listing)

def label (pc : Word) : String :=
  Numeral.address pc.toNat ++ ": "

def byteText (image : Image) (pc : Word) : String :=
  let byte (index : Word) : UInt8 := (image.byte? (pc + index)).getD 0
  String.join ([0, 1, 2, 3].map fun index => Numeral.hexDigits 2 (byte index).toNat ++ " ") ++ "  "

def instructionLine (image : Image) (showBytes : Bool) (pc word : Word) : String :=
  label pc ++ (if showBytes then byteText image pc else "") ++ (Instruction.decode word).text pc ++ "\n"

def outsideLine (pc : Word) : String :=
  label pc ++ "<oob>\n"

def start (pc : Word) : Listing where
  pc := pc
  lines := #[]

variable (image : Image) (showBytes : Bool) (stop : Word)

/-- Takes up the next address, if it lies below the end of the range. -/
def round (listing : Listing) : Progress :=
  if listing.pc < stop then
    match image.word? listing.pc with
    | none => .finished (listing.lines.push (outsideLine listing.pc))
    | some word =>
      .continued {
        pc := listing.pc + 4
        lines := listing.lines.push (instructionLine image showBytes listing.pc word) }
  else .finished listing.lines

variable {image showBytes stop}

theorem round_continued {listing later : Listing}
    (continued : listing.round image showBytes stop = .continued later) :
    listing.pc < stop ∧ ∃ word, image.word? listing.pc = some word ∧
      later.pc = listing.pc + 4 ∧
      later.lines = listing.lines.push (instructionLine image showBytes listing.pc word) := by
  unfold round at continued
  split at continued
  next below =>
    split at continued
    · cases continued
    next word readable =>
      cases continued
      exact ⟨below, word, readable, rfl, rfl⟩
  next => cases continued

theorem to_nat_pc_of_continued {listing later : Listing}
    (continued : listing.round image showBytes stop = .continued later) :
    later.pc.toNat = listing.pc.toNat + 4 := by
  obtain ⟨_, word, readable, pc, _⟩ := round_continued continued
  rw [pc]
  exact Image.to_nat_add_four_of_word readable

theorem distance_round {listing later : Listing}
    (continued : listing.round image showBytes stop = .continued later) :
    stop.toNat - later.pc.toNat < stop.toNat - listing.pc.toNat := by
  have below := UInt32.lt_iff_toNat_lt.mp (round_continued continued).1
  rw [to_nat_pc_of_continued continued]
  omega

variable (image showBytes stop)

def finish (listing : Listing) : Array String :=
  match _progress : listing.round image showBytes stop with
  | .finished lines => lines
  | .continued later => finish later
termination_by stop.toNat - listing.pc.toNat
decreasing_by exact distance_round _progress

end Listing
end LoongArch
