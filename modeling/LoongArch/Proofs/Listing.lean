import LoongArch.CommandLine.Disassembler
import LoongArch.Proofs.ImageMemory
import LoongArch.Proofs.Numerals
import Mathlib.Data.List.Nodup

/-!
# A listing comes to its end and leaves nothing out

The lines of a listing are compared with the addresses of its range, which are counted here and not
walked through: one line for every address up to the first that holds no complete word, and one that
marks this. Nothing contains the last address, so that no address on the way wraps, however close the
range and the image come to it.
-/

set_option autoImplicit false

namespace LoongArch

namespace Listing

/-- The addresses of a range: its start and those below its end that lie a multiple of four behind. -/
def addresses (start stop : Word) : List Word :=
  (List.range ((stop.toNat - start.toNat + 3) / 4)).map fun index => start + .ofNat (4 * index)

section Addresses

variable {start stop : Word}

theorem lt_length_addresses_iff {index : Nat} :
    index < (addresses start stop).length ↔ start.toNat + 4 * index < stop.toNat := by
  rw [addresses, List.length_map, List.length_range]
  omega

theorem to_nat_get_addresses {index : Nat} (bound : index < (addresses start stop).length) :
    (addresses start stop)[index].toNat = start.toNat + 4 * index := by
  have below := lt_length_addresses_iff.mp bound
  have small := stop.toNat_lt
  simp only [addresses, List.getElem_map, List.getElem_range]
  exact Word.to_nat_add_of_lt (by omega)

theorem addresses_ascending : (addresses start stop).Pairwise (· < ·) := by
  rw [List.pairwise_iff_getElem]
  intro low high lowBound highBound less
  rw [UInt32.lt_iff_toNat_lt, to_nat_get_addresses, to_nat_get_addresses]
  omega

theorem addresses_of_not_lt (reached : ¬start < stop) : addresses start stop = [] := by
  rw [UInt32.lt_iff_toNat_lt] at reached
  apply List.eq_nil_of_length_eq_zero
  by_contra nonempty
  have first := lt_length_addresses_iff.mp (Nat.pos_of_ne_zero nonempty)
  omega

theorem head_addresses (below : start < stop) : ∃ rest, addresses start stop = start :: rest := by
  have nonempty : 0 < (addresses start stop).length :=
    lt_length_addresses_iff.mpr (UInt32.lt_iff_toNat_lt.mp below)
  have first : (addresses start stop)[0] = start :=
    UInt32.toNat_inj.mp (to_nat_get_addresses nonempty)
  have split := List.getElem_cons_drop nonempty
  rw [first] at split
  exact ⟨_, split.symm⟩

theorem addresses_of_lt (below : start < stop) (room : start.toNat + 4 < 2 ^ 32) :
    addresses start stop = start :: addresses (start + 4) stop := by
  have moved : (start + 4).toNat = start.toNat + 4 := Word.to_nat_add_of_lt room
  rw [UInt32.lt_iff_toNat_lt] at below
  have count : (stop.toNat - start.toNat + 3) / 4 =
      (stop.toNat - (start + 4).toNat + 3) / 4 + 1 := by omega
  rw [addresses, addresses, count, List.range_succ_eq_map, List.map_cons, List.map_map]
  congr 1
  · exact UInt32.add_zero start
  · refine List.map_congr_left fun index _ => ?_
    rw [Function.comp_apply, Nat.mul_succ, Nat.add_comm, UInt32.ofNat_add, UInt32.add_assoc]
    rfl

end Addresses

section Lines

variable (image : Image) (showBytes : Bool) (stop : Word)

def isReadable (pc : Word) : Bool :=
  (image.word? pc).isSome

/-- The addresses in front of the first one that holds no complete word. -/
def readable (start : Word) : List Word :=
  (addresses start stop).takeWhile (isReadable image)

def missing (start : Word) : List Word :=
  ((addresses start stop).dropWhile (isReadable image)).take 1

def line (pc : Word) : String :=
  match image.word? pc with
  | none => outsideLine pc
  | some word => instructionLine image showBytes pc word

section Shape

variable {image stop} {pc : Word}

theorem shape_of_not_lt (image : Image) (reached : ¬pc < stop) :
    readable image stop pc = [] ∧ missing image stop pc = [] := by
  rw [readable, missing, addresses_of_not_lt reached]
  exact ⟨rfl, rfl⟩

theorem shape_of_missing (below : pc < stop) (unreadable : image.word? pc = none) :
    readable image stop pc = [] ∧ missing image stop pc = [pc] := by
  have absent : isReadable image pc = false := by rw [isReadable, unreadable]; rfl
  obtain ⟨rest, listed⟩ := head_addresses below
  rw [readable, missing, listed, List.takeWhile_cons, List.dropWhile_cons, absent]
  exact ⟨rfl, rfl⟩

theorem shape_of_word {word : Word} (below : pc < stop) (found : image.word? pc = some word) :
    readable image stop pc = pc :: readable image stop (pc + 4) ∧
      missing image stop pc = missing image stop (pc + 4) := by
  have present : isReadable image pc = true := by rw [isReadable, found]; rfl
  rw [readable, missing, addresses_of_lt below (Image.add_four_lt_of_word found),
    List.takeWhile_cons, List.dropWhile_cons, present]
  exact ⟨rfl, rfl⟩

end Shape

theorem round_finished {listing : Listing} {lines : Array String}
    (finished : listing.round image showBytes stop = .finished lines) :
    readable image stop listing.pc = [] ∧
      lines.toList = listing.lines.toList ++
        (missing image stop listing.pc).map (line image showBytes) := by
  unfold round at finished
  split at finished
  next below =>
    split at finished
    next unreadable =>
      cases finished
      obtain ⟨none, marked⟩ := shape_of_missing below unreadable
      refine ⟨none, ?_⟩
      rw [marked, List.map_singleton, line, unreadable, Array.toList_push]
    next => cases finished
  next reached =>
    cases finished
    obtain ⟨none, unmarked⟩ := shape_of_not_lt image reached
    exact ⟨none, by rw [unmarked, List.map_nil, List.append_nil]⟩

/-- Every round but the last one takes up a readable address, and the lines are those of the addresses
in the order of the range. -/
theorem finish_rounds (listing : Listing) :
    let count := (readable image stop listing.pc).length
    (∃ states : Nat → Listing, states 0 = listing ∧
      (∀ index < count,
        (states index).round image showBytes stop = .continued (states (index + 1))) ∧
      (states count).round image showBytes stop =
        .finished (listing.finish image showBytes stop)) ∧
    (listing.finish image showBytes stop).toList = listing.lines.toList ++
      (readable image stop listing.pc ++ missing image stop listing.pc).map
        (line image showBytes) := by
  fun_induction finish image showBytes stop listing with
  | case1 listing lines finished =>
    obtain ⟨none, shown⟩ := round_finished image showBytes stop finished
    rw [none]
    exact ⟨⟨fun _ => listing, rfl, nofun, finished⟩, shown⟩
  | case2 listing later continued hypothesis =>
    obtain ⟨below, word, found, pc, lines⟩ := round_continued continued
    obtain ⟨first, rest⟩ := shape_of_word below found
    obtain ⟨⟨states, begins, goesOn, ends⟩, shown⟩ := hypothesis
    rw [pc] at goesOn ends shown
    rw [first, rest]
    constructor
    · refine ⟨fun index => Nat.casesOn index listing states, rfl, ?_, ends⟩
      rintro (_ | index) bound
      · change _ = Progress.continued (states 0)
        rw [begins]
        exact continued
      · exact goesOn index (Nat.lt_of_succ_lt_succ bound)
    · have shows : line image showBytes listing.pc =
          instructionLine image showBytes listing.pc word := by rw [line, found]
      rw [shown, lines, Array.toList_push, List.append_assoc, List.singleton_append, List.cons_append,
        List.map_cons, shows]

variable {image stop} {start pc : Word}

theorem word_of_mem_readable (listed : pc ∈ readable image stop start) :
    ∃ word, image.word? pc = some word := by
  have present : isReadable image pc = true := List.mem_takeWhile_imp listed
  exact Option.isSome_iff_exists.mp present

theorem word_of_mem_missing (listed : pc ∈ missing image stop start) : image.word? pc = none := by
  rw [missing, List.take_one, Option.mem_toList] at listed
  have absent := List.head?_dropWhile_not (isReadable image) (addresses start stop)
  rw [listed] at absent
  exact Option.not_isSome_iff_eq_none.mp (Bool.eq_false_iff.mp absent)

theorem readable_append_rest (image : Image) (start stop : Word) :
    readable image stop start ++ (addresses start stop).dropWhile (isReadable image) =
      addresses start stop :=
  List.takeWhile_append_dropWhile

theorem shown_leading (image : Image) (start stop : Word) :
    readable image stop start ++ missing image stop start <+: addresses start stop := by
  have begins := (List.prefix_append_right_inj (readable image stop start)).mpr
    (List.take_prefix 1 ((addresses start stop).dropWhile (isReadable image)))
  rwa [readable_append_rest] at begins

theorem readable_of_not_missing (none : missing image stop start = []) :
    readable image stop start = addresses start stop := by
  have rest : (addresses start stop).dropWhile (isReadable image) = [] := by
    simpa [missing, List.take_eq_nil_iff] using none
  have whole := readable_append_rest image start stop
  rwa [rest, List.append_nil] at whole

end Lines

theorem nodup_labels (start stop : Word) :
    ((addresses start stop).map fun pc => Numeral.address pc.toNat).Nodup := by
  refine List.Nodup.map ?_ (addresses_ascending.imp fun less => UInt32.ne_of_lt less)
  exact fun left right same => UInt32.toNat_inj.mp (Numeral.address_injective same)

theorem byte_text_eq {image : Image} {pc : Word} {contents : List UInt8}
    (length : contents.length = 4)
    (held : ∀ index (bound : index < contents.length),
      image.byte? (pc + .ofNat index) = some contents[index]) :
    byteText image pc =
      String.join (contents.map fun byte => Numeral.hexDigits 2 byte.toNat ++ " ") ++ "  " := by
  have listed : ([0, 1, 2, 3] : List Word) = (List.range 4).map .ofNat := rfl
  have bytes : (List.range 4).map (fun index => (image.byte? (pc + .ofNat index)).getD 0) =
      contents := by
    refine List.ext_getElem (by simp [length]) fun index _ bound => ?_
    rw [List.getElem_map, List.getElem_range, held index bound, Option.getD_some]
  rw [byteText, listed, ← bytes, List.map_map, List.map_map]
  rfl

/-- What a listing shows of a range: a line for every address up to the first one that holds no complete
word, each of them once. A line begins with its address; the bytes in it are those that the image
holds. -/
structure Shows (image : Image) (showBytes : Bool) (start stop : Word) (lines : List String) :
    Prop where
  lines : lines =
    (readable image stop start ++ missing image stop start).map (line image showBytes)
  inOrder : readable image stop start ++ missing image stop start <+: addresses start stop
  whole : missing image stop start = [] → readable image stop start = addresses start stop
  once : ((readable image stop start ++ missing image stop start).map fun pc =>
    Numeral.address pc.toNat).Nodup
  instruction : ∀ pc ∈ readable image stop start, ∃ contents : List UInt8,
    contents.length = 4 ∧
    (∀ index (bound : index < contents.length),
      pc.toNat + index < 2 ^ 32 ∧ image.byte? (pc + .ofNat index) = some contents[index]) ∧
    line image showBytes pc = Numeral.address pc.toNat ++ ": " ++
      (if showBytes then
        String.join (contents.map fun byte => Numeral.hexDigits 2 byte.toNat ++ " ") ++ "  "
      else "") ++
      (Instruction.decode (.ofBytes contents)).text pc ++ "\n"
  outside : ∀ pc ∈ missing image stop start,
    image.word? pc = none ∧ line image showBytes pc = Numeral.address pc.toNat ++ ": <oob>\n"

theorem shows_finish (image : Image) (showBytes : Bool) (start stop : Word) :
    Shows image showBytes start stop
      ((Listing.start start).finish image showBytes stop).toList where
  lines := (finish_rounds image showBytes stop (.start start)).2
  inOrder := shown_leading image start stop
  whole := readable_of_not_missing
  once := (nodup_labels start stop).sublist ((shown_leading image start stop).sublist.map _)
  instruction pc listed := by
    obtain ⟨word, found⟩ := word_of_mem_readable listed
    have room := Image.add_four_lt_of_word found
    obtain ⟨contents, ⟨length, held⟩, rfl⟩ := Image.word_eq_some_iff.mp found
    refine ⟨contents, length, fun index bound => ⟨by omega, held index bound⟩, ?_⟩
    rw [line, found, ← byte_text_eq length held]
    rfl
  outside pc listed := by
    have absent := word_of_mem_missing listed
    refine ⟨absent, ?_⟩
    rw [line, absent]
    exact String.append_assoc ..

end Listing

open CommandLine in
/-- The listing of a range comes to its end, and shows the addresses of the range up to the first one
that holds no complete word. -/
theorem Image.range_listed (image : Image) (options : RangeOptions)
    (ordered : options.start ≤ options.stop) :
    let addresses := Listing.addresses options.start options.stop
    let readable := Listing.readable image options.stop options.start
    (∀ index, index < addresses.length ↔
      options.start.toNat + 4 * index < options.stop.toNat) ∧
    (∀ index (bound : index < addresses.length),
      addresses[index].toNat = options.start.toNat + 4 * index) ∧
    ∃ lines : Array String,
      (∃ states : Nat → Listing, states 0 = .start options.start ∧
        (∀ index < readable.length, (states index).round image options.showBytes options.stop =
          .continued (states (index + 1))) ∧
        (states readable.length).round image options.showBytes options.stop = .finished lines) ∧
      ((View.range options).show image).Emits (String.join lines.toList) options.destination ∧
      Listing.Shows image options.showBytes options.start options.stop lines.toList := by
  intro addresses readable
  obtain ⟨rounds, _⟩ :=
    Listing.finish_rounds image options.showBytes options.stop (.start options.start)
  refine ⟨fun _ => Listing.lt_length_addresses_iff, fun _ => Listing.to_nat_get_addresses, _, rounds,
    ?_, Listing.shows_finish ..⟩
  rw [View.show, if_pos ordered]
  exact Outcome.emits_text ..

open CommandLine in
/-- Seven bytes end in front of the last address: of the two addresses of the range only the first one
holds a complete word. -/
theorem Image.range_before_last_address_listed :
    let image : Image := .raw 0xFFFFFFF8 ⟨#[0, 0, 0x80, 2, 0, 0, 0]⟩
    let options : RangeOptions :=
      { start := 0xFFFFFFF8, stop := 0xFFFFFFFF, showBytes := true }
    let text := "0xfffffff8: 00 00 80 02   addi.w $zero, $zero, 0\n0xfffffffc: <oob>\n"
    options.start ≤ options.stop ∧
    Listing.readable image options.stop options.start = [0xFFFFFFF8] ∧
    Listing.missing image options.stop options.start = [0xFFFFFFFC] ∧
    (View.range options).show image = { status := 0, output := text, complaint := "", written := [] } ∧
    ∃ lines : Array String, String.join lines.toList = text ∧
      Listing.Shows image true 0xFFFFFFF8 0xFFFFFFFF lines.toList := by
  intro image options text
  have ordered : options.start ≤ options.stop := by decide
  have printed : (View.range options).show image =
      { status := 0, output := text, complaint := "", written := [] } := by decide +kernel
  obtain ⟨_, _, lines, _, emits, shows⟩ := range_listed image options ordered
  refine ⟨ordered, by decide, by decide, printed, lines, ?_, shows⟩
  rw [← (emits.printed rfl).1, printed]

end LoongArch
