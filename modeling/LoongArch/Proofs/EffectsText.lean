import LoongArch.Effects.Text
import LoongArch.Proofs.AddressText

/-!
# Effects are read back from their text

Every set of effects is read back from its text, those with bits without a meaning included. The text
is split where it was joined, each part is read as the bits that it was written for, and these make up
all bits of the set.
-/

set_option autoImplicit false

namespace LoongArch.Effects

/-! ## Named and unnamed bits -/

theorem bits_and_bit (effects : Effects) (effect : Effect) :
    effects.bits &&& effect.bit = if effects.has effect then effect.bit else 0 := by
  have single : ∃ index, effect.bit.toBitVec = BitVec.twoPow 16 index := by
    cases effect
    exacts [⟨0, rfl⟩, ⟨1, rfl⟩, ⟨2, rfl⟩, ⟨3, rfl⟩, ⟨4, rfl⟩, ⟨5, rfl⟩, ⟨6, rfl⟩, ⟨7, rfl⟩]
  obtain ⟨index, power⟩ := single
  have chosen : effects.bits &&& effect.bit = effect.bit ∨ effects.bits &&& effect.bit = 0 := by
    simp only [← UInt16.toBitVec_inj, UInt16.toBitVec_and, power, BitVec.and_twoPow]
    split
    · exact .inl rfl
    · exact .inr rfl
  by_cases present : effects.bits &&& effect.bit = effect.bit
  · simp [has, present]
  · simp [has, chosen.resolve_left present]

theorem bits_of_filter (effects : Effects) (candidates : List Effect) :
    (ofList (candidates.filter effects.has)).bits = effects.bits &&& (ofList candidates).bits := by
  induction candidates with
  | nil => exact UInt16.and_zero.symm
  | cons effect candidates hypothesis =>
    have split : effects.bits &&& (effect.bit ||| (ofList candidates).bits) =
        effects.bits &&& effect.bit ||| effects.bits &&& (ofList candidates).bits :=
      UInt16.toBitVec_inj.1 BitVec.and_or_distrib_left
    show _ = effects.bits &&& (effect.bit ||| (ofList candidates).bits)
    rw [split, bits_and_bit, ← hypothesis]
    by_cases present : effects.has effect = true
    · rw [List.filter_cons_of_pos present, if_pos present]
      rfl
    · rw [List.filter_cons_of_neg present, if_neg present, UInt16.zero_or]

theorem bits_of_to_list (effects : Effects) :
    (ofList effects.toList).bits ||| effects.unnamed = effects.bits := by
  rw [toList, bits_of_filter, unnamed]
  apply UInt16.toBitVec_inj.1
  apply BitVec.eq_of_getElem_eq
  intro index bound
  simp only [UInt16.toBitVec_or, UInt16.toBitVec_and, UInt16.toBitVec_not, BitVec.getElem_or,
    BitVec.getElem_and, BitVec.getElem_not]
  cases (ofList Effect.all).bits.toBitVec[index] <;> simp

theorem foldl_union_bits (effects : List Effect) (start : Effects) :
    ((effects.map fun effect => ⟨effect.bit⟩).foldl union start).bits =
      start.bits ||| (ofList effects).bits := by
  induction effects generalizing start with
  | nil => exact UInt16.or_zero.symm
  | cons effect effects hypothesis =>
    rw [List.map_cons, List.foldl_cons, hypothesis]
    exact UInt16.or_assoc _ _ _

/-! ## Parts of a text -/

theorem parts_eq_split (text : List Char) : parts text = text.splitOn '|' := by
  induction text with
  | nil => rfl
  | cons character text hypothesis =>
    rw [List.splitOn_cons_eq_if_modifyHead, ← hypothesis]
    by_cases bar : character = '|'
    · subst bar
      rfl
    · have filled : parts text ≠ [] := hypothesis ▸ List.splitOn_ne_nil _ _
      obtain ⟨first, others, same⟩ := List.exists_cons_of_ne_nil filled
      rw [parts, same, if_neg (by simpa using bar)]
      · rfl
      · exact bar

/-- A piece of a text that is found again when it has been joined with others. -/
def Separable (piece : List Char) : Prop :=
  piece ≠ [] ∧ (∀ character ∈ piece, Blank.isBlank character = false) ∧ '|' ∉ piece

theorem trim_parts (before : List Char) {pieces : List (List Char)} (filled : pieces ≠ [])
    (separable : ∀ piece ∈ pieces, Separable piece)
    (spaces : ∀ character ∈ before, character = ' ') :
    (parts (before ++ " | ".toList.intercalate pieces)).map Blank.trim = pieces := by
  have space_blank : Blank.isBlank ' ' = true := by decide
  have blank : ∀ character ∈ before, Blank.isBlank character = true := by
    intro character listed
    rw [spaces character listed, space_blank]
  have outside : '|' ∉ before := fun listed => absurd (spaces _ listed) (by decide)
  induction pieces generalizing before with
  | nil => exact absurd rfl filled
  | cons piece pieces hypothesis =>
    obtain ⟨written, solid, unbarred⟩ := separable piece List.mem_cons_self
    cases pieces with
    | nil =>
      have single : '|' ∉ before ++ piece := by simp [outside, unbarred]
      have trimmed := Blank.trim_padded before [] written solid (by simpa using blank)
      rw [List.append_nil] at trimmed
      rw [List.intercalate_singleton, parts_eq_split, List.splitOn_eq_singleton single,
        List.map_singleton, trimmed]
    | cons next rest =>
      have single : '|' ∉ before ++ piece ++ [' '] := by simp [outside, unbarred]
      have split : before ++ " | ".toList.intercalate (piece :: next :: rest) =
          (before ++ piece ++ [' ']) ++ '|' :: ([' '] ++ " | ".toList.intercalate (next :: rest)) := by
        simp [List.intercalate_cons_cons]
      have trimmed := Blank.trim_padded before [' '] written solid
        (fun character listed =>
          (List.mem_append.mp listed).elim (blank character) fun space => by
            rw [List.mem_singleton.mp space, space_blank])
      have remaining := hypothesis [' '] (List.cons_ne_nil next rest)
        (fun piece listed => separable piece (List.mem_cons_of_mem _ listed))
        (by simp) (by simp [space_blank]) (by decide)
      rw [split, parts_eq_split, List.splitOn_append_cons_self_of_not_mem single, List.map_cons,
        trimmed, ← parts_eq_split, remaining]

/-! ## Reading -/

theorem part_of_name (effect : Effect) : part? effect.name.toList = some ⟨effect.bit⟩ := by
  cases effect <;> rfl

theorem part_of_hex (bits : UInt16) : part? (Numeral.hex bits.toNat).toList = some ⟨bits⟩ := by
  have read : Numeral.natural? 16 UInt16.size (Numeral.hexDigits 1 bits.toNat).toList =
      some bits.toNat :=
    Numeral.natural_eq_some_iff.mpr
      ⟨Numeral.is_natural_of_read (by simp [Numeral.hexDigits]) (Numeral.read_hex_digits 1 _),
        bits.toNat_lt⟩
  rw [Numeral.hex, String.toList_append]
  show (Numeral.natural? 16 UInt16.size (Numeral.hexDigits 1 bits.toNat).toList).map _ = _
  rw [read, Option.map_some, UInt16.ofNat_toNat]

theorem separable_name (effect : Effect) : Separable effect.name.toList := by
  have solid : effect.name.toList.all (fun character => !Blank.isBlank character) = true := by
    cases effect <;> decide
  refine ⟨?_, ?_, ?_⟩
  · cases effect <;> decide
  · intro character listed
    simpa using List.all_eq_true.mp solid character listed
  · cases effect <;> decide

theorem separable_hex (number : Nat) : Separable (Numeral.hex number).toList := by
  obtain ⟨written, solid⟩ := (Numeral.is_numeral_hex_digits 1 number).solid
  have digits : '|' ∉ (Numeral.hexDigits 1 number).toList :=
    Numeral.not_mem_of_read (Numeral.read_hex_digits 1 number) (by decide)
  refine ⟨written, solid, ?_⟩
  rw [Numeral.hex, String.toList_append]
  simpa using digits

def remainder (effects : Effects) : List UInt16 :=
  if effects.unnamed = 0 then [] else [effects.unnamed]

def pieces (effects : Effects) : List (List Char) :=
  effects.toList.map (fun effect => effect.name.toList) ++
    effects.remainder.map fun bits => (Numeral.hex bits.toNat).toList

theorem text_eq_pieces (effects : Effects) :
    effects.text.toList = " | ".toList.intercalate effects.pieces := by
  have unnamed : (if effects.unnamed = 0 then [] else [Numeral.hex effects.unnamed.toNat]) =
      effects.remainder.map fun bits => Numeral.hex bits.toNat := by
    unfold remainder
    split <;> rfl
  rw [text, unnamed, String.toList_intercalate, List.map_append, List.map_map, List.map_map]
  rfl

theorem separable_of_mem_pieces {effects : Effects} {piece : List Char}
    (listed : piece ∈ effects.pieces) : Separable piece := by
  rcases List.mem_append.mp listed with named | unnamed
  · obtain ⟨effect, _, rfl⟩ := List.mem_map.mp named
    exact separable_name effect
  · obtain ⟨bits, _, rfl⟩ := List.mem_map.mp unnamed
    exact separable_hex bits.toNat

/-- Every piece is read as a set, and together these are the set that was written. -/
theorem pieces_read (effects : Effects) :
    ∃ sets, effects.pieces.mapM part? = some sets ∧ sets.foldl union empty = effects := by
  refine ⟨effects.toList.map (⟨·.bit⟩) ++ effects.remainder.map (⟨·⟩), ?_, ?_⟩
  · have names : (part? ∘ fun effect : Effect => effect.name.toList) =
        fun effect => pure (⟨effect.bit⟩ : Effects) :=
      funext part_of_name
    have numerals : (part? ∘ fun bits : UInt16 => (Numeral.hex bits.toNat).toList) =
        fun bits => pure (⟨bits⟩ : Effects) :=
      funext part_of_hex
    rw [pieces, List.mapM_append, List.mapM_map, List.mapM_map, names, numerals, List.mapM_pure,
      List.mapM_pure]
    rfl
  · have named : ((effects.toList.map fun effect => ⟨effect.bit⟩).foldl union empty).bits =
        (ofList effects.toList).bits := by
      rw [foldl_union_bits, empty, UInt16.zero_or]
    have whole := effects.bits_of_to_list
    rw [List.foldl_append, remainder]
    split
    next none =>
      rw [none, UInt16.or_zero, ← named] at whole
      exact congrArg Effects.mk whole
    next =>
      rw [← named] at whole
      exact congrArg Effects.mk whole

theorem of_text_text (effects : Effects) : ofText? effects.text = some effects := by
  obtain ⟨sets, read, together⟩ := effects.pieces_read
  cases pieced : effects.pieces with
  | nil =>
    have none : sets = [] := by simpa [pieced] using read.symm
    have blank : effects.text.toList = [] := by rw [text_eq_pieces, pieced]; rfl
    rw [ofText?, blank, ← together, none]
    rfl
  | cons first rest =>
    have filled : effects.pieces ≠ [] := by simp [pieced]
    have separable : Separable first :=
      separable_of_mem_pieces (show first ∈ effects.pieces by simp [pieced])
    obtain ⟨character, listed⟩ := List.exists_mem_of_ne_nil first separable.1
    have inside : character ∈ effects.text.toList := by
      rw [text_eq_pieces, pieced]
      cases rest <;> simp [List.intercalate_singleton, List.intercalate_cons_cons, listed]
    -- A text that trimming takes away is blank throughout.
    have remains : (Blank.trim effects.text.toList).isEmpty = false := by
      obtain ⟨before, after, padded, blank⟩ := Blank.exists_padding effects.text.toList
      cases trimmed : Blank.trim effects.text.toList with
      | cons => rfl
      | nil =>
        rw [padded, trimmed, List.append_nil] at inside
        cases (blank character inside).symm.trans (separable.2.1 character listed)
    have split := trim_parts [] filled (fun _ => separable_of_mem_pieces) (by simp)
    rw [List.nil_append, ← text_eq_pieces] at split
    have parted :
        (parts effects.text.toList).mapM (fun part => part? (Blank.trim part)) = some sets := by
      rw [← read, ← split, List.mapM_map]
      rfl
    rw [ofText?, remains, if_neg Bool.false_ne_true, parted, Option.map_some, together]

end LoongArch.Effects
