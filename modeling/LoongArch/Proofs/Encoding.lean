import LoongArch.Proofs.BitFields
import LoongArch.Register
import Mathlib.Data.List.Nodup
import Mathlib.Data.List.Pairwise

/-!
# Encoding

The words that the instruction set gives to its instructions. The fixed bits of a template lead, and the
operands fill the bits that its format leaves open. No two templates accept the same word, except for
the last one; so an encoded instruction is decoded as itself, and every word that decodes is the
encoding of its operation and its operands.
-/

set_option autoImplicit false

namespace LoongArch

/-- How many bits of a word a format leaves to the operands; they are the lowest ones. The highest bit
of a hint is fixed, as it tells the two barriers apart. -/
def Format.openBits : Format → Nat
  | reg3 | reg2Ui5 | hint16 | bare => 15
  | reg2Si12 | reg2Ui12 => 22
  | reg1Si20 => 25
  | reg2Si16 | si26 => 26

inductive Fields : Format → Type where
  | reg3 (rd rj rk : Register) : Fields .reg3
  | reg2Si12 (rd rj : Register) (immediate : BitVec 12) : Fields .reg2Si12
  | reg2Ui12 (rd rj : Register) (immediate : BitVec 12) : Fields .reg2Ui12
  | reg2Si16 (rd rj : Register) (offset : BitVec 16) : Fields .reg2Si16
  | reg1Si20 (rd : Register) (immediate : BitVec 20) : Fields .reg1Si20
  | si26 (offset : BitVec 26) : Fields .si26
  | reg2Ui5 (rd rj : Register) (amount : BitVec 5) : Fields .reg2Ui5
  | hint16 (hint : BitVec 15) : Fields .hint16
  | bare (code : BitVec 15) : Fields .bare

theorem Format.open_bits_le (format : Format) : format.openBits ≤ 32 := by
  cases format <;> decide

namespace Fields

def placed : {format : Format} → Fields format → Nat
  | _, reg3 rd rj rk => rd + 2 ^ 5 * rj + 2 ^ 10 * rk
  | _, reg2Si12 rd rj immediate | _, reg2Ui12 rd rj immediate =>
    rd + 2 ^ 5 * rj + 2 ^ 10 * immediate.toNat
  | _, reg2Si16 rd rj offset => rd + 2 ^ 5 * rj + 2 ^ 10 * offset.toNat
  | _, reg1Si20 rd immediate => rd + 2 ^ 5 * immediate.toNat
  | _, si26 offset => offset.toNat / 2 ^ 16 + 2 ^ 10 * (offset.toNat % 2 ^ 16)
  | _, reg2Ui5 rd rj amount => rd + 2 ^ 5 * rj + 2 ^ 10 * amount.toNat
  | _, hint16 hint => hint.toNat
  | _, bare code => code.toNat

def ofOperands (rd rj rk : UInt8) (immediate : Word) : (format : Format) → Fields format
  | .reg3 => reg3 (.ofByte rd) (.ofByte rj) (.ofByte rk)
  | .reg2Si12 => reg2Si12 (.ofByte rd) (.ofByte rj) (.ofNat 12 immediate.toNat)
  | .reg2Ui12 => reg2Ui12 (.ofByte rd) (.ofByte rj) (.ofNat 12 immediate.toNat)
  | .reg2Si16 => reg2Si16 (.ofByte rd) (.ofByte rj) (.ofNat 16 immediate.toNat)
  | .reg1Si20 => reg1Si20 (.ofByte rd) (.ofNat 20 immediate.toNat)
  | .si26 => si26 (.ofNat 26 immediate.toNat)
  | .reg2Ui5 => reg2Ui5 (.ofByte rd) (.ofByte rj) (.ofNat 5 immediate.toNat)
  | .hint16 => hint16 (.ofNat 15 immediate.toNat)
  | .bare => bare (.ofNat 15 (rd.toNat + 2 ^ 5 * rj.toNat + 2 ^ 10 * rk.toNat))

theorem placed_lt {format : Format} (fields : Fields format) :
    fields.placed < 2 ^ format.openBits := by
  cases fields <;> simp only [placed, Format.openBits] <;> omega

end Fields

/-- The word of a template with the given operands. -/
def Template.encode (template : Template) (fields : Fields template.format) : Word :=
  template.pattern.bits ||| UInt32.ofNat fields.placed

def Operation.encode (operation : Operation)
    (fields : Fields (InstructionSet.describe operation).format) : Word :=
  (InstructionSet.describe operation).encode fields

def Instruction.fields (instruction : Instruction) :
    Fields (InstructionSet.describe instruction.operation).format :=
  .ofOperands instruction.rd instruction.rj instruction.rk instruction.immediate _

/-- An instruction names the operands of the given fields. Immediates keep their sign. A hint and the
code of a breakpoint lie where other formats have three registers; a hint is read as an immediate too,
below the bit that makes an instruction barrier. -/
def Instruction.Carries (instruction : Instruction) : {format : Format} → Fields format → Prop
  | _, .reg3 rd rj rk =>
    instruction.rd.toNat = rd ∧ instruction.rj.toNat = rj ∧ instruction.rk.toNat = rk ∧
      instruction.immediate = 0
  | _, .reg2Si12 rd rj immediate | _, .reg2Ui12 rd rj immediate =>
    instruction.rd.toNat = rd ∧ instruction.rj.toNat = rj ∧
      instruction.immediate.toInt32.toInt = immediate.toInt
  | _, .reg2Si16 rd rj offset =>
    instruction.rd.toNat = rd ∧ instruction.rj.toNat = rj ∧
      instruction.immediate.toInt32.toInt = offset.toInt
  | _, .reg1Si20 rd immediate =>
    instruction.rd.toNat = rd ∧ instruction.immediate.toInt32.toInt = immediate.toInt
  | _, .si26 offset => instruction.immediate.toInt32.toInt = offset.toInt
  | _, .reg2Ui5 rd rj amount =>
    instruction.rd.toNat = rd ∧ instruction.rj.toNat = rj ∧
      instruction.immediate.toInt32.toInt = amount.toInt
  | _, .hint16 hint =>
    instruction.rd.toNat + 2 ^ 5 * instruction.rj.toNat + 2 ^ 10 * instruction.rk.toNat =
        hint.toNat ∧
      instruction.immediate.toInt32.toInt =
        (hint.cons (instruction.operation = .instructionBarrier)).toInt
  | _, .bare code =>
    instruction.rd.toNat + 2 ^ 5 * instruction.rj.toNat + 2 ^ 10 * instruction.rk.toNat =
        code.toNat ∧
      instruction.immediate = 0

namespace Pattern

def Apart (first second : Pattern) : Prop :=
  first.bits &&& second.mask ≠ second.bits &&& first.mask
deriving Decidable

theorem not_apart_of_accepts {first second : Pattern} {word : Word}
    (left : first.accepts word = true) (right : second.accepts word = true) :
    ¬first.Apart second := by
  simp only [accepts, beq_iff_eq] at left right
  refine not_not_intro ?_
  rw [← left, ← right, UInt32.and_assoc, UInt32.and_assoc, UInt32.and_comm first.mask]

theorem and_leading {number low size : Nat} (bounded : number < 2 ^ size) (small : low ≤ size) :
    number &&& (2 ^ size - 2 ^ low) = number - number % 2 ^ low := by
  have mask : 2 ^ size - 2 ^ low = 2 ^ low * (2 ^ (size - low) - 1) := by
    rw [Nat.mul_sub, Nat.mul_one, ← Nat.pow_add, Nat.add_sub_cancel' small]
  have rest : number - number % 2 ^ low = 2 ^ low * (number / 2 ^ low) := by
    have split := Nat.div_add_mod number (2 ^ low)
    omega
  rw [mask, rest]
  apply Nat.eq_of_testBit_eq
  intro index
  rw [Nat.testBit_and, Nat.testBit_two_pow_mul, Nat.testBit_two_pow_mul, Nat.testBit_two_pow_sub_one,
    Nat.testBit_div_two_pow]
  by_cases above : low ≤ index
  · by_cases inside : index < size
    · have shifted : index - low < size - low := by omega
      simp [above, shifted]
    · have zero : number.testBit index = false :=
        Nat.testBit_lt_two_pow (bounded.trans_le (Nat.pow_le_pow_right (by decide) (by omega)))
      simp [above, zero]
  · simp [above]

theorem accepts_iff {pattern : Pattern} {low : Nat} (small : low ≤ 32)
    (leading : pattern.mask.toNat = 2 ^ 32 - 2 ^ low) (word : Word) :
    pattern.accepts word = true ↔ word.toNat = pattern.bits.toNat + word.toNat % 2 ^ low := by
  have masked : (word &&& pattern.mask).toNat = word.toNat - word.toNat % 2 ^ low := by
    rw [UInt32.toNat_and, leading, and_leading word.toNat_lt small]
  have below : word.toNat % 2 ^ low ≤ word.toNat := Nat.mod_le ..
  rw [accepts, beq_iff_eq, ← UInt32.toNat_inj, masked]
  omega

/-- Words that a pattern accepts differ in the bits that it leaves open. -/
theorem eq_of_open_bits {pattern : Pattern} {low : Nat} (small : low ≤ 32)
    (leading : pattern.mask.toNat = 2 ^ 32 - 2 ^ low) {first second : Word}
    (left : pattern.accepts first = true) (right : pattern.accepts second = true)
    (same : first.toNat % 2 ^ low = second.toNat % 2 ^ low) : first = second := by
  apply UInt32.toNat_inj.mp
  rw [(accepts_iff small leading first).mp left, same, ← (accepts_iff small leading second).mp right]

end Pattern

namespace InstructionSet

def known : List Template :=
  templates.dropLast

theorem templates_eq : templates = known ++ [invalid] := rfl

theorem known_apart :
    known.Pairwise fun first second => first.pattern.Apart second.pattern := by
  decide

theorem known_leading : ∀ template ∈ known,
    template.pattern.mask.toNat = 2 ^ 32 - 2 ^ template.format.openBits ∧
      2 ^ template.format.openBits ∣ template.pattern.bits.toNat := by
  decide

theorem known_hint_bit : ∀ template ∈ known, template.format = .hint16 →
    template.pattern.bits.toNat / 2 ^ 15 % 2 =
      (decide (template.operation = .instructionBarrier)).toNat := by
  decide

theorem describe_known : ∀ template ∈ known, describe template.operation = template := by
  decide

theorem mem_templates {template : Template} :
    template ∈ templates ↔ template ∈ known ∨ template = invalid := by
  rw [templates_eq, List.mem_append, List.mem_singleton]

theorem mem_known (template : Template) (listed : template ∈ templates)
    (valid : template ≠ invalid) : template ∈ known :=
  (mem_templates.mp listed).resolve_right valid

theorem known_mnemonic : ∀ first ∈ known, ∀ second ∈ known,
    first.mnemonic = second.mnemonic → first = second := by
  have distinct : (known.map (·.mnemonic)).Nodup := by decide
  exact fun first left second right => List.inj_on_of_nodup_map distinct left right

theorem operation_describe {operation : Operation} (listed : describe operation ∈ known) :
    (describe operation).operation = operation := by
  unfold describe at listed ⊢
  cases found : templates.find? (·.operation = operation) with
  | none =>
    rw [found] at listed
    exact absurd listed (by decide)
  | some template => simpa using List.find?_some found

/-- No two known templates accept the same word. -/
theorem eq_of_accepts {first second : Template} (left : first ∈ known) (right : second ∈ known)
    {word : Word} (accepted : first.pattern.accepts word = true)
    (alsoAccepted : second.pattern.accepts word = true) : first = second := by
  have symmetric : Std.Symm fun first second : Template => first.pattern.Apart second.pattern :=
    ⟨fun _ _ => Ne.symm⟩
  by_contra different
  exact Pattern.not_apart_of_accepts accepted alsoAccepted
    (known_apart.forall left right different)

theorem lookup_of_accepts {template : Template} (listed : template ∈ known) {word : Word}
    (accepted : template.pattern.accepts word = true) : lookup word = template := by
  have present : (known.find? (·.pattern.accepts word)).isSome = true :=
    List.find?_isSome.mpr ⟨template, listed, accepted⟩
  obtain ⟨found, selected⟩ := Option.isSome_iff_exists.mp present
  have accepts : found.pattern.accepts word = true := by
    simpa using List.find?_some selected
  have same : found = template :=
    eq_of_accepts (List.mem_of_find?_eq_some selected) listed accepts accepted
  rw [lookup, templates_eq, List.find?_append, selected, same]
  rfl

theorem lookup_mem_known {word : Word} (valid : (Instruction.decode word).operation ≠ .invalid) :
    lookup word ∈ known ∧ (lookup word).pattern.accepts word = true := by
  change (lookup word).operation ≠ .invalid at valid
  unfold lookup at valid ⊢
  cases selected : templates.find? (·.pattern.accepts word) with
  | none => exact absurd (by rw [selected]; rfl) valid
  | some found =>
    rw [selected] at valid
    have other : found ≠ invalid := fun same => valid (by rw [same]; rfl)
    exact ⟨mem_known found (List.mem_of_find?_eq_some selected) other,
      by simpa using List.find?_some selected⟩

end InstructionSet

/-- A word is an instruction of the given name: it has the fixed bits of the template so named. -/
def Word.Encodes (word : Word) (name : String) : Prop :=
  ∃ template ∈ InstructionSet.known,
    template.mnemonic = name ∧ template.pattern.accepts word = true

theorem Word.Encodes.selects {word : Word} {name : String} (encodes : word.Encodes name)
    {operation : Operation}
    (named : InstructionSet.describe operation ∈ InstructionSet.known ∧
      (InstructionSet.describe operation).mnemonic = name) :
    (Instruction.decode word).operation = operation ∧
      (InstructionSet.lookup word).format = (InstructionSet.describe operation).format := by
  obtain ⟨template, listed, same, accepted⟩ := encodes
  have described : template = InstructionSet.describe operation :=
    InstructionSet.known_mnemonic template listed _ named.1 (same.trans named.2.symm)
  have selected : InstructionSet.lookup word = InstructionSet.describe operation := by
    rw [InstructionSet.lookup_of_accepts listed accepted, described]
  refine ⟨?_, by rw [selected]⟩
  change (InstructionSet.lookup word).operation = operation
  rw [selected, InstructionSet.operation_describe named.1]

def Word.registerAt (word : Word) (low : Nat) : Register :=
  ⟨word.unsignedAt low 5, Nat.mod_lt _ (by decide)⟩

theorem Instruction.registers_eq (word : Word) :
    Register.ofByte (decode word).rd = word.registerAt 0 ∧
    Register.ofByte (decode word).rj = word.registerAt 5 ∧
    Register.ofByte (decode word).rk = word.registerAt 10 := by
  obtain ⟨rd, rj, rk⟩ := to_nat_registers (decode word).operation (decode word).format word
  have numbered {byte : UInt8} {low : Nat} (read : byte.toNat = word.unsignedAt low 5) :
      Register.ofByte byte = word.registerAt low := by
    apply Fin.ext
    change byte.toNat % 32 = word.unsignedAt low 5
    rw [read]
    exact Nat.mod_mod ..
  refine ⟨numbered ?_, numbered rj, numbered rk⟩
  rw [Word.unsignedAt, Nat.pow_zero, Nat.div_one]
  exact rd

section OfFields

variable (operation : Operation) (format : Format) (word : Word)

theorem Instruction.carries_of_placed {fields : Fields format}
    (placed : word.toNat % 2 ^ format.openBits = fields.placed)
    (hinted : format = .hint16 →
      word.toNat / 2 ^ 15 % 2 = (decide (operation = .instructionBarrier)).toNat) :
    (ofFields operation format word).Carries fields := by
  obtain ⟨rd, rj, rk⟩ := to_nat_registers operation format word
  have signed {width : Nat} {operand : BitVec width} (wide : format.immediateBits = width)
      (held : format.field word = operand.toNat) :
      (ofFields operation format word).immediate.toInt32.toInt = operand.toInt := by
    change (format.immediate word).toInt32.toInt = _
    rw [format.to_int_immediate, held, wide, BitVec.toInt_eq_toNat_bmod]
  cases fields with
  | reg3 =>
    simp only [Fields.placed, Format.openBits] at placed
    exact ⟨by omega, by omega, by omega, rfl⟩
  | reg2Si12 _ _ operand | reg2Ui12 _ _ operand | reg2Si16 _ _ operand | reg2Ui5 _ _ operand =>
    simp only [Fields.placed, Format.openBits] at placed
    refine ⟨by omega, by omega, signed rfl ?_⟩
    simp only [Format.field]
    omega
  | reg1Si20 _ immediate =>
    simp only [Fields.placed, Format.openBits] at placed
    refine ⟨by omega, signed rfl ?_⟩
    simp only [Format.field]
    omega
  | si26 offset =>
    simp only [Fields.placed, Format.openBits] at placed
    refine signed rfl ?_
    have bounded := offset.isLt
    have low : word.toNat / 2 ^ 10 % 2 ^ 16 = offset.toNat % 2 ^ 16 := by
      rw [← Nat.mod_mul_right_div_self, ← Nat.pow_add, placed,
        Nat.add_mul_div_left _ _ (by decide), Nat.div_eq_of_lt (by omega), Nat.zero_add]
    have high : word.toNat % 2 ^ 10 = offset.toNat / 2 ^ 16 := by
      rw [← Nat.mod_mod_of_dvd _ (by decide : 2 ^ 10 ∣ 2 ^ 26), placed, Nat.add_mul_mod_self_left,
        Nat.mod_eq_of_lt (by omega)]
    simp only [Format.field, low, high]
    omega
  | hint16 hint =>
    simp only [Fields.placed, Format.openBits] at placed
    have top := hinted rfl
    have held : Format.field .hint16 word =
        (hint.cons (decide (operation = .instructionBarrier))).toNat := by
      rw [BitVec.toNat_cons', Nat.shiftLeft_eq]
      simp only [Format.field]
      omega
    exact ⟨by omega, signed rfl held⟩
  | bare =>
    simp only [Fields.placed, Format.openBits] at placed
    exact ⟨by omega, rfl⟩

theorem Fields.placed_of_operands :
    let instruction := Instruction.ofFields operation format word
    (Fields.ofOperands instruction.rd instruction.rj instruction.rk instruction.immediate
      format).placed = word.toNat % 2 ^ format.openBits := by
  obtain ⟨rd, rj, rk⟩ := Instruction.to_nat_registers operation format word
  have kept : (Instruction.ofFields operation format word).immediate.toNat %
      2 ^ format.immediateBits = format.field word % 2 ^ format.immediateBits :=
    format.to_nat_immediate_mod word
  cases format with
  | si26 =>
    simp only [Format.immediateBits, Format.field] at kept
    have low : (word.toNat % 2 ^ 10 * 2 ^ 16 + word.toNat / 2 ^ 10 % 2 ^ 16) % 2 ^ 26 % 2 ^ 16 =
        word.toNat / 2 ^ 10 % 2 ^ 16 := by omega
    have high : (word.toNat % 2 ^ 10 * 2 ^ 16 + word.toNat / 2 ^ 10 % 2 ^ 16) % 2 ^ 26 / 2 ^ 16 =
        word.toNat % 2 ^ 10 := by omega
    simp only [ofOperands, placed, Format.openBits, BitVec.toNat_ofNat, kept, low, high]
    omega
  | _ =>
    simp only [ofOperands, placed, Format.openBits, Register.ofByte, BitVec.toNat_ofNat,
      Format.immediateBits, Format.field] at kept ⊢
    omega

end OfFields

section Encode

variable {template : Template} (listed : template ∈ InstructionSet.known)
  (fields : Fields template.format)
include listed

theorem Template.to_nat_encode :
    (template.encode fields).toNat = template.pattern.bits.toNat + fields.placed := by
  obtain ⟨leading, fixed⟩ := (InstructionSet.known_leading template listed).2
  have small : fields.placed < 2 ^ 32 :=
    fields.placed_lt.trans_le (Nat.pow_le_pow_right (by decide) template.format.open_bits_le)
  rw [encode, UInt32.toNat_or, UInt32.toNat_ofNat', Nat.mod_eq_of_lt small, fixed,
    ← Nat.two_pow_add_eq_or_of_lt fields.placed_lt]

theorem Template.to_nat_encode_mod :
    (template.encode fields).toNat % 2 ^ template.format.openBits = fields.placed := by
  obtain ⟨leading, fixed⟩ := (InstructionSet.known_leading template listed).2
  rw [to_nat_encode listed, fixed, Nat.mul_add_mod, Nat.mod_eq_of_lt fields.placed_lt]

theorem Template.accepts_encode : template.pattern.accepts (template.encode fields) = true := by
  have leading := (InstructionSet.known_leading template listed).1
  rw [Pattern.accepts_iff template.format.open_bits_le leading, to_nat_encode_mod listed,
    to_nat_encode listed]

theorem InstructionSet.lookup_encode : lookup (template.encode fields) = template :=
  lookup_of_accepts listed (Template.accepts_encode listed fields)

theorem Instruction.decode_encode :
    (decode (template.encode fields)).operation = template.operation ∧
    (decode (template.encode fields)).format = template.format ∧
    (decode (template.encode fields)).Carries fields := by
  have decoded : decode (template.encode fields) =
      ofFields template.operation template.format (template.encode fields) := by
    rw [decode, InstructionSet.lookup_encode listed]
  rw [decoded]
  refine ⟨rfl, rfl, carries_of_placed _ _ _ (Template.to_nat_encode_mod listed fields) ?_⟩
  -- The top bit of a hint is one of the fixed bits, so it is read off the table.
  intro hint
  have open_bits : template.format.openBits = 15 := by rw [hint]; rfl
  have placed := fields.placed_lt
  have fixed := (InstructionSet.known_leading template listed).2
  rw [open_bits] at placed fixed
  rw [← InstructionSet.known_hint_bit template listed hint, Template.to_nat_encode listed]
  omega

end Encode

theorem Instruction.encode_decode {word : Word} (valid : (decode word).operation ≠ .invalid) :
    (decode word).operation.encode (decode word).fields = word := by
  obtain ⟨listed, accepted⟩ := InstructionSet.lookup_mem_known valid
  have described : InstructionSet.describe (decode word).operation = InstructionSet.lookup word :=
    InstructionSet.describe_known _ listed
  have leading := (InstructionSet.known_leading _ listed).1
  have placed := Fields.placed_of_operands (decode word).operation (InstructionSet.lookup word).format
    word
  have whole := (Pattern.accepts_iff (Format.open_bits_le _) leading word).mp accepted
  unfold Operation.encode fields
  rw [described, ← UInt32.toNat_inj, Template.to_nat_encode listed]
  exact (congrArg _ placed).trans whole.symm

theorem Operation.encode_congr {first second : Operation}
    {left : Fields (InstructionSet.describe first).format}
    {right : Fields (InstructionSet.describe second).format} (same : first = second)
    (equal : HEq left right) : first.encode left = second.encode right := by
  subst same
  rw [eq_of_heq equal]

/-- Decoding and encoding are inverse to each other. -/
theorem Instruction.decode_and_encode_inverse :
    (∀ template ∈ InstructionSet.templates, template ≠ InstructionSet.invalid →
      ∀ fields : Fields template.format,
        let instruction := decode (template.encode fields)
        instruction.operation = template.operation ∧ instruction.format = template.format ∧
          instruction.Carries fields) ∧
    (∀ word, (decode word).operation ≠ .invalid →
      (decode word).operation.encode (decode word).fields = word) ∧
    ∀ first second,
      (decode first).operation ≠ .invalid → (decode second).operation ≠ .invalid →
      (decode first).operation = (decode second).operation →
      HEq (decode first).fields (decode second).fields → first = second := by
  refine ⟨?_, fun word valid => encode_decode valid, ?_⟩
  · intro template listed valid fields
    exact decode_encode (InstructionSet.mem_known template listed valid) fields
  · intro first second firstValid secondValid same equal
    rw [← encode_decode firstValid, ← encode_decode secondValid]
    exact Operation.encode_congr same equal

/-- The call that leads two instructions back: both halves of its offset are filled. -/
theorem Instruction.backward_call_decoded_and_encoded :
    let template := InstructionSet.describe .call
    let word : Word := 0x57FFFBFF
    template ∈ InstructionSet.templates ∧ template ≠ InstructionSet.invalid ∧
    template.encode (.si26 (-2)) = word ∧
    (decode word).operation = .call ∧ (decode word).immediate.toInt32.toInt = -2 ∧
    (decode word).operation.encode (decode word).fields = word := by
  have listed : InstructionSet.describe .call ∈ InstructionSet.templates := by decide
  have other : InstructionSet.describe .call ≠ InstructionSet.invalid := by decide
  have encoded : (InstructionSet.describe .call).encode (.si26 (-2)) = 0x57FFFBFF := by
    decide
  obtain ⟨decodes, encodes, _⟩ := decode_and_encode_inverse
  obtain ⟨operation, _, offset⟩ := decodes _ listed other (.si26 (-2))
  rw [encoded] at operation offset
  refine ⟨listed, other, encoded, operation, offset, encodes _ (by decide)⟩

end LoongArch
