import LoongArch.Json.Reader
import LoongArch.Proofs.Numerals
import Mathlib.Tactic.IntervalCases

/-!
# Written JSON is read back

The text of a value leads the reader from any place where a value may stand to the place behind that
value. A number is not finished before the next character, so behind a value the reader may still
hold one; every character that can follow there finishes it first.
-/

set_option autoImplicit false

namespace LoongArch.Json

def named (members : List (String × Json)) : List (Option String × Json) :=
  members.map fun member => (some member.1, member.2)

/-- Values that only consist of what is read back: all numbers are natural and all texts have
characters. -/
inductive Plain : Json → Prop where
  | null : Plain .null
  | bool (value : Bool) : Plain (.bool value)
  | natural (value : Nat) : Plain (.natural value)
  | text (content : String) : Plain (.ofString content)
  | array {items : List Json} (plain : ∀ item ∈ items, Plain item) : Plain (.array items)
  | record {members : List (String × Json)} (plain : ∀ member ∈ members, Plain member.2) :
    Plain (.record members)

namespace Partial

def Awaits (built : Partial) : Prop :=
  built.expected = .value ∨ built.expected = .valueOrEnd

variable {built : Partial} (awaits : built.Awaits)
include awaits

theorem push_scalar (value : Json) :
    built.push (.scalar value) = some (complete built.frames value) := by
  rcases built with ⟨expected, frames⟩
  rcases awaits with rfl | rfl <;> rfl

theorem push_open_array :
    built.push .openArray = some ⟨.valueOrEnd, .array [] :: built.frames⟩ := by
  rcases built with ⟨expected, frames⟩
  rcases awaits with rfl | rfl <;> rfl

theorem push_open_object : built.push .openObject = some ⟨.nameOrEnd, built.frames⟩ := by
  rcases built with ⟨expected, frames⟩
  rcases awaits with rfl | rfl <;> rfl

end Partial

namespace Reader

def scan (reader : Reader) (text : List Char) : Option Reader :=
  text.foldlM push reader

@[simp] theorem scan_nil (reader : Reader) : reader.scan [] = some reader := rfl

@[simp] theorem scan_cons (reader : Reader) (character : Char) (text : List Char) :
    reader.scan (character :: text) = (reader.push character).bind (scan · text) := rfl

theorem scan_append (reader : Reader) (text rest : List Char) :
    reader.scan (text ++ rest) = (reader.scan text).bind (scan · rest) :=
  List.foldlM_append

inductive Settles : Reader → Partial → Prop where
  | none (built : Partial) : Settles ⟨.none, built⟩ built
  | number {part : NumberPart} {written : List Char} {before after : Partial}
      (complete : part.complete = true)
      (pushed : before.push (.scalar (ofNumeral written.reverse)) = some after) :
      Settles ⟨.number part written, before⟩ after

def delimiters : List Char :=
  [',', ']', '\x7d', '\n']

theorem next_delimiter {character : Char} (listed : character ∈ delimiters) (part : NumberPart) :
    part.next? character = none := by
  simp only [delimiters, List.mem_cons, List.not_mem_nil, or_false] at listed
  rcases listed with rfl | rfl | rfl | rfl <;> cases part <;> rfl

/-- A text leads from one place to another. -/
def Leads (text : List Char) (before after : Partial) : Prop :=
  ∃ reader, scan ⟨.none, before⟩ text = some reader ∧ Settles reader after

section Leads

variable {reader : Reader} {before built after : Partial} {text rest : List Char}

theorem Settles.push_eq (settles : Settles reader built) {character : Char}
    (listed : character ∈ delimiters) : reader.push character = between built character := by
  cases settles with
  | none => rfl
  | number complete pushed =>
    simp only [push, next_delimiter listed, complete, if_true, pushed, Option.bind_some]

theorem Settles.value_eq (settles : Settles reader built) : reader.value? = built.value? := by
  cases settles with
  | none => rfl
  | number complete pushed => simp only [value?, complete, if_true, pushed, Option.bind_some]

theorem Leads.of_scan (read : scan ⟨.none, before⟩ text = some ⟨.none, after⟩) :
    Leads text before after :=
  ⟨_, read, .none after⟩

theorem Leads.append_left (leads : Leads rest built after)
    (read : scan ⟨.none, before⟩ text = some ⟨.none, built⟩) :
    Leads (text ++ rest) before after := by
  obtain ⟨reader, remaining, settles⟩ := leads
  exact ⟨reader, by rw [scan_append, read, Option.bind_some, remaining], settles⟩

theorem Leads.append (leads : Leads text before built) {character : Char}
    (listed : character ∈ delimiters) (further : Leads (character :: rest) built after) :
    Leads (text ++ character :: rest) before after := by
  obtain ⟨reader, read, settles⟩ := leads
  obtain ⟨last, remaining, settled⟩ := further
  refine ⟨last, ?_, settled⟩
  rw [scan_append, read, Option.bind_some, scan_cons, settles.push_eq listed]
  exact remaining

end Leads

theorem scan_new_line (depth : Nat) (built : Partial) :
    scan ⟨.none, built⟩ (newLine depth).toList = some ⟨.none, built⟩ := by
  have spaces (count : Nat) :
      scan ⟨.none, built⟩ (List.replicate count ' ') = some ⟨.none, built⟩ := by
    induction count with
    | zero => rfl
    | succ count hypothesis => exact hypothesis
  simp only [newLine, String.toList_append, String.toList_ofList]
  exact spaces (2 * depth)

/-! ## Words and numbers -/

section Scalars

variable {before : Partial} (awaits : before.Awaits)
include awaits

theorem leads_null : Leads "null".toList before (.complete before.frames .null) := by
  apply Leads.of_scan
  show (token before (.scalar .null)).bind some = _
  rw [token, before.push_scalar awaits]
  rfl

theorem leads_bool (value : Bool) :
    Leads (toString value).toList before (.complete before.frames (.bool value)) := by
  apply Leads.of_scan
  have pushed := before.push_scalar awaits (.bool value)
  cases value with
  | true =>
    show (token before (.scalar (.bool true))).bind some = _
    rw [token, pushed]
    rfl
  | false =>
    show (token before (.scalar (.bool false))).bind some = _
    rw [token, pushed]
    rfl

end Scalars

theorem scan_digits {number : Nat} (positive : 0 < number) (built : Partial) :
    scan ⟨.none, built⟩ (Nat.toDigits 10 number) =
      some ⟨.number .integer (Nat.toDigits 10 number).reverse, built⟩ := by
  -- By induction on the number: its last digit stands behind those of a tenth of it.
  induction number using Nat.strongRecOn with
  | ind number hypothesis =>
    by_cases single : number < 10
    · rw [Nat.toDigits_of_lt_base single]
      interval_cases number <;> rfl
    · have last : number % 10 < 10 := Nat.mod_lt _ (by decide)
      have digit : (Nat.digitChar (number % 10)).isDigit = true := by
        generalize number % 10 = digit at last
        interval_cases digit <;> rfl
      rw [Nat.toDigits_of_base_le (by decide) (Nat.le_of_not_lt single), scan_append,
        hypothesis _ (by omega) (by omega)]
      simp [push, NumberPart.next?, digit]

theorem leads_natural {before : Partial} (awaits : before.Awaits) (value : Nat) :
    Leads (Numeral.decimal value).toList before (.complete before.frames (.natural value)) := by
  have numeral : ofNumeral (Nat.toDigits 10 value) = .natural value := by
    rw [ofNumeral, Numeral.append_digits_to_digits (by decide) (by decide)]
  have pushed := before.push_scalar awaits (.natural value)
  rw [Numeral.decimal, String.toList_ofList]
  rcases Nat.eq_zero_or_pos value with rfl | positive
  · exact ⟨_, rfl, .number rfl pushed⟩
  · exact ⟨_, scan_digits positive before, .number rfl (by rwa [List.reverse_reverse, numeral])⟩

/-! ## Texts -/

theorem scan_escape (built : Partial) (codes : List Nat) (character : Char) :
    scan ⟨.text .plain codes, built⟩ (escape character).toList =
      some ⟨.text .plain (character.toNat :: codes), built⟩ := by
  unfold escape
  split
  case h_8 quoted slashed _ _ _ _ _ =>
    split
    next control =>
      have digits : ∀ code < 0x20, (Numeral.hexDigits 4 code).toList =
          ['0', '0', Nat.digitChar (code / 16), Nat.digitChar (code % 16)] := by decide
      have zero : Numeral.digitValue? 16 '0' = some 0 := by decide
      have first := Numeral.digit_value_digit (by decide) (show character.toNat / 16 < 16 by omega)
      have second := Numeral.digit_value_digit (by decide) (show character.toNat % 16 < 16 by omega)
      rw [String.toList_append, digits _ control]
      simp [push, inText, zero, first, second]
      omega
    next printed =>
      simp only [String.toList_singleton, scan_cons, scan_nil, push, inText, if_neg quoted,
        if_neg slashed, if_neg printed, Option.bind_some]
  all_goals rfl

theorem characters_codes (text : List Char) : characters? (text.map Char.toNat) = some text := by
  induction text with
  | nil => rfl
  | cons character text hypothesis =>
    have valid : character.toNat < 0xD800 ∨ 0xDFFF < character.toNat ∧ character.toNat < 0x110000 :=
      character.valid
    have single : ¬(0xD800 ≤ character.toNat ∧ character.toNat ≤ 0xDBFF) := by omega
    have whole : ¬(0xDC00 ≤ character.toNat ∧ character.toNat ≤ 0xDFFF) := by omega
    rw [List.map_cons, characters?.eq_def]
    simp only [if_neg single, if_neg whole, hypothesis, Option.map_some, Char.ofNat_toNat]

theorem scan_escapes (built : Partial) (codes : List Nat) (text : List Char) :
    scan ⟨.text .plain codes, built⟩ (String.join (text.map escape)).toList =
      some ⟨.text .plain ((text.map Char.toNat).reverse ++ codes), built⟩ := by
  induction text generalizing codes with
  | nil => rfl
  | cons character text hypothesis =>
    rw [List.map_cons, String.join_cons, String.toList_append, scan_append, scan_escape,
      Option.bind_some, hypothesis, List.map_cons, List.reverse_cons, List.append_assoc]
    rfl

theorem scan_quote {before after : Partial} {content : String}
    (pushed : before.push (.scalar (.ofString content)) = some after) :
    scan ⟨.none, before⟩ (quote content).toList = some ⟨.none, after⟩ := by
  have closed : inText before .plain (content.toList.map Char.toNat).reverse '"' =
      some ⟨.none, after⟩ := by
    rw [inText, if_pos rfl, List.reverse_reverse, characters_codes, Option.map_some,
      String.ofList_toList, token]
    exact congrArg (Option.map _) pushed
  rw [quote, String.toList_append, String.toList_append, scan_append, scan_append]
  show ((some (Reader.mk (.text .plain []) before)).bind _).bind _ = _
  rw [Option.bind_some, scan_escapes, List.append_nil, Option.bind_some]
  exact (congrArg (Option.bind · _) closed).trans rfl

/-! ## Arrays and objects -/

/-- The places of the reader between two brackets. What has been read there is kept last first. -/
structure Enclosure (Part : Type) (closing : Char) where
  start : Partial
  next : List Part → Partial
  done : List Part → Part → Partial
  finish : List Part → Partial
  comma (before : List Part) (part : Part) :
    scan ⟨.none, done before part⟩ [','] = some ⟨.none, next (part :: before)⟩
  closed (before : List Part) (part : Part) :
    scan ⟨.none, done before part⟩ [closing] = some ⟨.none, finish (part :: before)⟩
  empty : scan ⟨.none, start⟩ [closing] = some ⟨.none, finish []⟩

namespace Enclosure

variable {Part : Type} {closing : Char} (enclosure : Enclosure Part closing)

inductive Takes : List Part → Partial → Prop where
  | start : Takes [] enclosure.start
  | next (before : List Part) : Takes before (enclosure.next before)

variable {enclosure} {written : Part → String} {parts : List Part}

theorem leads_parts (outer inner : Nat) {first : Part} {rest before : List Part} {place : Partial}
    (takes : enclosure.Takes before place)
    (leads : ∀ part ∈ first :: rest, ∀ before place, enclosure.Takes before place →
      Leads (written part).toList place (enclosure.done before part)) :
    Leads
      ((("," ++ newLine inner).intercalate ((first :: rest).map written)).toList ++
        ((newLine outer).toList ++ [closing]))
      place (enclosure.finish ((first :: rest).reverse ++ before)) := by
  -- By induction on the parts behind the first one.
  induction rest generalizing first before place with
  | nil =>
    have ended : scan ⟨.none, enclosure.done before first⟩ ((newLine outer).toList ++ [closing]) =
        some ⟨.none, enclosure.finish (first :: before)⟩ := by
      rw [scan_append, scan_new_line, Option.bind_some, enclosure.closed]
    have line : (newLine outer).toList ++ [closing] =
        '\n' :: (List.replicate (2 * outer) ' ' ++ [closing]) := by
      simp [newLine]
    have read := leads first List.mem_cons_self before place takes
    rw [line] at ended ⊢
    simpa using read.append (by decide) (.of_scan ended)
  | cons second rest hypothesis =>
    have separated : scan ⟨.none, enclosure.done before first⟩ (',' :: (newLine inner).toList) =
        some ⟨.none, enclosure.next (first :: before)⟩ := by
      rw [← List.singleton_append, scan_append, enclosure.comma, Option.bind_some, scan_new_line]
    have read := leads first List.mem_cons_self before place takes
    have remaining := hypothesis (.next (first :: before))
      fun part listed => leads part (List.mem_cons_of_mem _ listed)
    have whole := read.append (by decide) (remaining.append_left separated)
    simpa [String.toList_intercalate, List.intercalate_cons_cons] using whole

theorem leads_bracket (written : Part → String) {opening : String} {before : Partial} (depth : Nat)
    (opened : scan ⟨.none, before⟩ opening.toList = some ⟨.none, enclosure.start⟩)
    (leads : ∀ part ∈ parts, ∀ before place, enclosure.Takes before place →
      Leads (written part).toList place (enclosure.done before part)) :
    Leads (bracket opening (String.singleton closing) depth (parts.map written)).toList before
      (enclosure.finish parts.reverse) := by
  cases parts with
  | nil =>
    rw [bracket, List.map_nil, List.isEmpty_nil, if_pos rfl, String.toList_append,
      String.toList_singleton]
    exact .append_left (.of_scan enclosure.empty) opened
  | cons first rest =>
    have inside := leads_parts depth (depth + 1) .start leads
    have entered : scan ⟨.none, before⟩ (opening.toList ++ (newLine (depth + 1)).toList) =
        some ⟨.none, enclosure.start⟩ := by
      rw [scan_append, opened, Option.bind_some, scan_new_line]
    have whole := inside.append_left entered
    simpa [bracket] using whole

end Enclosure

def arrayPlaces (frames : List Frame) : Enclosure Json ']' where
  start := ⟨.valueOrEnd, .array [] :: frames⟩
  next before := ⟨.value, .array before :: frames⟩
  done before item := .complete (.array before :: frames) item
  finish items := .complete frames (.array items.reverse)
  comma _ _ := rfl
  closed _ _ := rfl
  empty := rfl

def objectPlaces (frames : List Frame) : Enclosure (String × Json) '\x7d' where
  start := ⟨.nameOrEnd, frames⟩
  next before := ⟨.name (named before), frames⟩
  done before member := .complete (.object (named before) (some member.1) :: frames) member.2
  finish members := .complete frames (.record members.reverse)
  comma _ _ := rfl
  closed before member := by
    rw [record, List.map_reverse]
    rfl
  empty := rfl

section Items

variable {frames : List Frame} {before : List Json} {place : Partial}

theorem awaits_of_takes (takes : (arrayPlaces frames).Takes before place) : place.Awaits := by
  cases takes
  · exact .inr rfl
  · exact .inl rfl

theorem frames_of_takes (takes : (arrayPlaces frames).Takes before place) :
    place.frames = .array before :: frames := by
  cases takes <;> rfl

end Items

theorem leads_member {frames : List Frame} {before : List (String × Json)} {place : Partial}
    (takes : (objectPlaces frames).Takes before place) (member : String × Json) {text : List Char}
    (leads : ∀ place : Partial, place.Awaits → Leads text place (.complete place.frames member.2)) :
    Leads ((quote member.1 ++ ": ").toList ++ text) place
      ((objectPlaces frames).done before member) := by
  let inside : Partial :=
    ⟨.value, .object (named before) (some member.1) :: frames⟩
  have begun : scan ⟨.none, place⟩ (quote member.1 ++ ": ").toList = some ⟨.none, inside⟩ := by
    have pushed : place.push (.scalar (.ofString member.1)) =
        some ⟨.colon (named before) (some member.1), frames⟩ := by
      cases takes <;> rfl
    rw [String.toList_append, scan_append, scan_quote pushed]
    rfl
  exact (leads inside (.inl rfl)).append_left begun

/-- The text of a plain value is read as that value wherever a value may stand. -/
theorem leads_layout {json : Json} (plain : json.Plain) (depth : Nat) {before : Partial}
    (awaits : before.Awaits) :
    Leads (layout depth json).toList before (.complete before.frames json) := by
  induction plain generalizing depth before with
  | null =>
    rw [layout]
    exact leads_null awaits
  | bool value =>
    have read := leads_bool awaits value
    cases value <;> (rw [layout]; exact read)
  | natural value =>
    rw [layout]
    exact leads_natural awaits value
  | text content =>
    rw [ofString, layout]
    exact .of_scan (scan_quote (before.push_scalar awaits _))
  | @array parts _ hypothesis =>
    have opened :
        scan ⟨.none, before⟩ "[".toList = some ⟨.none, (arrayPlaces before.frames).start⟩ := by
      show (token before .openArray).bind some = _
      rw [token, before.push_open_array awaits]
      rfl
    have read := Enclosure.leads_bracket (layout (depth + 1)) depth opened
      fun item listed before place takes => by
        have entered := hypothesis item listed (depth + 1) (awaits_of_takes takes)
        rwa [frames_of_takes takes] at entered
    rw [layout]
    simpa [arrayPlaces] using read
  | @record parts _ hypothesis =>
    have opened :
        scan ⟨.none, before⟩ "\x7b".toList = some ⟨.none, (objectPlaces before.frames).start⟩ := by
      show (token before .openObject).bind some = _
      rw [token, before.push_open_object awaits]
      rfl
    have read := Enclosure.leads_bracket
      (fun member => quote member.1 ++ ": " ++ layout (depth + 1) member.2) depth opened
      fun member listed before place takes => by
        have entered := leads_member takes member
          fun place awaits => hypothesis member listed (depth + 1) awaits
        rwa [← String.toList_append] at entered
    rw [record, layout, List.map_map]
    simpa [objectPlaces, record, Function.comp_def] using read

end Reader

theorem read_write {json : Json} (plain : json.Plain) : read? json.write = some json := by
  have awaits : Partial.start.Awaits := .inl rfl
  obtain ⟨reader, read, settles⟩ := Reader.leads_layout plain 0 awaits
  have scanned : json.write.toList.foldlM Reader.push Reader.start = some reader := read
  rw [read?, scanned, Option.bind_some, settles.value_eq]
  rfl

end LoongArch.Json
