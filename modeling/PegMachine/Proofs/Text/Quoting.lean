import Mathlib.Data.List.Induction
import PegMachine.Text.Escaped
/-!
  The quoted form of a byte string is read back.

  A reader takes the form of one byte after the other, up to the quote that ends the text. It can tell the forms
  apart by the backslash and by what comes behind it, whatever the bytes around them are. What is proved:
    1. `isQuotedForm_quotedByte`: a byte has one of three forms;
    2. `readQuoted?_flatMap`: the reader gives back what was quoted, and stops at the quote that ends it;
    3. `split_of_quote`, `even_backslashes`: a quote inside the form belongs to an escape;
    4. `quoted_faithful`: the quoted form is faithful.
-/
namespace PegMachine.Text

/-! ## Reading -/

/-- The value of a hexadecimal digit in upper case. -/
def hexValue? (c : Char) : Option Nat := (List.range 16).find? fun n => hexDigit n == c

/-- The byte that two hexadecimal digits write. -/
def hexEscape? (high low : Char) : Option UInt8 :=
  (hexValue? high).bind fun h => (hexValue? low).map fun l => UInt8.ofNat (16 * h + l)

/-- The byte of a short escape, by the character behind the backslash. -/
def shortEscape? (c : Char) : Option UInt8 := (shortEscapes.find? fun e => e.2 == c).map Prod.fst

/-- Reads behind the first quote of a text: the bytes up to the quote that ends it, and what is behind that. -/
def readQuoted? : List Char → Option (Bytes × List Char)
  | [] => none
  | '"' :: rest => some ([], rest)
  | '\\' :: 'x' :: high :: low :: rest =>
    (hexEscape? high low).bind fun b => (readQuoted? rest).map fun read => (b :: read.1, read.2)
  | '\\' :: c :: rest => (shortEscape? c).bind fun b => (readQuoted? rest).map fun read => (b :: read.1, read.2)
  | c :: rest => (readQuoted? rest).map fun read => (UInt8.ofNat c.toNat :: read.1, read.2)

/-- The bytes that a text between quotes stands for, if it is one. -/
def unquote? (text : String) : Option Bytes :=
  match text.toList with
  | '"' :: rest =>
    match readQuoted? rest with
    | some (bytes, []) => some bytes
    | _ => none
  | _ => none

/-! ## The forms of a byte -/

/-- A character of printable ASCII. -/
def IsVisible (c : Char) : Prop := ' ' ≤ c ∧ c ≤ '~'

instance (c : Char) : Decidable (IsVisible c) := inferInstanceAs (Decidable (_ ∧ _))

/-- The form of a byte: a short escape, the character itself, or an escape with two digits. -/
inductive IsQuotedForm (b : UInt8) : List Char → Prop where
  | short (c : Char) (visible : IsVisible c) (other : c ≠ 'x') (escape : shortEscape? c = some b) :
    IsQuotedForm b ['\\', c]
  | plain (c : Char) (visible : IsVisible c) (noQuote : c ≠ '"') (noBackslash : c ≠ '\\')
    (char : UInt8.ofNat c.toNat = b) : IsQuotedForm b [c]
  | hex : IsQuotedForm b ('\\' :: 'x' :: hexByte b)

theorem isQuotedForm_quotedByte (b : UInt8) : IsQuotedForm b (quotedByte b) := by
  have escapes : ∀ e ∈ shortEscapes, IsVisible e.2 ∧ e.2 ≠ 'x' ∧ shortEscape? e.2 = some e.1 := by decide
  have plain : ∀ b ∈ allBytes, shortEscapes.lookup b = none → isPrintable b = true →
      IsVisible (Char.ofNat b.toNat) ∧ Char.ofNat b.toNat ≠ '"' ∧ Char.ofNat b.toNat ≠ '\\' ∧
        UInt8.ofNat (Char.ofNat b.toNat).toNat = b := by
    decide +kernel
  rw [quotedByte]
  split
  · next c found =>
    obtain ⟨before, after, hescapes, -⟩ := List.lookup_eq_some_iff.1 found
    obtain ⟨visible, other, escape⟩ := escapes (b, c) (by rw [hescapes]; simp)
    exact .short c visible other escape
  · next noEscape =>
    rw [bareByte]
    split
    · next printable =>
      obtain ⟨visible, noQuote, noBackslash, char⟩ := plain b (mem_allBytes b) noEscape printable
      exact .plain _ visible noQuote noBackslash char
    · exact .hex

theorem hexValue?_hexDigit : ∀ n < 16, hexValue? (hexDigit n) = some n := by decide

theorem hexEscape?_hexByte (b : UInt8) :
    hexEscape? (hexDigit (b.toNat / 16)) (hexDigit (b.toNat % 16)) = some b := by
  have hb : b.toNat < 256 := b.toNat_lt
  rw [hexEscape?, hexValue?_hexDigit _ (by omega), hexValue?_hexDigit _ (Nat.mod_lt _ (by decide)), Option.bind_some,
    Option.map_some, Nat.div_add_mod, UInt8.ofNat_toNat]

/-- The reader takes the form of the first byte for this byte. -/
theorem readQuoted?_quotedByte (b : UInt8) (rest : List Char) :
    readQuoted? (quotedByte b ++ rest) = (readQuoted? rest).map fun read => (b :: read.1, read.2) := by
  have form := isQuotedForm_quotedByte b
  generalize quotedByte b = chars at form
  cases form with
  | short c _ other escape => simp [readQuoted?, other, escape]
  | plain c _ noQuote noBackslash char => simp [readQuoted?, noBackslash, char]
  | hex => simp [readQuoted?, hexByte, hexEscape?_hexByte]

theorem readQuoted?_flatMap (bytes : Bytes) (rest : List Char) :
    readQuoted? (bytes.flatMap quotedByte ++ '"' :: rest) = some (bytes, rest) := by
  induction bytes with
  | nil => rfl
  | cons b bytes ih => rw [List.flatMap_cons, List.append_assoc, readQuoted?_quotedByte, ih, Option.map_some]

theorem toList_quoted (bytes : Bytes) : (quoted bytes).toList = '"' :: bytes.flatMap quotedByte ++ ['"'] := by
  rw [quoted, String.toList_ofList, quotedChars]

theorem unquote?_quoted (bytes : Bytes) : unquote? (quoted bytes) = some bytes := by
  have read := readQuoted?_flatMap bytes []
  rw [unquote?, toList_quoted, List.cons_append]
  simp only [read]

/-! ## Quotes inside -/

theorem hexDigit_facts : ∀ n < 16, IsVisible (hexDigit n) ∧ hexDigit n ≠ '"' ∧ hexDigit n ≠ '\\' := by decide

/-- The digits of a byte are visible and no quote, and no backslash. -/
theorem facts_of_mem_hexByte {b : UInt8} {c : Char} (h : c ∈ hexByte b) : IsVisible c ∧ c ≠ '"' ∧ c ≠ '\\' := by
  have hb : b.toNat < 256 := b.toNat_lt
  simp only [hexByte, List.mem_cons, List.not_mem_nil, or_false] at h
  rcases h with rfl | rfl
  · exact hexDigit_facts _ (by omega)
  · exact hexDigit_facts _ (Nat.mod_lt _ (by decide))

theorem isVisible_of_mem_quotedByte {b : UInt8} {c : Char} (h : c ∈ quotedByte b) : IsVisible c := by
  have form := isQuotedForm_quotedByte b
  generalize quotedByte b = chars at form h
  cases form with
  | short d visible =>
    rcases List.mem_cons.1 h with rfl | h
    · decide
    · obtain rfl := List.mem_singleton.1 h
      exact visible
  | plain d visible =>
    obtain rfl := List.mem_singleton.1 h
    exact visible
  | hex =>
    rcases List.mem_cons.1 h with rfl | h
    · decide
    rcases List.mem_cons.1 h with rfl | h
    · decide
    · exact (facts_of_mem_hexByte h).1

/-- Only the form of the quote has a quote in it, behind a backslash. -/
theorem eq_of_quotedByte_eq_append {b : UInt8} {before after : List Char}
    (h : quotedByte b = before ++ '"' :: after) : b = 0x22 ∧ before = ['\\'] ∧ after = [] := by
  have form := isQuotedForm_quotedByte b
  rw [h] at form
  generalize hchars : before ++ '"' :: after = chars at form
  cases form with
  | short c _ _ escape =>
    match before, hchars with
    | [_], hchars =>
      simp only [List.cons_append, List.nil_append, List.cons.injEq] at hchars
      obtain ⟨rfl, rfl, rfl⟩ := hchars
      exact ⟨(Option.some.inj escape).symm, rfl, rfl⟩
    | _ :: _ :: _, hchars => simp at hchars
  | plain c _ noQuote =>
    match before, hchars with
    | [], hchars => exact absurd (List.cons.inj hchars).1.symm noQuote
    | _ :: _, hchars => simp at hchars
  | hex =>
    have quote : '"' ∈ '\\' :: 'x' :: hexByte b := by simp [← hchars]
    have digit : '"' ∈ hexByte b := by simpa using quote
    exact absurd rfl (facts_of_mem_hexByte digit).2.1

/-- A quote inside the form of a byte string is the second half of the form of a quote. -/
theorem split_of_quote {bytes : Bytes} {before after : List Char}
    (h : bytes.flatMap quotedByte = before ++ '"' :: after) :
    ∃ left right, bytes = left ++ 0x22 :: right ∧ before = left.flatMap quotedByte ++ ['\\'] := by
  induction bytes generalizing before with
  | nil => simp at h
  | cons b bytes ih =>
    rw [List.flatMap_cons, List.append_eq_append_iff] at h
    rcases h with ⟨middle, rfl, hrest⟩ | ⟨middle, hfirst, hrest⟩
    · obtain ⟨left, right, rfl, rfl⟩ := ih hrest
      exact ⟨b :: left, right, rfl, by rw [List.flatMap_cons, List.append_assoc]⟩
    · cases middle with
      | nil =>
        have first : bytes.flatMap quotedByte = [] ++ '"' :: after := hrest.symm
        obtain ⟨left, right, rfl, hbefore⟩ := ih first
        exact absurd hbefore (by simp)
      | cons c middle =>
        obtain ⟨rfl, hrest⟩ := List.cons.inj hrest
        obtain ⟨rfl, rfl, rfl⟩ := eq_of_quotedByte_eq_append hfirst
        exact ⟨[], bytes, rfl, rfl⟩

/-- How many backslashes the text ends with. A character behind it is escaped if the number is odd. -/
def backslashesBefore (text : List Char) : Nat := (text.reverse.takeWhile (· = '\\')).length

theorem backslashesBefore_concat (text : List Char) :
    backslashesBefore (text ++ ['\\']) = backslashesBefore text + 1 := by
  simp [backslashesBefore]

theorem backslashesBefore_concat_of_ne (text : List Char) {c : Char} (h : c ≠ '\\') :
    backslashesBefore (text ++ [c]) = 0 := by
  simp [backslashesBefore, h]

/-- No form of a byte leaves a backslash behind that has nothing to escape. -/
theorem even_backslashes (bytes : Bytes) : backslashesBefore (bytes.flatMap quotedByte) % 2 = 0 := by
  induction bytes using List.reverseRecOn with
  | nil => rfl
  | append_singleton bytes b ih =>
    have form := isQuotedForm_quotedByte b
    rw [List.flatMap_append, List.flatMap_singleton]
    generalize quotedByte b = chars at form
    cases form with
    | short c =>
      rw [List.append_cons]
      by_cases backslash : c = '\\'
      · rw [backslash, backslashesBefore_concat, backslashesBefore_concat]
        omega
      · rw [backslashesBefore_concat_of_ne _ backslash]
    | plain c _ _ noBackslash => rw [backslashesBefore_concat_of_ne _ noBackslash]
    | hex =>
      have last := (hexDigit_facts _ (Nat.mod_lt b.toNat (by decide))).2.2
      rw [hexByte, List.append_cons, List.append_cons, List.append_cons, backslashesBefore_concat_of_ne _ last]

/-- **The quoted form is faithful.** It is read back, whatever the bytes are, so no two byte strings have the same
    form. It has nothing but printable ASCII in it and stands between two quotes. A quote in between has an odd
    number of backslashes before it, so it is escaped, and the last quote has an even number, so it is not. -/
theorem quoted_faithful :
    (∀ bytes, unquote? (quoted bytes) = some bytes) ∧
    (∀ bytes bytes', quoted bytes = quoted bytes' ↔ bytes = bytes') ∧
    ∀ bytes, (∀ c ∈ (quoted bytes).toList, IsVisible c) ∧
      ∃ inner, (quoted bytes).toList = '"' :: inner ++ ['"'] ∧ backslashesBefore inner % 2 = 0 ∧
        ∀ before after, inner = before ++ '"' :: after → backslashesBefore before % 2 = 1 := by
  refine ⟨unquote?_quoted, fun bytes bytes' => ⟨fun same => ?_, congrArg quoted⟩, fun bytes => ⟨fun c hc => ?_, ?_⟩⟩
  · have read := unquote?_quoted bytes
    rw [same, unquote?_quoted] at read
    exact (Option.some.inj read).symm
  · rw [toList_quoted, List.cons_append, List.mem_cons, List.mem_append, List.mem_flatMap, List.mem_singleton] at hc
    rcases hc with rfl | ⟨b, -, hc⟩ | rfl
    · decide
    · exact isVisible_of_mem_quotedByte hc
    · decide
  · refine ⟨bytes.flatMap quotedByte, toList_quoted bytes, even_backslashes bytes, fun before after split => ?_⟩
    obtain ⟨left, right, -, rfl⟩ := split_of_quote split
    have even := even_backslashes left
    rw [backslashesBefore_concat]
    omega

/-- A backslash before what looks like an escape of two digits, a quote, a zero byte before a digit, and a byte that
    is not ASCII. -/
def mixedBytes : Bytes := [0x5c, 0x78, 0x30, 0x30, 0x22, 0x00, 0x31, 0xff]

theorem quoted_faithful_mixed :
    quoted mixedBytes = "\"\\\\x00\\\"\\01\\xFF\"" ∧ unquote? "\"\\\\x00\\\"\\01\\xFF\"" = some mixedBytes ∧
    'F' ∈ (quoted mixedBytes).toList ∧ IsVisible 'F' ∧
    ∃ before after, (quoted mixedBytes).toList = '"' :: (before ++ '"' :: after) ++ ['"'] ∧
      backslashesBefore before % 2 = 1 := by
  obtain ⟨readBack, -, shape⟩ := quoted_faithful
  obtain ⟨visible, inner, outer, -, escaped⟩ := shape mixedBytes
  have form : quoted mixedBytes = "\"\\\\x00\\\"\\01\\xFF\"" := by decide
  have last : 'F' ∈ (quoted mixedBytes).toList := by rw [form]; decide
  have shown : (quoted mixedBytes).toList = '"' :: (['\\', '\\', 'x', '0', '0', '\\'] ++
      '"' :: ['\\', '0', '1', '\\', 'x', 'F', 'F']) ++ ['"'] := by
    rw [form]
    decide
  have split := List.append_cancel_right (List.cons.inj (outer.symm.trans shown)).2
  exact ⟨form, form ▸ readBack mixedBytes, last, visible 'F' last, _, _, shown, escaped _ _ split⟩

end PegMachine.Text
