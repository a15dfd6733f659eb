import PegMachine.Proofs.CommandLine.Performance
import PegMachine.Proofs.Text.Truncation
/-!
  Which character a failure is reported at.

  The byte of a failure can be inside a character. The report decodes what stands before the byte and counts, so
  that it counts the character that the byte cuts. What is proved:
    1. `split_at`, `endedBy_split`: every byte of a text is in one character, and as many characters end at or before
       it as stand before this character;
    2. `charIndex_split`: the report counts these, and one more if the byte is not the first of the character;
    3. `reported_character`: both counts at every byte of every text;
    4. `report_of_failure`: the report of a run that fails is made from where it gave up and how far it got.
-/
namespace PegMachine

namespace Text

/-- How many of the characters end at or before a byte. Each ends behind its own bytes and those before them. -/
def endedBy (chars : List Char) (pos : Nat) : Nat :=
  (List.range chars.length).countP fun i => byteLength (chars.take (i + 1)) ≤ pos

variable {before after chars : List Char} {c : Char} {k pos : Nat}

theorem endedBy_cons_of_le (c : Char) (chars : List Char) (h : c.utf8Size ≤ pos) :
    endedBy (c :: chars) pos = endedBy chars (pos - c.utf8Size) + 1 := by
  have shifted (i : Nat) : byteLength ((c :: chars).take (i + 1 + 1)) ≤ pos ↔
      byteLength (chars.take (i + 1)) ≤ pos - c.utf8Size := by
    simp only [byteLength, List.take_succ_cons, List.map_cons, List.sum_cons]
    omega
  have first : byteLength ((c :: chars).take (0 + 1)) ≤ pos := by simpa [byteLength] using h
  rw [endedBy, List.length_cons, List.range_succ_eq_map, List.countP_cons, if_pos (decide_eq_true first),
    List.countP_map, endedBy]
  congr 2
  funext i
  exact decide_eq_decide.2 (shifted i)

theorem endedBy_cons_of_lt (c : Char) (chars : List Char) (h : pos < c.utf8Size) : endedBy (c :: chars) pos = 0 := by
  rw [endedBy, List.countP_eq_zero]
  intro i _
  simp only [byteLength, List.take_succ_cons, List.map_cons, List.sum_cons, decide_eq_true_eq]
  omega

theorem endedBy_append (before chars : List Char) (pos : Nat) :
    endedBy (before ++ chars) (byteLength before + pos) = before.length + endedBy chars pos := by
  induction before with
  | nil => simp [byteLength]
  | cons c before ih =>
    have hbytes : byteLength (c :: before) + pos = c.utf8Size + (byteLength before + pos) := by
      simp [byteLength, Nat.add_assoc]
    rw [hbytes, List.cons_append, endedBy_cons_of_le c _ (Nat.le_add_right ..), Nat.add_sub_cancel_left, ih,
      List.length_cons]
    omega

/-- Up to a byte of a character as many characters have ended as stand before it. -/
theorem endedBy_split (inside : k < c.utf8Size) :
    endedBy (before ++ c :: after) (byteLength before + k) = before.length := by
  rw [endedBy_append, endedBy_cons_of_lt c after inside, Nat.add_zero]

/-- Every byte of a text belongs to one of its characters. -/
theorem split_at (h : pos < byteLength chars) :
    ∃ before c after k, chars = before ++ c :: after ∧ k < c.utf8Size ∧ pos = byteLength before + k := by
  induction chars generalizing pos with
  | nil => exact absurd h (Nat.not_lt_zero pos)
  | cons d chars ih =>
    have hbytes : byteLength (d :: chars) = d.utf8Size + byteLength chars := by simp [byteLength]
    by_cases inside : pos < d.utf8Size
    · exact ⟨[], d, chars, pos, rfl, inside, by simp [byteLength]⟩
    · have further : pos - d.utf8Size < byteLength chars := by omega
      obtain ⟨before, c, after, k, rfl, hk, hpos⟩ := ih further
      refine ⟨d :: before, c, after, k, rfl, hk, ?_⟩
      simp only [byteLength, List.map_cons, List.sum_cons] at hpos ⊢
      omega

end Text

namespace CommandLine

open Text

variable {before after : List Char} {c : Char} {k : Nat}

/-- What stands before a byte of a character is the characters before it, and the bytes of it that are cut off. -/
theorem take_split (inside : k ≤ c.utf8Size) :
    ((before ++ c :: after).flatMap String.utf8EncodeChar).take (byteLength before + k) =
      before.flatMap String.utf8EncodeChar ++ (String.utf8EncodeChar c).take k := by
  rw [List.flatMap_append, ← length_flatMap_utf8EncodeChar, List.take_length_add_append, List.flatMap_cons,
    List.take_append_of_le_length]
  rwa [String.length_utf8EncodeChar]

/-- The report counts the characters that begin before the byte. -/
theorem charIndex_split {text : String} (split : text.toList = before ++ c :: after) (inside : k < c.utf8Size) :
    charIndex (encode text) (byteLength before + k) = before.length + if k = 0 then 0 else 1 := by
  rw [charIndex, encode_eq_flatMap, split, take_split (Nat.le_of_lt inside)]
  by_cases first : k = 0
  · rw [if_pos first, first, List.take_zero, List.append_nil, decodeLossyChars_flatMap, Nat.add_zero]
  · rw [if_neg first, decodeLossyChars_cut before (Nat.pos_of_ne_zero first) inside, List.length_append]
    rfl

theorem charIndex_end (text : String) : charIndex (encode text) (byteLength text.toList) = text.toList.length := by
  rw [charIndex, encode_eq_flatMap, ← length_flatMap_utf8EncodeChar, List.take_length, decodeLossyChars_flatMap]

/-- **A failure at the first byte of a character is reported at this character, and one inside it at the next.** A
    byte of a text is in one of its characters, at the first byte of it or further on, or it is the end. As many
    characters end at or before it as stand before this character, and all of them before the end. The report counts
    as many, but one more if the byte is inside the character. -/
theorem reported_character (text : String) {pos : Nat} (within : pos ≤ (encode text).length) :
    (∃ before c after k, text.toList = before ++ c :: after ∧ k < c.utf8Size ∧ pos = byteLength before + k ∧
      endedBy text.toList pos = before.length ∧
      charIndex (encode text) pos = endedBy text.toList pos + if k = 0 then 0 else 1) ∨
    pos = (encode text).length ∧ endedBy text.toList pos = text.toList.length ∧
      charIndex (encode text) pos = endedBy text.toList pos := by
  have size : (encode text).length = byteLength text.toList := by
    rw [encode_eq_flatMap, length_flatMap_utf8EncodeChar]
  rw [size] at within ⊢
  rcases Nat.lt_or_eq_of_le within with inside | rfl
  · obtain ⟨before, c, after, k, split, hk, rfl⟩ := split_at inside
    have ended : endedBy text.toList (byteLength before + k) = before.length := by
      rw [split]
      exact endedBy_split hk
    exact .inl ⟨before, c, after, k, split, hk, rfl, ended, by rw [charIndex_split split hk, ended]⟩
  · have ended : endedBy text.toList (byteLength text.toList) = text.toList.length := by
      have := endedBy_append text.toList [] 0
      rwa [List.append_nil, Nat.add_zero] at this
    exact .inr ⟨rfl, ended, by rw [charIndex_end, ended]⟩

/-- Characters of one to four bytes, cut in the last one. -/
theorem reported_character_cut : 8 ≤ (encode "aé€😀").length ∧ endedBy "aé€😀".toList 8 = 3 ∧
    charIndex (encode "aé€😀") 8 = 4 ∧ ∃ before c after k, "aé€😀".toList = before ++ c :: after ∧ before.length = 3 ∧
      0 < k ∧ k < c.utf8Size ∧ 8 = byteLength before + k := by
  have within : 8 ≤ (encode "aé€😀").length := by decide +kernel
  have ended : endedBy "aé€😀".toList 8 = 3 := by decide +kernel
  have index : charIndex (encode "aé€😀") 8 = 4 := by decide +kernel
  refine ⟨within, ended, index, ?_⟩
  rcases reported_character "aé€😀" within with ⟨before, c, after, k, split, hk, hpos, place, counted⟩ | ⟨-, -, same⟩
  · rw [ended] at place
    rw [index, ended] at counted
    have inside : k ≠ 0 := by
      rintro rfl
      cases counted
    exact ⟨before, c, after, k, split, place.symm, Nat.pos_of_ne_zero inside, hk, hpos⟩
  · rw [index, ended] at same
    cases same

/-- A run that fails is reported by where it gave up and how far it got. -/
theorem report_of_failure {i : Invocation} {files : Files Id} {bytecode input : Bytes} {loaded : Loaded} {steps : Nat}
    {failure : ParseFailure} {c' : Context} (libraries : Libraries) (readProgram : files.read i.program = .ok bytecode)
    (readInput : files.read i.input = .ok input) (loads : load i.loadOptions bytecode i.start? = .ok loaded)
    (run : (i.context loaded input).run loaded.program steps = some (.failed failure, c')) :
    (i.execute libraries files).report = some (.make i.input input failure) := by
  obtain ⟨r, houtcome, -, printed⟩ := Invocation.perform_of_run libraries loads run
  rw [(execute_shows libraries readProgram readInput).2, printed]
  simp only [Invocation.printRun, houtcome]

/-- A program that takes a byte and gives up, behind an empty header of version 0.1. -/
def givingUpCode : Bytes :=
  [0, 1] ++ toBigEndian 4 0 ++ toBigEndian 4 0 ++ toBigEndian 4 0 ++ toBigEndian 8 3 ++ [0, 10, 8]

def givingUpLoaded : Loaded := ⟨⟨⟨0, 1⟩, "", 0, #[], 3⟩, .ofList [.exit, .any, .fail], 1, 0⟩

def givingUpFiles : Files Id where
  read path := if path = "p.bin" then .ok givingUpCode else .ok (encode "éa")
  create _ _ := .ok ()

def givingUpInvocation : Invocation := ⟨"p.bin", none, false, false, none, false, none, none, .warn, "in.txt"⟩

theorem givingUp_run : ∃ c', (givingUpInvocation.context givingUpLoaded (encode "éa")).run givingUpLoaded.program 2 =
    some (.failed ⟨1, 1⟩, c') := by
  have outcome : ((givingUpInvocation.context givingUpLoaded (encode "éa")).run givingUpLoaded.program 2).map Prod.fst =
      some (.failed ⟨1, 1⟩) := by
    decide +kernel
  obtain ⟨⟨outcome, c'⟩, run, rfl⟩ := Option.map_eq_some_iff.1 outcome
  exact ⟨c', run⟩

/-- The character of the report need not be the one that the byte is in: here the run gives up inside the first
    character, and the report points at the second. -/
theorem reported_next :
    (run givingUpFiles ["-p", "p.bin", "in.txt"]).report =
      some ⟨"in.txt", ['é', 'a'], "parse error at byte 1 (got as far as byte 1)", 1,
        [⟨1, 2, "no alternative matched here"⟩]⟩ ∧
    endedBy "éa".toList 1 = 0 ∧
    ¬ ∀ (text : String) (pos : Nat), pos ≤ (encode text).length →
      charIndex (encode text) pos = endedBy text.toList pos := by
  obtain ⟨c', run⟩ := givingUp_run
  have parsed : Invocation.ofArguments? Libraries.usual.options ["-p", "p.bin", "in.txt"] =
      .ok (some givingUpInvocation) := by
    decide +kernel
  have loads : load givingUpInvocation.loadOptions givingUpCode none = .ok givingUpLoaded := by decide +kernel
  have readProgram : givingUpFiles.read "p.bin" = .ok givingUpCode := rfl
  have readInput : givingUpFiles.read "in.txt" = .ok (encode "éa") := rfl
  refine ⟨?_, by decide, fun always => ?_⟩
  · rw [CommandLine.run, runWith_of_arguments parsed, report_of_failure .usual readProgram readInput loads run]
    decide +kernel
  · have wrong := always "éa" 1 (by decide +kernel)
    exact absurd wrong (by decide +kernel)

end CommandLine

end PegMachine
