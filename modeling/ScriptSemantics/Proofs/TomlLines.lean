import Mathlib.Data.List.Basic
import Mathlib.Data.List.TakeDrop
import Mathlib.Data.List.TakeWhile
import ScriptSemantics.Toml.Document

/-!
# Plain documents of TOML

A plain document gives a key on each line, written without quotes, and a truth value or a text
without escapes. Such a document is read line by line, and it holds what its lines give.
-/
namespace ScriptSemantics.Toml

namespace Scan

variable {α β : Type} {p : Char → Bool} {cs rest last : List Char}

theorem bind_apply (first : Scan α) (next : α → Scan β) :
    (first >>= next) cs = (first cs).bind fun taken => next taken.1 taken.2 := rfl

theorem pure_apply (a : α) : (pure a : Scan α) cs = some (a, cs) := rfl

theorem orElse_of_none {first second : Scan α} (refuses : first cs = none) :
    (first <|> second) cs = second cs := by
  change (first cs <|> second cs) = _
  rw [refuses]
  rfl

theorem orElse_of_some {first second : Scan α} {taken : α × List Char}
    (takes : first cs = some taken) : (first <|> second) cs = some taken := by
  change (first cs <|> second cs) = _
  rw [takes]
  rfl

theorem char_refuses {c d : Char} (other : c ≠ d) : char d (c :: rest) = none := by
  have refuses : (c == d) = false := by simpa using other
  simp [char, bind_apply, satisfy, refuses]

theorem run_append (all : ∀ c ∈ cs, p c = true) (ends : rest.head?.any p = false) :
    run p (cs ++ rest) = some (cs, rest) := by
  have stops : rest.takeWhile p = [] ∧ rest.dropWhile p = rest := by
    cases rest with
    | nil => exact ⟨rfl, rfl⟩
    | cons c rest =>
      have other : p c = false := ends
      exact ⟨by rw [List.takeWhile_cons, other]; rfl, by rw [List.dropWhile_cons, other]; rfl⟩
  rw [run, List.span_eq_takeWhile_dropWhile, List.takeWhile_append_of_pos all,
    List.dropWhile_append_of_pos all, stops.1, stops.2, List.append_nil]

theorem run1_append (some_char : cs ≠ []) (all : ∀ c ∈ cs, p c = true)
    (ends : rest.head?.any p = false) : run1 p (cs ++ rest) = some (cs, rest) := by
  simp only [run1, bind_apply, run_append all ends, Option.bind_some]
  rw [if_neg (by simpa using some_char)]
  rfl

theorem blanks_eq (ends : cs.head?.any isBlank = false) : blanks cs = some ((), cs) := by
  have taken : run isBlank ([] ++ cs) = some ([], cs) := run_append (by simp) ends
  simp only [List.nil_append] at taken
  simp only [blanks, bind_apply, taken, Option.bind_some]
  rfl

theorem blanks_cons (ends : cs.head?.any isBlank = false) : blanks (' ' :: cs) = some ((), cs) := by
  have taken : run isBlank ([' '] ++ cs) = some ([' '], cs) :=
    run_append (by simp [isBlank]) ends
  simp only [List.cons_append, List.nil_append] at taken
  simp only [blanks, bind_apply, taken, Option.bind_some]
  rfl

/-- What a scanner takes again and again, some character each time, up to where it refuses. -/
inductive Reads (scan : Scan α) : List Char → List α → List Char → Prop where
  | stop {cs : List Char} (refuses : scan cs = none) : Reads scan cs [] cs
  | next {cs rest last : List Char} {a : α} {others : List α} (takes : scan cs = some (a, rest))
      (shorter : rest.length < cs.length) (reads : Reads scan rest others last) :
      Reads scan cs (a :: others) last

theorem Reads.repeatOnto_eq {scan : Scan α} {taken : List α} (reads : Reads scan cs taken last)
    {bound : Nat} (room : cs.length ≤ bound) (before : List α) :
    repeatOnto scan bound before cs = some (taken.reverse ++ before, last) := by
  induction reads generalizing bound before with
  | stop refuses =>
    cases bound with
    | zero => rfl
    | succ bound => simp only [repeatOnto, refuses, List.reverse_nil, List.nil_append]
  | next takes shorter _ ih =>
    cases bound with
    | zero => omega
    | succ bound =>
      simp only [repeatOnto, takes]
      simpa using ih (by omega) (_ :: before)

theorem Reads.many_eq {scan : Scan α} {taken : List α} (reads : Reads scan cs taken last) :
    many scan cs = some (taken, last) := by
  simp [many, reads.repeatOnto_eq le_rfl]

theorem not_isBlank_of_isBareKeyChar {c : Char} (bare : isBareKeyChar c = true) :
    isBlank c = false := by
  refine Bool.eq_false_iff.mpr fun blank => ?_
  rcases (by simpa [isBlank] using blank : c = ' ' ∨ c = '\t') with rfl | rfl
  · exact absurd bare (by decide)
  · exact absurd bare (by decide)

theorem keyPath_bare (some_char : cs ≠ []) (bare : ∀ c ∈ cs, isBareKeyChar c = true) :
    keyPath (cs ++ ' ' :: '=' :: rest) = some (([], String.ofList cs), '=' :: rest) := by
  have front : blanks (cs ++ ' ' :: '=' :: rest) = some ((), cs ++ ' ' :: '=' :: rest) := by
    obtain ⟨c, cs, rfl⟩ := List.exists_cons_of_ne_nil some_char
    exact blanks_eq (not_isBlank_of_isBareKeyChar (bare c (by simp)))
  have key : simpleKey (cs ++ ' ' :: '=' :: rest) =
      some (String.ofList cs, ' ' :: '=' :: rest) := by
    refine orElse_of_some ?_
    rw [bind_apply, run1_append some_char bare rfl]
    rfl
  have back : blanks (' ' :: '=' :: rest) = some ((), '=' :: rest) := blanks_cons rfl
  have first : spacedKey (cs ++ ' ' :: '=' :: rest) = some (String.ofList cs, '=' :: rest) := by
    simp only [spacedKey, bind_apply, front, key, back, Option.bind_some]
    rfl
  have others : many (do char '.'; spacedKey) ('=' :: rest) = some ([], '=' :: rest) :=
    (Reads.stop rfl).many_eq
  simp only [keyPath, bind_apply, first, others, Option.bind_some]
  rfl

/-- Three quotes do not open a text that stands between two. -/
theorem word_refuses_basic (basic : ∀ c ∈ cs, isBasicChar c = true)
    (ends : rest.head? ≠ some '"') : word ['"', '"', '"'] ('"' :: (cs ++ '"' :: rest)) = none := by
  have opened : word ['"', '"', '"'] ('"' :: (cs ++ '"' :: rest)) =
      word ['"', '"'] (cs ++ '"' :: rest) := rfl
  rw [opened]
  cases cs with
  | nil =>
    have again : word ['"', '"'] ('"' :: rest) = word ['"'] rest := rfl
    rw [List.nil_append, again]
    cases rest with
    | nil => rfl
    | cons c rest => rw [word, bind_apply, char_refuses (by simpa using ends), Option.bind_none]
  | cons c cs =>
    have other : c ≠ '"' := by
      rintro rfl
      exact absurd (basic '"' (by simp)) (by decide)
    rw [List.cons_append, word, bind_apply, char_refuses other, Option.bind_none]

/-- A text without quotes and escapes is taken from between its quotes. -/
theorem string_basic (basic : ∀ c ∈ cs, isBasicChar c = true) (ends : rest.head? ≠ some '"') :
    string ('"' :: (cs ++ '"' :: rest)) = some (String.ofList cs, rest) := by
  have long : longString '"' (lineContinuation <|> basicPiece) ('"' :: (cs ++ '"' :: rest)) =
      none := by
    simp only [longString, bind_apply, word_refuses_basic basic ends, Option.bind_none]
  have pieces : ∃ pieces, many basicPiece (cs ++ '"' :: rest) = some (pieces, '"' :: rest) ∧
      pieces.flatten = cs := by
    have stop : Reads basicPiece ('"' :: rest) [] ('"' :: rest) := .stop rfl
    by_cases empty : cs = []
    · subst empty
      exact ⟨[], stop.many_eq, rfl⟩
    · have takes : basicPiece (cs ++ '"' :: rest) = some (cs, '"' :: rest) :=
        orElse_of_some (run1_append empty basic rfl)
      refine ⟨[cs], (Reads.next takes ?_ stop).many_eq, by simp⟩
      simpa using List.length_pos_iff.mpr empty
  obtain ⟨pieces, taken, rfl⟩ := pieces
  have opened : char '"' ('"' :: (pieces.flatten ++ '"' :: rest)) =
      some ((), pieces.flatten ++ '"' :: rest) := rfl
  have closed : char '"' ('"' :: rest) = some ((), rest) := rfl
  have between : basicString ('"' :: (pieces.flatten ++ '"' :: rest)) =
      some (String.ofList pieces.flatten, rest) := by
    simp only [basicString, bind_apply, opened, taken, closed, Option.bind_some]
    rfl
  exact (orElse_of_none long).trans ((orElse_of_none rfl).trans (orElse_of_some between))

/-- What opens neither an array nor a table is no value that holds others. -/
theorem value_eq_atom {c : Char} (noArray : c ≠ '[') (noTable : c ≠ '{') (depth : Nat) :
    value depth (c :: rest) = atom (c :: rest) := by
  cases depth with
  | zero => rfl
  | succ depth =>
    have array : array (value depth) (c :: rest) = none := by
      simp only [array, bind_apply, char_refuses noArray, Option.bind_none]
    have table : inlineTable (value depth) (c :: rest) = none := by
      simp only [inlineTable, bind_apply, char_refuses noTable, Option.bind_none]
    exact (orElse_of_none array).trans (orElse_of_none table)

end Scan

/-- A character that stands for itself between quotes. -/
def PlainChar (c : Char) : Prop := ' ' ≤ c ∧ c ≠ '"' ∧ c ≠ '\\' ∧ c ≠ '\x7f'

instance (c : Char) : Decidable (PlainChar c) := inferInstanceAs (Decidable (_ ∧ _))

theorem PlainChar.isBasicChar {c : Char} (plain : PlainChar c) : Scan.isBasicChar c = true := by
  obtain ⟨visible, quote, backslash, delete⟩ := plain
  have place : c.toNat ≠ 127 := fun same => delete (Char.ext (UInt32.toNat_inj.mp same))
  have around : c ≤ '~' ∨ '\x80' ≤ c := by
    simp only [Char.le_def, UInt32.le_iff_toNat_le]
    change c.toNat ≤ 126 ∨ 128 ≤ c.toNat
    omega
  rcases around with low | high
  · simp [Scan.isBasicChar, visible, low, quote, backslash]
  · simp [Scan.isBasicChar, Scan.isBeyondAscii, high]

/-- How a truth value or a text is written. -/
inductive Item.Plain : Item → String → Prop where
  | boolean (value : Bool) : Plain (.boolean value) (toString value)
  | string {text : String} (plain : ∀ c ∈ text.toList, PlainChar c) :
      Plain (.string text) ("\"" ++ text ++ "\"")

theorem Item.Plain.read {item : Item} {written : String} (plain : item.Plain written)
    (rest : List Char) :
    Scan.value 79 (written.toList ++ '\n' :: rest) = some (item, '\n' :: rest) := by
  cases plain with
  | boolean value => cases value <;> rfl
  | @string text plain =>
    have chars : ("\"" ++ text ++ "\"").toList ++ '\n' :: rest =
        '"' :: (text.toList ++ '"' :: '\n' :: rest) := by simp
    have taken := @Scan.string_basic text.toList ('\n' :: rest)
      (fun c member => (plain c member).isBasicChar) (by simp)
    rw [chars, Scan.value_eq_atom (by decide) (by decide)]
    refine Scan.orElse_of_some ?_
    rw [Scan.bind_apply, taken, String.ofList_toList]
    rfl

theorem Item.Plain.not_isBlank {item : Item} {written : String} (plain : item.Plain written)
    (rest : List Char) : (written.toList ++ rest).head?.any Scan.isBlank = false := by
  cases plain with
  | boolean value => cases value <;> rfl
  | string => simp [Scan.isBlank]

/-- A line that gives a key a value. -/
structure PlainLine where
  key : String
  item : Item
  written : String
  some_char : key ≠ ""
  bare : ∀ c ∈ key.toList, Scan.isBareKeyChar c = true
  plain : item.Plain written

namespace PlainLine

def text (line : PlainLine) : String := line.key ++ " = " ++ line.written ++ "\n"

def entry (line : PlainLine) : String × Item := (line.key, line.item)

variable {line : PlainLine} {rest : List Char}

theorem exists_cons (line : PlainLine) : ∃ c cs, line.text.toList = c :: cs ∧
    Scan.isBareKeyChar c = true := by
  obtain ⟨c, cs, chars⟩ := List.exists_cons_of_ne_nil
    (fun empty => line.some_char (String.toList_eq_nil_iff.mp empty))
  refine ⟨c, cs ++ (" = " ++ line.written ++ "\n").toList, ?_, line.bare c (by simp [chars])⟩
  simp [text, chars]

theorem chars (line : PlainLine) (rest : List Char) : line.text.toList ++ rest =
    line.key.toList ++ ' ' :: '=' :: ' ' :: (line.written.toList ++ '\n' :: rest) := by
  simp [text]

theorem statement_eq {c : Char} (bare : Scan.isBareKeyChar c = true) (cs : List Char) :
    Scan.statement (c :: cs) = (do
      let statement ← Scan.assignLine
      Scan.blanks
      pure statement : Scan Statement) (c :: cs) := by
  have other (d : Char) (special : Scan.isBareKeyChar d = false) : c ≠ d := by
    rintro rfl
    rw [bare] at special
    cases special
  have blank : Scan.blankLine (c :: cs) = none := by
    have comment : (do Scan.comment; Scan.lineEnd : Scan Unit) (c :: cs) = none := by
      simp only [Scan.comment, Scan.bind_apply, Scan.char_refuses (other '#' (by decide)),
        Option.bind_none]
    have newline : Scan.newline (c :: cs) = none := by
      refine (Scan.orElse_of_none ?_).trans ?_
      · rw [Scan.word, Scan.bind_apply, Scan.char_refuses (other '\n' (by decide)),
          Option.bind_none]
      · rw [Scan.word, Scan.bind_apply, Scan.char_refuses (other '\r' (by decide)),
          Option.bind_none]
    rw [Scan.blankLine, Scan.bind_apply, Scan.orElse_of_none comment, newline, Option.bind_none]
  have bracket := @Scan.char_refuses cs _ _ (other '[' (by decide))
  have repeatedHeader : Scan.repeatedHeaderLine (c :: cs) = none := by
    rw [Scan.repeatedHeaderLine, Scan.bind_apply, Scan.word, Scan.bind_apply, bracket,
      Option.bind_none, Option.bind_none]
  have header : Scan.headerLine (c :: cs) = none := by
    rw [Scan.headerLine, Scan.bind_apply, bracket, Option.bind_none]
  rw [Scan.statement, Scan.bind_apply, Scan.bind_apply, Scan.orElse_of_none blank,
    Scan.orElse_of_none repeatedHeader, Scan.orElse_of_none header]

/-- A line is taken as a statement, if the next line does not begin with a blank. -/
theorem read (line : PlainLine) (ends : rest.head?.any Scan.isBlank = false) :
    Scan.statement (line.text.toList ++ rest) = some (.assign [] line.key line.item, rest) := by
  have some_char : line.key.toList ≠ [] := fun empty =>
    line.some_char (String.toList_eq_nil_iff.mp empty)
  have key : Scan.keyPath (line.text.toList ++ rest) =
      some (([], line.key), '=' :: ' ' :: (line.written.toList ++ '\n' :: rest)) := by
    rw [line.chars, Scan.keyPath_bare some_char line.bare, String.ofList_toList]
  have equals : Scan.char '=' ('=' :: ' ' :: (line.written.toList ++ '\n' :: rest)) =
      some ((), ' ' :: (line.written.toList ++ '\n' :: rest)) := rfl
  have blank : Scan.blanks (' ' :: (line.written.toList ++ '\n' :: rest)) =
      some ((), line.written.toList ++ '\n' :: rest) :=
    Scan.blanks_cons (line.plain.not_isBlank _)
  have lineRest : Scan.lineRest ('\n' :: rest) = some ((), rest) := rfl
  have assignment : Scan.assignLine (line.text.toList ++ rest) =
      some (.assign [] line.key line.item, rest) := by
    simp only [Scan.assignLine, Scan.assignment, Scan.bind_apply, Scan.pure_apply, key, equals,
      blank, line.plain.read rest, lineRest, Option.bind_some]
  obtain ⟨c, cs, chars, bare⟩ := line.exists_cons
  rw [chars, List.cons_append, statement_eq bare, ← List.cons_append, ← chars, Scan.bind_apply,
    assignment, Option.bind_some, Scan.bind_apply, Scan.blanks_eq ends]
  rfl

end PlainLine

def plainText (lines : List PlainLine) : String := String.join (lines.map PlainLine.text)

theorem toList_plainText (line : PlainLine) (lines : List PlainLine) :
    (plainText (line :: lines)).toList = line.text.toList ++ (plainText lines).toList := by
  simp [plainText]

theorem head_plainText (lines : List PlainLine) :
    (plainText lines).toList.head?.any Scan.isBlank = false := by
  cases lines with
  | nil => rfl
  | cons line lines =>
    obtain ⟨c, cs, chars, bare⟩ := line.exists_cons
    rw [toList_plainText, chars]
    exact Scan.not_isBlank_of_isBareKeyChar bare

theorem reads_plainText (lines : List PlainLine) : Scan.Reads Scan.statement
    (plainText lines).toList (lines.map fun line => .assign [] line.key line.item) [] := by
  induction lines with
  | nil => exact .stop rfl
  | cons line lines ih =>
    rw [toList_plainText]
    refine .next (line.read (head_plainText lines)) ?_ ih
    obtain ⟨c, cs, chars, -⟩ := line.exists_cons
    rw [chars, List.length_append, List.length_cons]
    omega

theorem document_plainText (lines : List PlainLine) : Scan.document (plainText lines).toList =
    some (lines.map fun line => .assign [] line.key line.item, []) := by
  have mark : Scan.maybe (Scan.char '\ufeff') (plainText lines).toList =
      some (none, (plainText lines).toList) := by
    cases lines with
    | nil => rfl
    | cons line lines =>
      obtain ⟨c, cs, chars, bare⟩ := line.exists_cons
      have other : c ≠ '\ufeff' := by
        rintro rfl
        exact absurd bare (by decide)
      simp only [toList_plainText, chars, List.cons_append, Scan.maybe, Scan.char_refuses other]
  have atEnd : Scan.atEnd [] = some ((), []) := rfl
  simp only [Scan.document, Scan.bind_apply, mark, Scan.blanks_eq (head_plainText lines),
    (reads_plainText lines).many_eq, Option.bind_some, atEnd]
  rfl

/-- Lines add their entries, as long as no key is given twice. -/
theorem execute_plain (lines : List PlainLine) {entries : Entries}
    (apart : (entries.map Prod.fst ++ lines.map PlainLine.key).Nodup) :
    (lines.map fun line => Statement.assign [] line.key line.item).foldlM Document.execute?
      ⟨entries, []⟩ = some ⟨entries ++ lines.map PlainLine.entry, []⟩ := by
  induction lines generalizing entries with
  | nil => simp
  | cons line lines ih =>
    have new : entries.get? line.key = none := by
      rw [Entries.get?, List.lookup_eq_none_iff]
      intro entry member
      have listed : entry.1 ∈ entries.map Prod.fst := List.mem_map_of_mem member
      have other := (List.nodup_append.mp apart).2.2 _ listed line.key (by simp)
      simpa using fun same : line.key = entry.1 => other same.symm
    have added : Document.execute? ⟨entries, []⟩ (.assign [] line.key line.item) =
        some ⟨entries ++ [line.entry], []⟩ := by
      simp [Document.execute?, Entries.updateUnder?, Entries.addDotted?, Entries.add?, new,
        PlainLine.entry]
    rw [List.map_cons, List.foldlM_cons, added]
    refine (ih ?_).trans (by simp)
    simpa [PlainLine.entry] using apart

/-- A plain document in which no key stands twice holds what its lines give. -/
theorem parse?_plainText {lines : List PlainLine} (apart : (lines.map PlainLine.key).Nodup) :
    parse? (plainText lines) = some (lines.map PlainLine.entry) := by
  have executed := @execute_plain lines [] (by simpa using apart)
  simp only [parse?, document_plainText, Document.empty, executed, Option.bind_some,
    Option.bind_eq_bind, List.nil_append]

end ScriptSemantics.Toml
