import Mathlib.Data.List.Basic
import Mathlib.Data.List.TakeDrop
import Mathlib.Data.List.TakeWhile
import ScriptSemantics.Json.Text

/-!
# Written JSON is read back

Every token but a numeral is a fixed text or stands between quotes, so a run of tokens is read back
from its characters as long as no two words touch. A value never writes two words side by side, and
the machine over its tokens comes out with the value again. Numerals are taken to be plain here:
those are the ones that writers of numbers produce.
-/
namespace ScriptSemantics

namespace Numeral

theorem head_toDigits {n : Nat} (positive : 0 < n) : (Nat.toDigits 10 n).head? ≠ some '0' := by
  induction n using Nat.strongRecOn with
  | ind n ih =>
    rw [Nat.toDigits_eq_if (by omega)]
    split
    · simp only [List.head?_cons, ne_eq, Option.some.injEq, Nat.digitChar_eq_zero]
      omega
    · rw [List.head?_append_of_ne_nil _ Nat.toDigits_ne_nil]
      exact ih _ (by omega) (by omega)

/-- A row of digits to the end of the text is taken as a whole. -/
theorem takeDigits_eq_some {digits : List Char} (nonempty : digits ≠ [])
    (decimal : ∀ c ∈ digits, c.isDigit = true) : takeDigits digits = some (digits, []) := by
  have whole : digits.span Char.isDigit = (digits, []) := by
    rw [List.span_eq_takeWhile_dropWhile, List.takeWhile_eq_self_iff.mpr decimal,
      List.dropWhile_eq_nil_iff.mpr decimal]
  unfold takeDigits
  rw [whole]
  cases digits with
  | nil => exact absurd rfl nonempty
  | cons c digits => rfl

theorem takeWhole_toDigits (n : Nat) :
    takeWhole (Nat.toDigits 10 n) = some (Nat.toDigits 10 n, []) := by
  have taken := takeDigits_eq_some Nat.toDigits_ne_nil fun c member =>
    Nat.isDigit_of_mem_toDigits (b := 10) (n := n) (by omega) (by omega) member
  unfold takeWhole
  rw [taken]
  split
  next digit digits rest written =>
    obtain ⟨written, -⟩ := Prod.mk.inj (Option.some.inj written)
    rcases Nat.eq_zero_or_pos n with rfl | positive
    · simp at written
    · exact absurd (by rw [written]; rfl) (head_toDigits positive)
  next => rfl

theorem ofChars?_ofNat (n : Nat) : ofChars? (ofNat n).chars = some (ofNat n) := by
  have digits : (ofNat n).chars = Nat.toDigits 10 n := by simp [chars, ofNat]
  have unsigned : ofUnsigned? false (Nat.toDigits 10 n) = some (ofNat n) := by
    simp [ofUnsigned?, takeWhole_toDigits, takeFraction, takeExponent, ofNat]
  rw [digits]
  unfold ofChars?
  split
  next rest written =>
    have minus := Nat.isDigit_of_mem_toDigits (b := 10) (n := n) (c := '-') (by omega) (by omega)
      (by rw [written]; simp)
    exact absurd minus (by decide)
  next => exact unsigned

end Numeral

namespace JsonToken

/-- The tokens that end only where another token or a blank begins. -/
def isWord : JsonToken → Bool
  | .null | .bool _ | .number _ => true
  | _ => false

/-- A word is legible when its characters are read as that word. -/
structure Legible (token : JsonToken) : Prop where
  some_char : token.chars ≠ []
  unbroken : ∀ c ∈ token.chars, Lexer.endsWord c = false
  read : ofWord? token.chars = some token

theorem legible_null : Legible .null where
  some_char := nofun
  unbroken := by simp [chars, Lexer.endsWord, isBlank, ofMark?]
  read := rfl

theorem legible_bool (value : Bool) : Legible (.bool value) := by
  cases value with
  | false => exact ⟨nofun, by simp [chars, Lexer.endsWord, isBlank, ofMark?], rfl⟩
  | true => exact ⟨nofun, by simp [chars, Lexer.endsWord, isBlank, ofMark?], rfl⟩

theorem endsWord_of_isDigit {c : Char} (digit : c.isDigit = true) : Lexer.endsWord c = false := by
  refine Bool.eq_false_iff.mpr fun ends => ?_
  simp only [Lexer.endsWord, isBlank, Bool.or_eq_true, beq_iff_eq] at ends
  rcases ends with ((((rfl | rfl) | rfl) | rfl) | rfl) | mark
  all_goals try exact absurd digit (by decide)
  unfold ofMark? at mark
  split at mark
  all_goals first | exact absurd digit (by decide) | exact absurd mark (by decide)

theorem legible_ofNat (n : Nat) : Legible (.number (.ofNat n)) := by
  have written : chars (.number (.ofNat n)) = Nat.toDigits 10 n := by
    simp [chars, Numeral.chars, Numeral.ofNat]
  have decimal (c : Char) (member : c ∈ Nat.toDigits 10 n) : c.isDigit = true :=
    Nat.isDigit_of_mem_toDigits (by omega) (by omega) member
  refine ⟨by rw [written]; exact Nat.toDigits_ne_nil, fun c member => ?_, ?_⟩
  · exact endsWord_of_isDigit (decimal c (by rwa [written] at member))
  · -- the keywords begin with a letter, so the digits fall to the numerals
    have first (c : Char) (cs : List Char) (letter : c.isDigit = false) :
        Nat.toDigits 10 n ≠ c :: cs := by
      intro word
      rw [decimal c (by rw [word]; simp)] at letter
      cases letter
    rw [written]
    unfold ofWord?
    split
    next word => exact absurd word (first _ _ (by decide))
    next word => exact absurd word (first _ _ (by decide))
    next word => exact absurd word (first _ _ (by decide))
    next =>
      have read := Numeral.ofChars?_ofNat n
      rw [show (Numeral.ofNat n).chars = Nat.toDigits 10 n from written] at read
      simp [read]

theorem hexValue?_hexDigit {n : Nat} (small : n < 16) : hexValue? (hexDigit n) = some n := by
  have all : ∀ n : Fin 16, hexValue? (hexDigit n) = some n.val := by decide
  exact all ⟨n, small⟩

/-- The letter that a character is written by names that character. -/
theorem escapedChar?_of_escapeLetter? {c letter : Char} (named : escapeLetter? c = some letter) :
    letter ≠ 'u' ∧ escapedChar? letter = some c := by
  unfold escapeLetter? at named
  split at named
  all_goals first
    | (cases named; decide)
    | cases named

namespace Lexer

/-- The tokens that a lexer ends with after some more characters. -/
def readFrom (lexer : Lexer) (cs : List Char) : Option (List JsonToken) :=
  cs.foldlM take lexer >>= finish

theorem readFrom_cons (lexer : Lexer) (c : Char) (cs : List Char) :
    lexer.readFrom (c :: cs) = lexer.take c >>= fun next => next.readFrom cs := by
  simp [readFrom, Option.bind_assoc]

/-- A character of a string is read back from its spelling, whichever of the three it has. -/
theorem readFrom_escapeChar {spelling : Spelling} (tokens : List JsonToken) (c : Char)
    (rest : List Char) : readFrom ⟨.inString spelling, tokens⟩ (escapeChar c ++ rest) =
      readFrom ⟨.inString (spelling.addChar c), tokens⟩ rest := by
  unfold escapeChar
  split
  next letter named =>
    obtain ⟨notUnit, escaped⟩ := escapedChar?_of_escapeLetter? named
    simp [readFrom_cons, take, notUnit, escaped]
  next unnamed =>
    have notQuote : c ≠ '"' := by
      rintro rfl
      simp [escapeLetter?] at unnamed
    have notSlash : c ≠ '\\' := by
      rintro rfl
      simp [escapeLetter?] at unnamed
    split
    next low =>
      have small : c.toNat < 32 := low
      have value : (c.toNat / 16) * 16 + c.toNat % 16 = c.toNat := by omega
      have high := hexValue?_hexDigit (n := c.toNat / 16) (by omega)
      have units := hexValue?_hexDigit (n := c.toNat % 16) (by omega)
      have zero : hexValue? '0' = some 0 := by decide
      have added : spelling.addUnit c.toNat = spelling.addChar c := by
        have notLow : ¬ (0xDC00 ≤ c.toNat ∧ c.toNat < 0xE000) := by omega
        have notHigh : ¬ (0xD800 ≤ c.toNat ∧ c.toNat < 0xDC00) := by omega
        rw [Spelling.addUnit, if_neg notLow, if_neg notHigh, Char.ofNat_toNat]
      simp [readFrom_cons, take, high, units, zero, value, added]
    next notLow => simp [readFrom_cons, take, notQuote, notSlash, notLow]

/-- The inside of a string is read back as its characters, latest first. -/
theorem readFrom_escaped (tokens : List JsonToken) (text read : List Char) (rest : List Char) :
    readFrom ⟨.inString ⟨read, none, false⟩, tokens⟩ (text.flatMap escapeChar ++ rest) =
      readFrom ⟨.inString ⟨text.reverse ++ read, none, false⟩, tokens⟩ rest := by
  induction text generalizing read with
  | nil => rfl
  | cons c text ih =>
    have added : Spelling.addChar ⟨read, none, false⟩ c = ⟨c :: read, none, false⟩ := rfl
    rw [List.flatMap_cons, List.append_assoc, readFrom_escapeChar, added, ih]
    simp

/-- A string is read back, also one that names no text. -/
theorem readFrom_stringChars (tokens : List JsonToken) (text : Option String) (rest : List Char) :
    readFrom ⟨.between, tokens⟩ (stringChars text ++ rest) =
      readFrom ⟨.between, .string text :: tokens⟩ rest := by
  have opened (cs : List Char) : readFrom ⟨.between, tokens⟩ ('"' :: cs) =
      readFrom ⟨.inString .empty, tokens⟩ cs := by
    simp [readFrom_cons, take, takeBetween, isBlank]
  cases text with
  | some text =>
    have closed : readFrom ⟨.inString ⟨text.toList.reverse ++ [], none, false⟩, tokens⟩
        ('"' :: rest) = readFrom ⟨.between, .string (some text) :: tokens⟩ rest := by
      simp [readFrom_cons, take, Spelling.text?]
    simp only [stringChars, List.cons_append, List.append_assoc, opened, Spelling.empty]
    rw [readFrom_escaped]
    exact closed
  | none =>
    have digits : hexValue? 'd' = some 13 ∧ hexValue? '8' = some 8 ∧ hexValue? '0' = some 0 := by
      decide
    simp [stringChars, opened, readFrom_cons, take, digits, Spelling.empty, Spelling.addUnit,
      Spelling.text?]

theorem readFrom_gathering {cs : List Char} (unbroken : ∀ c ∈ cs, endsWord c = false)
    (tokens : List JsonToken) (word rest : List Char) :
    readFrom ⟨.word word, tokens⟩ (cs ++ rest) =
      readFrom ⟨.word (cs.reverse ++ word), tokens⟩ rest := by
  induction cs generalizing word with
  | nil => rfl
  | cons c cs ih =>
    rw [List.cons_append, readFrom_cons]
    simp only [take, unbroken c (by simp), Bool.false_eq_true, if_false, Option.bind_eq_bind,
      Option.bind_some]
    rw [ih fun d member => unbroken d (by simp [member])]
    simp

theorem takeBetween_word {c : Char} (unbroken : endsWord c = false) (tokens : List JsonToken) :
    takeBetween tokens c = ⟨.word [c], tokens⟩ := by
  simp only [endsWord, Bool.or_eq_false_iff, beq_eq_false_iff_ne, Option.isSome_eq_false_iff,
    Option.isNone_iff_eq_none] at unbroken
  simp [takeBetween, unbroken]

/-- A word is complete at the end of the text and before a character that ends it. -/
theorem readFrom_completed {word : List Char} {token : JsonToken} (tokens : List JsonToken)
    {rest : List Char} (read : ofWord? word.reverse = some token)
    (ends : ∀ c ∈ rest.head?, endsWord c = true) :
    readFrom ⟨.word word, tokens⟩ rest = readFrom ⟨.between, token :: tokens⟩ rest := by
  cases rest with
  | nil => simp [readFrom, finish, read]
  | cons c rest => simp [readFrom_cons, take, ends c rfl, read]

/-- A legible word is read back before anything that ends it. -/
theorem readFrom_word {token : JsonToken} (legible : token.Legible) (tokens : List JsonToken)
    {rest : List Char} (ends : ∀ c ∈ rest.head?, endsWord c = true) :
    readFrom ⟨.between, tokens⟩ (token.chars ++ rest) =
      readFrom ⟨.between, token :: tokens⟩ rest := by
  obtain ⟨c, cs, written⟩ := List.exists_cons_of_ne_nil legible.some_char
  have unbroken := legible.unbroken
  have read := legible.read
  rw [written] at unbroken read ⊢
  rw [List.cons_append, readFrom_cons]
  simp only [take, takeBetween_word (unbroken c (by simp)), Option.bind_eq_bind, Option.bind_some]
  rw [readFrom_gathering fun d member => unbroken d (by simp [member])]
  exact readFrom_completed tokens (by simpa using read) ends

theorem readFrom_closed {token : JsonToken} (closed : token.isWord = false)
    (tokens : List JsonToken) (rest : List Char) :
    readFrom ⟨.between, tokens⟩ (token.chars ++ rest) =
      readFrom ⟨.between, token :: tokens⟩ rest := by
  cases token with
  | string text => exact readFrom_stringChars tokens text rest
  | null | bool | number => simp [isWord] at closed
  | _ => simp [chars, readFrom_cons, take, takeBetween, isBlank, ofMark?]

end Lexer

/-- Every word among the tokens is legible and no other word follows it at once. -/
def Readable : List JsonToken → Prop
  | [] => True
  | token :: tokens =>
    (token.isWord = true → token.Legible ∧ ∀ next ∈ tokens.head?, next.isWord = false) ∧
      Readable tokens

/-- Where no word comes first, the characters begin with one that ends a word before them. -/
theorem endsWord_of_head {tokens : List JsonToken}
    (closed : ∀ next ∈ tokens.head?, next.isWord = false) :
    ∀ c ∈ (tokens.flatMap chars).head?, Lexer.endsWord c = true := by
  cases tokens with
  | nil => simp
  | cons token tokens =>
    have first : ∃ c cs, token.chars = c :: cs ∧ Lexer.endsWord c = true := by
      have closed := closed token rfl
      cases token with
      | string text => cases text <;> exact ⟨_, _, rfl, by decide⟩
      | null | bool | number => simp [isWord] at closed
      | _ => exact ⟨_, _, rfl, by decide⟩
    obtain ⟨c, cs, written, ends⟩ := first
    simp [written, ends]

/-- Tokens of which no two words touch are read back from their characters. -/
theorem readFrom_chars {tokens : List JsonToken} (readable : Readable tokens)
    (read : List JsonToken) :
    Lexer.readFrom ⟨.between, read⟩ (tokens.flatMap chars) = some (read.reverse ++ tokens) := by
  induction tokens generalizing read with
  | nil => simp [Lexer.readFrom, Lexer.finish]
  | cons token tokens ih =>
    have next : Lexer.readFrom ⟨.between, read⟩ (token.chars ++ tokens.flatMap chars) =
        Lexer.readFrom ⟨.between, token :: read⟩ (tokens.flatMap chars) := by
      cases word : token.isWord with
      | true =>
        obtain ⟨legible, closed⟩ := readable.1 word
        exact Lexer.readFrom_word legible read (endsWord_of_head closed)
      | false => exact Lexer.readFrom_closed word read _
    rw [List.flatMap_cons, next, ih readable.2]
    simp

theorem ofText?_chars {tokens : List JsonToken} (readable : Readable tokens) :
    ofText? (String.ofList (tokens.flatMap chars)) = some tokens := by
  have read := readFrom_chars readable []
  simpa [ofText?, Lexer.readFrom, Lexer.start] using read

end JsonToken

namespace Json

/-- A value all of whose numbers are plain. -/
inductive Plain : Json → Prop
  | null : Plain .null
  | bool (value : Bool) : Plain (.bool value)
  | number (n : Nat) : Plain (.ofNat n)
  | string (text : Option String) : Plain (.string text)
  | array {items : List Json} : (∀ item ∈ items, Plain item) → Plain (.array items)
  | object {members : Members} : (∀ m ∈ members, Plain m.2) → Plain (.object members)

theorem Plain.ofList {α : Type} {write : α → Json} {items : List α}
    (each : ∀ a ∈ items, (write a).Plain) : (Json.ofList write items).Plain := by
  refine .array fun item member => ?_
  obtain ⟨a, listed, rfl⟩ := List.mem_map.mp member
  exact each a listed

theorem Plain.record {members : List (String × Json)} (each : ∀ m ∈ members, m.2.Plain) :
    (Json.record members).Plain := by
  refine .object fun m member => ?_
  obtain ⟨m, listed, rfl⟩ := List.mem_map.mp member
  exact each m listed

open JsonToken (Readable)

/-- Tokens that may stand behind any value: they are readable and begin with no word. -/
def Closing (tokens : List JsonToken) : Prop :=
  Readable tokens ∧ ∀ next ∈ tokens.head?, next.isWord = false

/-- A mark or a string may stand behind any value, whatever readable follows it. -/
theorem closing_cons {token : JsonToken} {tokens : List JsonToken} (closed : token.isWord = false)
    (readable : Readable tokens) : Closing (token :: tokens) := by
  refine ⟨⟨fun word => ?_, readable⟩, by simpa using closed⟩
  rw [closed] at word
  cases word

theorem readable_cons {token : JsonToken} {tokens : List JsonToken} (closed : token.isWord = false)
    (readable : Readable tokens) : Readable (token :: tokens) := (closing_cons closed readable).1

/-- What may stand behind an array may stand behind its first items, after the others. -/
theorem closing_itemsOnto {rest : List JsonToken} (closing : Closing rest) {items : List Json}
    (readable : ∀ item ∈ items, ∀ {rest : List JsonToken},
      Closing rest → Readable (tokensOnto rest item)) : Closing (itemsOnto rest items) := by
  induction items with
  | nil => exact closing_cons rfl closing.1
  | cons item items ih =>
    have others := ih fun other member => readable other (by simp [member])
    exact closing_cons rfl (readable item (by simp) others)

theorem closing_membersOnto {rest : List JsonToken} (closing : Closing rest) {members : Members}
    (readable : ∀ m ∈ members, ∀ {rest : List JsonToken},
      Closing rest → Readable (tokensOnto rest m.2)) : Closing (membersOnto rest members) := by
  induction members with
  | nil => exact closing_cons rfl closing.1
  | cons m members ih =>
    have others := ih fun other member => readable other (by simp [member])
    exact closing_cons rfl (readable_cons rfl (readable_cons rfl (readable m (by simp) others)))

/-- The tokens of a value are readable before any that may stand behind it. -/
theorem Plain.readable {json : Json} (plain : json.Plain) {rest : List JsonToken}
    (closing : Closing rest) : Readable (tokensOnto rest json) := by
  induction plain generalizing rest with
  | null => exact ⟨fun _ => ⟨JsonToken.legible_null, closing.2⟩, closing.1⟩
  | bool value => exact ⟨fun _ => ⟨JsonToken.legible_bool value, closing.2⟩, closing.1⟩
  | number n => exact ⟨fun _ => ⟨JsonToken.legible_ofNat n, closing.2⟩, closing.1⟩
  | string text => exact readable_cons rfl closing.1
  | @array items _ ih =>
    cases items with
    | nil => exact readable_cons rfl (readable_cons rfl closing.1)
    | cons item items =>
      have others : Closing (itemsOnto rest items) :=
        closing_itemsOnto closing fun other member => ih other (by simp [member])
      exact readable_cons rfl (ih item (by simp) others)
  | @object members _ ih =>
    cases members with
    | nil => exact readable_cons rfl (readable_cons rfl closing.1)
    | cons m members =>
      have others : Closing (membersOnto rest members) :=
        closing_membersOnto closing fun other member => ih other (by simp [member])
      exact readable_cons rfl (readable_cons rfl (readable_cons rfl (ih m (by simp) others)))

/-- What the machine reads from some tokens on. -/
def readFrom (reader : Reader) (tokens : List JsonToken) : Option Json :=
  tokens.foldlM Reader.take reader >>= Reader.finish

theorem readFrom_cons (reader : Reader) (token : JsonToken) (tokens : List JsonToken) :
    readFrom reader (token :: tokens) = reader.take token >>= fun next => readFrom next tokens := by
  simp [readFrom, Option.bind_assoc]

/-- A value comes first in an array as it does anywhere: it does not begin with the end. -/
theorem Plain.readFrom_first {json : Json} (plain : json.Plain) (rest : List JsonToken)
    (frames : List Frame) : readFrom (.atFirstItem frames) (tokensOnto rest json) =
      readFrom (.atValue (.array [] :: frames)) (tokensOnto rest json) := by
  cases plain with
  | @array items => cases items <;> rfl
  | @object members => cases members <;> rfl
  | _ => rfl

/-- Behind an item, the machine reads the others of the array if it reads each of them. -/
theorem readFrom_itemsOnto {items : List Json}
    (read : ∀ item ∈ items, ∀ (rest : List JsonToken) (frames : List Frame),
      readFrom (.atValue frames) (tokensOnto rest item) = readFrom (.after item frames) rest)
    (rest : List JsonToken) (frames : List Frame) (before : List Json) (last : Json) :
    readFrom (.after last (.array before :: frames)) (itemsOnto rest items) =
      readFrom (.after (.array ((last :: before).reverse ++ items)) frames) rest := by
  induction items generalizing before last with
  | nil => simp [itemsOnto, readFrom_cons, Reader.take]
  | cons item items ih =>
    have others := ih (fun other member => read other (by simp [member])) (last :: before) item
    simp only [itemsOnto, readFrom_cons, Reader.take, Option.bind_eq_bind, Option.bind_some]
    rw [read item (by simp), others]
    simp

theorem readFrom_membersOnto {members : Members}
    (read : ∀ m ∈ members, ∀ (rest : List JsonToken) (frames : List Frame),
      readFrom (.atValue frames) (tokensOnto rest m.2) = readFrom (.after m.2 frames) rest)
    (rest : List JsonToken) (frames : List Frame) (before : Members)
    (last : Option String × Json) :
    readFrom (.after last.2 (.object before last.1 :: frames)) (membersOnto rest members) =
      readFrom (.after (.object ((last :: before).reverse ++ members)) frames) rest := by
  induction members generalizing before last with
  | nil => simp [membersOnto, readFrom_cons, Reader.take]
  | cons m members ih =>
    have others := ih (fun other member => read other (by simp [member])) (last :: before) m
    simp only [membersOnto, readFrom_cons, Reader.take, Option.bind_eq_bind, Option.bind_some]
    rw [read m (by simp), others]
    simp

/-- The machine comes out of the tokens of a value with that value. -/
theorem Plain.readFrom_tokens {json : Json} (plain : json.Plain) (rest : List JsonToken)
    (frames : List Frame) : readFrom (.atValue frames) (tokensOnto rest json) =
      readFrom (.after json frames) rest := by
  induction plain generalizing rest frames with
  | null | bool | number | string => rfl
  | @array items plain ih =>
    cases items with
    | nil => rfl
    | cons item items =>
      have opened : readFrom (.atValue frames) (tokensOnto rest (.array (item :: items))) =
          readFrom (.atFirstItem frames) (tokensOnto (itemsOnto rest items) item) := rfl
      have others := readFrom_itemsOnto (fun other member => ih other (.tail _ member))
        rest frames [] item
      rw [opened, (plain item (by simp)).readFrom_first, ih item (by simp), others]
      rfl
  | @object members plain ih =>
    cases members with
    | nil => rfl
    | cons m members =>
      have opened : readFrom (.atValue frames) (tokensOnto rest (.object (m :: members))) =
          readFrom (.atValue (.object [] m.1 :: frames))
            (tokensOnto (membersOnto rest members) m.2) := rfl
      have others := readFrom_membersOnto (fun other member => ih other (.tail _ member))
        rest frames [] m
      rw [opened, ih m (by simp), others]
      rfl

/-- A value whose numbers are plain is read back from its text. -/
theorem Plain.parse?_render {json : Json} (plain : json.Plain) :
    parse? json.render = some json := by
  have readable : Readable json.tokens := plain.readable ⟨trivial, by simp⟩
  have read : readFrom (.atValue []) json.tokens = some json := plain.readFrom_tokens [] []
  simpa [parse?, render, JsonToken.ofText?_chars readable, ofTokens?, readFrom] using read

end Json

end ScriptSemantics
