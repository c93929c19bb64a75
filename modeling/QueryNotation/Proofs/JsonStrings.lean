import Mathlib.Data.Nat.Digits.Defs
import QueryNotation.Text.Json

/-!
# The strings of a JSON text

A reader goes through a JSON text character by character and keeps the
strings that it finds. Behind an escaped character it stands in the same
string as before, with this character added. So it finds in the text of an
object what the members are made of, whether or not the text is spread over
several lines.
-/

namespace QueryNotation.Text.Json

/-- Where a reader stands in the text. In a string it knows the characters
so far, and behind `\u` the digits so far as well. -/
inductive Mode where
  | outside
  | inside (content : List Char)
  | escape (content : List Char)
  | code (content digits : List Char)

/-- A reader with the strings that it has found. -/
structure StringReader where
  found : List String := []
  mode : Mode := .outside

/-- What the letter of an escape stands for. -/
def unescape : Char → Char
  | 'b' => '\x08'
  | 'f' => '\x0c'
  | 'n' => '\n'
  | 'r' => '\r'
  | 't' => '\t'
  | c => c

def hexDigit (c : Char) : Nat := if c.isDigit then c.toNat - 48 else c.toLower.toNat - 87

def ofCode (digits : List Char) : Char :=
  Char.ofNat (Nat.ofDigits 16 (digits.reverse.map hexDigit))

namespace StringReader

def read (s : StringReader) (c : Char) : StringReader :=
  match s.mode with
  | .outside => if c = '"' then { s with mode := .inside [] } else s
  | .inside content =>
    if c = '"' then ⟨s.found ++ [String.ofList content], .outside⟩
    else if c = '\\' then { s with mode := .escape content }
    else { s with mode := .inside (content ++ [c]) }
  | .escape content =>
    { s with mode := if c = 'u' then .code content [] else .inside (content ++ [unescape c]) }
  | .code content digits =>
    let digits := digits ++ [c]
    { s with mode :=
        if digits.length < 4 then .code content digits else .inside (content ++ [ofCode digits]) }

def readAll (s : StringReader) (text : List Char) : StringReader := text.foldl read s

end StringReader

/-- The strings of a text, in the order in which they end. -/
def strings (text : String) : List String := (StringReader.readAll {} text.toList).found

theorem hexDigit_digitChar {n : Nat} (h : n < 16) : hexDigit (Nat.digitChar n) = n := by
  decide +revert

/-- The code of a control character is that of its two last digits. -/
theorem ofCode_control {c : Char} (h : c.toNat < 0x20) :
    ofCode ['0', '0', Nat.digitChar (c.toNat / 16), Nat.digitChar (c.toNat % 16)] = c := by
  have hhigh : hexDigit (Nat.digitChar (c.toNat / 16)) = c.toNat / 16 :=
    hexDigit_digitChar (by omega)
  have hlow : hexDigit (Nat.digitChar (c.toNat % 16)) = c.toNat % 16 :=
    hexDigit_digitChar (Nat.mod_lt _ (by decide))
  have hzero : hexDigit '0' = 0 := by decide
  have hvalue : c.toNat % 16 + 16 * (c.toNat / 16) = c.toNat := Nat.mod_add_div _ _
  simp [ofCode, Nat.ofDigits_cons, hhigh, hlow, hzero, hvalue, Char.ofNat_toNat]

namespace StringReader

variable {found : List String} {content : List Char}

theorem readAll_append (s : StringReader) (text more : List Char) :
    s.readAll (text ++ more) = (s.readAll text).readAll more := List.foldl_append

theorem readAll_escape (c : Char) :
    readAll ⟨found, .inside content⟩ (escape c) = ⟨found, .inside (content ++ [c])⟩ := by
  unfold escape
  split
  -- The characters with a letter of their own, and then all others.
  iterate 7 exact rfl
  next hquote hbackslash _ _ _ _ _ =>
    split
    next hcontrol =>
      have hread (high low : Char) :
          readAll ⟨found, .inside content⟩ ['\\', 'u', '0', '0', high, low] =
            ⟨found, .inside (content ++ [ofCode ['0', '0', high, low]])⟩ := rfl
      rw [hread, ofCode_control hcontrol]
    next =>
      simp only [readAll, read, List.foldl_cons, List.foldl_nil, if_neg hquote, if_neg hbackslash]

theorem readAll_flatMap_escape (text : List Char) :
    readAll ⟨found, .inside content⟩ (text.flatMap escape) = ⟨found, .inside (content ++ text)⟩ := by
  induction text generalizing content with
  | nil => rw [List.append_nil, List.flatMap_nil, readAll, List.foldl_nil]
  | cons c text ih =>
      rw [List.flatMap_cons, readAll_append, readAll_escape, ih, List.append_assoc,
        List.singleton_append]

/-- A quoted string is found with all its characters. -/
theorem readAll_quoted (text : String) :
    readAll ⟨found, .outside⟩ (quoted text).toList = ⟨found ++ [text], .outside⟩ := by
  have hchars : (quoted text).toList = ['"'] ++ text.toList.flatMap escape ++ ['"'] := by
    simp [quoted]
  have hopen : readAll ⟨found, .outside⟩ ['"'] = ⟨found, .inside []⟩ := rfl
  rw [hchars, readAll_append, readAll_append, hopen, readAll_flatMap_escape, List.nil_append]
  change (⟨found ++ [String.ofList text.toList], .outside⟩ : StringReader) = _
  rw [String.ofList_toList]

/-- Outside of strings only a quote matters. -/
theorem readAll_plain {text : List Char} (h : '"' ∉ text) :
    readAll ⟨found, .outside⟩ text = ⟨found, .outside⟩ := by
  induction text with
  | nil => rfl
  | cons c text ih =>
      rw [List.mem_cons, not_or] at h
      have hread : read ⟨found, .outside⟩ c = ⟨found, .outside⟩ := if_neg (Ne.symm h.1)
      rw [readAll, List.foldl_cons, hread]
      exact ih h.2

/-- Members are found one by one, whatever stands between them. -/
theorem readAll_intercalate {separator : List Char} {member : String × String → List Char}
    (hseparator : '"' ∉ separator)
    (hmember : ∀ found m, readAll ⟨found, .outside⟩ (member m) = ⟨found ++ [m.1, m.2], .outside⟩)
    (members : List (String × String)) :
    readAll ⟨found, .outside⟩ (separator.intercalate (members.map member)) =
      ⟨found ++ members.flatMap fun m => [m.1, m.2], .outside⟩ := by
  induction members generalizing found with
  | nil =>
      rw [List.flatMap_nil, List.append_nil]
      rfl
  | cons m members ih =>
      cases members with
      | nil => simpa using hmember found m
      | cons m' members =>
          rw [List.map_cons, List.map_cons, List.intercalate_cons_cons, ← List.map_cons,
            readAll_append, readAll_append, hmember, readAll_plain hseparator, ih,
            List.append_assoc]
          rfl

end StringReader

open StringReader

theorem strings_of_members (opening indent colon separator closing : List Char)
    (hplain : '"' ∉ opening ++ indent ++ colon ++ separator ++ closing) {text : String}
    {members : List (String × String)}
    (htext : text.toList = opening ++ separator.intercalate (members.map fun m =>
      indent ++ (quoted m.1).toList ++ colon ++ (quoted m.2).toList) ++ closing) :
    strings text = members.flatMap fun m => [m.1, m.2] := by
  simp only [List.mem_append, not_or] at hplain
  obtain ⟨⟨⟨⟨hopening, hindent⟩, hcolon⟩, hseparator⟩, hclosing⟩ := hplain
  rw [strings, htext, readAll_append, readAll_append, readAll_plain hopening,
    readAll_intercalate hseparator, readAll_plain hclosing, List.nil_append]
  intro found m
  rw [readAll_append, readAll_append, readAll_append, readAll_plain hindent, readAll_quoted,
    readAll_plain hcolon, readAll_quoted, List.append_assoc, List.singleton_append]

/-- The strings of an object are the names and the contents of its members. -/
theorem strings_object (members : List (String × String)) (pretty : Bool) :
    strings (object members pretty) = members.flatMap fun m => [m.1, m.2] := by
  cases pretty with
  | false =>
      refine strings_of_members ['\x7b'] [] [':'] [','] ['\x7d'] (by decide) ?_
      simp [object, Function.comp_def]
  | true =>
      refine strings_of_members ['\x7b', '\n'] [' ', ' '] [':', ' '] [',', '\n'] ['\n', '\x7d']
        (by decide) ?_
      simp [object, Function.comp_def]

end QueryNotation.Text.Json
