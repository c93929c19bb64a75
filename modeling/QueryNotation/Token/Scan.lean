import QueryNotation.Text.Numeric
import QueryNotation.Token
import QueryNotation.Token.Literal

/-!
# Scanning one token

What the front of a text holds: a token, or the reason why there is none, together with the
number of characters that it takes.  The text starts with the token itself; blanks before it are
skipped elsewhere.  Scanning looks at the characters only, never at their place in the text.
-/

namespace QueryNotation

open Text

/-- Why the front of a text is not a token. -/
inductive Fault where
  | unexpected (found : Char)
  | loneEquals
  | unterminated
  /-- A backslash in a quoted string is followed by this character. -/
  | invalidEscape (found : Char)
  deriving DecidableEq, Repr

/-- A token or a fault, and how many characters of the text it takes. -/
structure Scan where
  result : Except Fault Token
  length : Nat

namespace Scan

/-- The symbol that a character forms with an equals sign after it. -/
def withEquals? : Char → Option Symbol
  | '=' => some .equal
  | '!' => some .notEqual
  | '<' => some .lessEqual
  | '>' => some .greaterEqual
  | _ => none

/-- The symbol that a character forms alone. -/
def alone? : Char → Option Symbol
  | '!' => some .exclamation
  | '<' => some .less
  | '>' => some .greater
  | '+' => some .plus
  | '-' => some .minus
  | '*' => some .star
  | '/' => some .slash
  | '[' => some .openBracket
  | ']' => some .closeBracket
  | '(' => some .openParen
  | ')' => some .closeParen
  | ',' => some .comma
  | _ => none

/-- The symbol at the front of a text and its length.  A following equals sign is taken along
wherever it can be. -/
def symbol? (first : Char) (rest : List Char) : Option (Symbol × Nat) :=
  match withEquals? first, rest with
  | some symbol, '=' :: _ => some (symbol, 2)
  | _, _ => (alone? first).map (·, 1)

/-- The string before the closing quote, and the number of characters read, the closing quote
included.  After a fault these are the characters before the place where reading stopped. -/
def quoted (quote : Char) : List Char → Except Fault (List Char) × Nat
  | [] => (.error .unterminated, 0)
  | c :: rest =>
    if c = quote then (.ok [], 1)
    else if c = '\\' then
      match rest with
      | [] => (.error .unterminated, 1)
      | escaped :: rest =>
        match unescape? escaped with
        | none => (.error (.invalidEscape escaped), 1)
        | some d =>
          let (result, length) := quoted quote rest
          (result.map (d :: ·), length + 2)
    else
      let (result, length) := quoted quote rest
      (result.map (c :: ·), length + 1)

/-- The digits after a point at the front of a text; none if no digit follows the point. -/
def fraction : List Char → List Char
  | '.' :: rest => rest.takeWhile Char.isDigit
  | _ => []

def number (text : List Char) : Scan :=
  let whole := text.takeWhile Char.isDigit
  let fraction := fraction (text.dropWhile Char.isDigit)
  let length := whole.length + if fraction.isEmpty then 0 else fraction.length + 1
  ⟨.ok (.literal (.ofNumeral whole fraction)), length⟩

def word (text : List Char) : Scan :=
  let name := text.takeWhile continuesWord
  ⟨.ok (.ofWord (String.ofList name)), name.length⟩

def string (quote : Char) (rest : List Char) : Scan :=
  let (result, length) := quoted quote rest
  ⟨result.map fun content => .literal (.string (String.ofList content)), length + 1⟩

/-- What the front of a text holds. -/
def ofText : List Char → Scan
  | [] => ⟨.ok .endOfText, 0⟩
  | c :: rest =>
    match symbol? c rest with
    | some (symbol, length) => ⟨.ok (.symbol symbol), length⟩
    | none =>
      if c = '=' then ⟨.error .loneEquals, 0⟩
      else if c = '"' || c = '\x27' then string c rest
      else if startsWord c then word (c :: rest)
      else if c.isDigit then number (c :: rest)
      else ⟨.error (.unexpected c), 0⟩

/-! ## Progress -/

theorem symbol?_length_pos {c : Char} {rest : List Char} {symbol : Symbol} {length : Nat}
    (h : symbol? c rest = some (symbol, length)) : 0 < length := by
  unfold symbol? at h
  split at h
  · simp only [Option.some.injEq, Prod.mk.injEq] at h
    omega
  · obtain ⟨s, -, hs⟩ := Option.map_eq_some_iff.1 h
    simp only [Prod.mk.injEq] at hs
    omega

/-- Every token but the end takes a character. -/
theorem ofText_length_pos {c : Char} {rest : List Char} {token : Token}
    (h : (ofText (c :: rest)).result = .ok token) : 0 < (ofText (c :: rest)).length := by
  simp only [ofText] at h ⊢
  cases hs : symbol? c rest with
  | some found => exact symbol?_length_pos hs
  | none =>
      simp only [hs] at h ⊢
      by_cases he : c = '='
      · simp [he] at h
      · rw [if_neg he] at h ⊢
        by_cases hq : (c = '"' || c = '\x27') = true
        · rw [if_pos hq]
          exact Nat.succ_pos _
        · rw [if_neg hq] at h ⊢
          by_cases hw : startsWord c = true
          · rw [if_pos hw]
            simp [word, continuesWord_of_startsWord hw]
          · rw [if_neg hw] at h ⊢
            by_cases hd : c.isDigit = true
            · rw [if_pos hd]
              simp only [number, List.takeWhile_cons, hd, if_true, List.length_cons]
              omega
            · simp [hd] at h

example : (ofText "<=b".toList).length = 2 := by decide

example : (ofText "1.x".toList).length = 1 := by decide

end Scan

end QueryNotation
