import Mathlib.Data.List.DropRight
import Mathlib.Data.Nat.Notation

/-!
# Text files as Python reads and writes them

Text mode, `readlines`, `strip`, and `int` of a line in base 10 or 16. The rules at the end are for
files of one entry a line: `read_lines_back` takes them apart again, and `parse_two_digits` reads
two hexadecimal digits.
-/

namespace CE213Lab.Foundation

/-- A text as its characters. -/
abbrev Text := List Char

namespace TextFile

/-! ## Line ends -/

/-- What the platform writes for a line end. -/
inductive LineEnd where
  | lf
  | crlf
  deriving DecidableEq

def LineEnd.chars : LineEnd → Text
  | lf => ['\n']
  | crlf => ['\r', '\n']

/-- What is in the file after a text has been written to it in text mode. -/
def written (lineEnd : LineEnd) (text : Text) : Text :=
  text.flatMap fun c => if c = '\n' then lineEnd.chars else [c]

/-- Universal newlines: a carriage return, and the line feed after it if there is one, are read as
a line feed. -/
def newlines (afterReturn : Bool) : Text → Text
  | [] => []
  | c :: text =>
      if c = '\r' then '\n' :: newlines true text
      else if c = '\n' ∧ afterReturn then newlines false text
      else c :: newlines false text

/-- The text read from a file in text mode. -/
def read (file : Text) : Text :=
  newlines false file

/-- The lines of a text, each with its line feed. -/
def readlines : Text → List Text
  | [] => []
  | c :: text =>
      if c = '\n' then [c] :: readlines text
      else
        match readlines text with
        | [] => [[c]]
        | line :: lines => (c :: line) :: lines

/-! ## White space -/

/-- `str.isspace` of one character. -/
def isSpace (c : Char) : Bool :=
  let n := c.toNat
  (9 ≤ n && n ≤ 13) || (28 ≤ n && n ≤ 32) || n = 0x85 || n = 0xA0 || n = 0x1680 ||
    (0x2000 ≤ n && n ≤ 0x200A) || n = 0x2028 || n = 0x2029 || n = 0x202F || n = 0x205F || n = 0x3000

def strip (line : Text) : Text :=
  (line.dropWhile isSpace).rdropWhile isSpace

/-! ## Numbers -/

/-- `{n:02x}` for `width` 2. -/
def formatHex (width n : ℕ) : Text :=
  (Nat.toDigits 16 n).leftpad width '0'

/-- Decimal digits outside ASCII count as the ASCII digits of their values. -/
def toAscii (decimal : Char → Option (Fin 10)) (c : Char) : Char :=
  if c.toNat < 128 then c
  else
    match decimal c with
    | some d => Nat.digitChar d
    | none => c

/-- The value of a digit. Letters follow the decimal digits, in either case. -/
def digitValue (base : ℕ) (c : Char) : Option ℕ :=
  let n := c.toNat
  let value :=
    if 48 ≤ n ∧ n ≤ 57 then n - 48
    else if 97 ≤ n ∧ n ≤ 122 then n - 87
    else if 65 ≤ n ∧ n ≤ 90 then n - 55
    else base
  if value < base then some value else none

/-- The number whose first digits have the value `acc`. Single underscores may stand between
digits; `needDigit` says that the next character has to be a digit. -/
def digits (base acc : ℕ) (needDigit : Bool) : Text → Option ℕ
  | [] => if needDigit then none else some acc
  | c :: text =>
      if c = '_' ∧ !needDigit then digits base acc true text
      else
        match digitValue base c with
        | some d => digits base (base * acc + d) false text
        | none => none

/-- The prefix `0x` of base 16, and an underscore after it, say nothing. -/
def dropPrefix (base : ℕ) (text : Text) : Text :=
  if base = 16 ∧ text.head? = some '0' ∧ (text[1]? = some 'x' ∨ text[1]? = some 'X') then
    if text[2]? = some '_' then text.drop 3 else text.drop 2
  else text

/-- `int(text, base)` for base 10 or 16; `none` is a ValueError. `decimal` gives the values of the
decimal digits outside ASCII. -/
def parseInt (decimal : Char → Option (Fin 10)) (base : ℕ) (text : Text) : Option ℤ :=
  let text := (strip text).map (toAscii decimal)
  let magnitude (text : Text) := digits base 0 true (dropPrefix base text)
  if text.head? = some '-' then (magnitude text.tail).map fun n => -(n : ℤ)
  else if text.head? = some '+' then (magnitude text.tail).map fun n => (n : ℤ)
  else (magnitude text).map fun n => (n : ℤ)

/-! ## Files of one entry a line -/

/-- The text with the given lines, each ended by a line feed. -/
def unlines (lines : List Text) : Text :=
  lines.flatMap fun line => line ++ ['\n']

/-- Reading takes back the line ends the platform has written. -/
theorem read_written {lineEnd : LineEnd} {text : Text} (hreturn : ∀ c ∈ text, c ≠ '\r') :
    read (written lineEnd text) = text := by
  induction text with
  | nil => rfl
  | cons c text ih =>
      have hc : c ≠ '\r' := hreturn c List.mem_cons_self
      have ih : newlines false (written lineEnd text) = text :=
        ih fun d hd => hreturn d (List.mem_cons_of_mem c hd)
      by_cases hline : c = '\n'
      · subst hline
        have hfirst : written lineEnd ('\n' :: text) = lineEnd.chars ++ written lineEnd text := by
          simp [written]
        rw [hfirst, read]
        cases lineEnd with
        | lf =>
            show newlines false ('\n' :: written .lf text) = _
            rw [newlines, if_neg (by decide), if_neg (by decide), ih]
        | crlf =>
            show newlines false ('\r' :: '\n' :: written .crlf text) = _
            rw [newlines, if_pos rfl, newlines, if_neg (by decide), if_pos (by decide), ih]
      · have hfirst : written lineEnd (c :: text) = c :: written lineEnd text := by
          simp [written, hline]
        rw [hfirst, read, newlines, if_neg hc, if_neg (by simp [hline]), ih]

/-- Each line is written with the line end of the platform. -/
theorem written_unlines {lineEnd : LineEnd} {lines : List Text}
    (hlines : ∀ line ∈ lines, ∀ c ∈ line, c ≠ '\n') :
    written lineEnd (unlines lines) = lines.flatMap fun line => line ++ lineEnd.chars := by
  have hline : ∀ line ∈ lines, written lineEnd (line ++ ['\n']) = line ++ lineEnd.chars := by
    intro line hline
    have hkept : (line.flatMap fun c => if c = '\n' then lineEnd.chars else [c]) = line := by
      rw [List.flatMap_congr fun c hc => if_neg (hlines line hline c hc), List.flatMap_singleton']
    rw [written, List.flatMap_append, hkept, List.flatMap_singleton, if_pos rfl]
  rw [written, unlines, List.flatMap_assoc]
  exact List.flatMap_congr hline

/-- A line is cut off behind its line feed. -/
theorem readlines_append {line rest : Text} (hline : ∀ c ∈ line, c ≠ '\n') :
    readlines (line ++ '\n' :: rest) = (line ++ ['\n']) :: readlines rest := by
  induction line with
  | nil => simp [readlines]
  | cons c line ih =>
      have hc : c ≠ '\n' := hline c List.mem_cons_self
      rw [List.cons_append, readlines, if_neg hc,
        ih fun d hd => hline d (List.mem_cons_of_mem c hd)]
      rfl

theorem readlines_unlines {lines : List Text} (hlines : ∀ line ∈ lines, ∀ c ∈ line, c ≠ '\n') :
    readlines (unlines lines) = lines.map fun line => line ++ ['\n'] := by
  induction lines with
  | nil => rfl
  | cons line lines ih =>
      have hfirst : unlines (line :: lines) = line ++ '\n' :: unlines lines := by
        simp [unlines]
      rw [hfirst, readlines_append (hlines line List.mem_cons_self),
        ih fun l hl => hlines l (List.mem_cons_of_mem line hl), List.map_cons]

/-! ## Stripping -/

/-- A text without white space is not changed. -/
theorem strip_eq_self {line : Text} (hline : ∀ c ∈ line, isSpace c = false) :
    strip line = line := by
  have hfront : line.dropWhile isSpace = line := by
    cases line with
    | nil => rfl
    | cons c line => simp [hline c List.mem_cons_self]
  rw [strip, hfront, List.rdropWhile_eq_self_iff]
  intro hne
  simp [hline _ (List.getLast_mem hne)]

/-- The line feed goes. -/
theorem strip_line {line : Text} (hline : ∀ c ∈ line, isSpace c = false) :
    strip (line ++ ['\n']) = line := by
  cases line with
  | nil => rfl
  | cons c line =>
      have hfront : ((c :: line) ++ ['\n']).dropWhile isSpace = (c :: line) ++ ['\n'] := by
        simp [hline c List.mem_cons_self]
      have hback := strip_eq_self hline
      have hkept : (c :: line).dropWhile isSpace = c :: line := by
        simp [hline c List.mem_cons_self]
      rw [strip, hkept] at hback
      rw [strip, hfront, List.rdropWhile_concat_pos _ _ _ (by decide), hback]

theorem ne_of_isSpace {c d : Char} (hc : isSpace c = false) (hd : isSpace d = true) : c ≠ d := by
  rintro rfl
  exact Bool.false_ne_true (hc.symm.trans hd)

/-- Lines without white space come back from the file they are written to. -/
theorem read_lines_back {lineEnd : LineEnd} {lines : List Text}
    (hlines : ∀ line ∈ lines, ∀ c ∈ line, isSpace c = false) :
    (readlines (read (written lineEnd (unlines lines)))).map strip = lines := by
  have hreturn : ∀ c ∈ unlines lines, c ≠ '\r' := by
    intro c hc
    obtain ⟨line, hline, hc⟩ := List.mem_flatMap.mp hc
    rcases List.mem_append.mp hc with hc | hc
    · exact ne_of_isSpace (hlines line hline c hc) rfl
    · rw [List.mem_singleton.mp hc]
      decide
  have hfeed : ∀ line ∈ lines, ∀ c ∈ line, c ≠ '\n' :=
    fun line hline c hc => ne_of_isSpace (hlines line hline c hc) rfl
  have hstrip : ∀ line ∈ lines, (strip ∘ fun line => line ++ ['\n']) line = line :=
    fun line hline => strip_line (hlines line hline)
  rw [read_written hreturn, readlines_unlines hfeed, List.map_map]
  exact (List.map_congr_left hstrip).trans (List.map_id _)

/-! ## Hexadecimal numbers -/

variable {decimal : Char → Option (Fin 10)} {base : ℕ} {c : Char} {d : ℕ}

/-- A digit is an ASCII letter or decimal digit. -/
theorem digit_range (h : digitValue base c = some d) :
    (48 ≤ c.toNat ∧ c.toNat ≤ 57) ∨ (65 ≤ c.toNat ∧ c.toNat ≤ 90) ∨
      (97 ≤ c.toNat ∧ c.toNat ≤ 122) := by
  simp only [digitValue] at h
  split_ifs at h <;> omega

theorem digit_lt (h : digitValue base c = some d) : d < base := by
  simp only [digitValue] at h
  split_ifs at h <;> simp at h <;> omega

theorem digit_ne {e : Char} (h : digitValue base c = some d) (he : digitValue base e = none) :
    c ≠ e := by
  rintro rfl
  simp [he] at h

theorem isSpace_digit (h : digitValue base c = some d) : isSpace c = false := by
  have hrange := digit_range h
  simp [isSpace]
  omega

theorem toAscii_digit (h : digitValue base c = some d) : toAscii decimal c = c := by
  have hrange := digit_range h
  rw [toAscii, if_pos (by omega)]

/-- Two hexadecimal digits are the number they spell. -/
theorem parse_two_digits {a b : Char} {x y : ℕ} (ha : digitValue 16 a = some x)
    (hb : digitValue 16 b = some y) :
    parseInt decimal 16 [a, b] = some ((16 * x + y : ℕ) : ℤ) := by
  have hstrip : strip [a, b] = [a, b] := by
    refine strip_eq_self fun c hc => ?_
    rcases List.mem_pair.mp hc with rfl | rfl
    · exact isSpace_digit ha
    · exact isSpace_digit hb
  have hprefix : dropPrefix 16 [a, b] = [a, b] := by
    simp [dropPrefix, digit_ne hb (e := 'x') rfl, digit_ne hb (e := 'X') rfl]
  have hdigits : digits 16 0 true [a, b] = some (16 * x + y) := by
    simp [digits, ha, hb, digit_ne hb (e := '_') rfl]
  simp [parseInt, hstrip, toAscii_digit ha, toAscii_digit hb, hprefix, hdigits,
    digit_ne ha (e := '-') rfl, digit_ne ha (e := '+') rfl]

/-- The digits of a byte. -/
theorem format_two_digits {n : ℕ} (h : n < 256) :
    formatHex 2 n = [Nat.digitChar (n / 16), Nat.digitChar (n % 16)] := by
  rw [formatHex]
  rcases Nat.lt_or_ge n 16 with hlt | hge
  · rw [Nat.toDigits_of_lt_base hlt, Nat.div_eq_of_lt hlt, Nat.mod_eq_of_lt hlt]
    rfl
  · rw [Nat.toDigits_of_base_le (by decide) hge, Nat.toDigits_of_lt_base (by omega)]
    rfl

theorem digitValue_digitChar {d : ℕ} (h : d < 16) : digitValue 16 (Nat.digitChar d) = some d := by
  have hall : ∀ d : Fin 16, digitValue 16 (Nat.digitChar d) = some d.val := by decide
  exact hall ⟨d, h⟩

end TextFile

end CE213Lab.Foundation
