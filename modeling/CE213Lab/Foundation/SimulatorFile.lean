import CE213Lab.Foundation.TextFile
import Mathlib.Logic.Function.Basic

/-!
# Text files as a Verilog simulator reads them

`$readmemh` and `$fscanf` with `%h`. A number may have unknown digits, and has no value then. The
rules at the end are for files a program has written in lines of hexadecimal numbers:
`readmemh_lines` loads one number a line, and `scan_rows` reads three numbers a line.
-/

namespace CE213Lab.Foundation.SimulatorFile

/-- White space between numbers, carriage returns included. -/
def isWhite (c : Char) : Bool :=
  c.toNat = 32 || (9 ≤ c.toNat && c.toNat ≤ 13)

/-- A character of a hexadecimal number: a digit, an unknown digit or an underscore. -/
def isDigit (c : Char) : Bool :=
  (TextFile.digitValue 16 c).isSome || c = 'x' || c = 'X' || c = 'z' || c = 'Z' || c = '?' ||
    c = '_'

/-- The number whose first digits have the value `acc`, unless there are unknown digits. -/
def value (acc : ℕ) : Text → Option ℕ
  | [] => some acc
  | c :: text =>
      if c = '_' then value acc text
      else
        match TextFile.digitValue 16 c with
        | some d => value (16 * acc + d) text
        | none => none

/-! ## Loading a memory -/

/-- Where a scan for comments stands: outside, behind the slash that has opened a comment, inside a
comment of a line or of a block, or at the slash that closes it. -/
inductive Comment where
  | outside
  | opened
  | line
  | block
  | closing

/-- Comments are white space. -/
def uncomment : Comment → Text → Text
  | _, [] => []
  | .outside, c :: text =>
      if c = '/' ∧ text.head? = some '/' then uncomment .line text
      else if c = '/' ∧ text.head? = some '*' then uncomment .opened text
      else c :: uncomment .outside text
  | .opened, _ :: text => uncomment .block text
  | .line, c :: text => if c = '\n' then c :: uncomment .outside text else uncomment .line text
  | .block, c :: text =>
      if c = '*' ∧ text.head? = some '/' then uncomment .closing text else uncomment .block text
  | .closing, _ :: text => ' ' :: uncomment .outside text

def tokens (text : Text) : List Text :=
  (text.splitOnP isWhite).filter (· ≠ [])

/-- The words loaded so far, and the address of the next. -/
structure Memory (w : ℕ) where
  address : ℕ
  word : ℕ → Option (BitVec w)

/-- A token is an address or a word. Anything else, and a word past the end, is an error. -/
def loadToken {w : ℕ} (n : ℕ) (m : Memory w) (token : Text) : Option (Memory w) :=
  if token.head? = some '@' then (value 0 token.tail).map fun address => { m with address }
  else if token.all isDigit ∧ m.address < n then
    some ⟨m.address + 1,
      Function.update m.word m.address ((value 0 token).map (BitVec.ofNat w))⟩
  else none

/-- An error ends the load. -/
def load {w : ℕ} (n : ℕ) (m : Memory w) : List Text → Memory w
  | [] => m
  | token :: rest =>
      match loadToken n m token with
      | some m => load n m rest
      | none => m

/-- `$readmemh` into a memory of `n` words of `w` bits: the words that are known then. -/
def readmemh (w n : ℕ) (file : Text) : ℕ → Option (BitVec w) :=
  (load n ⟨0, fun _ => none⟩ (tokens (uncomment .outside file))).word

/-! ## Scanning -/

/-- What is still to be read, and whether a read has met the end. -/
structure File where
  rest : Text
  eof : Bool

def skipWhite (f : File) : File :=
  ⟨f.rest.dropWhile isWhite, f.eof || f.rest.all isWhite⟩

/-- `%h`. -/
def scanHex (f : File) : Option Text × File :=
  let f := skipWhite f
  if f.rest.takeWhile isDigit = [] then (none, f)
  else (some (f.rest.takeWhile isDigit), ⟨f.rest.dropWhile isDigit, f.eof || f.rest.all isDigit⟩)

/-- `$fscanf` with `"%h %h %h\n"`: the three numbers, if it returns 3. -/
def fscanf (f : File) : Option (Text × Text × Text) × File :=
  match scanHex f with
  | (none, f) => (none, f)
  | (some a, f) =>
      match scanHex (skipWhite f) with
      | (none, f) => (none, f)
      | (some b, f) =>
          match scanHex (skipWhite f) with
          | (none, f) => (none, f)
          | (some c, f) => (some (a, b, c), skipWhite f)

/-- What the scans return in a loop that ends with `$feof`, in `fuel` rounds at most. -/
def scans : ℕ → File → Option (List (Option (Text × Text × Text)))
  | 0, _ => none
  | fuel + 1, f =>
      if f.eof then some []
      else (scans fuel (fscanf f).2).map fun results => (fscanf f).1 :: results

/-- The loop over a whole file. A scan that takes nothing from the file is repeated for ever, so a
loop with more rounds than the file has characters does not end. -/
def scanAll (file : Text) : Option (List (Option (Text × Text × Text))) :=
  scans (file.length + 2) ⟨file, false⟩

/-! ## Files of hexadecimal digits -/

/-- A number without unknown digits and underscores. -/
structure Digits (line : Text) : Prop where
  ne_nil : line ≠ []
  digit : ∀ c ∈ line, (TextFile.digitValue 16 c).isSome

section Digits

variable {line a b c rest : Text} {d : Char} {lineEnd : TextFile.LineEnd} {lines : List Text}

theorem digit_range (hd : (TextFile.digitValue 16 d).isSome) :
    (48 ≤ d.toNat ∧ d.toNat ≤ 57) ∨ (65 ≤ d.toNat ∧ d.toNat ≤ 90) ∨
      (97 ≤ d.toNat ∧ d.toNat ≤ 122) := by
  obtain ⟨v, hv⟩ := Option.isSome_iff_exists.mp hd
  exact TextFile.digit_range hv

theorem is_white_digit (hd : (TextFile.digitValue 16 d).isSome) : isWhite d = false := by
  have hrange := digit_range hd
  simp [isWhite]
  omega

theorem is_digit_digit (hd : (TextFile.digitValue 16 d).isSome) : isDigit d = true := by
  simp [isDigit, hd]

theorem ne_of_digit {e : Char} (hd : (TextFile.digitValue 16 d).isSome)
    (he : TextFile.digitValue 16 e = none) : d ≠ e := by
  rintro rfl
  simp [he] at hd

theorem Digits.white (h : Digits line) : ∀ c ∈ line, isWhite c = false :=
  fun c hc => is_white_digit (h.digit c hc)

theorem Digits.line_feed (h : Digits line) : ∀ c ∈ line, c ≠ '\n' :=
  fun c hc => ne_of_digit (h.digit c hc) rfl

theorem is_white_line_end : ∀ c ∈ lineEnd.chars, isWhite c = true := by
  intro c hc
  cases lineEnd with
  | lf =>
      rw [List.mem_singleton.mp hc]
      rfl
  | crlf => rcases List.mem_pair.mp hc with rfl | rfl <;> rfl

/-! ## Loading lines -/

/-- A text without slashes has no comments. -/
theorem uncomment_eq_self {text : Text} (h : ∀ c ∈ text, c ≠ '/') :
    uncomment .outside text = text := by
  induction text with
  | nil => rfl
  | cons c text ih =>
      have hc : c ≠ '/' := h c List.mem_cons_self
      rw [uncomment, if_neg (by simp [hc]), if_neg (by simp [hc]),
        ih fun d hd => h d (List.mem_cons_of_mem c hd)]

theorem tokens_white (hd : isWhite d = true) : tokens (d :: rest) = tokens rest := by
  simp [tokens, List.splitOnP_cons_eq_if_modifyHead, hd]

theorem tokens_line (hne : line ≠ []) (hline : ∀ c ∈ line, isWhite c = false)
    (hd : isWhite d = true) : tokens (line ++ d :: rest) = line :: tokens rest := by
  rw [tokens, List.splitOnP_append_cons_of_forall_mem hline d hd, List.filter_cons_of_pos]
  · rfl
  · simpa using hne

/-- The tokens of a file of numbers are its lines. -/
theorem tokens_lines (hlines : ∀ line ∈ lines, Digits line) :
    tokens (lines.flatMap fun line => line ++ lineEnd.chars) = lines := by
  induction lines with
  | nil => rfl
  | cons line lines ih =>
      have hline := hlines line List.mem_cons_self
      have ih := ih fun l hl => hlines l (List.mem_cons_of_mem line hl)
      rw [List.flatMap_cons, List.append_assoc]
      cases lineEnd with
      | lf => exact (tokens_line hline.ne_nil hline.white rfl).trans (congrArg _ ih)
      | crlf =>
          refine (tokens_line hline.ne_nil hline.white rfl).trans (congrArg _ ?_)
          exact (tokens_white rfl).trans ih

theorem load_words {w n : ℕ} {m : Memory w} (hlines : ∀ line ∈ lines, Digits line)
    (hfits : m.address + lines.length ≤ n) (k : ℕ) :
    (load n m lines).word k =
      if m.address ≤ k ∧ k < m.address + lines.length then
        lines[k - m.address]?.bind fun line => (value 0 line).map (BitVec.ofNat w)
      else m.word k := by
  induction lines generalizing m with
  | nil => exact (if_neg (by simp)).symm
  | cons line lines ih =>
      have hline := hlines line List.mem_cons_self
      have hword : line.all isDigit = true :=
        List.all_eq_true.mpr fun c hc => is_digit_digit (hline.digit c hc)
      have haddress : line.head? ≠ some '@' := fun h =>
        ne_of_digit (hline.digit _ (List.mem_of_mem_head? h)) rfl rfl
      rw [List.length_cons] at hfits ⊢
      rw [load, loadToken, if_neg haddress, if_pos ⟨hword, by omega⟩]
      show (load n _ lines).word k = _
      rw [ih (fun l hl => hlines l (List.mem_cons_of_mem line hl)) (by simp only; omega)]
      simp only
      by_cases hk : k = m.address
      · subst hk
        rw [if_neg (by omega), if_pos (by omega), Function.update_self, Nat.sub_self]
        rfl
      · rw [Function.update_of_ne hk]
        by_cases hlater : m.address < k
        · obtain ⟨j, hj⟩ : ∃ j, k - m.address = j + 1 := ⟨k - m.address - 1, by omega⟩
          rw [hj, List.getElem?_cons_succ, show k - (m.address + 1) = j by omega]
          exact if_congr (by omega) rfl rfl
        · rw [if_neg (by omega), if_neg (by omega)]

/-- A file of one number a line fills the memory from its first word on. -/
theorem readmemh_lines {w n : ℕ} (hlines : ∀ line ∈ lines, Digits line) (hfits : lines.length ≤ n)
    (k : ℕ) :
    readmemh w n (TextFile.written lineEnd (TextFile.unlines lines)) k =
      lines[k]?.bind fun line => (value 0 line).map (BitVec.ofNat w) := by
  have hslash : ∀ c ∈ lines.flatMap fun line => line ++ lineEnd.chars, c ≠ '/' := by
    intro c hc
    obtain ⟨line, hline, hc⟩ := List.mem_flatMap.mp hc
    rcases List.mem_append.mp hc with hc | hc
    · exact ne_of_digit ((hlines line hline).digit c hc) rfl
    · rintro rfl
      exact absurd (is_white_line_end _ hc) (by decide)
  rw [readmemh, TextFile.written_unlines fun line hline => (hlines line hline).line_feed,
    uncomment_eq_self hslash, tokens_lines hlines, load_words hlines (by simpa using hfits)]
  rcases Nat.lt_or_ge k lines.length with hlt | hge
  · rw [if_pos (by simpa using hlt)]
    rfl
  · rw [if_neg (by simpa using hge), List.getElem?_eq_none hge]
    rfl

/-! ## Scanning rows -/

theorem all_dropWhile {p : Char → Bool} (text : Text) :
    (text.dropWhile p).all p = text.all p := by
  induction text with
  | nil => rfl
  | cons c text ih => cases hc : p c <;> simp [hc, ih]

theorem skip_white_skip_white (f : File) : skipWhite (skipWhite f) = skipWhite f := by
  simp only [skipWhite, all_dropWhile, Bool.or_assoc, Bool.or_self]
  rw [List.dropWhile_idempotent]

theorem scan_hex_skip_white (f : File) : scanHex (skipWhite f) = scanHex f := by
  simp only [scanHex, skip_white_skip_white]

/-- Before a number white space is skipped up to its first digit. -/
theorem skip_white_digits (ha : Digits a) (hb : ∀ e ∈ b, isWhite e = true) :
    skipWhite ⟨b ++ (a ++ rest), false⟩ = ⟨a ++ rest, false⟩ := by
  obtain ⟨d, a, rfl⟩ := List.exists_cons_of_ne_nil ha.ne_nil
  have hd : isWhite d = false := ha.white d List.mem_cons_self
  rw [skipWhite, List.dropWhile_append_of_pos hb, List.all_append]
  simp [hd]

/-- White space is skipped and the digits are taken. -/
theorem scan_hex_digits (ha : Digits a) (hd : isDigit d = false)
    (hb : ∀ e ∈ b, isWhite e = true) :
    scanHex ⟨b ++ (a ++ d :: rest), false⟩ = (some a, ⟨d :: rest, false⟩) := by
  have hdigits : ∀ e ∈ a, isDigit e = true := fun e he => is_digit_digit (ha.digit e he)
  have htake : (a ++ d :: rest).takeWhile isDigit = a := by
    rw [List.takeWhile_append_of_pos hdigits, List.takeWhile_cons_of_neg (by simp [hd]),
      List.append_nil]
  have hdrop : (a ++ d :: rest).dropWhile isDigit = d :: rest := by
    rw [List.dropWhile_append_of_pos hdigits, List.dropWhile_cons_of_neg (by simp [hd])]
  simp only [scanHex, skip_white_digits ha hb, htake, hdrop, if_neg ha.ne_nil]
  simp [hd]

/-- Three numbers in a line. -/
def rowText (row : Text × Text × Text) : Text :=
  row.1 ++ ' ' :: (row.2.1 ++ ' ' :: row.2.2)

def DigitRow (row : Text × Text × Text) : Prop :=
  Digits row.1 ∧ Digits row.2.1 ∧ Digits row.2.2

/-- A scan takes a row and the white space behind it. -/
theorem fscanf_row {row : Text × Text × Text} (hrow : DigitRow row) :
    fscanf ⟨rowText row ++ (lineEnd.chars ++ rest), false⟩ =
      (some row, skipWhite ⟨rest, false⟩) := by
  obtain ⟨hr, hg, hb⟩ := hrow
  have hspace : ∀ e ∈ [' '], isWhite e = true := by
    intro e he
    rw [List.mem_singleton.mp he]
    rfl
  obtain ⟨d, feed, hend, hd⟩ : ∃ d feed, lineEnd.chars = d :: feed ∧ isDigit d = false := by
    cases lineEnd with
    | lf => exact ⟨'\n', [], rfl, rfl⟩
    | crlf => exact ⟨'\r', ['\n'], rfl, rfl⟩
  have hfeed : ∀ e ∈ d :: feed, isWhite e = true := hend ▸ is_white_line_end
  have htext : rowText row ++ (lineEnd.chars ++ rest) =
      [] ++ (row.1 ++ ' ' :: (row.2.1 ++ ' ' :: (row.2.2 ++ d :: (feed ++ rest)))) := by
    simp [rowText, hend]
  have hfirst := @scan_hex_digits _ [] (row.2.1 ++ ' ' :: (row.2.2 ++ d :: (feed ++ rest))) ' '
    hr rfl (by simp)
  have hsecond := @scan_hex_digits _ [' '] (row.2.2 ++ d :: (feed ++ rest)) ' ' hg rfl hspace
  have hthird := @scan_hex_digits _ [' '] (feed ++ rest) d hb hd hspace
  have hlast : skipWhite ⟨d :: (feed ++ rest), false⟩ = skipWhite ⟨rest, false⟩ := by
    rw [skipWhite, skipWhite, ← List.cons_append, List.dropWhile_append_of_pos hfeed,
      List.all_append, List.all_eq_true.mpr hfeed, Bool.true_and]
  rw [htext, fscanf, hfirst]
  simp only [scan_hex_skip_white]
  rw [show (' ' :: (row.2.1 ++ ' ' :: (row.2.2 ++ d :: (feed ++ rest)))) =
    [' '] ++ (row.2.1 ++ ' ' :: (row.2.2 ++ d :: (feed ++ rest))) from rfl, hsecond]
  simp only
  rw [show (' ' :: (row.2.2 ++ d :: (feed ++ rest))) =
    [' '] ++ (row.2.2 ++ d :: (feed ++ rest)) from rfl, hthird]
  simp only [hlast]

theorem skip_white_row {row : Text × Text × Text} (hrow : DigitRow row) :
    skipWhite ⟨rowText row ++ rest, false⟩ = ⟨rowText row ++ rest, false⟩ := by
  rw [rowText, List.append_assoc]
  exact skip_white_digits (b := []) hrow.1 (by simp)

/-- The loop reads a file of rows, at least one, row by row and ends with the last. -/
theorem scans_rows {rows : List (Text × Text × Text)} (hrows : ∀ row ∈ rows, DigitRow row)
    (hne : rows ≠ []) {fuel : ℕ} (hfuel : rows.length < fuel) :
    scans fuel ⟨(rows.map rowText).flatMap fun line => line ++ lineEnd.chars, false⟩ =
      some (rows.map some) := by
  induction rows generalizing fuel with
  | nil => exact absurd rfl hne
  | cons row rows ih =>
      obtain ⟨fuel, rfl⟩ : ∃ m, fuel = m + 1 := ⟨fuel - 1, by omega⟩
      rw [List.length_cons] at hfuel
      rw [scans, if_neg Bool.false_ne_true, List.map_cons, List.flatMap_cons, List.append_assoc,
        fscanf_row (hrows row List.mem_cons_self)]
      have hrest : scans fuel (skipWhite
          ⟨(rows.map rowText).flatMap fun line => line ++ lineEnd.chars, false⟩) =
            some (rows.map some) := by
        cases rows with
        | nil =>
            obtain ⟨fuel, rfl⟩ : ∃ m, fuel = m + 1 := ⟨fuel - 1, by omega⟩
            rfl
        | cons next rows =>
            have hnext := hrows next (List.mem_cons_of_mem row List.mem_cons_self)
            rw [List.map_cons, List.flatMap_cons, List.append_assoc, skip_white_row hnext]
            have ih := ih (fun r hr => hrows r (List.mem_cons_of_mem row hr))
              (List.cons_ne_nil _ _) (Nat.lt_of_succ_lt_succ hfuel)
            rwa [List.map_cons, List.flatMap_cons, List.append_assoc] at ih
      simp only [hrest, Option.map_some, List.map_cons]

theorem length_le_lines (lines : List Text) :
    lines.length ≤ (lines.flatMap fun line => line ++ lineEnd.chars).length := by
  have hend : 0 < lineEnd.chars.length := by cases lineEnd <;> decide
  induction lines with
  | nil => exact Nat.zero_le _
  | cons line lines ih =>
      rw [List.flatMap_cons, List.length_append, List.length_append, List.length_cons]
      omega

/-- A file of rows is read row by row. -/
theorem scan_rows {rows : List (Text × Text × Text)} (hrows : ∀ row ∈ rows, DigitRow row)
    (hne : rows ≠ []) :
    scanAll (TextFile.written lineEnd (TextFile.unlines (rows.map rowText))) =
      some (rows.map some) := by
  have hfeed : ∀ line ∈ rows.map rowText, ∀ c ∈ line, c ≠ '\n' := by
    intro line hline c hc
    obtain ⟨row, hrow, rfl⟩ := List.mem_map.mp hline
    obtain ⟨hr, hg, hb⟩ := hrows row hrow
    simp only [rowText, List.mem_append, List.mem_cons] at hc
    rcases hc with hc | rfl | hc | rfl | hc
    · exact hr.line_feed c hc
    · decide
    · exact hg.line_feed c hc
    · decide
    · exact hb.line_feed c hc
  have hlength := @length_le_lines lineEnd (rows.map rowText)
  rw [List.length_map] at hlength
  rw [scanAll, TextFile.written_unlines hfeed]
  exact scans_rows hrows hne (by omega)

/-- A number of two digits. -/
theorem value_two_digits {u v : ℕ} (hu : u < 16) (hv : v < 16) :
    value 0 [Nat.digitChar u, Nat.digitChar v] = some (16 * u + v) := by
  have hne : ∀ n < 16, Nat.digitChar n ≠ '_' := by decide
  rw [value, if_neg (hne u hu), TextFile.digitValue_digitChar hu]
  simp only
  rw [value, if_neg (hne v hv), TextFile.digitValue_digitChar hv]
  simp [value]

end Digits

end CE213Lab.Foundation.SimulatorFile
