import Constituency.Grammar.Reader
import Mathlib.Data.List.TakeWhile

/-! # The tokens of a grammar text

What stands between tokens, a name and a number are each the longest beginning of a text that has
the right form, and a quoted word ends at the first quote that is not escaped. The forms are stated
here on their own, and the functions that read tokens are proved to find exactly them.

* `Longest`: the longest beginning of a text that has a form.
* `Gap`, `skips_iff`: blanks and comments.
* `IsName`, `nameAt_iff`: names.
* `Quoted`, `terminalAt_iff`: quoted words, with what they stand for.
* `Numeral`, `numberAt_iff`: numbers, with their values. -/

namespace Constituency.Reader
set_option autoImplicit false

/-! ## Longest beginnings -/

/-- The longest beginning of `text` that has a form is `token`, and `rest` follows it. -/
structure Longest (form : List Char → Prop) (text token rest : List Char) : Prop where
  text_eq : text = token ++ rest
  has_form : form token
  longest : ∀ token' rest', text = token' ++ rest' → form token' → rest.length ≤ rest'.length

variable {form : List Char → Prop} {text token rest : List Char}

theorem Longest.unique {token' rest' : List Char} (h : Longest form text token rest)
    (h' : Longest form text token' rest') : token = token' ∧ rest = rest' := by
  have hle := h.longest token' rest' h'.text_eq h'.has_form
  have hle' := h'.longest token rest h.text_eq h.has_form
  have htext := h.text_eq.symm.trans h'.text_eq
  exact List.append_inj' htext (Nat.le_antisymm hle hle')

/-! ## Between tokens -/

/-- Blanks and comments. A comment is two slashes and whatever follows them in their line. -/
inductive Gap : List Char → Prop
  | nil : Gap []
  | blank {c : Char} {gap : List Char} (hc : Text.isBlank c = true) (hgap : Gap gap) : Gap (c :: gap)
  | comment {body gap : List Char} (hbody : '\n' ∉ body) (hgap : Gap gap) :
      Gap ('/' :: '/' :: (body ++ gap))

/-- What is left of a text after the longest gap at its head. -/
def Skips (text rest : List Char) : Prop := ∃ gap, Longest Gap text gap rest

theorem skip_blank {c : Char} (hc : Text.isBlank c = true) (text : List Char) :
    skip (c :: text) = skip text := by
  rw [skip.eq_def]
  split
  · rename_i rest heq
    obtain ⟨rfl, -⟩ := List.cons.inj heq
    exact absurd hc (by decide)
  · rename_i c' rest hslash heq
    obtain ⟨rfl, rfl⟩ := List.cons.inj heq
    rw [if_pos hc]
  · rename_i heq
    cases heq

theorem skip_comment (text : List Char) :
    skip ('/' :: '/' :: text) = skip (text.dropWhile (· ≠ '\n')) := by
  rw [skip.eq_def]
  rfl

theorem exists_gap (text : List Char) : ∃ gap, Gap gap ∧ text = gap ++ skip text := by
  fun_induction skip text with
  | case1 rest ih =>
    obtain ⟨gap, hgap, heq⟩ := ih
    refine ⟨'/' :: '/' :: (rest.takeWhile (· ≠ '\n') ++ gap), .comment ?_ hgap, ?_⟩
    · intro hmem
      simpa using List.mem_takeWhile_imp hmem
    · rw [List.cons_append, List.cons_append, List.append_assoc, ← heq,
        List.takeWhile_append_dropWhile]
  | case2 c rest hslash hblank ih =>
    obtain ⟨gap, hgap, heq⟩ := ih
    exact ⟨c :: gap, .blank hblank hgap, by rw [List.cons_append, ← heq]⟩
  | case3 c rest hslash hblank => exact ⟨[], .nil, rfl⟩
  | case4 => exact ⟨[], .nil, rfl⟩

/-- Skipping goes past every gap at the head of a text. A comment may run past the end of its gap,
so the same is shown of the text from the end of the line on. -/
theorem length_skip_append_le {gap : List Char} (h : Gap gap) (rest : List Char) :
    (skip (gap ++ rest)).length ≤ rest.length ∧
      (skip ((gap ++ rest).dropWhile (· ≠ '\n'))).length ≤ rest.length := by
  induction h with
  | nil =>
    have hdrop := List.length_dropWhile_le (fun c => decide (c ≠ '\n')) rest
    exact ⟨length_skip_le rest, Nat.le_trans (length_skip_le _) hdrop⟩
  | @blank c gap hc hgap ih =>
    rw [List.cons_append]
    refine ⟨?_, ?_⟩
    · rw [skip_blank hc]
      exact ih.1
    · by_cases hline : c = '\n'
      · rw [List.dropWhile_cons_of_neg (by simp [hline]), skip_blank hc]
        exact ih.1
      · rw [List.dropWhile_cons_of_pos (by simp [hline])]
        exact ih.2
  | @comment body gap hbody hgap ih =>
    have hdrop : ((body ++ gap) ++ rest).dropWhile (fun c => decide (c ≠ '\n')) =
        (gap ++ rest).dropWhile fun c => decide (c ≠ '\n') := by
      rw [List.append_assoc, List.dropWhile_append_of_pos]
      intro c hc
      have hne : c ≠ '\n' := fun heq => hbody (heq ▸ hc)
      simpa using hne
    rw [List.cons_append, List.cons_append]
    refine ⟨?_, ?_⟩
    · rw [skip_comment, hdrop]
      exact ih.2
    · rw [List.dropWhile_cons_of_pos (by decide), List.dropWhile_cons_of_pos (by decide), hdrop]
      exact ih.2

theorem skips_iff : Skips text rest ↔ skip text = rest := by
  obtain ⟨gap, hgap, heq⟩ := exists_gap text
  have hlongest : Longest Gap text gap (skip text) := by
    refine ⟨heq, hgap, fun gap' rest' heq' hgap' => ?_⟩
    rw [heq']
    exact (length_skip_append_le hgap' rest').1
  constructor
  · rintro ⟨gap', h⟩
    exact (hlongest.unique h).2
  · rintro rfl
    exact ⟨gap, hlongest⟩

/-! ## Names -/

/-- A character that may stand in a name. -/
def Plain (c : Char) : Prop := Text.isBlank c = false ∧ c ≠ '"' ∧ c ≠ ';'

theorem isNameChar_iff (c : Char) : isNameChar c = true ↔ Plain c := by
  simp [isNameChar, Plain, and_assoc]

inductive IsName : List Char → Prop
  | mk {c : Char} {cs : List Char} (plain : Plain c) (not_digit : c.isDigit = false)
      (not_minus : c ≠ '-') (plains : ∀ d ∈ cs, Plain d) : IsName (c :: cs)

/-- The longest name at the head of a text. -/
def NameAt (text : List Char) (name : String) (rest : List Char) : Prop :=
  ∃ token, Longest IsName text token rest ∧ String.ofList token = name

theorem longest_name {c : Char} {cs : List Char} (h : isNameStart c = true) :
    Longest IsName (c :: cs) (c :: cs.takeWhile isNameChar) (cs.dropWhile isNameChar) := by
  simp only [isNameStart, Bool.and_eq_true, Bool.not_eq_true', decide_eq_true_eq] at h
  obtain ⟨⟨hplain, hdigit⟩, hminus⟩ := h
  refine ⟨?_, ?_, ?_⟩
  · rw [List.cons_append, List.takeWhile_append_dropWhile]
  · refine .mk ((isNameChar_iff c).1 hplain) hdigit hminus fun d hd => ?_
    exact (isNameChar_iff d).1 (List.mem_takeWhile_imp hd)
  · intro token' rest' heq hform
    cases hform with
    | @mk c' cs' _ _ _ hplains =>
      have hcs : cs = cs' ++ rest' := (List.cons.inj heq).2
      rw [hcs, List.dropWhile_append_of_pos fun d hd => (isNameChar_iff d).2 (hplains d hd)]
      exact List.length_dropWhile_le isNameChar rest'

theorem nameAt_iff {name : String} : NameAt text name rest ↔ name? text = some (name, rest) := by
  constructor
  · rintro ⟨token, h, rfl⟩
    obtain ⟨hplain, hdigit, hminus, hplains⟩ := h.has_form
    rename_i c cs
    have hstart : isNameStart c = true := by
      simp [isNameStart, (isNameChar_iff c).2 hplain, hdigit, hminus]
    obtain rfl : text = c :: (cs ++ rest) := h.text_eq
    obtain ⟨htoken, hrest⟩ := (longest_name hstart).unique h
    simp only [name?, hstart, if_true, htoken, hrest]
  · intro h
    cases text with
    | nil => cases h
    | cons c cs =>
      simp only [name?] at h
      split at h
      · rename_i hstart
        cases h
        exact ⟨_, longest_name hstart, rfl⟩
      · cases h

/-! ## Quoted words -/

/-- What stands between quotes, and the word it stands for. A backslash makes the next character
plain, but the end of a line cannot be escaped. -/
inductive Quoted : List Char → List Char → Prop
  | nil : Quoted [] []
  | plain {c : Char} {body word : List Char} (hquote : c ≠ '"') (hslash : c ≠ '\\')
      (h : Quoted body word) : Quoted (c :: body) (c :: word)
  | escaped {c : Char} {body word : List Char} (hline : c ≠ '\n') (h : Quoted body word) :
      Quoted ('\\' :: c :: body) (c :: word)

def TerminalAt (text : List Char) (word : String) (rest : List Char) : Prop :=
  ∃ body letters, Quoted body letters ∧ text = '"' :: (body ++ '"' :: rest) ∧
    String.ofList letters = word

theorem terminalBody_append {body letters : List Char} (h : Quoted body letters)
    (rest word : List Char) :
    terminalBody (body ++ '"' :: rest) word = some (letters.reverse ++ word, rest) := by
  induction h generalizing word with
  | nil => rfl
  | @plain c body letters hquote hslash h ih =>
    rw [List.cons_append, terminalBody, if_neg hslash, ih]
    · simp
    · exact hquote
    · intro c' rest' hc _
      exact hslash hc
  | @escaped c body letters hline h ih =>
    rw [List.cons_append, List.cons_append, terminalBody, if_neg hline, ih]
    simp

theorem quoted_of_terminalBody {word result : List Char}
    (h : terminalBody text word = some (result, rest)) :
    ∃ body letters, Quoted body letters ∧ text = body ++ '"' :: rest ∧
      result = letters.reverse ++ word := by
  fun_induction terminalBody text word with
  | case1 => cases h
  | case2 tail word =>
    cases h
    exact ⟨[], [], .nil, rfl, rfl⟩
  | case3 => cases h
  | case4 c tail word hline ih =>
    obtain ⟨body, letters, hquoted, rfl, rfl⟩ := ih h
    exact ⟨'\\' :: c :: body, c :: letters, .escaped hline hquoted, rfl, by simp⟩
  | case5 => cases h
  | case6 c tail word hquote hpair hslash ih =>
    obtain ⟨body, letters, hquoted, rfl, rfl⟩ := ih h
    exact ⟨c :: body, c :: letters, .plain (fun heq => hquote heq) hslash hquoted, rfl, by simp⟩

theorem terminalAt_iff {word : String} :
    TerminalAt text word rest ↔ terminal? text = some (word, rest) := by
  constructor
  · rintro ⟨body, letters, hquoted, rfl, rfl⟩
    simp [terminal?, terminalBody_append hquoted]
  · intro h
    unfold terminal? at h
    split at h
    · rename_i tail
      simp only [Option.map_eq_some_iff, Prod.exists, Prod.mk.injEq] at h
      obtain ⟨result, after, hbody, rfl, rfl⟩ := h
      obtain ⟨body, letters, hquoted, rfl, rfl⟩ := quoted_of_terminalBody hbody
      exact ⟨body, letters, hquoted, rfl, by simp⟩
    · cases h

/-! ## Numbers -/

def Digits (cs : List Char) : Prop := ∀ c ∈ cs, c.isDigit = true

/-- Digits with or without a point in or before them. -/
structure Mantissa where
  whole : List Char
  point : Bool
  last : List Char
  whole_digits : Digits whole
  last_digits : Digits last
  last_ne : last ≠ []

def Mantissa.chars (m : Mantissa) : List Char :=
  m.whole ++ ((if m.point then ['.'] else []) ++ m.last)

/-- The digits after the point count for tenths. -/
def Mantissa.value (m : Mantissa) : Decimal :=
  ⟨Text.spellFrom 0 (m.whole ++ m.last), if m.point then -(m.last.length : Int) else 0⟩

/-- A power of ten, with or without a sign. -/
structure Exponent where
  mark : Char
  sign : List Char
  digits : List Char
  mark_eq : mark = 'e' ∨ mark = 'E'
  sign_eq : sign = [] ∨ sign = ['+'] ∨ sign = ['-']
  digits_digits : Digits digits
  digits_ne : digits ≠ []

def Exponent.chars (e : Exponent) : List Char := e.mark :: (e.sign ++ e.digits)

def Exponent.value (e : Exponent) : Int :=
  if e.sign = ['-'] then -(exponentSize e.digits : Int) else exponentSize e.digits

structure Numeral where
  mantissa : Mantissa
  exponent? : Option Exponent

namespace Numeral

def tail (n : Numeral) : List Char := n.exponent?.elim [] Exponent.chars

def chars (n : Numeral) : List Char := n.mantissa.chars ++ n.tail

def value (n : Numeral) : Decimal :=
  ⟨n.mantissa.value.digits, n.mantissa.value.power + n.exponent?.elim 0 Exponent.value⟩

end Numeral

/-- The longest number at the head of a text. -/
def NumberAt (text : List Char) (d : Decimal) (rest : List Char) : Prop :=
  ∃ n : Numeral, Longest (fun token => ∃ n : Numeral, n.chars = token) text n.chars rest ∧
    n.value = d

/-! ### Digits -/

/-- No digit follows. -/
def Stops (rest : List Char) : Prop := ∀ c, rest.head? = some c → c.isDigit = false

theorem Stops.takeWhile_eq (h : Stops rest) : rest.takeWhile Char.isDigit = [] := by
  cases rest with
  | nil => rfl
  | cons c cs => rw [List.takeWhile_cons_of_neg (by simp [h c rfl])]

theorem Stops.dropWhile_eq (h : Stops rest) : rest.dropWhile Char.isDigit = rest := by
  cases rest with
  | nil => rfl
  | cons c cs => rw [List.dropWhile_cons_of_neg (by simp [h c rfl])]

theorem digits?_append {digits : List Char} (hdigits : Digits digits) (hne : digits ≠ [])
    (rest : List Char) : digits? (digits ++ rest) =
      some (digits ++ rest.takeWhile Char.isDigit, rest.dropWhile Char.isDigit) := by
  unfold digits?
  rw [List.takeWhile_append_of_pos hdigits, List.dropWhile_append_of_pos hdigits]
  split
  · rename_i heq
    exact absurd (List.append_eq_nil_iff.1 heq).1 hne
  · rfl

theorem digits?_eq_some {digits : List Char} (h : digits? text = some (digits, rest)) :
    text = digits ++ rest ∧ Digits digits ∧ digits ≠ [] := by
  unfold digits? at h
  split at h
  · cases h
  · rename_i hne
    cases h
    exact ⟨List.takeWhile_append_dropWhile.symm, fun c => List.mem_takeWhile_imp, hne⟩

/-! ### Powers of ten -/

/-- A power of ten also takes the digits that follow it. -/
theorem exponent_append (e : Exponent) (rest : List Char) :
    exponent (e.chars ++ rest) =
      ((if e.sign = ['-'] then -(exponentSize (e.digits ++ rest.takeWhile Char.isDigit) : Int)
        else exponentSize (e.digits ++ rest.takeWhile Char.isDigit)),
        rest.dropWhile Char.isDigit) := by
  obtain ⟨mark, sign, digits, hmark, hsign, hdigits, hne⟩ := e
  have hread := digits?_append hdigits hne rest
  simp only [Exponent.chars, List.cons_append, exponent, if_pos hmark]
  rcases hsign with rfl | rfl | rfl
  · obtain ⟨c, cs, rfl⟩ := List.exists_cons_of_ne_nil hne
    have hc : c.isDigit = true := hdigits c List.mem_cons_self
    have hminus : c ≠ '-' := by
      rintro rfl
      exact absurd hc (by decide)
    have hplus : c ≠ '+' := by
      rintro rfl
      exact absurd hc (by decide)
    rw [List.cons_append] at hread
    simp [hread, hminus, hplus]
  · simp [hread]
  · simp [hread]

/-- A power of ten is read whole or not at all. -/
theorem exponent_cases (text : List Char) : exponent text = (0, text) ∨
    ∃ (e : Exponent) (rest : List Char), text = e.chars ++ rest ∧ exponent text = (e.value, rest) := by
  unfold exponent
  split
  · rename_i c cs
    split
    · rename_i hmark
      split
      rename_i negative tail htail
      split
      · rename_i digits after hread
        obtain ⟨rfl, hdigits, hne⟩ := digits?_eq_some hread
        right
        split at htail
        · cases htail
          exact ⟨⟨c, ['-'], digits, hmark, by simp, hdigits, hne⟩, after, rfl, rfl⟩
        · cases htail
          exact ⟨⟨c, ['+'], digits, hmark, by simp, hdigits, hne⟩, after, rfl, rfl⟩
        · cases htail
          exact ⟨⟨c, [], digits, hmark, by simp, hdigits, hne⟩, after, rfl, rfl⟩
      · exact .inl rfl
    · exact .inl rfl
  · exact .inl rfl

/-! ### Mantissas -/

theorem mantissa?_of_point (m : Mantissa) (hpoint : m.point = true) (rest : List Char) :
    mantissa? (m.chars ++ rest) =
      some (⟨Text.spellFrom 0 (m.whole ++ (m.last ++ rest.takeWhile Char.isDigit)),
        -((m.last ++ rest.takeWhile Char.isDigit).length : Int)⟩, rest.dropWhile Char.isDigit) := by
  have hchars : m.chars ++ rest = m.whole ++ '.' :: (m.last ++ rest) := by
    simp [Mantissa.chars, hpoint]
  have htake : (m.whole ++ '.' :: (m.last ++ rest)).takeWhile Char.isDigit = m.whole := by
    rw [List.takeWhile_append_of_pos m.whole_digits, List.takeWhile_cons_of_neg (by decide),
      List.append_nil]
  have hdrop : (m.whole ++ '.' :: (m.last ++ rest)).dropWhile Char.isDigit =
      '.' :: (m.last ++ rest) := by
    rw [List.dropWhile_append_of_pos m.whole_digits, List.dropWhile_cons_of_neg (by decide)]
  simp only [hchars, mantissa?, htake, hdrop, digits?_append m.last_digits m.last_ne,
    Text.digitsValue_eq]

/-- Digits are followed by a fraction or are a mantissa by themselves. -/
theorem mantissa?_of_digits {digits : List Char} (hdigits : Digits digits) (hne : digits ≠ [])
    (rest : List Char) :
    ∃ d after, mantissa? (digits ++ rest) = some (d, after) ∧ after.length ≤ rest.length ∧
      (Stops rest → rest.head? ≠ some '.' → d = ⟨Text.spellFrom 0 digits, 0⟩ ∧ after = rest) := by
  have hdrop := List.length_dropWhile_le Char.isDigit rest
  simp only [mantissa?, List.takeWhile_append_of_pos hdigits, List.dropWhile_append_of_pos hdigits,
    Text.digitsValue_eq]
  split
  · rename_i fraction after hfraction
    split at hfraction
    · rename_i tail htail
      have hlt := digits?_shorter hfraction
      rw [htail, List.length_cons] at hdrop
      refine ⟨_, _, rfl, by omega, fun hstops hhead => ?_⟩
      rw [hstops.dropWhile_eq] at htail
      exact absurd (by rw [htail]; rfl) hhead
    · cases hfraction
  · rw [if_neg (by simp [hne])]
    refine ⟨_, _, rfl, hdrop, fun hstops _ => ?_⟩
    rw [hstops.takeWhile_eq, hstops.dropWhile_eq, List.append_nil]
    exact ⟨rfl, rfl⟩

theorem mantissa?_append (m : Mantissa) (rest : List Char) :
    ∃ d after, mantissa? (m.chars ++ rest) = some (d, after) ∧ after.length ≤ rest.length ∧
      (Stops rest → rest.head? ≠ some '.' → d = m.value ∧ after = rest) := by
  cases hpoint : m.point with
  | true =>
    refine ⟨_, _, mantissa?_of_point m hpoint rest, List.length_dropWhile_le _ rest, fun hstops _ => ?_⟩
    rw [hstops.takeWhile_eq, hstops.dropWhile_eq, List.append_nil]
    exact ⟨by simp [Mantissa.value, hpoint], rfl⟩
  | false =>
    have hdigits : Digits (m.whole ++ m.last) := by
      intro c hc
      exact (List.mem_append.1 hc).elim (m.whole_digits c) (m.last_digits c)
    have hread := mantissa?_of_digits hdigits (by simp [m.last_ne]) rest
    simpa [Mantissa.chars, Mantissa.value, hpoint] using hread

theorem mantissa?_eq_some {d : Decimal} (h : mantissa? text = some (d, rest)) :
    ∃ m : Mantissa, text = m.chars ++ rest ∧ m.value = d := by
  have hsplit : text.takeWhile Char.isDigit ++ text.dropWhile Char.isDigit = text :=
    List.takeWhile_append_dropWhile
  have hwhole : Digits (text.takeWhile Char.isDigit) := fun c => List.mem_takeWhile_imp
  simp only [mantissa?, Text.digitsValue_eq] at h
  split at h
  · rename_i fraction after hfraction
    cases h
    split at hfraction
    · rename_i tail htail
      obtain ⟨rfl, hdigits, hne⟩ := digits?_eq_some hfraction
      refine ⟨⟨_, true, fraction, hwhole, hdigits, hne⟩, ?_, rfl⟩
      rw [htail] at hsplit
      simpa [Mantissa.chars] using hsplit.symm
    · cases hfraction
  · split at h
    · cases h
    · rename_i hne
      cases h
      refine ⟨⟨[], false, _, by simp [Digits], hwhole, by simpa using hne⟩, ?_, rfl⟩
      exact hsplit.symm

/-! ### Numbers as a whole -/

theorem number?_of_mantissa {d : Decimal} (h : mantissa? text = some (d, rest)) :
    number? text = some (⟨d.digits, d.power + (exponent rest).1⟩, (exponent rest).2) := by
  simp only [number?, h]

theorem number?_append (n : Numeral) (rest : List Char) :
    ∃ d after, number? (n.chars ++ rest) = some (d, after) ∧ after.length ≤ rest.length ∧
      (rest = [] → d = n.value) := by
  obtain ⟨m, e?⟩ := n
  cases e? with
  | none =>
    obtain ⟨d, after, hread, hle, hexact⟩ := mantissa?_append m rest
    have hchars : Numeral.chars ⟨m, none⟩ ++ rest = m.chars ++ rest := by
      simp [Numeral.chars, Numeral.tail]
    rw [hchars]
    refine ⟨_, _, number?_of_mantissa hread, Nat.le_trans (length_exponent_le after) hle, ?_⟩
    rintro rfl
    obtain ⟨rfl, rfl⟩ := hexact (by simp [Stops]) (by simp)
    rfl
  | some e =>
    -- The mark ends the mantissa, so what is left for the power of ten is all of it.
    obtain ⟨d, after, hread, -, hexact⟩ := mantissa?_append m (e.chars ++ rest)
    have hmark : e.mark.isDigit = false ∧ e.mark ≠ '.' := by
      rcases e.mark_eq with h | h <;> rw [h] <;> decide
    have hstops : Stops (e.chars ++ rest) := by
      intro c hc
      cases hc
      exact hmark.1
    have hpoint : (e.chars ++ rest).head? ≠ some '.' := by
      intro hc
      exact hmark.2 (Option.some.inj hc)
    obtain ⟨rfl, rfl⟩ := hexact hstops hpoint
    have hchars : Numeral.chars ⟨m, some e⟩ ++ rest = m.chars ++ (e.chars ++ rest) := by
      simp [Numeral.chars, Numeral.tail]
    rw [hchars, number?_of_mantissa hread, exponent_append]
    refine ⟨_, _, rfl, List.length_dropWhile_le _ rest, ?_⟩
    rintro rfl
    simp [Numeral.value, Exponent.value]

theorem number?_eq_some {d : Decimal} (h : number? text = some (d, rest)) :
    ∃ n : Numeral, text = n.chars ++ rest ∧ n.value = d := by
  cases hread : mantissa? text with
  | none => simp [number?, hread] at h
  | some result =>
    obtain ⟨d', after⟩ := result
    obtain ⟨m, rfl, rfl⟩ := mantissa?_eq_some hread
    rw [number?_of_mantissa hread] at h
    rcases exponent_cases after with hexp | ⟨e, rest', rfl, hexp⟩
    · rw [hexp] at h
      cases h
      exact ⟨⟨m, none⟩, by simp [Numeral.chars, Numeral.tail], rfl⟩
    · rw [hexp] at h
      cases h
      exact ⟨⟨m, some e⟩, by simp [Numeral.chars, Numeral.tail], rfl⟩

theorem longest_number {d : Decimal} (h : number? text = some (d, rest)) : NumberAt text d rest := by
  obtain ⟨n, heq, hvalue⟩ := number?_eq_some h
  refine ⟨n, ⟨heq, ⟨n, rfl⟩, ?_⟩, hvalue⟩
  rintro token' rest' heq' ⟨n', rfl⟩
  obtain ⟨d', after, hread, hle, -⟩ := number?_append n' rest'
  rw [← heq', h] at hread
  cases hread
  exact hle

/-- Numbers that are written alike have the same value. -/
theorem Numeral.value_eq_of_chars {n n' : Numeral} (h : n.chars = n'.chars) :
    n.value = n'.value := by
  obtain ⟨d, after, hread, -, hvalue⟩ := number?_append n []
  obtain ⟨d', after', hread', -, hvalue'⟩ := number?_append n' []
  rw [h, hread'] at hread
  cases hread
  rw [← hvalue rfl, hvalue' rfl]

theorem numberAt_iff {d : Decimal} : NumberAt text d rest ↔ number? text = some (d, rest) := by
  constructor
  · rintro ⟨n, h, rfl⟩
    obtain ⟨d, after, hread, -, -⟩ := number?_append n rest
    rw [← h.text_eq] at hread
    obtain ⟨n', h', hvalue⟩ := longest_number hread
    obtain ⟨hchars, hrest⟩ := h.unique h'
    rw [hread, ← hvalue, Numeral.value_eq_of_chars hchars, hrest]
  · exact longest_number

theorem number?_eq_none_iff :
    number? text = none ↔ ∀ (n : Numeral) (rest : List Char), text ≠ n.chars ++ rest := by
  constructor
  · rintro h n rest rfl
    obtain ⟨d, after, hread, -⟩ := number?_append n rest
    rw [h] at hread
    cases hread
  · intro h
    cases hread : number? text with
    | none => rfl
    | some result =>
      obtain ⟨d, rest⟩ := result
      obtain ⟨n, heq, -⟩ := number?_eq_some hread
      exact absurd heq (h n rest)

end Constituency.Reader
