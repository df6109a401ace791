import Constituency.Text.Digits
import Constituency.Text.Lines
import Constituency.Rule

/-!
# Grammars as text

A grammar is written as statements `parent -> children probability;`, with blanks and comments
from `//` to the end of the line between tokens. The children are two names, one name or one
quoted word; the probability may be left out and is then one.

* `skip`: what stands between tokens.
* `name?`, `number?`, `terminal?`: the tokens at the head of a text, each as long as it can be.
* `readItems`, `readRule`, `readRules`: the statements.
-/

namespace Constituency.Reader
set_option autoImplicit false

/-! ## Between tokens -/

/-- Drops blanks and comments. A comment leaves the line feed behind it to the blanks. -/
def skip (text : List Char) : List Char :=
  match text with
  | '/' :: '/' :: rest => skip (rest.dropWhile (· ≠ '\n'))
  | c :: rest => if Text.isBlank c then skip rest else c :: rest
  | [] => []
termination_by text.length
decreasing_by
  · have := (List.dropWhile_suffix (l := rest) fun c => decide (c ≠ '\n')).length_le
    simp only [List.length_cons]
    omega
  · simp

theorem length_skip_le (text : List Char) : (skip text).length ≤ text.length := by
  fun_induction skip text with
  | case1 rest ih =>
    have := (List.dropWhile_suffix (l := rest) fun c => decide (c ≠ '\n')).length_le
    simp only [List.length_cons]
    omega
  | case2 c rest _ _ ih =>
    simp only [List.length_cons]
    omega
  | case3 => simp
  | case4 => simp

/-! ## Names -/

def isNameChar (c : Char) : Bool := !Text.isBlank c && c ≠ '"' && c ≠ ';'

def isNameStart (c : Char) : Bool := isNameChar c && !c.isDigit && c ≠ '-'

/-- The name at the head of a text, and what follows it. -/
def name? : List Char → Option (String × List Char)
  | [] => none
  | c :: rest =>
    if isNameStart c then
      some (String.ofList (c :: rest.takeWhile isNameChar), rest.dropWhile isNameChar)
    else none

theorem name?_shorter {text rest : List Char} {name : String}
    (h : name? text = some (name, rest)) : rest.length < text.length := by
  cases text with
  | nil => simp [name?] at h
  | cons c tail =>
    simp only [name?] at h
    split at h
    · have := (List.dropWhile_suffix (l := tail) isNameChar).length_le
      simp only [Option.some.injEq, Prod.mk.injEq] at h
      rw [← h.2, List.length_cons]
      omega
    · cases h

/-! ## Numbers -/

/-- The size of a power of ten. Once it has reached `2 ^ 16`, further digits do not count. -/
def exponentSize (digits : List Char) : Nat :=
  digits.foldl (fun n c => if n < 2 ^ 16 then 10 * n + Text.digit c else n) 0

/-- The run of digits at the head of a text and what follows, if there is a digit. -/
def digits? (text : List Char) : Option (List Char × List Char) :=
  match text.takeWhile Char.isDigit with
  | [] => none
  | digits => some (digits, text.dropWhile Char.isDigit)

/-- A power of ten at the head of a text; a mark without digits after it is none. -/
def exponent : List Char → Int × List Char
  | c :: rest =>
    if c = 'e' ∨ c = 'E' then
      let (negative, tail) :=
        match rest with
        | '-' :: tail => (true, tail)
        | '+' :: tail => (false, tail)
        | tail => (false, tail)
      match digits? tail with
      | some (digits, after) =>
        ((if negative then -(exponentSize digits : Int) else exponentSize digits), after)
      | none => (0, c :: rest)
    else (0, c :: rest)
  | [] => (0, [])

/-- Digits with or without a point in or before them: the point has to be followed by a digit. -/
def mantissa? (text : List Char) : Option (Decimal × List Char) :=
  let whole := text.takeWhile Char.isDigit
  let rest := text.dropWhile Char.isDigit
  let fraction? := match rest with
    | '.' :: tail => digits? tail
    | _ => none
  match fraction? with
  | some (fraction, after) => some (⟨Text.digitsValue (whole ++ fraction), -(fraction.length : Int)⟩, after)
  | none => if whole.isEmpty then none else some (⟨Text.digitsValue whole, 0⟩, rest)

/-- The number at the head of a text, and what follows it. -/
def number? (text : List Char) : Option (Decimal × List Char) :=
  match mantissa? text with
  | none => none
  | some (d, rest) =>
    let (power, after) := exponent rest
    some (⟨d.digits, d.power + power⟩, after)

theorem digits?_shorter {text digits rest : List Char} (h : digits? text = some (digits, rest)) :
    rest.length < text.length := by
  have hsplit : (text.takeWhile Char.isDigit).length + (text.dropWhile Char.isDigit).length =
      text.length := by
    rw [← List.length_append, List.takeWhile_append_dropWhile]
  unfold digits? at h
  split at h
  · cases h
  · rename_i hne
    simp only [Option.some.injEq, Prod.mk.injEq] at h
    rw [← h.2]
    have : 0 < (text.takeWhile Char.isDigit).length := List.length_pos_iff.2 hne
    omega

theorem length_exponent_le (text : List Char) : (exponent text).2.length ≤ text.length := by
  unfold exponent
  split
  · rename_i c rest
    split
    · split
      rename_i negative tail htail
      have hle : tail.length ≤ rest.length := by
        split at htail <;> cases htail <;> simp
      split
      · rename_i digits after hd
        have := digits?_shorter hd
        simp only [List.length_cons]
        omega
      · simp
    · simp
  · simp

theorem mantissa?_shorter {text rest : List Char} {d : Decimal}
    (h : mantissa? text = some (d, rest)) : rest.length < text.length := by
  have hsplit : (text.takeWhile Char.isDigit).length + (text.dropWhile Char.isDigit).length =
      text.length := by
    rw [← List.length_append, List.takeWhile_append_dropWhile]
  simp only [mantissa?] at h
  split at h
  · rename_i fraction after hf
    split at hf
    · rename_i tail htail
      have := digits?_shorter hf
      have hlen := congrArg List.length htail
      simp only [List.length_cons] at hlen
      simp only [Option.some.injEq, Prod.mk.injEq] at h
      rw [← h.2]
      omega
    · cases hf
  · split at h
    · cases h
    · rename_i hne
      simp only [Option.some.injEq, Prod.mk.injEq] at h
      rw [← h.2]
      have : 0 < (text.takeWhile Char.isDigit).length := by
        rw [List.length_pos_iff]
        simpa using hne
      omega

theorem number?_shorter {text rest : List Char} {d : Decimal}
    (h : number? text = some (d, rest)) : rest.length < text.length := by
  unfold number? at h
  split at h
  · cases h
  · rename_i m after hm
    have hlt := mantissa?_shorter hm
    have hle := length_exponent_le after
    simp only [Option.some.injEq, Prod.mk.injEq] at h
    rw [← h.2]
    omega

/-! ## Terminals -/

/-- The characters up to the closing quote, in reverse, and what follows it. A backslash makes the
next character plain, whatever it is, but a line may not end in one. -/
def terminalBody : List Char → List Char → Option (List Char × List Char)
  | [], _ => none
  | '"' :: rest, word => some (word, rest)
  | '\\' :: c :: rest, word => if c = '\n' then none else terminalBody rest (c :: word)
  | c :: rest, word => if c = '\\' then none else terminalBody rest (c :: word)

/-- The quoted word at the head of a text, and what follows it. -/
def terminal? : List Char → Option (String × List Char)
  | '"' :: rest => (terminalBody rest []).map fun (word, after) => (String.ofList word.reverse, after)
  | _ => none

theorem terminalBody_shorter {text acc word rest : List Char}
    (h : terminalBody text acc = some (word, rest)) : rest.length < text.length := by
  fun_induction terminalBody text acc with
  | case1 => cases h
  | case2 => simp_all
  | case3 => cases h
  | case4 c tail acc hc ih =>
    have := ih h
    simp only [List.length_cons]
    omega
  | case5 => cases h
  | case6 c tail acc _ _ hc ih =>
    have := ih h
    simp only [List.length_cons]
    omega

theorem terminal?_shorter {text rest : List Char} {word : String}
    (h : terminal? text = some (word, rest)) : rest.length < text.length := by
  unfold terminal? at h
  split at h
  · rename_i tail
    simp only [Option.map_eq_some_iff, Prod.exists, Prod.mk.injEq] at h
    obtain ⟨w, after, hbody, _, rfl⟩ := h
    have := terminalBody_shorter hbody
    simp only [List.length_cons]
    omega
  · cases h

/-! ## Statements -/

/-- A child as it is written. -/
inductive Item where
  | symbol (name : String)
  | terminal (word : String)

/-- The token at the head of a statement's rest: a quote starts a terminal, and a number is tried
before a name. -/
inductive Token where
  | item (i : Item)
  | probability (d : Decimal)

def token (parent : String) (text : List Char) : Except Malformed (Token × List Char) :=
  match text with
  | '"' :: _ =>
    match terminal? text with
    | some (word, rest) => .ok (.item (.terminal word), rest)
    | none => .error (.openTerminal (Text.firstLine text))
  | _ =>
    match number? text with
    | some (d, rest) => .ok (.probability d, rest)
    | none =>
      match name? text with
      | some (name, rest) => .ok (.item (.symbol name), rest)
      | none => .error (.noSymbol parent (Text.firstLine text))

theorem token_shorter {parent : String} {text rest : List Char} {t : Token}
    (h : token parent text = .ok (t, rest)) : rest.length < text.length := by
  unfold token at h
  split at h
  · split at h
    · rename_i ht
      cases h
      exact terminal?_shorter ht
    · cases h
  · split at h
    · rename_i hn
      cases h
      exact number?_shorter hn
    · split at h
      · rename_i hn
        cases h
        exact name?_shorter hn
      · cases h

/-- The children up to the semicolon, and a probability if one stands right before it. -/
def readItems (parent : String) (text : List Char) (items : List Item) :
    Except Malformed ((List Item × Option Decimal) × List Char) :=
  match hs : skip text with
  | ';' :: rest => .ok ((items.reverse, none), rest)
  | head =>
    match ht : token parent head with
    | .error e => .error e
    | .ok (.item i, rest) =>
      have : rest.length < text.length := by
        have h1 := token_shorter ht
        have h2 := length_skip_le text
        rw [hs] at h2
        omega
      readItems parent rest (i :: items)
    | .ok (.probability d, rest) =>
      match skip rest with
      | ';' :: after => .ok ((items.reverse, some d), after)
      | other => .error (.afterProbability parent (Text.firstLine other))
termination_by text.length

def childrenOf (parent : String) : List Item → Except Malformed Children
  | [.symbol left, .symbol right] => .ok (.binary left right)
  | [.symbol child] => .ok (.unary child)
  | [.terminal word] => .ok (.lexical word)
  | [] => .error (.noChildren parent)
  | _ => .error (.mixedChildren parent)

/-- The probability of a rule that states none. -/
def certain : Decimal := ⟨1, 0⟩

def readRule (text : List Char) : Except Malformed (Rule × List Char) :=
  match name? text with
  | none => .error (.noParent (Text.firstLine text))
  | some (parent, rest) =>
    match skip rest with
    | '-' :: '>' :: body =>
      match readItems parent body [] with
      | .error e => .error e
      | .ok ((items, probability), after) =>
        match childrenOf parent items with
        | .error e => .error e
        | .ok children =>
          .ok (Rule.weighted parent children (Rounded.ofDecimal false (probability.getD certain)), after)
    | other => .error (.noArrow (Text.firstLine other))

theorem readItems_shorter {parent : String} {text rest : List Char} {items : List Item}
    {result : List Item × Option Decimal} (h : readItems parent text items = .ok (result, rest)) :
    rest.length < text.length := by
  fun_induction readItems parent text items with
  | case1 text items after hs =>
    have := length_skip_le text
    rw [hs] at this
    simp only [List.length_cons] at this
    cases h
    omega
  | case2 => cases h
  | case3 text items i after _ ht hshorter ih => exact Nat.lt_trans (ih h) hshorter
  | case4 text items d after tail hskip _ ht =>
    have h1 := token_shorter ht
    have h2 := length_skip_le text
    have h3 := length_skip_le after
    rw [hskip] at h3
    simp only [List.length_cons] at h3
    cases h
    omega
  | case5 => cases h

theorem readRule_shorter {text rest : List Char} {rule : Rule}
    (h : readRule text = .ok (rule, rest)) : rest.length < text.length := by
  unfold readRule at h
  split at h
  · cases h
  · rename_i parent after hn
    have h1 := name?_shorter hn
    have h2 := length_skip_le after
    split at h
    · rename_i body hs
      rw [hs] at h2
      simp only [List.length_cons] at h2
      split at h
      · cases h
      · rename_i items probability tail hi
        have h3 := readItems_shorter hi
        split at h
        · cases h
        · cases h
          omega
    · cases h

/-- The statements of a text, after those already read. -/
def readRules (text : List Char) (rules : List Rule) : Except Malformed (List Rule) :=
  match hs : skip text with
  | [] => .ok rules.reverse
  | head =>
    match hr : readRule head with
    | .error e => .error e
    | .ok (rule, rest) =>
      have : rest.length < text.length := by
        have h1 := readRule_shorter hr
        have h2 := length_skip_le text
        rw [hs] at h2
        omega
      readRules rest (rule :: rules)
termination_by text.length

def read (text : String) : Except Error (List Rule) :=
  match readRules text.toList [] with
  | .ok rules => .ok rules
  | .error e => .error (.malformed e)

end Constituency.Reader
