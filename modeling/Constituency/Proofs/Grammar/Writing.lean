import Constituency.Proofs.Grammar.Format

/-! # Grammars written as text

Rules are written as statements of the format, one behind the other, and the text is read again. All
of a rule comes back, whatever its words and however its probability is written, but for one kind of
name: where a child may stand, a point and a digit begin a number. A child whose name begins with
them is lost, while a parent of that name is not.

* `Clause.chars`, `written`: the text of rules with their probabilities as they are written.
* `Proper`, `Pointed`: names that can be written, and those among them that are taken for numbers.
* `Clause.Proper.readRule_of_readable`, `Clause.Proper.readRule_of_pointed`: what is read of
  one statement.
* `Draft.ofText_written`: what is read of a text. -/

namespace Constituency.Reader
set_option autoImplicit false

/-! ## Writing -/

/-- A character of a word, between quotes. -/
def escapeChar (c : Char) : List Char := if c = '"' ∨ c = '\\' then ['\\', c] else [c]

def escape (word : List Char) : List Char := word.flatMap escapeChar

def Item.chars : Item → List Char
  | symbol name => name.toList
  | terminal word => '"' :: (escape word.toList ++ ['"'])

/-- Children, with a space before each of them. -/
def spaced (items : List Item) : List Char := items.flatMap fun i => ' ' :: i.chars

/-- A rule with its probability as it is written. -/
structure Clause where
  parent : String
  children : Children
  probability : Numeral

namespace Clause

/-- The rule that a clause stands for. -/
def rule (c : Clause) : Rule :=
  Rule.weighted c.parent c.children (Rounded.ofDecimal false c.probability.value)

def chars (c : Clause) : List Char :=
  c.parent.toList ++ ' ' :: '-' :: '>' ::
    (spaced (itemsOf c.children) ++ ' ' :: (c.probability.chars ++ [';']))

end Clause

/-- Clauses as a text, with a line break between them. -/
def written (cs : List Clause) : String := String.ofList (['\n'].intercalate (cs.map Clause.chars))

/-- A name that can stand at the head of a statement, where two slashes begin a comment. -/
structure Proper (name : List Char) : Prop where
  isName : IsName name
  not_comment : ¬['/', '/'] <+: name

/-- A name that begins like a number. -/
inductive Pointed : List Char → Prop
  | mk {d : Char} {rest : List Char} (hd : d.isDigit = true) : Pointed ('.' :: d :: rest)

instance : DecidablePred Digits := fun cs =>
  decidable_of_iff (cs.all Char.isDigit = true) List.all_eq_true

instance : DecidablePred IsName
  | [] => isFalse nofun
  | c :: cs => decidable_of_iff (isNameStart c = true ∧ cs.all isNameChar = true) <| by
    simp only [isNameStart, List.all_eq_true, isNameChar_iff, Bool.and_eq_true, Bool.not_eq_true',
      decide_eq_true_eq]
    exact ⟨fun h => .mk h.1.1.1 h.1.1.2 h.1.2 h.2, fun ⟨h, hdigit, hminus, hs⟩ =>
      ⟨⟨⟨h, hdigit⟩, hminus⟩, hs⟩⟩

instance : DecidablePred Proper := fun name =>
  decidable_of_iff (IsName name ∧ ¬['/', '/'] <+: name)
    ⟨fun h => ⟨h.1, h.2⟩, fun h => ⟨h.isName, h.not_comment⟩⟩

instance : DecidablePred Pointed
  | [] => isFalse nofun
  | [_] => isFalse nofun
  | c :: d :: _ => decidable_of_iff (c = '.' ∧ d.isDigit = true)
    ⟨fun ⟨hc, hd⟩ => hc ▸ .mk hd, fun ⟨hd⟩ => ⟨rfl, hd⟩⟩

namespace Clause

def Proper (c : Clause) : Prop := ∀ name ∈ c.rule.symbols, Reader.Proper name.toList

/-- No child is taken for a number. -/
def Readable (c : Clause) : Prop := ∀ name ∈ c.children.nonterminals, ¬Pointed name.toList

instance : DecidablePred Proper := fun c =>
  inferInstanceAs (Decidable (∀ name ∈ c.rule.symbols, Reader.Proper name.toList))

instance : DecidablePred Readable := fun c =>
  inferInstanceAs (Decidable (∀ name ∈ c.children.nonterminals, ¬Pointed name.toList))

end Clause

/-! ## Characters -/

theorem plain_of_isDigit {c : Char} (h : c.isDigit = true) : Plain c := by
  have hrange : 48 ≤ c.toNat ∧ c.toNat ≤ 57 := by
    simpa [Char.isDigit, UInt32.le_iff_toNat_le] using h
  refine ⟨?_, ?_, ?_⟩
  · simp only [Text.isBlank, Bool.or_eq_false_iff, Bool.and_eq_false_iff, decide_eq_false_iff_not,
      beq_eq_false_iff_ne]
    omega
  · rintro rfl
    exact absurd hrange (by decide)
  · rintro rfl
    exact absurd hrange (by decide)

theorem Plain.ne_newline {c : Char} (h : Plain c) : c ≠ '\n' := by
  rintro rfl
  exact absurd h.1 (by decide)

theorem not_plain_space : ¬Plain ' ' := fun h => absurd h.1 (by decide)

theorem Mantissa.plain (m : Mantissa) : ∀ c ∈ m.chars, Plain c := by
  intro c hc
  simp only [Mantissa.chars, List.mem_append] at hc
  rcases hc with hc | hc | hc
  · exact plain_of_isDigit (m.whole_digits c hc)
  · split at hc
    · obtain rfl := List.mem_singleton.1 hc
      exact ⟨by decide, by decide, by decide⟩
    · cases hc
  · exact plain_of_isDigit (m.last_digits c hc)

theorem Exponent.plain (e : Exponent) : ∀ c ∈ e.chars, Plain c := by
  intro c hc
  simp only [Exponent.chars, List.mem_cons, List.mem_append] at hc
  rcases hc with rfl | hc | hc
  · rcases e.mark_eq with h | h <;> rw [h] <;> exact ⟨by decide, by decide, by decide⟩
  · rcases e.sign_eq with h | h | h <;> rw [h] at hc
    · cases hc
    all_goals
      obtain rfl := List.mem_singleton.1 hc
      exact ⟨by decide, by decide, by decide⟩
  · exact plain_of_isDigit (e.digits_digits c hc)

theorem Numeral.plain (n : Numeral) : ∀ c ∈ n.chars, Plain c := by
  intro c hc
  rcases List.mem_append.1 hc with hc | hc
  · exact n.mantissa.plain c hc
  · unfold Numeral.tail at hc
    cases h : n.exponent? with
    | none =>
      rw [h] at hc
      cases hc
    | some e =>
      rw [h] at hc
      exact e.plain c hc

theorem IsName.plain {name : List Char} (h : IsName name) : ∀ c ∈ name, Plain c := by
  obtain ⟨hplain, -, -, hplains⟩ := h
  intro c hc
  rcases List.mem_cons.1 hc with rfl | hc
  · exact hplain
  · exact hplains c hc

theorem IsName.ne_nil {name : List Char} (h : IsName name) : name ≠ [] := by
  rintro rfl
  cases h

/-- A number begins with a digit, or with a point and a digit. -/
theorem Numeral.starts (n : Numeral) :
    (∃ c cs, n.chars = c :: cs ∧ c.isDigit = true) ∨ Pointed n.chars := by
  obtain ⟨⟨whole, point, last, hwhole, hlast, hne⟩, e?⟩ := n
  obtain ⟨d, ds, rfl⟩ := List.exists_cons_of_ne_nil hne
  have hd : d.isDigit = true := hlast d List.mem_cons_self
  cases whole with
  | cons c cs => exact .inl ⟨c, _, rfl, hwhole c List.mem_cons_self⟩
  | nil =>
    cases point with
    | true => exact .inr (.mk hd)
    | false => exact .inl ⟨d, _, rfl, hd⟩

theorem quoted_escape (word : List Char) : Quoted (escape word) word := by
  induction word with
  | nil => exact .nil
  | cons c word ih =>
    unfold escape
    rw [List.flatMap_cons]
    by_cases h : c = '"' ∨ c = '\\'
    · have hline : c ≠ '\n' := by
        rcases h with rfl | rfl <;> decide
      rw [escapeChar, if_pos h]
      exact .escaped hline ih
    · rw [escapeChar, if_neg h]
      rw [not_or] at h
      exact .plain h.1 h.2 ih

/-! ## Tokens that end -/

/-- A token of plain characters ends before a character that is not plain. -/
theorem exists_left {token rest cs tail : List Char} {c : Char} (htoken : ∀ d ∈ token, Plain d)
    (hc : ¬Plain c) (h : cs ++ c :: tail = token ++ rest) :
    ∃ left, cs = token ++ left ∧ rest = left ++ c :: tail := by
  rcases List.append_eq_append_iff.1 h with ⟨left, htok, hleft⟩ | ⟨left, hcs, hrest⟩
  · cases left with
    | nil => exact ⟨[], by simpa using htok.symm, by simpa using hleft.symm⟩
    | cons d left =>
      obtain ⟨rfl, -⟩ := List.cons.inj hleft
      exact absurd (htoken c (by simp [htok])) hc
  · exact ⟨left, hcs, hrest⟩

theorem longest_of_plain {form : List Char → Prop}
    (hform : ∀ token, form token → ∀ d ∈ token, Plain d) {token : List Char} (h : form token) {c : Char} (hc : ¬Plain c) (rest : List Char) :
    Longest form (token ++ c :: rest) token (c :: rest) := by
  refine ⟨rfl, h, fun token' rest' heq hform' => ?_⟩
  obtain ⟨left, -, rfl⟩ := exists_left (hform token' hform') hc heq
  rw [List.length_append]
  exact Nat.le_add_left _ _

theorem nameAt_of_isName {name : String} (h : IsName name.toList) {c : Char} (hc : ¬Plain c)
    (rest : List Char) : NameAt (name.toList ++ c :: rest) name (c :: rest) :=
  ⟨_, longest_of_plain (fun _ h => h.plain) h hc rest, String.ofList_toList⟩

theorem numberAt_chars (n : Numeral) {c : Char} (hc : ¬Plain c) (rest : List Char) :
    NumberAt (n.chars ++ c :: rest) n.value (c :: rest) := by
  refine ⟨n, longest_of_plain ?_ ⟨n, rfl⟩ hc rest, rfl⟩
  rintro token ⟨n', rfl⟩
  exact n'.plain

theorem terminalAt_escape (word : String) (rest : List Char) :
    TerminalAt ('"' :: (escape word.toList ++ ['"']) ++ rest) word rest :=
  ⟨_, _, quoted_escape _, by simp, String.ofList_toList⟩

/-- Only a pointed name begins with a number. -/
theorem IsName.ne_number {name : List Char} (h : IsName name) (hp : ¬Pointed name) (rest : List Char)
    (n : Numeral) (after : List Char) : name ++ ' ' :: rest ≠ n.chars ++ after := by
  intro heq
  obtain ⟨left, rfl, -⟩ := exists_left n.plain not_plain_space heq
  rcases n.starts with ⟨c, cs, hchars, hdigit⟩ | hpointed
  · rw [hchars] at h
    cases h with
    | mk _ hnot => simp [hdigit] at hnot
  · generalize n.chars = chars at hpointed hp
    obtain ⟨hd⟩ := hpointed
    exact hp (.mk hd)

/-- A pointed name begins with a number, which may or may not be all of it. -/
theorem Pointed.numberAt {name : List Char} (hp : Pointed name) (rest : List Char) :
    ∃ d left, NumberAt (name ++ ' ' :: rest) d (left ++ ' ' :: rest) ∧ ∀ c ∈ left, c ∈ name := by
  obtain ⟨result, hread⟩ : ∃ result, number? (name ++ ' ' :: rest) = some result := by
    cases hread : number? (name ++ ' ' :: rest) with
    | some result => exact ⟨result, rfl⟩
    | none =>
      -- The point and the digit are a number already.
      obtain @⟨d, tail, hd⟩ := hp
      have hdigits : Digits [d] := by simpa [Digits] using hd
      have hnone := number?_eq_none_iff.1 hread
        ⟨⟨[], true, [d], by simp [Digits], hdigits, by simp⟩, none⟩ (tail ++ ' ' :: rest)
      exact absurd rfl hnone
  obtain ⟨d, after⟩ := result
  obtain ⟨n, heq, -⟩ := number?_eq_some hread
  obtain ⟨left, rfl, rfl⟩ := exists_left n.plain not_plain_space heq
  exact ⟨d, left, numberAt_iff.2 hread, fun c hc => List.mem_append_right _ hc⟩

/-! ## Texts that begin with a token -/

/-- Nothing is skipped at the head of a text, and a statement does not end there. -/
structure Opens (text : List Char) : Prop where
  skip_eq : skip text = text
  head_ne : text.head? ≠ some ';'

theorem skip_nil : skip [] = [] := by
  rw [skip.eq_def]

theorem skip_of_solid {c : Char} {rest : List Char} (hc : Text.isBlank c = false)
    (hslash : c = '/' → rest.head? ≠ some '/') : skip (c :: rest) = c :: rest := by
  rw [skip.eq_def]
  split
  · rename_i heq
    obtain ⟨rfl, rfl⟩ := List.cons.inj heq
    exact absurd rfl (hslash rfl)
  · rename_i heq
    obtain ⟨rfl, rfl⟩ := List.cons.inj heq
    rw [if_neg (by simp [hc])]
  · rename_i heq
    cases heq

theorem Plain.opens {c : Char} {rest : List Char} (hc : Plain c)
    (hslash : c = '/' → rest.head? ≠ some '/') : Opens (c :: rest) :=
  ⟨skip_of_solid hc.1 hslash, fun h => hc.2.2 (Option.some.inj h)⟩

theorem Proper.opens {name : List Char} (h : Proper name) (rest : List Char) :
    Opens (name ++ ' ' :: rest) := by
  obtain ⟨hname, hcomment⟩ := h
  obtain @⟨c, cs, hplain, -, -, -⟩ := hname
  refine hplain.opens ?_
  rintro rfl hhead
  cases cs with
  | nil => exact absurd (Option.some.inj hhead) (by decide)
  | cons d cs =>
    obtain rfl : d = '/' := Option.some.inj hhead
    exact hcomment ⟨cs, rfl⟩

theorem Numeral.opens (n : Numeral) (rest : List Char) : Opens (n.chars ++ rest) := by
  have hplain := n.plain
  rcases n.starts with ⟨c, cs, hchars, hdigit⟩ | hpointed
  · rw [hchars] at hplain ⊢
    refine (hplain c List.mem_cons_self).opens ?_
    rintro rfl
    exact absurd hdigit (by decide)
  · generalize n.chars = chars at hplain hpointed
    obtain ⟨-⟩ := hpointed
    exact (hplain '.' List.mem_cons_self).opens fun h => absurd h (by decide)

/-! ## Children -/

/-- A symbol has a proper name. -/
def Item.Named : Item → Prop
  | symbol name => Proper name.toList
  | terminal _ => True

/-- An item is not taken for a number. -/
def Item.Readable : Item → Prop
  | symbol name => ¬Pointed name.toList
  | terminal _ => True

theorem Item.opens {i : Item} (h : i.Named) (rest : List Char) :
    Opens (i.chars ++ ' ' :: rest) := by
  cases i with
  | symbol name => exact Proper.opens h rest
  | terminal word =>
    exact ⟨skip_of_solid (by decide) fun h => absurd h (by decide), by simp [Item.chars]⟩

theorem head_ne_quote {token : List Char} (hplain : ∀ c ∈ token, Plain c) (hne : token ≠ [])
    (rest : List Char) : (token ++ rest).head? ≠ some '"' := by
  obtain ⟨c, cs, rfl⟩ := List.exists_cons_of_ne_nil hne
  exact fun hhead => (hplain c List.mem_cons_self).2.1 (Option.some.inj hhead)

theorem Item.tokenAt {i : Item} (hnamed : i.Named) (hread : i.Readable) (rest : List Char) :
    TokenAt (i.chars ++ ' ' :: rest) (.item i) (' ' :: rest) := by
  cases i with
  | symbol name =>
    obtain ⟨hname, hcomment⟩ := hnamed
    refine .name (head_ne_quote hname.plain hname.ne_nil _) (hname.ne_number hread rest) ?_
    exact nameAt_of_isName hname not_plain_space rest
  | terminal word => exact .terminal (terminalAt_escape word (' ' :: rest))

theorem Numeral.tokenAt (n : Numeral) (rest : List Char) :
    TokenAt (n.chars ++ ';' :: rest) (.probability n.value) (';' :: rest) := by
  have hsemicolon : ¬Plain ';' := fun h => h.2.2 rfl
  have hne : n.chars ≠ [] := by simp [Numeral.chars, Mantissa.chars, n.mantissa.last_ne]
  exact .number (head_ne_quote n.plain hne _) (numberAt_chars n hsemicolon rest)

/-- The rest of a statement: children, the probability and the semicolon. -/
def ending (items : List Item) (n : Numeral) (rest : List Char) : List Char :=
  spaced items ++ ' ' :: (n.chars ++ ';' :: rest)

theorem ending_nil (n : Numeral) (rest : List Char) :
    ending [] n rest = ' ' :: (n.chars ++ ';' :: rest) := rfl

theorem ending_cons (i : Item) (items : List Item) (n : Numeral) (rest : List Char) :
    ending (i :: items) n rest = ' ' :: (i.chars ++ ending items n rest) := by
  simp [ending, spaced]

theorem exists_ending {items : List Item} (h : ∀ i ∈ items, i.Named) (n : Numeral)
    (rest : List Char) : ∃ text, ending items n rest = ' ' :: text ∧ Opens text := by
  induction items with
  | nil => exact ⟨_, ending_nil n rest, n.opens _⟩
  | cons i items ih =>
    obtain ⟨text, htext, -⟩ := ih fun j hj => h j (List.mem_cons_of_mem _ hj)
    refine ⟨_, ending_cons i items n rest, ?_⟩
    rw [htext]
    exact Item.opens (h i List.mem_cons_self) text

theorem skip_space (text : List Char) : skip (' ' :: text) = skip text :=
  skip_blank (by decide) text

variable {parent : String}

theorem readItems_ending {items : List Item} (hnamed : ∀ i ∈ items, i.Named)
    (hread : ∀ i ∈ items, i.Readable) (n : Numeral) (rest : List Char) (done : List Item) :
    readItems parent (ending items n rest) done =
      .ok ((done.reverse ++ items, some n.value), rest) := by
  induction items generalizing done with
  | nil =>
    have hskip : skip (ending [] n rest) = n.chars ++ ';' :: rest := by
      rw [ending_nil, skip_space, (n.opens _).skip_eq]
    have htoken : token parent _ = _ := tokenAt_iff.1 (n.tokenAt rest)
    rw [← hskip] at htoken
    have hstop : skip (';' :: rest) = ';' :: rest :=
      skip_of_solid (by decide) fun h => absurd h (by decide)
    rw [readItems_of_probability done htoken hstop, List.append_nil]
  | cons i items ih =>
    have hnamed' : ∀ j ∈ items, j.Named := fun j hj => hnamed j (List.mem_cons_of_mem _ hj)
    obtain ⟨text, htext, -⟩ := exists_ending hnamed' n rest
    have hi := hnamed i List.mem_cons_self
    have hskip : skip (ending (i :: items) n rest) = i.chars ++ ' ' :: text := by
      rw [ending_cons, htext, skip_space, (Item.opens hi text).skip_eq]
    have htoken : token parent _ = _ :=
      tokenAt_iff.1 (Item.tokenAt hi (hread i List.mem_cons_self) text)
    rw [← hskip] at htoken
    rw [readItems_of_item done htoken, ← htext,
      ih hnamed' fun j hj => hread j (List.mem_cons_of_mem _ hj)]
    simp

/-! ### A child that is taken for a number -/

theorem readItems_of_other {text next : List Char} {d : Decimal} (items : List Item)
    (h : token parent (skip text) = .ok (.probability d, next))
    (hother : ∀ rest, skip next ≠ ';' :: rest) :
    readItems parent text items =
      .error (.afterProbability parent (Text.firstLine (skip next))) := by
  rw [readItems.eq_def]
  split
  · rename_i hs
    exact absurd hs (head_ne_semicolon_of_token h _)
  · split <;> rename_i ht <;> rw [h] at ht <;> cases ht
    split
    · rename_i hstop
      exact absurd hstop (hother _)
    · rfl

/-- What is left of a name does not end a statement, even if it begins a comment, as long as the
lines behind do not. -/
theorem skip_left_ne {left text : List Char} (hleft : ∀ c ∈ left, Plain c) (htext : Opens text)
    (hline : ∀ rest, skip (text.dropWhile (· ≠ '\n')) ≠ ';' :: rest) (rest : List Char) :
    skip (left ++ ' ' :: text) ≠ ';' :: rest := by
  cases left with
  | nil =>
    intro h
    rw [List.nil_append, skip_space, htext.skip_eq] at h
    exact htext.head_ne (by rw [h]; rfl)
  | cons c left =>
    by_cases hcomment : c = '/' ∧ left.head? = some '/'
    · -- The comment swallows the probability and the semicolon, and ends with their line.
      obtain ⟨rfl, hhead⟩ := hcomment
      obtain ⟨body, rfl⟩ := List.head?_eq_some_iff.1 hhead
      have hbody : ∀ d ∈ body, decide (d ≠ '\n') = true := fun d hd =>
        decide_eq_true (hleft d (by simp [hd])).ne_newline
      rw [List.cons_append, List.cons_append, skip_comment, List.dropWhile_append_of_pos hbody,
        List.dropWhile_cons_of_pos (by decide)]
      exact hline rest
    · have hopens : Opens (c :: (left ++ ' ' :: text)) := by
        refine (hleft c List.mem_cons_self).opens fun hc hhead => hcomment ⟨hc, ?_⟩
        cases left with
        | nil => exact absurd (Option.some.inj hhead) (by decide)
        | cons d left => exact hhead
      intro h
      rw [List.cons_append, hopens.skip_eq] at h
      exact hopens.head_ne (by rw [h]; rfl)

/-- There is no line break in a statement without words. -/
theorem dropWhile_ending {names : List String} (h : ∀ name ∈ names, Proper name.toList)
    (n : Numeral) (rest : List Char) :
    (ending (names.map .symbol) n rest).dropWhile (· ≠ '\n') = rest.dropWhile (· ≠ '\n') := by
  induction names with
  | nil =>
    have hplain : ∀ c ∈ n.chars, decide (c ≠ '\n') = true := fun c hc =>
      decide_eq_true (n.plain c hc).ne_newline
    rw [List.map_nil, ending_nil, List.dropWhile_cons_of_pos (by decide),
      List.dropWhile_append_of_pos hplain, List.dropWhile_cons_of_pos (by decide)]
  | cons name names ih =>
    have hplain : ∀ c ∈ name.toList, decide (c ≠ '\n') = true := fun c hc =>
      decide_eq_true ((h name List.mem_cons_self).isName.plain c hc).ne_newline
    rw [List.map_cons, ending_cons, List.dropWhile_cons_of_pos (by decide)]
    refine (List.dropWhile_append_of_pos hplain).trans ?_
    exact ih fun name' hname' => h name' (List.mem_cons_of_mem _ hname')

theorem readItems_of_pointed {names : List String} (hproper : ∀ name ∈ names, Proper name.toList)
    (hpointed : ∃ name ∈ names, Pointed name.toList) (n : Numeral) {rest : List Char}
    (hrest : ∀ after, skip (rest.dropWhile (· ≠ '\n')) ≠ ';' :: after) (done : List Item) :
    ∃ line, readItems parent (ending (names.map .symbol) n rest) done =
      .error (.afterProbability parent line) := by
  induction names generalizing done with
  | nil =>
    obtain ⟨name, hmem, -⟩ := hpointed
    cases hmem
  | cons name names ih =>
    have hname := hproper name List.mem_cons_self
    have hproper' : ∀ name' ∈ names, Proper name'.toList := fun name' h =>
      hproper name' (List.mem_cons_of_mem _ h)
    have hnamed : ∀ i ∈ names.map Item.symbol, i.Named := by
      intro i hi
      obtain ⟨name', hname', rfl⟩ := List.mem_map.1 hi
      exact hproper' name' hname'
    obtain ⟨text, htext, hopens⟩ := exists_ending hnamed n rest
    have hskip : skip (ending ((name :: names).map .symbol) n rest) =
        name.toList ++ ' ' :: text := by
      rw [List.map_cons, ending_cons, htext, skip_space]
      exact (hname.opens text).skip_eq
    by_cases hp : Pointed name.toList
    · -- A number is the last token before the semicolon, and there is none behind this one.
      obtain ⟨d, left, hnumber, hleft⟩ := hp.numberAt text
      have hquote := head_ne_quote hname.isName.plain hname.isName.ne_nil (' ' :: text)
      have htoken : token parent _ = _ := tokenAt_iff.1 (.number hquote hnumber)
      rw [← hskip] at htoken
      refine ⟨_, readItems_of_other done htoken (skip_left_ne ?_ hopens ?_)⟩
      · exact fun c hc => hname.isName.plain c (hleft c hc)
      · have hdrop := dropWhile_ending hproper' n rest
        rw [htext, List.dropWhile_cons_of_pos (by decide)] at hdrop
        rw [hdrop]
        exact hrest
    · have htoken : token parent _ = _ :=
        tokenAt_iff.1 (Item.tokenAt (i := .symbol name) hname hp text)
      rw [show (Item.symbol name).chars = name.toList from rfl, ← hskip] at htoken
      rw [readItems_of_item done htoken, ← htext]
      refine ih hproper' ?_ _
      obtain ⟨name', hmem, hp'⟩ := hpointed
      rcases List.mem_cons.1 hmem with rfl | hmem
      · exact absurd hp' hp
      · exact ⟨name', hmem, hp'⟩

/-! ## Statements -/

namespace Clause

variable {c : Clause}

theorem chars_append (c : Clause) (rest : List Char) : c.chars ++ rest =
    c.parent.toList ++ ' ' :: '-' :: '>' :: ending (itemsOf c.children) c.probability rest := by
  simp [chars, ending]

theorem Proper.opens (h : c.Proper) (rest : List Char) : Opens (c.chars ++ rest) := by
  rw [chars_append]
  exact (h c.parent List.mem_cons_self).opens _

/-- The parent and the arrow of a statement are always read. -/
theorem Proper.reads_arrow (h : c.Proper) (rest : List Char) :
    name? (c.chars ++ rest) = some (c.parent,
      ' ' :: '-' :: '>' :: ending (itemsOf c.children) c.probability rest) ∧
    skip (' ' :: '-' :: '>' :: ending (itemsOf c.children) c.probability rest) =
      '-' :: '>' :: ending (itemsOf c.children) c.probability rest := by
  refine ⟨?_, ?_⟩
  · rw [chars_append]
    have hparent := h c.parent List.mem_cons_self
    exact nameAt_iff.1 (nameAt_of_isName hparent.isName not_plain_space _)
  · rw [skip_space]
    exact skip_of_solid (by decide) fun h => absurd h (by decide)

theorem Proper.named (h : c.Proper) : ∀ i ∈ itemsOf c.children, i.Named := by
  have hchild : ∀ name ∈ c.children.nonterminals, Reader.Proper name.toList := fun name hname =>
    h name (List.mem_cons_of_mem _ hname)
  cases hc : c.children with
  | binary left right =>
    rw [hc] at hchild
    simpa [itemsOf, Item.Named, Children.nonterminals] using hchild
  | unary child =>
    rw [hc] at hchild
    simpa [itemsOf, Item.Named, Children.nonterminals] using hchild
  | lexical word => simp [itemsOf, Item.Named]

theorem Readable.items (h : c.Readable) : ∀ i ∈ itemsOf c.children, i.Readable := by
  unfold Readable at h
  cases hc : c.children with
  | binary left right =>
    rw [hc] at h
    simpa [itemsOf, Item.Readable, Children.nonterminals] using h
  | unary child =>
    rw [hc] at h
    simpa [itemsOf, Item.Readable, Children.nonterminals] using h
  | lexical word => simp [itemsOf, Item.Readable]

/-- Only a rule without words has a child that may be taken for a number. -/
theorem itemsOf_of_not_readable (h : ¬c.Readable) :
    itemsOf c.children = c.children.nonterminals.map .symbol := by
  unfold Readable at h
  cases hc : c.children with
  | binary left right => rfl
  | unary child => rfl
  | lexical word =>
    rw [hc] at h
    exact absurd (by simp [Children.nonterminals]) h

theorem Proper.readRule_of_readable (h : c.Proper) (hread : c.Readable) (rest : List Char) :
    readRule (c.chars ++ rest) = .ok (c.rule, rest) := by
  obtain ⟨hname, harrow⟩ := h.reads_arrow rest
  have hitems : readItems c.parent _ [] = _ :=
    readItems_ending h.named hread.items c.probability rest []
  have hchildren : childrenOf c.parent (itemsOf c.children) = .ok c.children :=
    childrenOf_eq_ok_iff.2 rfl
  simp only [readRule, hname, harrow, hitems, List.reverse_nil, List.nil_append, hchildren]
  rfl

theorem Proper.readRule_of_pointed (h : c.Proper) (hread : ¬c.Readable) {rest : List Char}
    (hrest : ∀ after, skip (rest.dropWhile (· ≠ '\n')) ≠ ';' :: after) :
    ∃ line, readRule (c.chars ++ rest) = .error (.afterProbability c.parent line) := by
  have hpointed : ∃ name ∈ c.children.nonterminals, Pointed name.toList := by
    unfold Readable at hread
    simpa using hread
  have hproper : ∀ name ∈ c.children.nonterminals, Reader.Proper name.toList := fun name hname =>
    h name (List.mem_cons_of_mem _ hname)
  obtain ⟨hname, harrow⟩ := h.reads_arrow rest
  obtain ⟨line, hitems⟩ : ∃ line, readItems c.parent _ [] =
      .error (.afterProbability c.parent line) :=
    readItems_of_pointed hproper hpointed c.probability hrest []
  rw [← itemsOf_of_not_readable hread] at hitems
  exact ⟨line, by simp only [readRule, hname, harrow, hitems]⟩

end Clause

/-! ## Texts -/

/-- Clauses behind another one. -/
def further (cs : List Clause) : List Char := cs.flatMap fun c => '\n' :: c.chars

theorem toList_written_cons (c : Clause) (cs : List Clause) :
    (written (c :: cs)).toList = c.chars ++ further cs := by
  unfold written
  rw [String.toList_ofList]
  induction cs generalizing c with
  | nil => simp [further]
  | cons d cs ih =>
    rw [List.map_cons, List.map_cons, List.intercalate_cons_cons, ← List.map_cons, ih]
    simp [further]

variable {cs : List Clause}

theorem opens_written (h : ∀ c ∈ cs, c.Proper) : Opens (written cs).toList := by
  cases cs with
  | nil => exact ⟨by simp [written, skip_nil], by simp [written]⟩
  | cons c cs =>
    rw [toList_written_cons]
    exact (h c List.mem_cons_self).opens _

theorem skip_further (h : ∀ c ∈ cs, c.Proper) : skip (further cs) = (written cs).toList := by
  rw [← (opens_written h).skip_eq]
  cases cs with
  | nil => simp [written, further]
  | cons c cs =>
    rw [toList_written_cons]
    exact skip_blank (by decide) _

theorem skip_line_ne (h : ∀ c ∈ cs, c.Proper) (after : List Char) :
    skip ((further cs).dropWhile (· ≠ '\n')) ≠ ';' :: after := by
  have hline : (further cs).dropWhile (· ≠ '\n') = further cs := by
    cases cs with
    | nil => rfl
    | cons c cs => exact List.dropWhile_cons_of_neg (by decide)
  rw [hline, skip_further h]
  intro heq
  exact (opens_written h).head_ne (by rw [heq]; rfl)

theorem readRules_of_ok {text head rest : List Char} {rule : Rule} (hskip : skip text = head)
    (hread : readRule head = .ok (rule, rest)) (done : List Rule) :
    readRules text done = readRules rest (rule :: done) := by
  subst hskip
  rw [readRules.eq_def]
  split
  · rename_i hs
    rw [hs] at hread
    cases hread
  · split <;> rename_i hr <;> rw [hread] at hr <;> cases hr
    rfl

theorem readRules_of_error {text head : List Char} {e : Malformed} (hskip : skip text = head)
    (hne : head ≠ []) (hread : readRule head = .error e) (done : List Rule) :
    readRules text done = .error e := by
  subst hskip
  rw [readRules.eq_def]
  split
  · rename_i hs
    exact absurd hs hne
  · split <;> rename_i hr <;> rw [hread] at hr <;> cases hr
    rfl

theorem readRules_of_nil {text : List Char} (hskip : skip text = []) (done : List Rule) :
    readRules text done = .ok done.reverse := by
  rw [readRules.eq_def]
  split
  · rfl
  · rename_i hne
    exact absurd hskip hne

theorem exists_first_pointed (h : ¬∀ c ∈ cs, c.Readable) : ∃ before c after,
    cs = before ++ c :: after ∧ (∀ b ∈ before, b.Readable) ∧ ¬c.Readable := by
  induction cs with
  | nil => exact absurd nofun h
  | cons c cs ih =>
    by_cases hc : c.Readable
    · obtain ⟨before, d, after, rfl, hbefore, hd⟩ :=
        ih fun hcs => h (List.forall_mem_cons.2 ⟨hc, hcs⟩)
      exact ⟨c :: before, d, after, rfl, List.forall_mem_cons.2 ⟨hc, hbefore⟩, hd⟩
    · exact ⟨[], c, cs, rfl, nofun, hc⟩

/-- Readable clauses are read one after the other, and what is left is the text of the others. -/
theorem readRules_written {before after : List Clause} (hproper : ∀ c ∈ before ++ after, c.Proper)
    (hread : ∀ c ∈ before, c.Readable) {text : List Char}
    (htext : skip text = (written (before ++ after)).toList) (done : List Rule) :
    ∃ rest, skip rest = (written after).toList ∧
      readRules text done = readRules rest ((before.map Clause.rule).reverse ++ done) := by
  induction before generalizing text done with
  | nil => exact ⟨text, htext, rfl⟩
  | cons c before ih =>
    have hproper' : ∀ d ∈ before ++ after, d.Proper := fun d hd =>
      hproper d (List.mem_cons_of_mem _ hd)
    have hrule := (hproper c List.mem_cons_self).readRule_of_readable (hread c List.mem_cons_self)
      (further (before ++ after))
    rw [List.cons_append, toList_written_cons] at htext
    rw [readRules_of_ok htext hrule]
    obtain ⟨rest, hrest, heq⟩ := ih hproper' (fun d hd => hread d (List.mem_cons_of_mem _ hd))
      (skip_further hproper') (c.rule :: done)
    exact ⟨rest, hrest, by rw [heq]; simp⟩

end Constituency.Reader

namespace Constituency
open Reader

namespace Draft

theorem ofText_of_readable {cs : List Clause} (hproper : ∀ c ∈ cs, c.Proper)
    (hread : ∀ c ∈ cs, c.Readable) : ofText (written cs) = .ok { rules := cs.map Clause.rule } := by
  have hall : ∀ c ∈ cs ++ [], c.Proper := by rwa [List.append_nil]
  obtain ⟨rest, hrest, heq⟩ := readRules_written hall hread (opens_written hall).skip_eq []
  rw [List.append_nil] at heq
  have hnil : skip rest = [] := by simpa [written] using hrest
  simp only [ofText, Reader.read, heq, readRules_of_nil hnil, List.append_nil, List.reverse_reverse]

theorem ofText_of_pointed {before after : List Clause} {c : Clause}
    (hproper : ∀ d ∈ before ++ c :: after, d.Proper) (hread : ∀ b ∈ before, b.Readable)
    (hpointed : ¬c.Readable) : ∃ line, ofText (written (before ++ c :: after)) =
      .error (.malformed (.afterProbability c.parent line)) := by
  obtain ⟨rest, hrest, heq⟩ := readRules_written hproper hread (opens_written hproper).skip_eq []
  have hafter : ∀ d ∈ after, d.Proper := fun d hd => hproper d (by simp [hd])
  obtain ⟨line, hrule⟩ := (hproper c (by simp)).readRule_of_pointed hpointed (skip_line_ne hafter)
  rw [toList_written_cons] at hrest
  have hne : c.chars ++ further after ≠ [] := by simp [Clause.chars]
  exact ⟨line, by simp only [ofText, Reader.read, heq, readRules_of_error hrest hne hrule]⟩

/-- Clauses over proper names are written and read. All of them come back, in their order,
exactly if no child is taken for a number; a text where one is, is refused at the first clause that
has such a child. -/
theorem ofText_written (cs : List Clause) (hproper : ∀ c ∈ cs, c.Proper) :
    (ofText (written cs) = .ok { rules := cs.map Clause.rule } ↔ ∀ c ∈ cs, c.Readable) ∧
    ∀ before c after, cs = before ++ c :: after → (∀ b ∈ before, b.Readable) → ¬c.Readable →
      ∃ line, ofText (written cs) = .error (.malformed (.afterProbability c.parent line)) := by
  refine ⟨⟨fun hok => Classical.byContradiction fun hnot => ?_, ofText_of_readable hproper⟩, ?_⟩
  · obtain ⟨before, c, after, rfl, hbefore, hc⟩ := exists_first_pointed hnot
    obtain ⟨line, herror⟩ := ofText_of_pointed hproper hbefore hc
    rw [hok] at herror
    cases herror
  · rintro before c after rfl hbefore hc
    exact ofText_of_pointed hproper hbefore hc

end Draft

/-- One half, with a point and a power of ten. -/
def Reader.Numeral.half : Numeral where
  mantissa := ⟨['5'], true, ['0'], by decide, by decide, by decide⟩
  exponent? := some ⟨'e', ['-'], ['1'], by decide, by decide, by decide, by decide⟩

/-- Names that look like other tokens, and a word with all that has to be escaped. -/
def Reader.Clause.odd : List Clause :=
  [⟨"S", .binary "./" "/é->", .half⟩, ⟨"./", .unary "/é->", .half⟩,
    ⟨"/é->", .lexical "a\"\\\n;", .half⟩, ⟨".5", .lexical "", .half⟩]

theorem Draft.ofText_written_odd : (∀ c ∈ Clause.odd, c.Proper) ∧
    written Clause.odd = "S -> ./ /é-> 5.0e-1;\n./ -> /é-> 5.0e-1;\n" ++
      "/é-> -> \"a\\\"\\\\\n;\" 5.0e-1;\n.5 -> \"\" 5.0e-1;" ∧
    Draft.ofText (written Clause.odd) = .ok { rules := Clause.odd.map Clause.rule } := by
  have hproper : ∀ c ∈ Clause.odd, c.Proper := by decide +kernel
  have hread : ∀ c ∈ Clause.odd, c.Readable := by decide +kernel
  exact ⟨hproper, by decide +kernel, (Draft.ofText_written Clause.odd hproper).1.2 hread⟩

/-- A child that is called like a number, and a parent of the same name. -/
def Reader.Clause.pointed : List Clause :=
  [⟨"S", .unary ".5", .half⟩, ⟨".5", .lexical "a", .half⟩]

theorem Draft.ofText_pointed_child : (∀ c ∈ Clause.pointed, c.Proper) ∧
    written Clause.pointed = "S -> .5 5.0e-1;\n.5 -> \"a\" 5.0e-1;" ∧
    ∃ line, Draft.ofText (written Clause.pointed) =
      .error (.malformed (.afterProbability "S" line)) := by
  have hproper : ∀ c ∈ Clause.pointed, c.Proper := by decide +kernel
  exact ⟨hproper, by decide +kernel,
    @Draft.ofText_of_pointed [] _ _ hproper nofun (by decide +kernel)⟩

end Constituency
