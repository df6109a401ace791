import Constituency.Grammar.Build
import Constituency.Proofs.Grammar.Tokens

/-! # The format of a grammar text

A grammar text is a list of statements with gaps around them. A statement is a name, an arrow and
tokens up to a semicolon, and the tokens are the children of a rule with at most one number behind
them. The format is stated as relations between a text, what it stands for and the text that is
left; reading succeeds on the texts of the format and on no others.

* `TokenAt`, `Body`: the tokens of a statement.
* `Statement`, `Format`: statements, with the rules that they stand for.
* `read_eq_ok_iff`, `Draft.ofText_eq_ok_iff`: what is read is what has the format. -/

namespace Constituency.Reader
set_option autoImplicit false

/-! ## The format -/

/-- A quote starts a word. Elsewhere, what begins with a number is a number and not a name. -/
inductive TokenAt : List Char → Token → List Char → Prop
  | terminal {text rest : List Char} {word : String} (h : TerminalAt text word rest) :
      TokenAt text (.item (.terminal word)) rest
  | number {text rest : List Char} {d : Decimal} (hquote : text.head? ≠ some '"')
      (h : NumberAt text d rest) : TokenAt text (.probability d) rest
  | name {text rest : List Char} {name : String} (hquote : text.head? ≠ some '"')
      (hnumber : ∀ (n : Numeral) (after : List Char), text ≠ n.chars ++ after)
      (h : NameAt text name rest) : TokenAt text (.item (.symbol name)) rest

/-- Tokens with gaps before them, up to a semicolon. -/
inductive Body : List Char → List Token → List Char → Prop
  | stop {text rest : List Char} (h : Skips text (';' :: rest)) : Body text [] rest
  | token {text head next rest : List Char} {t : Token} {ts : List Token} (hskip : Skips text head)
      (htoken : TokenAt head t next) (h : Body next ts rest) : Body text (t :: ts) rest

def itemsOf : Children → List Item
  | .binary left right => [.symbol left, .symbol right]
  | .unary child => [.symbol child]
  | .lexical word => [.terminal word]

/-- Children, and the probability if it is stated. -/
def tokensOf (items : List Item) (probability? : Option Decimal) : List Token :=
  items.map .item ++ probability?.toList.map .probability

inductive Statement : List Char → Rule → List Char → Prop
  | mk {text next body rest : List Char} {parent : String} {children : Children}
      {probability? : Option Decimal} (hparent : NameAt text parent next)
      (harrow : Skips next ('-' :: '>' :: body))
      (hbody : Body body (tokensOf (itemsOf children) probability?) rest) :
      Statement text
        (Rule.weighted parent children (Rounded.ofDecimal false (probability?.getD certain))) rest

inductive Statements : List Char → List Rule → Prop
  | nil : Statements [] []
  | cons {text next after : List Char} {rule : Rule} {rules : List Rule}
      (hstatement : Statement text rule next) (hskip : Skips next after)
      (h : Statements after rules) : Statements text (rule :: rules)

def Format (text : List Char) (rules : List Rule) : Prop :=
  ∃ start, Skips text start ∧ Statements start rules

variable {text rest : List Char} {parent : String}

/-! ## Tokens -/

theorem tokenAt_iff {t : Token} : TokenAt text t rest ↔ token parent text = .ok (t, rest) := by
  constructor
  · intro h
    cases h with
    | terminal h =>
      have hread := terminalAt_iff.1 h
      obtain ⟨body, letters, -, rfl, -⟩ := h
      simp only [token, hread]
    | number hquote h =>
      unfold token
      split
      · exact absurd rfl hquote
      · rw [numberAt_iff.1 h]
    | name hquote hnumber h =>
      unfold token
      split
      · exact absurd rfl hquote
      · rw [number?_eq_none_iff.2 hnumber, nameAt_iff.1 h]
  · intro h
    unfold token at h
    split at h
    · split at h
      · rename_i hread
        cases h
        exact .terminal (terminalAt_iff.2 hread)
      · cases h
    · rename_i hne
      have hquote : text.head? ≠ some '"' := by
        intro hhead
        obtain ⟨tail, rfl⟩ := List.head?_eq_some_iff.1 hhead
        exact hne tail rfl
      split at h
      · rename_i hread
        cases h
        exact .number hquote (numberAt_iff.2 hread)
      · rename_i hnone
        split at h
        · rename_i hread
          cases h
          exact .name hquote (number?_eq_none_iff.1 hnone) (nameAt_iff.2 hread)
        · cases h

/-- The semicolon ends a statement wherever a token could start. -/
theorem head_ne_semicolon_of_token {t : Token} (h : token parent text = .ok (t, rest))
    (after : List Char) : text ≠ ';' :: after := by
  rintro rfl
  have hnumber : number? (';' :: after) = none := rfl
  have hname : name? (';' :: after) = none := rfl
  simp [token, hnumber, hname] at h

/-! ## Statements -/

theorem readItems_of_stop (items : List Item) (h : skip text = ';' :: rest) :
    readItems parent text items = .ok ((items.reverse, none), rest) := by
  rw [readItems.eq_def]
  split
  · rename_i hs
    obtain ⟨-, rfl⟩ := List.cons.inj (h.symm.trans hs)
    rfl
  · rename_i hne
    exact absurd h (hne rest)

theorem readItems_of_item {i : Item} (items : List Item)
    (h : token parent (skip text) = .ok (.item i, rest)) :
    readItems parent text items = readItems parent rest (i :: items) := by
  rw [readItems.eq_def]
  split
  · rename_i hs
    exact absurd hs (head_ne_semicolon_of_token h _)
  · split <;> rename_i ht <;> rw [h] at ht <;> cases ht
    rfl

theorem readItems_of_probability {d : Decimal} {next : List Char} (items : List Item)
    (h : token parent (skip text) = .ok (.probability d, next)) (hstop : skip next = ';' :: rest) :
    readItems parent text items = .ok ((items.reverse, some d), rest) := by
  rw [readItems.eq_def]
  split
  · rename_i hs
    exact absurd hs (head_ne_semicolon_of_token h _)
  · split <;> rename_i ht <;> rw [h] at ht <;> cases ht
    simp only [hstop]

/-- Reading goes on from the children that it has. -/
theorem readItems_eq_ok_iff {items children : List Item} {probability? : Option Decimal} :
    readItems parent text items = .ok ((children, probability?), rest) ↔
      ∃ more, Body text (tokensOf more probability?) rest ∧ children = items.reverse ++ more := by
  constructor
  · intro h
    fun_induction readItems parent text items with
    | case1 text items after hs =>
      cases h
      exact ⟨[], .stop (skips_iff.2 hs), by simp⟩
    | case2 => cases h
    | case3 text items i next _ ht _ ih =>
      obtain ⟨more, hbody, rfl⟩ := ih h
      exact ⟨i :: more, .token (skips_iff.2 rfl) (tokenAt_iff.2 ht) hbody, by simp⟩
    | case4 text items d next after hskip _ ht =>
      cases h
      exact ⟨[], .token (skips_iff.2 rfl) (tokenAt_iff.2 ht) (.stop (skips_iff.2 hskip)), by simp⟩
    | case5 => cases h
  · rintro ⟨more, hbody, rfl⟩
    induction more generalizing text items with
    | nil =>
      rw [List.append_nil]
      cases probability? with
      | none =>
        obtain ⟨hskip⟩ := hbody
        exact readItems_of_stop items (skips_iff.1 hskip)
      | some d =>
        obtain _ | ⟨hskip, htoken, hstop⟩ := hbody
        obtain ⟨hstop⟩ := hstop
        obtain rfl := skips_iff.1 hskip
        exact readItems_of_probability items (tokenAt_iff.1 htoken) (skips_iff.1 hstop)
    | cons i more ih =>
      obtain _ | ⟨hskip, htoken, hrest⟩ := hbody
      obtain rfl := skips_iff.1 hskip
      rw [readItems_of_item items (tokenAt_iff.1 htoken), ih hrest]
      simp

theorem childrenOf_eq_ok_iff {items : List Item} {children : Children} :
    childrenOf parent items = .ok children ↔ items = itemsOf children := by
  constructor
  · intro h
    unfold childrenOf at h
    split at h <;> cases h <;> rfl
  · rintro rfl
    cases children <;> rfl

theorem readRule_eq_ok_iff {rule : Rule} :
    readRule text = .ok (rule, rest) ↔ Statement text rule rest := by
  constructor
  · intro h
    unfold readRule at h
    split at h
    · cases h
    · rename_i parent next hname
      split at h
      · rename_i body harrow
        split at h
        · cases h
        · rename_i items probability? after hitems
          split at h
          · cases h
          · rename_i children hchildren
            cases h
            obtain rfl := childrenOf_eq_ok_iff.1 hchildren
            obtain ⟨more, hbody, heq⟩ := readItems_eq_ok_iff.1 hitems
            obtain rfl : itemsOf children = more := heq
            exact .mk (nameAt_iff.2 hname) (skips_iff.2 harrow) hbody
      · cases h
  · intro h
    cases h with
    | @mk next body _ parent children probability? hparent harrow hbody =>
      have hitems : readItems parent body [] = .ok ((itemsOf children, probability?), rest) :=
        readItems_eq_ok_iff.2 ⟨_, hbody, rfl⟩
      have hchildren : childrenOf parent (itemsOf children) = .ok children :=
        childrenOf_eq_ok_iff.2 rfl
      simp only [readRule, nameAt_iff.1 hparent, skips_iff.1 harrow, hitems, hchildren]

/-! ## Texts -/

theorem readRules_eq_ok_iff {done rules : List Rule} :
    readRules text done = .ok rules ↔ ∃ more, Format text more ∧ rules = done.reverse ++ more := by
  constructor
  · intro h
    fun_induction readRules text done with
    | case1 text done hs =>
      cases h
      exact ⟨[], ⟨[], skips_iff.2 hs, .nil⟩, by simp⟩
    | case2 => cases h
    | case3 text done rule next _ hread _ ih =>
      obtain ⟨more, ⟨start, hskip, hmore⟩, rfl⟩ := ih h
      refine ⟨rule :: more, ⟨_, skips_iff.2 rfl, ?_⟩, by simp⟩
      exact .cons (readRule_eq_ok_iff.1 hread) hskip hmore
  · rintro ⟨more, ⟨start, hskip, hmore⟩, rfl⟩
    induction hmore generalizing text done with
    | nil =>
      rw [readRules.eq_def]
      split
      · simp
      · rename_i hne
        exact absurd (skips_iff.1 hskip) hne
    | @cons start next after rule more hstatement hnext hmore ih =>
      have hread := readRule_eq_ok_iff.2 hstatement
      obtain rfl := skips_iff.1 hskip
      rw [readRules.eq_def]
      split
      · rename_i hs
        rw [hs] at hread
        cases hread
      · split <;> rename_i hr <;> rw [hread] at hr <;> cases hr
        rw [ih hnext]
        simp

theorem read_eq_ok_iff {text : String} {rules : List Rule} :
    read text = .ok rules ↔ Format text.toList rules := by
  have hread : readRules text.toList [] = .ok rules ↔ Format text.toList rules := by
    simp [readRules_eq_ok_iff]
  rw [← hread, read]
  cases readRules text.toList [] <;> simp

end Constituency.Reader

namespace Constituency

/-- A text is read as a grammar exactly when it has the format, and the draft then holds the rules
that its statements stand for, in their order. -/
theorem Draft.ofText_eq_ok_iff (text : String) (draft : Draft) :
    Draft.ofText text = .ok draft ↔
      ∃ rules, Reader.Format text.toList rules ∧ draft = { rules := rules } := by
  simp only [← Reader.read_eq_ok_iff]
  unfold Draft.ofText
  constructor
  · intro h
    split at h
    · rename_i rules hread
      cases h
      exact ⟨rules, hread, rfl⟩
    · cases h
  · rintro ⟨rules, hread, rfl⟩
    simp only [hread]

end Constituency
