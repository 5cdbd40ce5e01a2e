import ContractTree.Print.Source
import ContractTree.Proofs.QuotedText
import ContractTree.Proofs.TypeText

/-!
How expressions are written. An operation that is an operand stands in parentheses, so a text is read from the left
without looking back: a sign or `not` and an operand, or operands with operators between them; an operand is a
word, a number, a literal or a text in parentheses, with members, keys and arguments behind it. `Phrase` is this
grammar. Where nothing that could belong to a phrase follows it, the phrase is determined by its text, and so is
what follows (`Phrase.chars_append_inj`).
-/

namespace ContractTree.Print

/-! ## The grammar -/

/-- Letters, digits and the underscore. -/
def isIdentifierChar (c : Char) : Bool := c.isAlphanum || c = '_'

/-- A word that does not start with a digit and is not reserved. -/
structure IsIdentifier (x : String) : Prop where
  letters : ∀ c ∈ x.toList, isIdentifierChar c = true
  start : ∃ c cs, x.toList = c :: cs ∧ c.isDigit = false
  free : x ∉ ["not", "and", "or", "True", "False"]

structure Identifier where
  text : String
  valid : IsIdentifier text

/-- What stands between two operands. -/
inductive Word where
  | bin (op : BinOp)
  | compare (op : CompareOp)
  | bool (op : BoolOp)

namespace Word

def chars : Word → List Char
  | .bin op => op.symbol.toList
  | .compare op => op.symbol.toList
  | .bool op => op.symbol.toList

def all : List Word := BinOp.all.map .bin ++ CompareOp.all.map .compare ++ BoolOp.all.map .bool

theorem find?_chars (w : Word) : all.find? (fun v => v.chars = w.chars) = some w := by
  cases w with
  | bin op => cases op <;> rfl
  | compare op => cases op <;> rfl
  | bool op => cases op <;> rfl

theorem chars_inj {w w' : Word} (h : w.chars = w'.chars) : w = w' := by
  have hw := w.find?_chars
  rw [h, w'.find?_chars] at hw
  exact (Option.some.inj hw).symm

theorem ne_space_of_mem {w : Word} {c : Char} (hc : c ∈ w.chars) : c ≠ ' ' := by
  have hw : ' ' ∉ w.chars := by
    cases w with
    | bin op => cases op <;> decide
    | compare op => cases op <;> decide
    | bool op => cases op <;> decide
  exact fun he => hw (he ▸ hc)

end Word

mutual

/-- An expression as it is written. -/
inductive Phrase where
  | plain (o : Operand)
  | unary (op : UnaryOp) (o : Operand)
  | joined (w : Word) (first second : Operand) (rest : List Operand)

inductive Operand where
  | mk (base : Base) (suffixes : List Suffix)

inductive Base where
  | name (x : Identifier)
  | nat (n : Nat)
  | bool (b : Bool)
  | str (x : String)
  /-- An operation, in parentheses. -/
  | group (p : Phrase)

inductive Suffix where
  | attr (x : Identifier)
  | index (p : Phrase)
  | args (ps : List Phrase)

end

mutual

def Phrase.chars : Phrase → List Char
  | .plain o => o.chars
  | .unary op o => op.symbol.toList ++ o.chars
  | .joined w o o' os => o.chars ++ (' ' :: w.chars ++ ' ' :: (o'.chars ++ joinedChars w os))

def Operand.chars : Operand → List Char
  | .mk b ss => b.chars ++ suffixChars ss

def Base.chars : Base → List Char
  | .name x => x.text.toList
  | .nat n => Nat.toDigits 10 n
  | .bool b => (if b then "True" else "False").toList
  | .str x => (Text.quoted x).toList
  | .group p => '(' :: (p.chars ++ [')'])

def Suffix.chars : Suffix → List Char
  | .attr x => '.' :: x.text.toList
  | .index p => '[' :: (p.chars ++ [']'])
  | .args [] => ['(', ')']
  | .args (p :: ps) => '(' :: (p.chars ++ (argChars ps ++ [')']))

def suffixChars : List Suffix → List Char
  | [] => []
  | s :: ss => s.chars ++ suffixChars ss

/-- Further operands, each behind the word. -/
def joinedChars (w : Word) : List Operand → List Char
  | [] => []
  | o :: os => ' ' :: w.chars ++ ' ' :: (o.chars ++ joinedChars w os)

/-- Further arguments, each behind a comma. -/
def argChars : List Phrase → List Char
  | [] => []
  | p :: ps => ',' :: ' ' :: (p.chars ++ argChars ps)

end

/-! ## What may follow -/

/-- What may follow a phrase. -/
def Closes (r : List Char) : Prop := ∀ c ∈ r.head?, c = ')' ∨ c = ']' ∨ c = ','

/-- What may follow an operand. -/
def Parts (r : List Char) : Prop := ∀ c ∈ r.head?, c = ' ' ∨ c = ')' ∨ c = ']' ∨ c = ','

/-- What may follow a word. -/
def Breaks (r : List Char) : Prop := ∀ c ∈ r.head?, isIdentifierChar c = false

variable {r r' : List Char}

theorem Closes.parts (h : Closes r) : Parts r := fun c hc => .inr (h c hc)

theorem Closes.ne_space (h : Closes r) : r ≠ ' ' :: r' := by
  rintro rfl
  exact absurd (h ' ' (by simp)) (by decide)

theorem parts_space : Parts (' ' :: r) := by simp [Parts]

theorem closes_cons {c : Char} (h : c = ')' ∨ c = ']' ∨ c = ',') : Closes (c :: r) := by simpa [Closes] using h

theorem closes_argChars (ps : List Phrase) : Closes (argChars ps ++ ')' :: r) := by
  cases ps with
  | nil => exact closes_cons (by simp)
  | cons p ps =>
    rw [argChars]
    exact closes_cons (by simp)

theorem parts_joinedChars (w : Word) (os : List Operand) (h : Closes r) : Parts (joinedChars w os ++ r) := by
  cases os with
  | nil =>
    rw [joinedChars]
    exact h.parts
  | cons o os =>
    rw [joinedChars]
    exact parts_space

def Suffix.lead : Suffix → Char
  | .attr _ => '.'
  | .index _ => '['
  | .args _ => '('

theorem Suffix.exists_lead (s : Suffix) : ∃ cs, s.chars = s.lead :: cs := by
  cases s with
  | attr x => exact ⟨_, by rw [chars, lead]⟩
  | index p => exact ⟨_, by rw [chars, lead]⟩
  | args ps =>
    cases ps with
    | nil => exact ⟨_, by rw [chars, lead]⟩
    | cons p ps => exact ⟨_, by rw [chars, lead]⟩

theorem breaks_suffixChars (ss : List Suffix) (h : Parts r) : Breaks (suffixChars ss ++ r) := by
  cases ss with
  | nil =>
    rw [suffixChars]
    intro c hc
    rcases h c hc with rfl | rfl | rfl | rfl <;> decide
  | cons s ss =>
    obtain ⟨cs, hs⟩ := s.exists_lead
    rw [suffixChars, hs]
    intro c hc
    obtain rfl : s.lead = c := by simpa using hc
    cases s <;> rfl

/-! ## How a text starts -/

/-- What a base is, as far as its first character tells. -/
inductive Lead where
  | word
  | number
  | literal
  | group
  deriving DecidableEq

def charLead (c : Char) : Option Lead :=
  if c = '"' then some .literal
  else if c = '(' then some .group
  else if c.isDigit then some .number
  else if isIdentifierChar c then some .word
  else none

def Base.lead : Base → Lead
  | .name _ | .bool _ => .word
  | .nat _ => .number
  | .str _ => .literal
  | .group _ => .group

theorem Base.exists_lead (b : Base) : ∃ c cs, b.chars = c :: cs ∧ charLead c = some b.lead := by
  cases b with
  | name x =>
    obtain ⟨c, cs, hx, hdigit⟩ := x.valid.start
    have hletter := x.valid.letters c (by simp [hx])
    refine ⟨c, cs, by rw [chars, hx], ?_⟩
    have h1 : c ≠ '"' := by rintro rfl; revert hletter; decide
    have h2 : c ≠ '(' := by rintro rfl; revert hletter; decide
    simp [charLead, h1, h2, hdigit, hletter, lead]
  | nat n =>
    obtain ⟨c, cs, hn⟩ := List.exists_cons_of_ne_nil (Nat.toDigits_ne_nil (b := 10) (n := n))
    have hdigit := Nat.isDigit_of_mem_toDigits (b := 10) (n := n) (c := c) (by decide) (by decide) (by simp [hn])
    refine ⟨c, cs, by rw [chars, hn], ?_⟩
    have h1 : c ≠ '"' := by rintro rfl; revert hdigit; decide
    have h2 : c ≠ '(' := by rintro rfl; revert hdigit; decide
    simp [charLead, h1, h2, hdigit, lead]
  | bool v =>
    cases v with
    | false => exact ⟨'F', _, by rw [chars]; rfl, rfl⟩
    | true => exact ⟨'T', _, by rw [chars]; rfl, rfl⟩
  | str x => exact ⟨_, _, by rw [chars, Text.quoted, String.toList_ofList, List.cons_append], rfl⟩
  | group p => exact ⟨_, _, by rw [chars], rfl⟩

theorem Operand.exists_lead (o : Operand) : ∃ c cs, o.chars = c :: cs ∧ (charLead c).isSome := by
  obtain ⟨b, ss⟩ := o
  obtain ⟨c, cs, hb, hc⟩ := b.exists_lead
  exact ⟨c, cs ++ suffixChars ss, by rw [chars, hb, List.cons_append], by simp [hc]⟩

/-- An operand does not start like an operation with one operand. -/
theorem Operand.chars_append_ne (o : Operand) (op : UnaryOp) (h : Parts r) :
    o.chars ++ r ≠ op.symbol.toList ++ r' := by
  intro he
  obtain ⟨c, cs, hc, hlead⟩ := o.exists_lead
  cases op with
  | neg =>
    rw [hc] at he
    obtain rfl : c = '-' := (List.cons.inj he).1
    revert hlead
    decide
  | invert =>
    rw [hc] at he
    obtain rfl : c = '~' := (List.cons.inj he).1
    revert hlead
    decide
  | not =>
    obtain ⟨b, ss⟩ := o
    have hbreaks := breaks_suffixChars ss h
    rw [Operand.chars, List.append_assoc] at he
    have he : b.chars ++ (suffixChars ss ++ r) = ['n', 'o', 't'] ++ ' ' :: r' := he
    obtain ⟨c, cs, hc, hlead⟩ := b.exists_lead
    obtain rfl : c = 'n' := by rw [hc] at he; exact (List.cons.inj he).1
    cases b with
    | name x =>
      rw [Base.chars] at he
      obtain ⟨hx, -⟩ := append_inj_of_class x.valid.letters (List.all_eq_true.1 rfl) hbreaks
        (by simp [isIdentifierChar]) he
      have hnot : x.text = "not" := String.toList_inj.1 hx
      exact x.valid.free (by simp [hnot])
    | bool v =>
      rw [Base.chars] at he
      cases v <;> simp at he
    | nat n | str x | group p =>
      rw [Base.lead] at hlead
      exact absurd hlead (by decide)

theorem Identifier.ext {x y : Identifier} (h : x.text = y.text) : x = y := by
  cases x
  cases y
  simpa using h

/-- Identifiers are told apart where no letter follows. -/
theorem Identifier.append_inj {x y : Identifier} (hr : Breaks r) (hr' : Breaks r')
    (h : x.text.toList ++ r = y.text.toList ++ r') : x = y ∧ r = r' := by
  obtain ⟨hxy, hrest⟩ := append_inj_of_class x.valid.letters y.valid.letters hr hr' h
  exact ⟨Identifier.ext (String.toList_inj.1 hxy), hrest⟩

def boolWord (b : Bool) : List Char := (if b then "True" else "False").toList

theorem boolWord_append_inj {b b' : Bool} (h : boolWord b ++ r = boolWord b' ++ r') : b = b' ∧ r = r' := by
  cases b <;> cases b' <;> simp_all [boolWord]

/-- An identifier is no truth value. -/
theorem Identifier.append_ne_boolWord (x : Identifier) (b : Bool) (hr : Breaks r) (hr' : Breaks r') :
    x.text.toList ++ r ≠ boolWord b ++ r' := by
  intro h
  have hletters : ∀ c ∈ boolWord b, isIdentifierChar c = true := by
    cases b <;> exact List.all_eq_true.1 rfl
  have hx : x.text = if b then "True" else "False" :=
    String.toList_inj.1 (append_inj_of_class x.valid.letters hletters hr hr' h).1
  have hfree := x.valid.free
  rw [hx] at hfree
  cases b <;> simp at hfree

theorem Word.append_inj {w w' : Word} (h : w.chars ++ ' ' :: r = w'.chars ++ ' ' :: r') : w = w' ∧ r = r' := by
  have hne : ∀ (w : Word), ∀ c ∈ w.chars, (c != ' ') = true := fun w c hc => by simpa using ne_space_of_mem hc
  obtain ⟨hw, hrest⟩ := append_inj_of_class (hne w) (hne w') (by simp) (by simp) h
  exact ⟨chars_inj hw, (List.cons.inj hrest).2⟩

theorem unarySymbol_append_inj {op op' : UnaryOp} (h : op.symbol.toList ++ r = op'.symbol.toList ++ r') :
    op = op' ∧ r = r' := by
  cases op <;> cases op' <;> simp_all [UnaryOp.symbol]

theorem Breaks.not_isDigit (h : Breaks r) : ∀ c ∈ r.head?, c.isDigit = false := by
  intro c hc
  have := h c hc
  simp only [isIdentifierChar, Char.isAlphanum, Bool.or_eq_false_iff] at this
  exact this.1.2

theorem Base.lead_eq_of_chars {b b' : Base} (h : b.chars ++ r = b'.chars ++ r') : b.lead = b'.lead := by
  obtain ⟨c, cs, hc, hb⟩ := b.exists_lead
  obtain ⟨c', cs', hc', hb'⟩ := b'.exists_lead
  rw [hc, hc'] at h
  obtain rfl : c = c' := (List.cons.inj h).1
  exact Option.some.inj (hb.symm.trans hb')

theorem Suffix.lead_eq_of_chars {s s' : Suffix} (h : s.chars ++ r = s'.chars ++ r') : s.lead = s'.lead := by
  obtain ⟨cs, hs⟩ := s.exists_lead
  obtain ⟨cs', hs'⟩ := s'.exists_lead
  rw [hs, hs'] at h
  exact (List.cons.inj h).1

/-- No suffix starts with what may follow an operand. -/
theorem Suffix.chars_append_ne (s : Suffix) (hr : Parts r) : s.chars ++ r' ≠ r := by
  rintro rfl
  obtain ⟨cs, hs⟩ := s.exists_lead
  have := hr s.lead (by simp [hs])
  cases s <;> simp [Suffix.lead] at this

/-- No phrase starts with a closing parenthesis. -/
theorem Phrase.chars_append_ne_paren (p : Phrase) : p.chars ++ r ≠ ')' :: r' := by
  have hoperand : ∀ (o : Operand) {r : List Char}, o.chars ++ r ≠ ')' :: r' := by
    intro o r h
    obtain ⟨c, cs, hc, hlead⟩ := o.exists_lead
    rw [hc] at h
    obtain rfl : c = ')' := (List.cons.inj h).1
    revert hlead
    decide
  cases p with
  | plain o =>
    rw [Phrase.chars]
    exact hoperand o
  | unary op o => cases op <;> simp [Phrase.chars, UnaryOp.symbol]
  | joined w o o' os =>
    rw [Phrase.chars, List.append_assoc]
    exact hoperand o

mutual

/-- **A phrase is determined by its text**, and so is what follows it. -/
theorem Phrase.chars_append_inj (p q : Phrase) {r r' : List Char} (hr : Closes r) (hr' : Closes r')
    (h : p.chars ++ r = q.chars ++ r') : p = q ∧ r = r' := by
  match p, q, h with
  | .plain o, .plain o', h =>
    simp only [Phrase.chars] at h
    obtain ⟨rfl, hrest⟩ := Operand.chars_append_inj o o' hr.parts hr'.parts h
    exact ⟨rfl, hrest⟩
  | .plain o, .unary op o', h =>
    simp only [Phrase.chars, List.append_assoc] at h
    exact absurd h (o.chars_append_ne op hr.parts)
  | .plain o, .joined w o₁ o₂ os, h =>
    simp only [Phrase.chars, List.append_assoc, List.cons_append] at h
    obtain ⟨-, hrest⟩ := Operand.chars_append_inj o o₁ hr.parts parts_space h
    exact absurd hrest hr.ne_space
  | .unary op o, .plain o', h =>
    simp only [Phrase.chars, List.append_assoc] at h
    exact absurd h.symm (o'.chars_append_ne op hr'.parts)
  | .unary op o, .unary op' o', h =>
    simp only [Phrase.chars, List.append_assoc] at h
    obtain ⟨rfl, ho⟩ := unarySymbol_append_inj h
    obtain ⟨rfl, hrest⟩ := Operand.chars_append_inj o o' hr.parts hr'.parts ho
    exact ⟨rfl, hrest⟩
  | .unary op o, .joined w o₁ o₂ os, h =>
    simp only [Phrase.chars, List.append_assoc, List.cons_append] at h
    exact absurd h.symm (o₁.chars_append_ne op parts_space)
  | .joined w o₁ o₂ os, .plain o, h =>
    simp only [Phrase.chars, List.append_assoc, List.cons_append] at h
    obtain ⟨-, hrest⟩ := Operand.chars_append_inj o₁ o parts_space hr'.parts h
    exact absurd hrest.symm hr'.ne_space
  | .joined w o₁ o₂ os, .unary op o, h =>
    simp only [Phrase.chars, List.append_assoc, List.cons_append] at h
    exact absurd h (o₁.chars_append_ne op parts_space)
  | .joined w o₁ o₂ os, .joined w' o₁' o₂' os', h =>
    simp only [Phrase.chars, List.append_assoc, List.cons_append] at h
    obtain ⟨rfl, hw⟩ := Operand.chars_append_inj o₁ o₁' parts_space parts_space h
    obtain ⟨rfl, ho⟩ := Word.append_inj (List.cons.inj hw).2
    obtain ⟨rfl, hos⟩ := Operand.chars_append_inj o₂ o₂' (parts_joinedChars w os hr)
      (parts_joinedChars w os' hr') ho
    obtain ⟨rfl, hrest⟩ := joinedChars_append_inj w os os' hr hr' hos
    exact ⟨rfl, hrest⟩
termination_by sizeOf p

theorem Operand.chars_append_inj (o o' : Operand) {r r' : List Char} (hr : Parts r) (hr' : Parts r')
    (h : o.chars ++ r = o'.chars ++ r') : o = o' ∧ r = r' := by
  match o, o', h with
  | .mk b ss, .mk b' ss', h =>
    simp only [Operand.chars, List.append_assoc] at h
    obtain ⟨rfl, hss⟩ := Base.chars_append_inj b b' (breaks_suffixChars ss hr) (breaks_suffixChars ss' hr') h
    obtain ⟨rfl, hrest⟩ := suffixChars_append_inj ss ss' hr hr' hss
    exact ⟨rfl, hrest⟩
termination_by sizeOf o

theorem Base.chars_append_inj (b b' : Base) {r r' : List Char} (hr : Breaks r) (hr' : Breaks r')
    (h : b.chars ++ r = b'.chars ++ r') : b = b' ∧ r = r' := by
  have hlead := Base.lead_eq_of_chars h
  cases b with
  | name x =>
    rw [Base.chars] at h
    cases b' with
    | name y =>
      rw [Base.chars] at h
      obtain ⟨rfl, hrest⟩ := Identifier.append_inj hr hr' h
      exact ⟨rfl, hrest⟩
    | bool v =>
      rw [Base.chars] at h
      exact absurd h (x.append_ne_boolWord v hr hr')
    | nat _ | str _ | group _ => exact absurd hlead (by simp [Base.lead])
  | bool v =>
    rw [Base.chars] at h
    cases b' with
    | name x =>
      rw [Base.chars] at h
      exact absurd h.symm (x.append_ne_boolWord v hr' hr)
    | bool v' =>
      rw [Base.chars] at h
      obtain ⟨rfl, hrest⟩ := boolWord_append_inj h
      exact ⟨rfl, hrest⟩
    | nat _ | str _ | group _ => exact absurd hlead (by simp [Base.lead])
  | nat n =>
    rw [Base.chars] at h
    cases b' with
    | nat m =>
      rw [Base.chars] at h
      obtain ⟨rfl, hrest⟩ := toDigits_append_inj hr.not_isDigit hr'.not_isDigit h
      exact ⟨rfl, hrest⟩
    | name _ | bool _ | str _ | group _ => exact absurd hlead (by simp [Base.lead])
  | str x =>
    rw [Base.chars] at h
    cases b' with
    | str y =>
      rw [Base.chars] at h
      obtain ⟨rfl, hrest⟩ := Text.quoted_append_inj h
      exact ⟨rfl, hrest⟩
    | name _ | bool _ | nat _ | group _ => exact absurd hlead (by simp [Base.lead])
  | group p =>
    rw [Base.chars] at h
    cases b' with
    | group q =>
      rw [Base.chars, List.cons_append, List.cons_append, List.append_assoc, List.append_assoc] at h
      obtain ⟨rfl, hrest⟩ := Phrase.chars_append_inj p q (closes_cons (by simp)) (closes_cons (by simp))
        (List.cons.inj h).2
      exact ⟨rfl, (List.cons.inj hrest).2⟩
    | name _ | bool _ | nat _ | str _ => exact absurd hlead (by simp [Base.lead])
termination_by sizeOf b

theorem Suffix.chars_append_inj (s s' : Suffix) {r r' : List Char} (hr : Breaks r) (hr' : Breaks r')
    (h : s.chars ++ r = s'.chars ++ r') : s = s' ∧ r = r' := by
  have hlead := Suffix.lead_eq_of_chars h
  cases s with
  | attr x =>
    cases s' with
    | attr y =>
      simp only [Suffix.chars, List.cons_append, List.cons.injEq, true_and] at h
      obtain ⟨rfl, hrest⟩ := Identifier.append_inj hr hr' h
      exact ⟨rfl, hrest⟩
    | index _ | args _ => exact absurd hlead (by simp [Suffix.lead])
  | index p =>
    cases s' with
    | index q =>
      simp only [Suffix.chars, List.cons_append, List.append_assoc, List.cons.injEq, true_and] at h
      obtain ⟨rfl, hrest⟩ := Phrase.chars_append_inj p q (closes_cons (by simp)) (closes_cons (by simp)) h
      exact ⟨rfl, (List.cons.inj hrest).2⟩
    | attr _ | args _ => exact absurd hlead (by simp [Suffix.lead])
  | args ps =>
    cases s' with
    | args qs =>
      cases ps with
      | nil =>
        cases qs with
        | nil =>
          simp only [Suffix.chars, List.cons_append, List.nil_append, List.cons.injEq, true_and] at h
          exact ⟨rfl, h⟩
        | cons q qs =>
          simp only [Suffix.chars, List.cons_append, List.nil_append, List.append_assoc, List.cons.injEq,
            true_and] at h
          exact absurd h.symm q.chars_append_ne_paren
      | cons p ps =>
        cases qs with
        | nil =>
          simp only [Suffix.chars, List.cons_append, List.nil_append, List.append_assoc, List.cons.injEq,
            true_and] at h
          exact absurd h p.chars_append_ne_paren
        | cons q qs =>
          simp only [Suffix.chars, List.cons_append, List.nil_append, List.append_assoc, List.cons.injEq,
            true_and] at h
          obtain ⟨rfl, hps⟩ := Phrase.chars_append_inj p q (closes_argChars ps) (closes_argChars qs) h
          obtain ⟨rfl, hrest⟩ := argChars_append_inj ps qs hps
          exact ⟨rfl, hrest⟩
    | attr _ | index _ => exact absurd hlead (by simp [Suffix.lead])
termination_by sizeOf s

theorem suffixChars_append_inj (ss ss' : List Suffix) {r r' : List Char} (hr : Parts r) (hr' : Parts r')
    (h : suffixChars ss ++ r = suffixChars ss' ++ r') : ss = ss' ∧ r = r' := by
  match ss, ss', h with
  | [], [], h =>
    simp only [suffixChars, List.nil_append] at h
    exact ⟨rfl, h⟩
  | [], s :: ss, h =>
    simp only [suffixChars, List.nil_append, List.append_assoc] at h
    exact absurd h.symm (s.chars_append_ne hr)
  | s :: ss, [], h =>
    simp only [suffixChars, List.nil_append, List.append_assoc] at h
    exact absurd h (s.chars_append_ne hr')
  | s :: ss, s' :: ss', h =>
    simp only [suffixChars, List.append_assoc] at h
    obtain ⟨rfl, hss⟩ := Suffix.chars_append_inj s s' (breaks_suffixChars ss hr) (breaks_suffixChars ss' hr') h
    obtain ⟨rfl, hrest⟩ := suffixChars_append_inj ss ss' hr hr' hss
    exact ⟨rfl, hrest⟩
termination_by sizeOf ss

theorem joinedChars_append_inj (w : Word) (os os' : List Operand) {r r' : List Char} (hr : Closes r)
    (hr' : Closes r') (h : joinedChars w os ++ r = joinedChars w os' ++ r') : os = os' ∧ r = r' := by
  match os, os', h with
  | [], [], h =>
    simp only [joinedChars, List.nil_append] at h
    exact ⟨rfl, h⟩
  | [], o :: os, h =>
    simp only [joinedChars, List.nil_append, List.cons_append] at h
    exact absurd h hr.ne_space
  | o :: os, [], h =>
    simp only [joinedChars, List.nil_append, List.cons_append] at h
    exact absurd h.symm hr'.ne_space
  | o :: os, o' :: os', h =>
    simp only [joinedChars, List.append_assoc, List.cons_append, List.cons.injEq, true_and] at h
    obtain ⟨-, ho⟩ := Word.append_inj h
    obtain ⟨rfl, hos⟩ := Operand.chars_append_inj o o' (parts_joinedChars w os hr) (parts_joinedChars w os' hr') ho
    obtain ⟨rfl, hrest⟩ := joinedChars_append_inj w os os' hr hr' hos
    exact ⟨rfl, hrest⟩
termination_by sizeOf os

theorem argChars_append_inj (ps qs : List Phrase) {r r' : List Char}
    (h : argChars ps ++ ')' :: r = argChars qs ++ ')' :: r') : ps = qs ∧ r = r' := by
  match ps, qs, h with
  | [], [], h =>
    simp only [argChars, List.nil_append, List.cons.injEq, true_and] at h
    exact ⟨rfl, h⟩
  | [], q :: qs, h =>
    simp only [argChars, List.nil_append, List.cons_append] at h
    exact absurd (List.cons.inj h).1 (by decide)
  | p :: ps, [], h =>
    simp only [argChars, List.nil_append, List.cons_append] at h
    exact absurd (List.cons.inj h).1 (by decide)
  | p :: ps, q :: qs, h =>
    simp only [argChars, List.cons_append, List.append_assoc, List.cons.injEq, true_and] at h
    obtain ⟨rfl, hps⟩ := Phrase.chars_append_inj p q (closes_argChars ps) (closes_argChars qs) h
    obtain ⟨rfl, hrest⟩ := argChars_append_inj ps qs hps
    exact ⟨rfl, hrest⟩
termination_by sizeOf ps

end

end ContractTree.Print
