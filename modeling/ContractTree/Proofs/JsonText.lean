import ContractTree.Json.Printer
import ContractTree.Json.Reader
import Mathlib.Data.List.TakeWhile
import Mathlib.Tactic.SplitIfs

/-!
Reading what was written. The text of a value spells its tokens, whatever blanks the layout puts between them
(`spells_chars`), and the tokens build the value again, except that a container that stands too deep is lost
(`foldlM_tokens`). So a written value is read back up to `Json.clip` (`parse?_chars`), and as a whole if it is not
nested too deep.

Words are complete only when the character behind them is seen. The statements about the lexer are therefore made
with the rest of the text in view, which must not start with a character that would make a word longer (`Ended`).
-/

namespace ContractTree.Json

/-! ## Numerals -/

theorem digitsValue_eq (ds : List Char) : Decimal.digitsValue ds = Nat.ofDigitChars 10 ds 0 :=
  Nat.ofDigitChars_eq_foldl.symm

theorem digitsValue_toDigits (n : Nat) : Decimal.digitsValue (Nat.toDigits 10 n) = n := by
  rw [digitsValue_eq, Nat.ofDigitChars_ten_toDigits]

theorem all_isDigit_toDigits (n : Nat) : (Nat.toDigits 10 n).all Char.isDigit = true := by
  rw [List.all_eq_true]
  exact fun c hc => Nat.isDigit_of_mem_toDigits (by decide) (by decide) hc

/-- Only the numeral of zero starts with a zero. -/
theorem head?_toDigits_ne {n : Nat} (h : 0 < n) : (Nat.toDigits 10 n).head? ≠ some '0' := by
  induction n using Nat.strongRecOn with
  | ind n ih =>
    rcases Nat.lt_or_ge n 10 with hn | hn
    · have hsmall : ∀ m < 10, 0 < m → [Nat.digitChar m].head? ≠ some '0' := by decide
      rw [Nat.toDigits_of_lt_base hn]
      exact hsmall n hn h
    · obtain ⟨d, ds, hd⟩ := List.exists_cons_of_ne_nil (Nat.toDigits_ne_nil (n := n / 10) (b := 10))
      have hhead := ih (n / 10) (by omega) (by omega)
      rw [Nat.toDigits_of_base_le (by decide) hn, hd]
      rwa [hd] at hhead

theorem isWhole_toDigits (n : Nat) : isWhole (Nat.toDigits 10 n) = true := by
  have hne : (Nat.toDigits 10 n).isEmpty = false := List.isEmpty_eq_false_iff.2 Nat.toDigits_ne_nil
  rw [isWhole, isDigits, hne, all_isDigit_toDigits]
  rcases Nat.eq_zero_or_pos n with rfl | hn
  · decide
  · simp [head?_toDigits_ne hn]

theorem le_ofDigitChars (ds : List Char) (n : Nat) : n ≤ Nat.ofDigitChars 10 ds n := by
  rw [Nat.ofDigitChars_eq_ofDigitChars_zero]
  have : 1 * n ≤ 10 ^ ds.length * n := Nat.mul_le_mul_right n (Nat.one_le_pow _ _ (by decide))
  omega

/-- Digits are put behind a significand as long as the number fits. -/
theorem appendDigits_eq {ds : List Char} {n : Nat} (h : Nat.ofDigitChars 10 ds n < UInt64.size) :
    appendDigits n ds = (Nat.ofDigitChars 10 ds n, []) := by
  induction ds generalizing n with
  | nil => rfl
  | cons d ds ih =>
    rw [Nat.ofDigitChars_cons] at h ⊢
    have hnext : 10 * n + (d.toNat - '0'.toNat) < UInt64.size := Nat.lt_of_le_of_lt (le_ofDigitChars ds _) h
    rw [appendDigits, if_pos hnext]
    exact ih h

/-- A numeral without a sign is read as it stands. -/
theorem numeral?_of_unsigned {cs : List Char} (h : ∀ rest, cs ≠ '-' :: rest) (hu : isUnsigned cs = true)
    (hr : (magnitude cs).isInRange = true) (hw : isWhole cs = true) :
    numeral? cs = some (.nat (Decimal.digitsValue cs)) := by
  unfold numeral?
  split
  · exact absurd rfl (h _)
  · simp [hu, hr, hw]

theorem numeral?_toDigits {n : Nat} (h : n < UInt64.size) : numeral? (Nat.toDigits 10 n) = some (.nat n) := by
  have hdigits := List.all_eq_true.1 (all_isDigit_toDigits n)
  have hsign : ∀ rest, Nat.toDigits 10 n ≠ '-' :: rest := fun rest he => by
    have := hdigits '-' (he ▸ List.mem_cons_self)
    cases this
  have htake : (Nat.toDigits 10 n).takeWhile Char.isDigit = Nat.toDigits 10 n :=
    List.takeWhile_eq_self_iff.2 hdigits
  have hdrop : (Nat.toDigits 10 n).dropWhile Char.isDigit = [] := List.dropWhile_eq_nil_iff.2 hdigits
  have happend : appendDigits 0 (Nat.toDigits 10 n) = _ := appendDigits_eq (by rwa [Nat.ofDigitChars_ten_toDigits])
  have hmagnitude : magnitude (Nat.toDigits 10 n) = ⟨n, 0⟩ := by
    rw [magnitude, htake, hdrop, happend, Nat.ofDigitChars_ten_toDigits]
    rfl
  rw [numeral?_of_unsigned hsign ?_ ?_ (isWhole_toDigits n), digitsValue_toDigits]
  · rw [isUnsigned, htake, hdrop, isWhole_toDigits]
    rfl
  · simp [hmagnitude, Magnitude.isInRange]

/-! ## Characters of words and blanks -/

theorem not_isBlank_of_isWordChar {c : Char} (h : isWordChar c = true) : isBlank c = false ∧ c ≠ '"' := by
  constructor
  · by_contra hb
    rw [Bool.not_eq_false, isBlank] at hb
    simp only [Bool.or_eq_true, decide_eq_true_eq] at hb
    rcases hb with ((rfl | rfl) | rfl) | rfl <;> exact absurd h (by decide)
  · rintro rfl
    exact absurd h (by decide)

theorem not_isWordChar_of_isBlank {c : Char} (h : isBlank c = true) : isWordChar c = false := by
  by_contra hw
  rw [Bool.not_eq_false] at hw
  rw [(not_isBlank_of_isWordChar hw).1] at h
  cases h

theorem isWordChar_of_isDigit {c : Char} (h : c.isDigit = true) : isWordChar c = true := by
  simp [isWordChar, Char.isAlphanum, h]

/-- A text that starts with no character of a word. -/
def Ended (cs : List Char) : Prop := ∀ c ∈ cs.head?, isWordChar c = false

theorem ended_cons {c : Char} {cs : List Char} (h : isWordChar c = false) : Ended (c :: cs) := by
  rintro _ ⟨⟩
  exact h

theorem ended_blanks {bs : List Char} {c : Char} {cs : List Char} (hb : ∀ b ∈ bs, isBlank b = true)
    (hc : isWordChar c = false) : Ended (bs ++ c :: cs) := by
  cases bs with
  | nil => exact ended_cons hc
  | cons b bs => exact ended_cons (not_isWordChar_of_isBlank (hb b List.mem_cons_self))

/-! ## Tokens of a text -/

/-- The tokens that are read once a word that is being read ends. -/
def LexState.settled? (s : LexState) : Option (List Token) :=
  match s.mode with
  | .between => some s.done
  | .word rev => (word? rev.reverse).map fun j => .scalar j :: s.done
  | _ => none

/-- Read from between two tokens, the text adds these tokens. -/
def Spells (cs : List Char) (ts : List Token) : Prop :=
  ∀ done, (cs.foldlM LexState.step ⟨.between, done⟩).bind LexState.settled? = some (ts.reverse ++ done)

variable {cs rest : List Char} {ts : List Token} {c : Char}

theorem Spells.tokens? (h : Spells cs ts) : tokens? cs = some ts := by
  have hfinish : LexState.finish = Option.map List.reverse ∘ LexState.settled? := by
    funext s
    obtain ⟨mode, done⟩ := s
    cases mode <;> simp [LexState.finish, LexState.settled?, Function.comp_def]
  rw [Json.tokens?, hfinish, ← Option.map_bind, h]
  simp

theorem spells_nil : Spells [] [] := fun _ => rfl

/-- Where the text goes on with no character of a word, the lexer may as well stand between two tokens. -/
theorem bind_settled? {s : LexState} {done : List Token} (hs : s.settled? = some done) (hend : Ended rest) :
    (rest.foldlM LexState.step s).bind LexState.settled? =
      (rest.foldlM LexState.step ⟨.between, done⟩).bind LexState.settled? := by
  cases rest with
  | nil => exact hs
  | cons c rest =>
    have hc : isWordChar c = false := hend c rfl
    have hstep : s.step c = LexState.start done c := by
      obtain ⟨mode, done'⟩ := s
      cases mode with
      | between =>
        cases hs
        rfl
      | word rev =>
        obtain ⟨j, hj, rfl⟩ := Option.map_eq_some_iff.1 hs
        simp [LexState.step, hc, hj]
      | text rev | escape rev | hex rev value left => cases hs
    rw [List.foldlM_cons, List.foldlM_cons, hstep]
    rfl

theorem Spells.blank (hc : isBlank c = true) (h : Spells rest ts) : Spells (c :: rest) ts := by
  intro done
  have hstep : LexState.step ⟨.between, done⟩ c = some ⟨.between, done⟩ := by
    simp [LexState.step, LexState.start, hc]
  rw [List.foldlM_cons, hstep]
  exact h done

theorem Spells.blanks {bs : List Char} (hb : ∀ b ∈ bs, isBlank b = true) (h : Spells rest ts) :
    Spells (bs ++ rest) ts := by
  induction bs with
  | nil => exact h
  | cons b bs ih => exact .blank (hb b List.mem_cons_self) (ih fun b' hb' => hb b' (List.mem_cons_of_mem _ hb'))

theorem Spells.punctuation {t : Token} (hc : ∀ done, LexState.start done c = some ⟨.between, t :: done⟩)
    (h : Spells rest ts) : Spells (c :: rest) (t :: ts) := by
  intro done
  have hstep : LexState.step ⟨.between, done⟩ c = some ⟨.between, t :: done⟩ := hc done
  rw [List.foldlM_cons, hstep, List.reverse_cons, List.append_assoc]
  exact h (t :: done)

theorem foldlM_word {rev : List Char} {done : List Token} (h : ∀ c ∈ cs, isWordChar c = true) :
    cs.foldlM LexState.step ⟨.word rev, done⟩ = some ⟨.word (cs.reverse ++ rev), done⟩ := by
  induction cs generalizing rev with
  | nil => rfl
  | cons c cs ih =>
    have hstep : LexState.step ⟨.word rev, done⟩ c = some ⟨.word (c :: rev), done⟩ := by
      simp [LexState.step, h c List.mem_cons_self]
    rw [List.foldlM_cons, hstep, List.reverse_cons, List.append_assoc]
    exact ih fun c' hc' => h c' (List.mem_cons_of_mem _ hc')

theorem Spells.word {j : Json} (cs : List Char) (hne : cs ≠ []) (hcs : ∀ c ∈ cs, isWordChar c = true)
    (hj : word? cs = some j) (hend : Ended rest) (h : Spells rest ts) : Spells (cs ++ rest) (.scalar j :: ts) := by
  intro done
  obtain ⟨c, cs, rfl⟩ := List.exists_cons_of_ne_nil hne
  have hc := hcs c List.mem_cons_self
  have hstep : LexState.step ⟨.between, done⟩ c = some ⟨.word [c], done⟩ := by
    simp [LexState.step, LexState.start, hc, not_isBlank_of_isWordChar hc]
  have hword : cs.foldlM LexState.step ⟨.word [c], done⟩ = _ :=
    foldlM_word fun c' hc' => hcs c' (List.mem_cons_of_mem c hc')
  have hsettled : LexState.settled? ⟨.word (cs.reverse ++ [c]), done⟩ = some (.scalar j :: done) := by
    simp [LexState.settled?, hj]
  rw [List.cons_append, List.foldlM_cons, hstep, Option.bind_eq_bind, Option.bind_some, List.foldlM_append, hword,
    Option.bind_eq_bind, Option.bind_some, bind_settled? hsettled hend, h]
  simp

/-! ## Strings -/

theorem not_surrogate (c : Char) : isLowSurrogate c.toNat = false ∧ isHighSurrogate c.toNat = false := by
  have h := c.valid
  simp only [UInt32.isValidChar, Nat.isValidChar] at h
  have hval : c.toNat = c.val.toNat := rfl
  simp only [isLowSurrogate, isHighSurrogate, Bool.and_eq_false_iff, decide_eq_false_iff_not]
  omega

theorem charsOfCodes?_map (cs acc : List Char) :
    charsOfCodes? (cs.map Char.toNat) acc = some (cs.reverse ++ acc) := by
  induction cs generalizing acc with
  | nil => rfl
  | cons c cs ih =>
    obtain ⟨hlow, hhigh⟩ := not_surrogate c
    cases cs with
    | nil => simp [charsOfCodes?, hlow, hhigh]
    | cons d cs =>
      rw [List.map_cons, List.map_cons, charsOfCodes?, hlow, hhigh]
      simp only [Bool.false_and, Bool.or_self, Bool.false_eq_true, if_false]
      rw [← List.map_cons, ih, Char.ofNat_toNat]
      simp

theorem textOfCodes?_reverse (cs : List Char) :
    textOfCodes? (cs.map Char.toNat).reverse = some (String.ofList cs) := by
  rw [textOfCodes?, ← List.map_reverse, charsOfCodes?_map]
  simp

theorem hexValue?_hexDigit (n : Nat) : hexValue? (hexDigit n) = some (n % 16) := by
  have h : ∀ m < 16, hexValue? (Nat.digitChar m) = some m := by decide
  exact h (n % 16) (Nat.mod_lt _ (by decide))

/-- A character of a string is read as its code, escaped or not. -/
theorem foldlM_escapeChar (c : Char) (rev : List Nat) (done : List Token) :
    (escapeChar c).foldlM LexState.step ⟨.text rev, done⟩ = some ⟨.text (c.toNat :: rev), done⟩ := by
  unfold escapeChar
  split_ifs with h1 h2 h3 h4 h5 h6 h7 h8
  iterate 7
    subst c
    rfl
  · have hzero : hexValue? '0' = some 0 := rfl
    have hcode : 16 * (16 * (16 * (16 * 0 + 0) + 0) + c.toNat / 16 % 16) + c.toNat % 16 = c.toNat := by omega
    simp only [List.foldlM_cons, List.foldlM_nil, LexState.step, Option.bind_eq_bind, Option.bind_some,
      Option.pure_def, if_true, hzero, Option.map_some, hexValue?_hexDigit, Nat.reduceLeDiff, Nat.reduceSub,
      if_false, hcode, Char.reduceEq]
  · simp [LexState.step, h1, h2, h8]

theorem foldlM_escaped (cs : List Char) (rev : List Nat) (done : List Token) :
    (cs.flatMap escapeChar).foldlM LexState.step ⟨.text rev, done⟩ =
      some ⟨.text ((cs.map Char.toNat).reverse ++ rev), done⟩ := by
  induction cs generalizing rev with
  | nil => rfl
  | cons c cs ih =>
    rw [List.flatMap_cons, List.foldlM_append, foldlM_escapeChar, Option.bind_eq_bind, Option.bind_some, ih]
    simp

theorem foldlM_quoted (s : String) (done : List Token) :
    (quoted s).foldlM LexState.step ⟨.between, done⟩ = some ⟨.between, .text (some s) :: done⟩ := by
  have hopen : LexState.step ⟨.between, done⟩ '"' = some ⟨.text [], done⟩ := rfl
  rw [quoted, List.cons_append, List.foldlM_cons, hopen, Option.bind_eq_bind, Option.bind_some, List.foldlM_append,
    foldlM_escaped, Option.bind_eq_bind, Option.bind_some, List.append_nil]
  simp [LexState.step, textOfCodes?_reverse]

theorem Spells.quoted (s : String) (h : Spells rest ts) : Spells (quoted s ++ rest) (.text (some s) :: ts) := by
  intro done
  rw [List.foldlM_append, foldlM_quoted, Option.bind_eq_bind, Option.bind_some, h]
  simp

/-! ## Values -/

mutual

/-- The tokens of a written value. -/
def tokens : Json → List Token
  | .str s => [.text (some s)]
  | .arr [] => [.lbracket, .rbracket]
  | .arr (j :: js) => .lbracket :: (tokens j ++ itemTokens js ++ [.rbracket])
  | .obj [] => [.lbrace, .rbrace]
  | .obj ((k, j) :: fs) => .lbrace :: .text (some k) :: .colon :: (tokens j ++ fieldTokens fs ++ [.rbrace])
  | j => [.scalar j]

def itemTokens : List Json → List Token
  | [] => []
  | j :: js => .comma :: (tokens j ++ itemTokens js)

def fieldTokens : List (String × Json) → List Token
  | [] => []
  | (k, j) :: fs => .comma :: .text (some k) :: .colon :: (tokens j ++ fieldTokens fs)

end

mutual

/-- Values whose text says what they are: numbers that fit into 64 bits, and nothing that cannot be read. -/
def Plain : Json → Prop
  | .nat n => n < UInt64.size
  | .real _ | .unreadable => False
  | .arr items => PlainItems items
  | .obj fields => PlainFields fields
  | _ => True

def PlainItems : List Json → Prop
  | [] => True
  | j :: js => Plain j ∧ PlainItems js

def PlainFields : List (String × Json) → Prop
  | [] => True
  | (_, j) :: fs => Plain j ∧ PlainFields fs

end

/-- A layout of blanks. -/
structure Spacing.Blank (sp : Spacing) : Prop where
  newline : ∀ depth, ∀ c ∈ sp.newline depth, isBlank c = true
  afterColon : ∀ c ∈ sp.afterColon, isBlank c = true

theorem Spacing.blank_pretty : Spacing.pretty.Blank := by
  refine ⟨fun depth c hc => ?_, by simp [pretty, isBlank]⟩
  rcases List.mem_cons.1 hc with rfl | hc
  · rfl
  · rw [List.eq_of_mem_replicate hc]
    rfl

section Spelling

variable {sp : Spacing}

theorem ended_itemChars {depth : Nat} (js : List Json) (hend : Ended rest) :
    Ended (itemChars sp depth js ++ rest) := by
  cases js with
  | nil => exact hend
  | cons j js => exact ended_cons rfl

theorem ended_fieldChars {depth : Nat} (fs : List (String × Json)) (hend : Ended rest) :
    Ended (fieldChars sp depth fs ++ rest) := by
  cases fs with
  | nil => exact hend
  | cons f fs => exact ended_cons rfl

theorem word?_toDigits {n : Nat} (h : n < UInt64.size) : word? (Nat.toDigits 10 n) = some (.nat n) := by
  have hdigit : ∀ c cs, c.isDigit = false → Nat.toDigits 10 n ≠ c :: cs := by
    intro c cs hc he
    have := List.all_eq_true.1 (all_isDigit_toDigits n) c (he ▸ List.mem_cons_self)
    rw [hc] at this
    cases this
  rw [word?, if_neg (hdigit _ _ rfl), if_neg (hdigit _ _ rfl), if_neg (hdigit _ _ rfl), numeral?_toDigits h]

variable (hsp : sp.Blank)

include hsp

mutual

/-- The text of a value spells its tokens. -/
theorem spells_chars (j : Json) (hj : j.Plain) (depth : Nat) {rest : List Char} {ts : List Token}
    (hend : Ended rest) (h : Spells rest ts) : Spells (chars sp depth j ++ rest) (tokens j ++ ts) := by
  match j, hj with
  | .null, _ => exact .word ['n', 'u', 'l', 'l'] (by decide) (List.all_eq_true.1 rfl) rfl hend h
  | .bool true, _ => exact .word ['t', 'r', 'u', 'e'] (by decide) (List.all_eq_true.1 rfl) rfl hend h
  | .bool false, _ => exact .word ['f', 'a', 'l', 's', 'e'] (by decide) (List.all_eq_true.1 rfl) rfl hend h
  | .nat n, hn =>
    have hword : ∀ c ∈ Nat.toDigits 10 n, isWordChar c = true := fun c hc =>
      isWordChar_of_isDigit (List.all_eq_true.1 (all_isDigit_toDigits n) c hc)
    exact .word _ Nat.toDigits_ne_nil hword (word?_toDigits hn) hend h
  | .str s, _ => exact .quoted s h
  | .arr [], _ => exact .punctuation (fun _ => rfl) (.punctuation (fun _ => rfl) h)
  | .arr (j :: js), ⟨hj, hjs⟩ =>
    have hclose : Spells (']' :: rest) (.rbracket :: ts) := .punctuation (fun _ => rfl) h
    have hlast : Ended (sp.newline depth ++ ']' :: rest) := ended_blanks (hsp.newline depth) rfl
    have hitems := spells_itemChars js hjs (depth + 1) hlast (hclose.blanks (hsp.newline depth))
    have hfirst := spells_chars j hj (depth + 1) (ended_itemChars js hlast) hitems
    have hopen : Spells ('[' :: _) (.lbracket :: _) :=
      .punctuation (fun _ => rfl) (hfirst.blanks (hsp.newline (depth + 1)))
    simpa [chars, tokens] using hopen
  | .obj [], _ => exact .punctuation (fun _ => rfl) (.punctuation (fun _ => rfl) h)
  | .obj ((k, j) :: fs), ⟨hj, hfs⟩ =>
    have hclose : Spells ('}' :: rest) (.rbrace :: ts) := .punctuation (fun _ => rfl) h
    have hlast : Ended (sp.newline depth ++ '}' :: rest) := ended_blanks (hsp.newline depth) rfl
    have hfields := spells_fieldChars fs hfs (depth + 1) hlast (hclose.blanks (hsp.newline depth))
    have hfirst := spells_chars j hj (depth + 1) (ended_fieldChars fs hlast) hfields
    have hcolon : Spells (':' :: _) (.colon :: _) := .punctuation (fun _ => rfl) (hfirst.blanks hsp.afterColon)
    have hkey := (hcolon.quoted k).blanks (hsp.newline (depth + 1))
    have hopen : Spells ('{' :: _) (.lbrace :: _) := .punctuation (fun _ => rfl) hkey
    simpa [chars, tokens] using hopen

theorem spells_itemChars (js : List Json) (hj : PlainItems js) (depth : Nat) {rest : List Char} {ts : List Token}
    (hend : Ended rest) (h : Spells rest ts) : Spells (itemChars sp depth js ++ rest) (itemTokens js ++ ts) := by
  match js, hj with
  | [], _ => exact h
  | j :: js, ⟨hj, hjs⟩ =>
    have hitems := spells_itemChars js hjs depth hend h
    have hfirst := spells_chars j hj depth (ended_itemChars js hend) hitems
    have hcomma : Spells (',' :: _) (.comma :: _) :=
      .punctuation (fun _ => rfl) (hfirst.blanks (hsp.newline depth))
    simpa [itemChars, itemTokens] using hcomma

theorem spells_fieldChars (fs : List (String × Json)) (hf : PlainFields fs) (depth : Nat) {rest : List Char}
    {ts : List Token} (hend : Ended rest) (h : Spells rest ts) :
    Spells (fieldChars sp depth fs ++ rest) (fieldTokens fs ++ ts) := by
  match fs, hf with
  | [], _ => exact h
  | (k, j) :: fs, ⟨hj, hfs⟩ =>
    have hfields := spells_fieldChars fs hfs depth hend h
    have hfirst := spells_chars j hj depth (ended_fieldChars fs hend) hfields
    have hcolon : Spells (':' :: _) (.colon :: _) := .punctuation (fun _ => rfl) (hfirst.blanks hsp.afterColon)
    have hkey := (hcolon.quoted k).blanks (hsp.newline depth)
    have hcomma : Spells (',' :: _) (.comma :: _) := .punctuation (fun _ => rfl) hkey
    simpa [fieldChars, fieldTokens] using hcomma

end

end Spelling

/-! ## Values from tokens -/

mutual

/-- What is left of a value if at most `n` containers may stand inside one another. -/
def clip (n : Nat) : Json → Json
  | .arr items => if 0 < n then .arr (clipItems (n - 1) items) else .unreadable
  | .obj fields => if 0 < n then .obj (clipFields (n - 1) fields) else .unreadable
  | j => j

def clipItems (n : Nat) : List Json → List Json
  | [] => []
  | j :: js => clip n j :: clipItems n js

def clipFields (n : Nat) : List (String × Json) → List (String × Json)
  | [] => []
  | (k, j) :: fs => (k, clip n j) :: clipFields n fs

end

theorem fewerThan_eq (limit : Nat) (frames : List Frame) :
    fewerThan limit frames = decide (frames.length < limit) := by
  induction frames generalizing limit with
  | nil => rfl
  | cons f frames ih =>
    rw [fewerThan, ih, ← Bool.decide_and, List.length_cons]
    congr 1
    rw [eq_iff_iff]
    omega

/-- A container that is complete is kept unless it stands too deep. -/
theorem close_eq (limit : Nat) (outer : List Frame) (j : Json) :
    ReadState.close limit outer j = ⟨.after (if 0 < limit - outer.length then j else .unreadable), outer⟩ := by
  simp only [ReadState.close, fewerThan_eq, decide_eq_true_eq, Nat.sub_pos_iff_lt]

/-- Fields as the reader keeps them. -/
def keyed (fields : List (String × Json)) : List (Option String × Json) := fields.map fun f => (some f.1, f.2)

/-- An object is made of the fields that are read. -/
theorem objectOf_keyed (fields : List (String × Json)) : objectOf (keyed fields) = .obj fields.reverse := by
  have h : ∀ fs, (keyed fs).mapM (fun f => f.1.map fun key => (key, f.2)) = some fs := by
    intro fs
    induction fs with
    | nil => rfl
    | cons f fs ih =>
      rw [keyed] at ih
      simp [keyed, List.mapM_cons, ih]
  have hrev : (keyed fields).reverse = keyed fields.reverse := List.map_reverse.symm
  rw [objectOf, hrev, h]

/-- No value starts with the end of an array. -/
theorem foldlM_firstItem (limit : Nat) (j : Json) (frames : List Frame) :
    (tokens j).foldlM (ReadState.step limit) ⟨.firstItem, frames⟩ =
      (tokens j).foldlM (ReadState.step limit) ⟨.value, frames⟩ := by
  obtain ⟨t, ts, ht, hne⟩ : ∃ t ts, tokens j = t :: ts ∧ t ≠ .rbracket := by
    unfold tokens
    split <;> simp
  rw [ht, List.foldlM_cons, List.foldlM_cons]
  cases t <;> first | rfl | exact absurd rfl hne

mutual

/-- The tokens of a value build it again, up to what stands too deep. -/
theorem foldlM_tokens (limit : Nat) (j : Json) (frames : List Frame) :
    (tokens j).foldlM (ReadState.step limit) ⟨.value, frames⟩ =
      some ⟨.after (j.clip (limit - frames.length)), frames⟩ := by
  match j with
  | .null | .bool _ | .nat _ | .real _ | .str _ | .unreadable => rfl
  | .arr [] =>
    have hclose : [Token.rbracket].foldlM (ReadState.step limit) ⟨.firstItem, .items [] :: frames⟩ =
        some (.close limit frames (.arr [])) := rfl
    rw [tokens, List.foldlM_cons]
    exact hclose.trans (by rw [close_eq]; rfl)
  | .arr (j :: js) =>
    have hopen : ReadState.step limit ⟨.value, frames⟩ .lbracket = some ⟨.firstItem, .items [] :: frames⟩ := rfl
    rw [tokens, List.foldlM_cons, hopen, Option.bind_eq_bind, Option.bind_some, List.append_assoc,
      List.foldlM_append, foldlM_firstItem, foldlM_tokens limit j, Option.bind_eq_bind, Option.bind_some,
      foldlM_itemTokens, close_eq]
    rfl
  | .obj [] =>
    have hclose : [Token.rbrace].foldlM (ReadState.step limit) ⟨.firstKey, frames⟩ =
        some (.close limit frames (.obj [])) := rfl
    rw [tokens, List.foldlM_cons]
    exact hclose.trans (by rw [close_eq]; rfl)
  | .obj ((k, j) :: fs) =>
    have hopen : [Token.lbrace, .text (some k), .colon].foldlM (ReadState.step limit) ⟨.value, frames⟩ =
        some ⟨.value, .fields (keyed []) (some k) :: frames⟩ := rfl
    have happend : tokens (.obj ((k, j) :: fs)) =
        [.lbrace, .text (some k), .colon] ++ (tokens j ++ (fieldTokens fs ++ [.rbrace])) := by simp [tokens]
    rw [happend, List.foldlM_append, hopen, Option.bind_eq_bind, Option.bind_some, List.foldlM_append,
      foldlM_tokens limit j, Option.bind_eq_bind, Option.bind_some, foldlM_fieldTokens, close_eq]
    rfl

theorem foldlM_itemTokens (limit : Nat) (js : List Json) (j : Json) (done : List Json) (frames : List Frame) :
    (itemTokens js ++ [Token.rbracket]).foldlM (ReadState.step limit) ⟨.after j, .items done :: frames⟩ =
      some (.close limit frames (.arr ((j :: done).reverse ++ clipItems (limit - frames.length - 1) js))) := by
  match js with
  | [] =>
    have hclose : [Token.rbracket].foldlM (ReadState.step limit) ⟨.after j, .items done :: frames⟩ =
        some (.close limit frames (.arr (j :: done).reverse)) := rfl
    rw [clipItems, List.append_nil]
    exact hclose
  | j' :: js =>
    have hcomma : ReadState.step limit ⟨.after j, .items done :: frames⟩ .comma =
        some ⟨.value, .items (j :: done) :: frames⟩ := rfl
    rw [itemTokens, List.cons_append, List.foldlM_cons, hcomma, Option.bind_eq_bind, Option.bind_some,
      List.append_assoc, List.foldlM_append, foldlM_tokens limit j', Option.bind_eq_bind, Option.bind_some,
      foldlM_itemTokens, List.length_cons, ← Nat.sub_sub]
    simp [clipItems]

theorem foldlM_fieldTokens (limit : Nat) (fs : List (String × Json)) (k : String) (j : Json)
    (done : List (String × Json)) (frames : List Frame) :
    (fieldTokens fs ++ [Token.rbrace]).foldlM (ReadState.step limit)
        ⟨.after j, .fields (keyed done) (some k) :: frames⟩ =
      some (.close limit frames (.obj (((k, j) :: done).reverse ++ clipFields (limit - frames.length - 1)
        fs))) := by
  match fs with
  | [] =>
    have hclose : [Token.rbrace].foldlM (ReadState.step limit)
        ⟨.after j, .fields (keyed done) (some k) :: frames⟩ =
        some (.close limit frames (objectOf (keyed ((k, j) :: done)))) := rfl
    rw [clipFields, List.append_nil, ← objectOf_keyed]
    exact hclose
  | (k', j') :: fs =>
    have hcomma : [Token.comma, .text (some k'), .colon].foldlM (ReadState.step limit)
        ⟨.after j, .fields (keyed done) (some k) :: frames⟩ =
        some ⟨.value, .fields (keyed ((k, j) :: done)) (some k') :: frames⟩ := rfl
    have happend : fieldTokens ((k', j') :: fs) ++ [.rbrace] =
        [.comma, .text (some k'), .colon] ++ (tokens j' ++ (fieldTokens fs ++ [.rbrace])) := by simp [fieldTokens]
    rw [happend, List.foldlM_append, hcomma, Option.bind_eq_bind, Option.bind_some, List.foldlM_append,
      foldlM_tokens limit j', Option.bind_eq_bind, Option.bind_some, foldlM_fieldTokens, List.length_cons,
      ← Nat.sub_sub]
    simp [clipFields]

end

/-- A written value is read back up to what stands too deep. -/
theorem parse?_chars {sp : Spacing} (hsp : sp.Blank) {j : Json} (hj : j.Plain) (limit : Nat) :
    parse? limit (String.ofList (chars sp 0 j)) = some (j.clip limit) := by
  have hspells : Spells (chars sp 0 j) (tokens j) := by
    have : Spells (chars sp 0 j ++ []) (tokens j ++ []) := spells_chars hsp j hj 0 (by simp [Ended]) spells_nil
    rwa [List.append_nil, List.append_nil] at this
  rw [parse?, String.toList_ofList, hspells.tokens?, Option.bind_some, ofTokens?, foldlM_tokens]
  rfl

theorem parse?_pretty {j : Json} (hj : j.Plain) (limit : Nat) : parse? limit j.pretty = some (j.clip limit) :=
  parse?_chars Spacing.blank_pretty hj limit

mutual

/-- Nothing is lost of a value that is not nested too deep. -/
theorem clip_of_depth_le {n : Nat} (j : Json) (h : j.depth ≤ n) : j.clip n = j := by
  match j with
  | .null | .bool _ | .nat _ | .real _ | .str _ | .unreadable => rfl
  | .arr items =>
    rw [depth] at h
    rw [clip, if_pos (by omega), clipItems_of_depth_le items (by omega)]
  | .obj fields =>
    rw [depth] at h
    rw [clip, if_pos (by omega), clipFields_of_depth_le fields (by omega)]

theorem clipItems_of_depth_le {n : Nat} (items : List Json) (h : itemsDepth items ≤ n) :
    clipItems n items = items := by
  match items with
  | [] => rfl
  | j :: js =>
    rw [itemsDepth] at h
    rw [clipItems, clip_of_depth_le j (by omega), clipItems_of_depth_le js (by omega)]

theorem clipFields_of_depth_le {n : Nat} (fields : List (String × Json)) (h : fieldsDepth fields ≤ n) :
    clipFields n fields = fields := by
  match fields with
  | [] => rfl
  | (k, j) :: fs =>
    rw [fieldsDepth] at h
    rw [clipFields, clip_of_depth_le j (by omega), clipFields_of_depth_le fs (by omega)]

end

end ContractTree.Json
