import ContractTree.Print.Source
import ContractTree.Proofs.Linked
import ContractTree.Proofs.QuotedText
import Mathlib.Data.List.Forall2

/-!
Colours and notes do not alter the source text. The text of a tree is written line by line; with colours, sequences
that switch a colour on or off stand around some words of a line (`Print.Painted`), and with notes a comment stands
behind some lines (`Print.Row`). Writing with any configuration and writing without colours and notes go step by
step together: they fail with one error, or give as many lines, each of them the plain one with colours in it and a
comment behind it (`Print.Listing`). Main statement: `Print.render_adorned`.

Names must not hold line ends or the character that colour sequences start with; string literals may, since it is
written as an escape.
-/

namespace ContractTree

/-- The name that a node spells. -/
def Kind.spelled? : Kind → Option String
  | .name x => some x
  | .member _ x => some x
  | .functionDef x _ _ _ _ => some x
  | .arg x => some x
  | _ => none

namespace Print

/-- The configuration with the same indentation, without colours and notes. -/
def Config.unadorned (c : Config) : Config := { c with useColors := false, showIds := false, showTypes := false }

/-! ## Colour sequences -/

/-- What follows the colour sequence at the start of a text. -/
def afterColor? : List Char → Option (List Char)
  | '\x1b' :: '[' :: cs =>
    if (cs.takeWhile Char.isDigit).isEmpty then none
    else
      match cs.dropWhile Char.isDigit with
      | 'm' :: rest => some rest
      | _ => none
  | _ => none

theorem length_afterColor?_lt {cs rest : List Char} (h : afterColor? cs = some rest) :
    rest.length < cs.length := by
  unfold afterColor? at h
  split at h
  · next cs =>
    split at h
    · cases h
    · split at h
      · next r hr =>
        obtain rfl := Option.some.inj h
        have := (List.dropWhile_sublist Char.isDigit (l := cs)).length_le
        rw [hr] at this
        simp only [List.length_cons] at this ⊢
        omega
      · cases h
  · cases h

/-- Deletes the colour sequences. -/
def uncolored : List Char → List Char
  | [] => []
  | c :: cs =>
    match _h : afterColor? (c :: cs) with
    | some rest => uncolored rest
    | none => c :: uncolored cs
termination_by cs => cs.length
decreasing_by
  · exact length_afterColor?_lt _h
  · simp

theorem uncolored_cons {c : Char} (hc : c ≠ '\x1b') (cs : List Char) :
    uncolored (c :: cs) = c :: uncolored cs := by
  have hnone : afterColor? (c :: cs) = none := by
    unfold afterColor?
    split
    · next h => exact absurd (List.cons.inj h).1 hc
    · rfl
  rw [uncolored]
  split
  · next h => rw [hnone] at h; cases h
  · rfl

theorem uncolored_color {ds : List Char} (hne : ds ≠ []) (hds : ∀ d ∈ ds, d.isDigit = true) (cs : List Char) :
    uncolored ('\x1b' :: '[' :: (ds ++ 'm' :: cs)) = uncolored cs := by
  have hsome : afterColor? ('\x1b' :: '[' :: (ds ++ 'm' :: cs)) = some cs := by
    have htake : (ds ++ 'm' :: cs).takeWhile Char.isDigit = ds := by
      rw [List.takeWhile_append_of_pos hds]
      simp [Char.isDigit]
    have hdrop : (ds ++ 'm' :: cs).dropWhile Char.isDigit = 'm' :: cs := by
      rw [List.dropWhile_append_of_pos hds]
      simp [Char.isDigit]
    unfold afterColor?
    simp [htake, hdrop, hne]
  rw [uncolored]
  split
  · next h =>
    rw [hsome] at h
    rw [Option.some.inj h]
  · next h => rw [hsome] at h; cases h

/-- The first text is the second one, which has no line ends, with colour sequences in it. -/
inductive Painted : List Char → List Char → Prop
  | nil : Painted [] []
  | char {c : Char} {cs bs : List Char} (hc : c ≠ '\x1b') (hn : c ≠ '\n') (h : Painted cs bs) :
      Painted (c :: cs) (c :: bs)
  | color {ds cs bs : List Char} (hne : ds ≠ []) (hds : ∀ d ∈ ds, d.isDigit = true) (h : Painted cs bs) :
      Painted ('\x1b' :: '[' :: (ds ++ 'm' :: cs)) bs

namespace Painted

variable {as bs cs ds : List Char}

theorem append (h : Painted as bs) (h' : Painted cs ds) : Painted (as ++ cs) (bs ++ ds) := by
  induction h with
  | nil => exact h'
  | char hc hn _ ih => exact .char hc hn ih
  | color hne hds _ ih => simpa using Painted.color hne hds ih

theorem of_forall (h : ∀ c ∈ as, c ≠ '\x1b' ∧ c ≠ '\n') : Painted as as := by
  induction as with
  | nil => exact .nil
  | cons c as ih =>
    rw [List.forall_mem_cons] at h
    exact .char h.1.1 h.1.2 (ih h.2)

theorem uncolored_append (h : Painted as bs) (rest : List Char) :
    uncolored (as ++ rest) = bs ++ uncolored rest := by
  induction h with
  | nil => rfl
  | char hc _ _ ih => rw [List.cons_append, uncolored_cons hc, ih, List.cons_append]
  | color hne hds _ ih =>
    rw [List.cons_append, List.cons_append, List.append_assoc, List.cons_append, uncolored_color hne hds, ih]

theorem newline_notMem (h : Painted as bs) : '\n' ∉ as ∧ '\n' ∉ bs := by
  induction h with
  | nil => simp
  | char _ hn _ ih => exact ⟨by simp [Ne.symm hn, ih.1], by simp [Ne.symm hn, ih.2]⟩
  | color _ hds _ ih =>
    have hds' : '\n' ∉ _ := fun hmem => by simpa using hds _ hmem
    exact ⟨by simp [hds', ih.1], ih.2⟩

end Painted

/-! ## Clean texts -/

/-- Neither line ends nor the start of a colour sequence. -/
def Clean (text : String) : Prop := ∀ c ∈ text.toList, c ≠ '\x1b' ∧ c ≠ '\n'

namespace Clean

variable {a b : String}

theorem append (ha : Clean a) (hb : Clean b) : Clean (a ++ b) := by
  unfold Clean at *
  rw [String.toList_append, List.forall_mem_append]
  exact ⟨ha, hb⟩

theorem join {texts : List String} (h : ∀ a ∈ texts, Clean a) : Clean (String.join texts) := by
  intro c hc
  rw [String.toList_join, List.mem_flatMap] at hc
  obtain ⟨a, ha, hc⟩ := hc
  exact h a ha c hc

theorem intercalate {sep : String} {texts : List String} (hsep : Clean sep) (h : ∀ a ∈ texts, Clean a) :
    Clean (sep.intercalate texts) := by
  induction texts with
  | nil => simp [Clean]
  | cons a texts ih =>
    rw [List.forall_mem_cons] at h
    cases texts with
    | nil => simpa using h.1
    | cons b texts =>
      rw [String.intercalate_cons_cons]
      exact (h.1.append hsep).append (ih h.2)

theorem toString_nat (n : Nat) : Clean (toString n) := by
  intro c hc
  rw [Nat.toString_eq_ofList_toDigits, String.toList_ofList] at hc
  have hdigit := Nat.isDigit_of_mem_toDigits (by decide) (by decide) hc
  constructor <;> (rintro rfl; revert hdigit; decide)

theorem ofInt (n : Int) : Clean (Decimal.ofInt n) := by
  cases n with
  | ofNat n => exact toString_nat n
  | negSucc n => exact append (by simp [Clean]) (toString_nat (n + 1))

end Clean

/-- In a string literal line ends and the other control characters are written as escapes. -/
theorem clean_quoted (text : String) : Clean (Text.quoted text) := by
  have hchar : ∀ d, ∀ c ∈ Text.quoteChar d, c ≠ '\x1b' ∧ c ≠ '\n' := by
    intro d
    rcases Text.quoteChar_cases d with ⟨e, he, hd⟩ | hd | ⟨hd, -, -, hshown⟩ <;> rw [hd]
    · have hall : ∀ p ∈ Text.escapes, ∀ c ∈ ['\\', p.2], c ≠ '\x1b' ∧ c ≠ '\n' := by simp [Text.escapes]
      exact hall _ he
    · simp only [List.forall_mem_cons, List.forall_mem_append]
      refine ⟨by decide, by decide, by decide, fun c hc => ?_, by decide, by simp⟩
      obtain ⟨k, rfl⟩ := Text.exists_digitChar_of_mem (by decide) hc
      exact ⟨Nat.digitChar_ne _ (by decide), Nat.digitChar_ne _ (by decide)⟩
    · rw [List.forall_mem_singleton]
      constructor <;> (rintro rfl; revert hshown; decide)
  unfold Clean
  simp only [Text.quoted, String.toList_ofList, List.cons_append, List.forall_mem_cons, List.forall_mem_append,
    List.mem_flatMap]
  refine ⟨by decide, ?_, by decide, by simp⟩
  rintro c ⟨d, -, hc⟩
  exact hchar d c hc

end Print

attribute [local simp] Print.Clean Kind.children

namespace Ty

open Print

mutual

theorem clean_display (t : Ty) : Clean t.display := by
  match t with
  | .bool | .address | .string => simp [display]
  | .uint bits | .int bits | .bytes bits => exact .append (by simp) (.toString_nat _)
  | .dynArray item bound =>
    rw [display]
    exact .append (.append (.append (.append (by simp) (clean_display item)) (by simp)) (.toString_nat _))
      (by simp)
  | .mapping key value =>
    rw [display]
    exact .append (.append (.append (.append (by simp) (clean_display key)) (by simp)) (clean_display value))
      (by simp)
  | .storage keys value =>
    rw [display]
    exact .append (.append (.append (.append (by simp) (clean_displayList keys)) (by simp))
      (clean_display value)) (by simp)
  | .function params none _ _ =>
    rw [display]
    exact .append (.append (by simp) (clean_displayList params)) (by simp)
  | .function params (some result) _ _ =>
    rw [display]
    exact .append (.append (.append (by simp) (clean_displayList params)) (by simp)) (clean_display result)
termination_by sizeOf t

theorem clean_displayList (ts : List Ty) : Clean (displayList ts) := by
  match ts with
  | [] => simp [displayList]
  | [t] => exact clean_display t
  | t :: u :: ts =>
    rw [displayList]
    · exact .append (.append (clean_display t) (by simp)) (clean_displayList (u :: ts))
    · simp
termination_by sizeOf ts

end

end Ty

namespace Print

/-! ## Two texts beside each other -/

/-- The first text is the second one with colour sequences in it. -/
def Shown (a b : String) : Prop := Painted a.toList b.toList

theorem Clean.shown {a : String} (h : Clean a) : Shown a a := Painted.of_forall h

theorem Shown.append {a b a' b' : String} (h : Shown a b) (h' : Shown a' b') : Shown (a ++ a') (b ++ b') := by
  unfold Shown
  rw [String.toList_append, String.toList_append]
  exact Painted.append h h'

theorem reopen_of_clean {opening cs : List Char} (h : ∀ c ∈ cs, c ≠ '\x1b' ∧ c ≠ '\n') :
    reopen opening cs = cs := by
  induction cs with
  | nil => rfl
  | cons c cs ih =>
    rw [List.forall_mem_cons] at h
    rw [reopen, ih h.2]
    rintro rest he -
    exact h.1.1 he

theorem painted_opening (c : Color) {as bs : List Char} (h : Painted as bs) : Painted (c.opening ++ as) bs := by
  have := Painted.color Nat.toDigits_ne_nil (fun d hd => Nat.isDigit_of_mem_toDigits (b := 10) (n := c.code)
    (by decide) (by decide) hd) h
  simpa [Color.opening] using this

theorem painted_reset : Painted reset [] := @Painted.color ['0'] [] [] (by simp) (by simp) .nil

/-- A painted word is the word with colours around it, or the word. -/
theorem shown_paint (l : Layout) (color : Color) {a : String} (h : Clean a) : Shown (l.paint color a) a := by
  unfold Layout.paint
  split
  · unfold Shown colored
    rw [String.toList_ofList, reopen_of_clean h, List.append_assoc]
    exact painted_opening color (by simpa using (Painted.of_forall h).append painted_reset)
  · exact h.shown

variable {ε α β γ δ : Type}

/-- Two computations fail alike, or give results that are related. -/
def Agree (R : α → β → Prop) : Except ε α → Except ε β → Prop
  | .ok a, .ok b => R a b
  | .error e, .error e' => e = e'
  | _, _ => False

theorem Agree.mono {R R' : α → β → Prop} {x : Except ε α} {y : Except ε β} (h : Agree R x y)
    (hR : ∀ a b, R a b → R' a b) : Agree R' x y := by
  cases x <;> cases y <;> first | exact h | exact hR _ _ h

theorem Agree.bind {R : α → β → Prop} {S : γ → δ → Prop} {x : Except ε α} {y : Except ε β} {f : α → Except ε γ}
    {g : β → Except ε δ} (h : Agree R x y) (hf : ∀ a b, R a b → Agree S (f a) (g b)) :
    Agree S (x >>= f) (y >>= g) := by
  cases x <;> cases y <;> first | exact h.elim | exact h | exact hf _ _ h

theorem Agree.mapM {ι : Type} {R : α → β → Prop} {f : ι → Except ε α} {g : ι → Except ε β} {is : List ι}
    (h : ∀ i ∈ is, Agree R (f i) (g i)) : Agree (List.Forall₂ R) (is.mapM f) (is.mapM g) := by
  induction is with
  | nil => exact .nil
  | cons i is ih =>
    rw [List.forall_mem_cons] at h
    rw [List.mapM_cons, List.mapM_cons]
    refine h.1.bind fun a b hab => (ih h.2).bind fun as bs habs => ?_
    exact List.Forall₂.cons hab habs

/-- One text, which is clean. -/
def Same (a b : String) : Prop := a = b ∧ Clean a

theorem forall₂_same {as bs : List String} (h : List.Forall₂ Same as bs) : as = bs ∧ ∀ a ∈ as, Clean a := by
  induction h with
  | nil => simp
  | cons hab _ ih =>
    obtain ⟨rfl, ha⟩ := hab
    obtain ⟨rfl, has⟩ := ih
    exact ⟨rfl, List.forall_mem_cons.2 ⟨ha, has⟩⟩

/-! ## Expressions -/

variable {s : Store} {i j : NodeId}

/-- The names at and below the node are clean. -/
def CleanNames (s : Store) (top : NodeId) : Prop :=
  ∀ path i k x, s.Reaches top path i → s.kind? i = some k → k.spelled? = some x → Clean x

theorem agree_kindOf (s : Store) (i : NodeId) :
    Agree (fun a b => a = b ∧ s.kind? i = some a) (kindOf s i) (kindOf s i) := by
  unfold kindOf Store.kind?
  cases s.find? i with
  | none => rfl
  | some n => exact ⟨rfl, rfl⟩

theorem CleanNames.spelled {k : Kind} {x : String} (h : CleanNames s i) (hk : s.kind? i = some k)
    (hx : k.spelled? = some x) :
    Clean x := h [] i k x (.here i) hk hx

theorem CleanNames.child {k : Kind} (h : CleanNames s i) (hk : s.kind? i = some k) (hj : j ∈ k.children) :
    CleanNames s j := by
  intro path n kn x hn
  obtain ⟨node, hnode, rfl⟩ := Option.map_eq_some_iff.1 hk
  have hj : j ∈ s.children i := by rw [Store.children, hnode]; exact hj
  obtain ⟨place, hplace⟩ := List.mem_iff_getElem?.1 hj
  exact h (place :: path) n kn x (.down hplace hn)

theorem clean_binSymbol (op : BinOp) : Clean op.symbol := by cases op <;> simp [BinOp.symbol]

theorem clean_boolSymbol (op : BoolOp) : Clean op.symbol := by cases op <;> simp [BoolOp.symbol]

theorem clean_compareSymbol (op : CompareOp) : Clean op.symbol := by cases op <;> simp [CompareOp.symbol]

theorem clean_unarySymbol (op : UnaryOp) : Clean op.symbol := by cases op <;> simp [UnaryOp.symbol]

theorem clean_parenthesized {a : String} (h : Clean a) : Clean (parenthesized s i a) := by
  unfold parenthesized
  split
  · exact .append (.append (by simp) h) (by simp)
  · exact h

/-- The text of an expression is clean. -/
theorem agree_exprWithin (fuel : Nat) (h : CleanNames s i) :
    Agree Same (exprWithin s fuel i) (exprWithin s fuel i) := by
  induction fuel generalizing i with
  | zero => rfl
  | succ fuel ih =>
    have hoperand : ∀ {j}, CleanNames s j → Agree Same (do return parenthesized s j (← exprWithin s fuel j))
        (do return parenthesized s j (← exprWithin s fuel j)) := fun hj =>
      (ih hj).bind fun a _ hab => ⟨by rw [hab.1], clean_parenthesized hab.2⟩
    have hbinary : ∀ {left right symbol}, Clean symbol → CleanNames s left → CleanNames s right → Agree Same
        (do return (← (do return parenthesized s left (← exprWithin s fuel left))) ++ " " ++ symbol ++ " " ++
          (← (do return parenthesized s right (← exprWithin s fuel right))))
        (do return (← (do return parenthesized s left (← exprWithin s fuel left))) ++ " " ++ symbol ++ " " ++
          (← (do return parenthesized s right (← exprWithin s fuel right)))) := by
      intro left right symbol hsymbol hleft hright
      refine (hoperand hleft).bind ?_
      rintro a _ ⟨rfl, ha⟩
      refine (hoperand hright).bind ?_
      rintro b _ ⟨rfl, hb⟩
      exact ⟨rfl, (((ha.append (by simp)).append hsymbol).append (by simp)).append hb⟩
    rw [exprWithin]
    refine (agree_kindOf s i).bind ?_
    rintro k _ ⟨rfl, hk⟩
    have hkids : ∀ j ∈ k.children, CleanNames s j := fun j hj => h.child hk hj
    cases k with
    | name x => exact ⟨rfl, h.spelled hk rfl⟩
    | member value attr =>
      refine (hoperand (hkids value (by simp))).bind ?_
      rintro a _ ⟨rfl, ha⟩
      exact ⟨rfl, (ha.append (by simp)).append (h.spelled hk rfl)⟩
    | subscript value slice =>
      refine (hoperand (hkids value (by simp))).bind ?_
      rintro a _ ⟨rfl, ha⟩
      refine (ih (hkids slice (by simp))).bind ?_
      rintro b _ ⟨rfl, hb⟩
      exact ⟨rfl, ((ha.append (by simp)).append hb).append (by simp)⟩
    | binOp left op right =>
      exact hbinary (clean_binSymbol op) (hkids left (by simp)) (hkids right (by simp))
    | boolOp op values =>
      refine (Agree.mapM fun j hj => hoperand (hkids j hj)).bind ?_
      intro as bs habs
      obtain ⟨rfl, has⟩ := forall₂_same habs
      have hsep : Clean (" " ++ op.symbol ++ " ") := .append (.append (by simp) (clean_boolSymbol op)) (by simp)
      exact ⟨rfl, hsep.intercalate has⟩
    | compare left op right =>
      exact hbinary (clean_compareSymbol op) (hkids left (by simp)) (hkids right (by simp))
    | unaryOp op value =>
      refine (hoperand (hkids value (by simp))).bind ?_
      rintro a _ ⟨rfl, ha⟩
      exact ⟨rfl, (clean_unarySymbol op).append ha⟩
    | call func args =>
      refine (ih (hkids func (by simp))).bind ?_
      rintro a _ ⟨rfl, ha⟩
      refine (Agree.mapM fun j hj => ih (hkids j (by simp [hj]))).bind ?_
      intro as bs habs
      obtain ⟨rfl, has⟩ := forall₂_same habs
      exact ⟨rfl, ((ha.append (by simp)).append (.intercalate (by simp) has)).append (by simp)⟩
    | int value => exact ⟨rfl, .ofInt value⟩
    | bool value => exact ⟨rfl, by cases value <;> simp⟩
    | str value => exact ⟨rfl, clean_quoted value⟩
    | _ => rfl

theorem agree_expr (h : CleanNames s i) : Agree Same (expr s i) (expr s i) := agree_exprWithin _ h

theorem agree_exprList {is : List NodeId} (h : ∀ i ∈ is, CleanNames s i) :
    Agree Same (exprList s is) (exprList s is) := by
  refine (Agree.mapM fun j hj => agree_expr (h j hj)).bind ?_
  intro as bs habs
  obtain ⟨rfl, has⟩ := forall₂_same habs
  exact ⟨rfl, .intercalate (by simp) has⟩

theorem agree_keyList {keys : List NodeId} (h : ∀ i ∈ keys, CleanNames s i) :
    Agree Same (keyList s keys) (keyList s keys) := by
  unfold keyList
  split
  · exact ⟨rfl, by simp⟩
  · refine (agree_exprList h).bind ?_
    rintro a _ ⟨rfl, ha⟩
    exact ⟨rfl, .append (.append (by simp) ha) (by simp)⟩

theorem agree_initializer {value : Option NodeId} (h : ∀ i ∈ value, CleanNames s i) :
    Agree Same (initializer s value) (initializer s value) := by
  cases value with
  | none => exact ⟨rfl, by simp⟩
  | some i =>
    refine (agree_expr (h i rfl)).bind ?_
    rintro a _ ⟨rfl, ha⟩
    exact ⟨rfl, .append (by simp) ha⟩

/-! ## Statements -/

/-- The layout without colours. -/
def Layout.plain (l : Layout) : Layout := { l with useColors := false }

theorem shown_paint_plain (l : Layout) (color : Color) {a : String} (h : Clean a) :
    Shown (l.paint color a) (l.plain.paint color a) := shown_paint l color h

theorem clean_declaredTy (ty : Option Ty) (isPublic isConstant isImmutable : Bool) :
    Clean (declaredTy ty isPublic isConstant isImmutable) := by
  have hwrap : ∀ {on : Bool} {word text : String}, Clean word → Clean text →
      Clean (if on then word ++ text ++ ")" else text) := by
    intro on word text hword htext
    split
    · exact (hword.append htext).append (by simp)
    · exact htext
  have hbase : Clean ((ty.map Ty.display).getD "?") := by
    cases ty with
    | none => simp
    | some t => exact t.clean_display
  exact hwrap (by simp) (hwrap (by simp) (hwrap (by simp) hbase))

theorem clean_typeNote (ty : Option Ty) : Clean ((ty.map (": " ++ ·.display)).getD "") := by
  cases ty with
  | none => simp
  | some t => exact .append (by simp) t.clean_display

theorem agree_simpleStatement (l : Layout) (h : CleanNames s i) :
    Agree Shown (simpleStatement s l i) (simpleStatement s l.plain i) := by
  unfold simpleStatement
  refine (agree_kindOf s i).bind ?_
  rintro k _ ⟨rfl, hk⟩
  have hkids : ∀ j ∈ k.children, CleanNames s j := fun j hj => h.child hk hj
  cases k with
  | variableDecl target value isPublic isConstant isImmutable =>
    refine (agree_expr (hkids target (by simp))).bind ?_
    rintro a _ ⟨rfl, ha⟩
    refine (agree_initializer fun j hj => hkids j (by simp_all)).bind ?_
    rintro b _ ⟨rfl, hb⟩
    exact (((ha.append (by simp)).append (clean_declaredTy _ _ _ _)).append hb).shown
  | assign target value =>
    refine (agree_expr (hkids target (by simp))).bind ?_
    rintro a _ ⟨rfl, ha⟩
    refine (agree_expr (hkids value (by simp))).bind ?_
    rintro b _ ⟨rfl, hb⟩
    exact ((ha.append (by simp)).append hb).shown
  | augAssign target op value =>
    refine (agree_expr (hkids target (by simp))).bind ?_
    rintro a _ ⟨rfl, ha⟩
    refine (agree_expr (hkids value (by simp))).bind ?_
    rintro b _ ⟨rfl, hb⟩
    exact ((((ha.append (by simp)).append (clean_binSymbol op)).append (by simp)).append hb).shown
  | annAssign target value =>
    refine (agree_expr (hkids target (by simp))).bind ?_
    rintro a _ ⟨rfl, ha⟩
    refine (agree_initializer fun j hj => hkids j (by simp_all)).bind ?_
    rintro b _ ⟨rfl, hb⟩
    exact ((ha.append (clean_typeNote _)).append hb).shown
  | ret value =>
    have hreturn := shown_paint_plain l .blue (a := "return") (by simp)
    cases value with
    | none => exact hreturn
    | some value =>
      refine (agree_expr (hkids value (by simp))).bind ?_
      rintro a _ ⟨rfl, ha⟩
      exact (hreturn.append (Clean.shown (by simp))).append ha.shown
  | exprStmt value => exact (agree_expr (hkids value (by simp))).mono fun a b hab => hab.1 ▸ hab.2.shown
  | assert test =>
    refine (agree_expr (hkids test (by simp))).bind ?_
    rintro a _ ⟨rfl, ha⟩
    exact ((shown_paint_plain l .blue (by simp)).append (Clean.shown (by simp))).append ha.shown
  | pass => exact shown_paint_plain l .blue (by simp)
  | storageRead target slot keys =>
    refine (agree_expr (hkids target (by simp))).bind ?_
    rintro a _ ⟨rfl, ha⟩
    refine (agree_expr (hkids slot (by simp))).bind ?_
    rintro b _ ⟨rfl, hb⟩
    refine (agree_keyList fun j hj => hkids j (by simp [hj])).bind ?_
    rintro c _ ⟨rfl, hc⟩
    have hread := shown_paint_plain l .magenta (a := "storage_read") (by simp)
    have hfront := (ha.append (b := " = ") (by simp)).shown
    exact (((hfront.append hread).append (Clean.shown (by simp))).append hb.shown).append hc.shown
  | storageWrite slot keys value =>
    refine (agree_expr (hkids slot (by simp))).bind ?_
    rintro a _ ⟨rfl, ha⟩
    refine (agree_keyList fun j hj => hkids j (by simp [hj])).bind ?_
    rintro b _ ⟨rfl, hb⟩
    refine (agree_expr (hkids value (by simp))).bind ?_
    rintro c _ ⟨rfl, hc⟩
    have hwrite := shown_paint_plain l .magenta (a := "storage_write") (by simp)
    have hopen := Clean.shown (a := "(") (by simp)
    have hclose := Clean.shown (a := ")") (by simp)
    exact (((((hwrite.append (Clean.shown (by simp))).append ha.shown).append hb.shown).append hopen).append
      hc.shown).append hclose
  | _ => rfl

theorem agree_argument (h : CleanNames s i) : Agree Same (argument s i) (argument s i) := by
  unfold argument
  refine (agree_kindOf s i).bind ?_
  rintro k _ ⟨rfl, hk⟩
  cases k with
  | arg name => exact ⟨rfl, (h.spelled hk rfl).append (clean_typeNote _)⟩
  | _ => rfl

theorem clean_resultText (ty : Option Ty) : Clean (resultText ty) := by
  unfold resultText
  split
  · exact .append (by simp) (Ty.clean_display _)
  · simp

/-! ## Lines -/

/-- The first line is the second one, with colour sequences in it and with nothing or a comment behind it. -/
def Row (as bs : List Char) : Prop :=
  ∃ note, Painted as (bs ++ note) ∧ (note = [] ∨ ∃ comment, note = "  # ".toList ++ comment)

/-- Both texts are made of lines, each of the first one a row of the second one. -/
inductive Listing : List Char → List Char → Prop
  | nil : Listing [] []
  | line {as bs cs ds : List Char} (hrow : Row as bs) (h : Listing cs ds) :
      Listing (as ++ '\n' :: cs) (bs ++ '\n' :: ds)

theorem Listing.append {as bs cs ds : List Char} (h : Listing as bs) (h' : Listing cs ds) :
    Listing (as ++ cs) (bs ++ ds) := by
  induction h with
  | nil => exact h'
  | line hrow _ ih => simpa using Listing.line hrow ih

/-- The two texts are listings of each other. -/
def Lists (a b : String) : Prop := Listing a.toList b.toList

theorem Lists.append {a b a' b' : String} (h : Lists a b) (h' : Lists a' b') : Lists (a ++ a') (b ++ b') := by
  unfold Lists
  rw [String.toList_append, String.toList_append]
  exact Listing.append h h'

theorem lists_join {as bs : List String} (h : List.Forall₂ Lists as bs) :
    Lists (String.join as) (String.join bs) := by
  induction h with
  | nil => exact .nil
  | cons hab _ ih =>
    rw [String.join_cons, String.join_cons]
    exact hab.append ih

variable {l : Layout} {c : Config}

theorem clean_margin (h : Clean l.unit) : Clean l.margin := by
  refine Clean.join fun a ha => ?_
  rw [List.eq_of_mem_replicate ha]
  exact h

/-- A line with what may stand behind it. -/
theorem lists_line {a b : String} (hunit : Clean l.unit) (h : Row a.toList b.toList) :
    Lists (l.line a) (l.plain.line b) := by
  obtain ⟨note, hpainted, hnote⟩ := h
  have hmargin : Painted l.margin.toList l.margin.toList := (clean_margin hunit).shown
  have hrow : Row (l.margin ++ a).toList (l.margin ++ b).toList := by
    refine ⟨note, ?_, hnote⟩
    rw [String.toList_append, String.toList_append, List.append_assoc]
    exact hmargin.append hpainted
  have hmargin' : l.plain.margin = l.margin := rfl
  have := Listing.line hrow .nil
  unfold Lists
  simpa [Layout.line, hmargin'] using this

theorem Shown.row {a b : String} (h : Shown a b) : Row a.toList b.toList :=
  ⟨[], by rwa [List.append_nil], .inl rfl⟩

/-- Notes are a comment behind the line. -/
theorem row_annotated {a b : String} (c : Config) (i : NodeId) (h : Shown a b) :
    Row (annotated s c i a).toList (annotated s c.unadorned i b).toList := by
  have hplain : annotated s c.unadorned i b = b := rfl
  have hclean : ∀ note ∈ (if c.showIds then ["#" ++ i.text] else []) ++
      (if c.showTypes then (s.ty? i).toList.map Ty.display else []), Clean note := by
    rw [List.forall_mem_append]
    constructor
    · split
      · rw [List.forall_mem_singleton]
        exact .append (by simp) (.toString_nat _)
      · simp
    · split
      · rw [List.forall_mem_map]
        exact fun ty _ => ty.clean_display
      · simp
  rw [hplain]
  unfold annotated
  dsimp only
  generalize (if c.showIds then ["#" ++ i.text] else []) ++
    (if c.showTypes then (s.ty? i).toList.map Ty.display else []) = notes at hclean ⊢
  cases notes with
  | nil => exact h.row
  | cons note notes =>
    have hcomment : Clean ("# " ++ " ".intercalate (note :: notes)) :=
      .append (by simp) (.intercalate (by simp) hclean)
    refine ⟨"  # ".toList ++ (" ".intercalate (note :: notes)).toList, ?_, .inr ⟨_, rfl⟩⟩
    have := (h.append (Clean.shown (a := "  ") (by simp))).append (shown_paint (.ofConfig c) .dimmed hcomment)
    simpa [Shown] using this

/-! ## Blocks -/

/-- A statement list, as the text of each statement is given by `emitWithin`. -/
def blockText (s : Store) (c : Config) (fuel : Nat) (l : Layout) (body : List NodeId) :
    Except RenderError String := do
  if body.isEmpty then return l.line (l.paint .blue "pass")
  return String.join (← body.mapM (emitWithin s c fuel l))

/-- A header with the statement list that it opens. -/
def compoundText (s : Store) (c : Config) (fuel : Nat) (l : Layout) (i : NodeId) (header : String)
    (body : List NodeId) :
    Except RenderError String := do
  return l.line (annotated s c i (header ++ ":")) ++ (← blockText s c fuel l.indent body)

theorem clean_decorator {visibility : Visibility} {mutability : Mutability} {d : String}
    (hd : d ∈ visibility.decorator :: mutability.decorator?.toList) : Clean d := by
  revert d
  unfold Clean
  cases visibility <;> cases mutability <;> simp [Visibility.decorator, Mutability.decorator?]

/-- **Writing goes together with writing without colours and notes.** -/
theorem agree_emitWithin (fuel : Nat) (hunit : Clean l.unit) (h : CleanNames s i) :
    Agree Lists (emitWithin s c fuel l i) (emitWithin s c.unadorned fuel l.plain i) := by
  induction fuel generalizing l i with
  | zero => rfl
  | succ fuel ih =>
    have hblock : ∀ {body : List NodeId}, (∀ j ∈ body, CleanNames s j) →
        Agree Lists (blockText s c fuel l.indent body) (blockText s c.unadorned fuel l.plain.indent body) := by
      intro body hbody
      unfold blockText
      split
      · exact lists_line (l := l.indent) hunit (shown_paint_plain l.indent .blue (by simp)).row
      · exact (Agree.mapM fun j hj => ih (l := l.indent) hunit (hbody j hj)).bind fun as bs habs => lists_join habs
    have hcompound : ∀ {a b : String} {body : List NodeId}, Shown a b → (∀ j ∈ body, CleanNames s j) →
        Agree Lists (compoundText s c fuel l i a body) (compoundText s c.unadorned fuel l.plain i b body) := by
      intro a b body hab hbody
      have hheader := row_annotated (s := s) c i (hab.append (Clean.shown (a := ":") (by simp)))
      exact (hblock hbody).bind fun r r' hr => (lists_line hunit hheader).append hr
    have hspace : Shown " " " " := Clean.shown (by simp)
    rw [emitWithin, emitWithin]
    refine (agree_kindOf s i).bind ?_
    rintro k _ ⟨rfl, hk⟩
    have hkids : ∀ j ∈ k.children, CleanNames s j := fun j hj => h.child hk hj
    cases k with
    | module body =>
      refine Agree.bind (R := List.Forall₂ Lists) (Agree.mapM ?_) fun as bs habs => lists_join habs
      rintro ⟨item, n⟩ hitem
      refine (agree_kindOf s item).bind ?_
      rintro k _ ⟨rfl, -⟩
      refine (ih hunit (hkids item (List.fst_mem_of_mem_zipIdx hitem))).bind fun a b hab => Lists.append ?_ hab
      split
      · exact Listing.line (Clean.shown (a := "") (by simp)).row .nil
      · exact .nil
    | functionDef name args body visibility mutability =>
      refine (Agree.mapM fun j hj => agree_argument (hkids j (by simp [hj]))).bind ?_
      intro as bs habs
      obtain ⟨rfl, has⟩ := forall₂_same habs
      have hdecorators : List.Forall₂ Lists
          ((visibility.decorator :: mutability.decorator?.toList).map fun d => l.line (l.paint .yellow d))
          ((visibility.decorator :: mutability.decorator?.toList).map
            fun d => l.plain.line (l.plain.paint .yellow d)) := by
        rw [List.forall₂_map_left_iff, List.forall₂_map_right_iff, List.forall₂_same]
        exact fun d hd => lists_line hunit (shown_paint_plain l .yellow (clean_decorator hd)).row
      have hheader : Shown (l.paint .blue "def" ++ " " ++ name ++ "(" ++ ", ".intercalate as ++ ")" ++ resultText
          (s.ty? i))
          (l.plain.paint .blue "def" ++ " " ++ name ++ "(" ++ ", ".intercalate as ++ ")" ++ resultText
            (s.ty? i)) := by
        have hdef := (shown_paint_plain l .blue (a := "def") (by simp)).append hspace
        have hargs : Shown (", ".intercalate as) (", ".intercalate as) := (Clean.intercalate (by simp) has).shown
        have hopen : Shown "(" "(" := Clean.shown (by simp)
        have hclose : Shown ")" ")" := Clean.shown (by simp)
        exact ((((hdef.append (h.spelled hk rfl).shown).append hopen).append hargs).append hclose).append
          (clean_resultText _).shown
      refine (hcompound hheader fun j hj => hkids j (by simp [hj])).bind fun x y hxy => ?_
      exact (lists_join hdecorators).append hxy
    | ifElse test body orelse =>
      refine (agree_expr (hkids test (by simp))).bind ?_
      rintro a _ ⟨rfl, ha⟩
      have hif := ((shown_paint_plain l .blue (a := "if") (by simp)).append hspace).append ha.shown
      refine (@hcompound _ _ body hif fun j hj => hkids j (by simp [hj])).bind fun x y hxy => ?_
      split
      · exact hxy
      · refine (hblock fun j hj => hkids j (by simp [hj])).bind fun u v huv => ?_
        have helse := (shown_paint_plain l .blue (a := "else") (by simp)).append (Clean.shown (a := ":") (by simp))
        exact (hxy.append (lists_line hunit helse.row)).append huv
    | forIn target iter body =>
      refine (agree_expr (hkids target (by simp))).bind ?_
      rintro a _ ⟨rfl, ha⟩
      refine (agree_expr (hkids iter (by simp))).bind ?_
      rintro b _ ⟨rfl, hb⟩
      have hfor := (shown_paint_plain l .blue (a := "for") (by simp)).append hspace
      have hin : Shown " in " " in " := Clean.shown (by simp)
      exact hcompound (((hfor.append ha.shown).append hin).append hb.shown) fun j hj => hkids j (by simp [hj])
    | _ =>
      refine (agree_simpleStatement l h).bind fun a b hab => ?_
      exact lists_line hunit (row_annotated c i hab)

/-! ## The whole text -/

/-- The line is the plain one, or the plain one with a comment behind it. -/
def Comments (plain line : List Char) : Prop :=
  line = plain ∨ ∃ comment, line = plain ++ ("  # ".toList ++ comment)

theorem splitOn_line {as : List Char} (h : '\n' ∉ as) (cs : List Char) :
    (as ++ '\n' :: cs).splitOn '\n' = as :: cs.splitOn '\n' := by
  rw [List.splitOn, List.splitOnP_append_cons _ _ (by simp), List.splitOnP_eq_singleton]
  · rfl
  · intro c hc
    have hne : c ≠ '\n' := fun he => h (he ▸ hc)
    simpa using hne

theorem Listing.lines {as bs : List Char} (h : Listing as bs) :
    (as.splitOn '\n').length = (bs.splitOn '\n').length ∧
      List.Forall₂ Comments (bs.splitOn '\n') ((uncolored as).splitOn '\n') := by
  induction h with
  | nil => exact ⟨rfl, by rw [uncolored]; exact .cons (.inl rfl) .nil⟩
  | line hrow _ ih =>
    obtain ⟨note, hpainted, hnote⟩ := hrow
    obtain ⟨ha, hb⟩ := hpainted.newline_notMem
    have hb' := fun hmem => hb (List.mem_append_left note hmem)
    rw [hpainted.uncolored_append, uncolored_cons (by decide), splitOn_line ha, splitOn_line hb, splitOn_line hb']
    refine ⟨by simp [ih.1], .cons ?_ ih.2⟩
    rcases hnote with rfl | ⟨comment, rfl⟩
    · exact .inl (List.append_nil _)
    · exact .inr ⟨comment, rfl⟩

theorem clean_unit (indent : Indent) : Clean indent.unit := by
  cases indent with
  | spaces n =>
    intro c hc
    rw [Indent.unit, String.toList_ofList] at hc
    rw [List.eq_of_mem_replicate hc]
    decide
  | tabs => simp [Indent.unit]

/-- **Colours and notes do not alter the source text.** -/
theorem render_adorned {root : NodeId} (c : Config) (h : CleanNames s root) :
    ((∃ text, render s c root = .ok text) ↔ ∃ plain, render s c.unadorned root = .ok plain) ∧
      ∀ text plain, render s c root = .ok text → render s c.unadorned root = .ok plain →
        (text.toList.splitOn '\n').length = (plain.toList.splitOn '\n').length ∧
          List.Forall₂ Comments (plain.toList.splitOn '\n') ((uncolored text.toList).splitOn '\n') := by
  have hagree : Agree Lists (render s c root) (render s c.unadorned root) :=
    agree_emitWithin (l := .ofConfig c) _ (clean_unit c.indent) h
  cases hx : render s c root with
  | error e =>
    cases hy : render s c.unadorned root with
    | error e' => simp
    | ok plain =>
      rw [hx, hy] at hagree
      exact hagree.elim
  | ok text =>
    cases hy : render s c.unadorned root with
    | error e =>
      rw [hx, hy] at hagree
      exact hagree.elim
    | ok plain =>
      rw [hx, hy] at hagree
      refine ⟨by simp, fun text' plain' ht hp => ?_⟩
      obtain rfl := Except.ok.inj ht
      obtain rfl := Except.ok.inj hp
      exact Listing.lines hagree

/-- A function that returns a literal with a line end and a colour sequence in it. -/
def warning : Store where
  nextId := ⟨5⟩
  nodes := [
    { id := ⟨0⟩, kind := .module [⟨1⟩] },
    { id := ⟨1⟩, parent := some ⟨0⟩, ty := some (.function [.address] (some .string) .external .view),
      kind := .functionDef "warning" [⟨2⟩] [⟨3⟩] .external .view },
    { id := ⟨2⟩, parent := some ⟨1⟩, ty := some .address, kind := .arg "sender" },
    { id := ⟨3⟩, parent := some ⟨1⟩, kind := .ret (some ⟨4⟩) },
    { id := ⟨4⟩, parent := some ⟨3⟩, ty := some .string, kind := .str "stop\n\x1b[31mnow" }]

/-- Everything is shown. -/
def noisy : Config := { showIds := true, showTypes := true }

theorem cleanNames_of_nodes {root : NodeId} (h : ∀ n ∈ s.nodes, ∀ x ∈ n.kind.spelled?, Clean x) :
    CleanNames s root := by
  intro path i k x _ hk hx
  obtain ⟨n, hn, rfl⟩ := Option.map_eq_some_iff.1 hk
  exact h n (Store.mem_of_find? hn) x hx

theorem render_adorned_warning : CleanNames warning ⟨0⟩ ∧ ∃ text plain, render warning noisy ⟨0⟩ = .ok text ∧
    render warning noisy.unadorned ⟨0⟩ = .ok plain ∧ text ≠ plain ∧
    List.Forall₂ Comments (plain.toList.splitOn '\n') ((uncolored text.toList).splitOn '\n') := by
  have hclean : CleanNames warning ⟨0⟩ := cleanNames_of_nodes (by simp [warning, Kind.spelled?, Clean])
  obtain ⟨hiff, hlines⟩ := render_adorned noisy hclean
  obtain ⟨text, ht⟩ : ∃ text, render warning noisy ⟨0⟩ = .ok text := ⟨_, rfl⟩
  obtain ⟨plain, hp⟩ := hiff.1 ⟨text, ht⟩
  have hne : render warning noisy ⟨0⟩ ≠ render warning noisy.unadorned ⟨0⟩ := by decide +kernel
  exact ⟨hclean, text, plain, ht, hp, fun he => hne (by rw [ht, hp, he]), (hlines text plain ht hp).2⟩

end Print

end ContractTree
