import ContractTree.Proofs.Linked
import ContractTree.Proofs.Persistence
import ContractTree.Proofs.Phrase
import ContractTree.Proofs.Rendered

/-!
The text of an expression tells the expression. Every expression tree is written as a phrase from which the tree
can be rebuilt, except for identities and types (`Print.exists_phrase`), and a phrase is determined by its text.
Main statement: `Print.expr_unambiguous`.
-/

namespace ContractTree

namespace Tree

mutual

/-- The tree without identities and types. -/
def outline : Tree → Tree
  | .node _ _ label heads body orelse =>
    .node ⟨0⟩ none label (outlineAll heads) (outlineAll body) (outlineAll orelse)

def outlineAll : List Tree → List Tree
  | [] => []
  | t :: ts => outline t :: outlineAll ts

end

theorem outlineAll_eq (ts : List Tree) : outlineAll ts = ts.map outline := by
  induction ts with
  | nil => rfl
  | cons t ts ih => rw [outlineAll, ih, List.map_cons]

end Tree

/-- Whether a node with this label is written in parentheses where it is an operand. -/
def Label.isOperation : Label → Bool
  | .binOp _ | .boolOp _ | .compare _ | .unaryOp _ => true
  | _ => false

theorem Kind.isOperation_eq (k : Kind) : k.isOperation = k.label.isOperation := by cases k <;> rfl

/-- An expression has no statements below it. -/
theorem Label.Fits.no_blocks {l : Label} {a b c : Nat} (h : l.Fits a b c) (hl : l.role = .expression) :
    b = 0 ∧ c = 0 := by
  cases l with
  | boolOp op => exact h
  | name _ | member _ | subscript | binOp _ | compare _ | unaryOp _ | call | int _ | bool _ | str _ => exact h.2
  | _ => cases hl

namespace Print

/-- Names are identifiers, numbers are not negative, a condition has two parts at least, and no operation is
called. -/
def LegibleAt (t : Tree) : Prop :=
  match t.label with
  | .name x => IsIdentifier x
  | .member x => IsIdentifier x
  | .int n => 0 ≤ n
  | .boolOp _ => 2 ≤ t.heads.length
  | .call => ∀ f ∈ t.heads.head?, f.label.isOperation = false
  | _ => True

/-- The text of the expression can be read. -/
def Legible (t : Tree) : Prop := t.All LegibleAt

/-- A node of an expression, without identity and type. -/
def exprNode (l : Label) (heads : List Tree) : Tree := .node ⟨0⟩ none l heads [] []

def Word.label : Word → Label
  | .bin op => .binOp op
  | .compare op => .compare op
  | .bool op => .boolOp op

mutual

def Phrase.tree : Phrase → Tree
  | .plain o => o.tree
  | .unary op o => exprNode (.unaryOp op) [o.tree]
  | .joined w o o' os => exprNode w.label (o.tree :: o'.tree :: operandTrees os)

def Operand.tree : Operand → Tree
  | .mk b ss => suffixTree b.tree ss

def Base.tree : Base → Tree
  | .name x => exprNode (.name x.text) []
  | .nat n => exprNode (.int n) []
  | .bool b => exprNode (.bool b) []
  | .str x => exprNode (.str x) []
  | .group p => p.tree

/-- What a suffix makes of the tree in front of it. -/
def Suffix.tree (t : Tree) : Suffix → Tree
  | .attr x => exprNode (.member x.text) [t]
  | .index p => exprNode .subscript [t, p.tree]
  | .args ps => exprNode .call (t :: phraseTrees ps)

def suffixTree (t : Tree) : List Suffix → Tree
  | [] => t
  | s :: ss => suffixTree (s.tree t) ss

def operandTrees : List Operand → List Tree
  | [] => []
  | o :: os => o.tree :: operandTrees os

def phraseTrees : List Phrase → List Tree
  | [] => []
  | p :: ps => p.tree :: phraseTrees ps

end

/-- One more suffix. -/
def Operand.extend : Operand → Suffix → Operand
  | .mk b ss, s => .mk b (ss ++ [s])

theorem suffixTree_concat (t : Tree) (ss : List Suffix) (s : Suffix) :
    suffixTree t (ss ++ [s]) = s.tree (suffixTree t ss) := by
  induction ss generalizing t with
  | nil => simp only [List.nil_append, suffixTree]
  | cons a ss ih => rw [List.cons_append, suffixTree, ih, suffixTree]

theorem suffixChars_concat (ss : List Suffix) (s : Suffix) :
    suffixChars (ss ++ [s]) = suffixChars ss ++ s.chars := by
  induction ss with
  | nil => simp only [List.nil_append, suffixChars, List.append_nil]
  | cons a ss ih => rw [List.cons_append, suffixChars, ih, suffixChars, List.append_assoc]

theorem Operand.tree_extend (o : Operand) (s : Suffix) : (o.extend s).tree = s.tree o.tree := by
  cases o with
  | mk b ss => simp only [Operand.extend, Operand.tree, suffixTree_concat]

theorem Operand.chars_extend (o : Operand) (s : Suffix) : (o.extend s).chars = o.chars ++ s.chars := by
  cases o with
  | mk b ss => simp only [Operand.extend, Operand.chars, suffixChars_concat, List.append_assoc]

theorem operandTrees_eq (os : List Operand) : operandTrees os = os.map Operand.tree := by
  induction os with
  | nil => rw [operandTrees, List.map_nil]
  | cons o os ih => rw [operandTrees, ih, List.map_cons]

theorem phraseTrees_eq (ps : List Phrase) : phraseTrees ps = ps.map Phrase.tree := by
  induction ps with
  | nil => rw [phraseTrees, List.map_nil]
  | cons p ps ih => rw [phraseTrees, ih, List.map_cons]

theorem joinedChars_eq (w : Word) (os : List Operand) :
    joinedChars w os = (os.map Operand.chars).flatMap fun cs => ' ' :: w.chars ++ ' ' :: cs := by
  induction os with
  | nil => rw [joinedChars, List.map_nil, List.flatMap_nil]
  | cons o os ih => simp only [joinedChars, ih, List.map_cons, List.flatMap_cons, List.cons_append,
      List.append_assoc]

theorem argChars_eq (ps : List Phrase) :
    argChars ps = (ps.map Phrase.chars).flatMap fun cs => ',' :: ' ' :: cs := by
  induction ps with
  | nil => rw [argChars, List.map_nil, List.flatMap_nil]
  | cons p ps ih => simp only [argChars, ih, List.map_cons, List.flatMap_cons, List.cons_append]

theorem ofInt_natCast (n : Nat) : Decimal.ofInt n = String.ofList (Nat.toDigits 10 n) :=
  Nat.toString_eq_ofList_toDigits

theorem toList_intercalate_cons (sep a : String) (as : List String) :
    (sep.intercalate (a :: as)).toList = a.toList ++ (as.map String.toList).flatMap (sep.toList ++ ·) := by
  induction as generalizing a with
  | nil => simp
  | cons b as ih =>
    rw [String.intercalate_cons_cons, String.toList_append, String.toList_append, ih b]
    simp only [List.map_cons, List.flatMap_cons, List.append_assoc]

/-! ## Every expression is written as a phrase -/

variable {s : Store} {p : Option NodeId} {t : Tree} {q : Phrase} {text : String} {fuel : Nat}

/-- The phrase writes the tree as `text`. -/
structure Writes (q : Phrase) (t : Tree) (text : String) : Prop where
  tree : q.tree = t.outline
  chars : q.chars = text.toList
  plain : t.label.isOperation = false → ∃ o, q = .plain o

/-- Where it is an operand, an operation is put in parentheses. -/
theorem Writes.operand (h : Writes q t text) (ht : s.Holds p t) (hf : t.Fits) :
    ∃ o : Operand, o.tree = t.outline ∧ o.chars = (parenthesized s t.id text).toList := by
  have hany : (s.kind? t.id).any Kind.isOperation = t.label.isOperation := by
    rw [ht.kind?, Option.any_some, Kind.isOperation_eq, hf.label_kind]
  cases hop : t.label.isOperation with
  | false =>
    obtain ⟨o, rfl⟩ := h.plain hop
    refine ⟨o, by rw [← h.tree, Phrase.tree], ?_⟩
    rw [parenthesized, hany, hop, if_neg (by decide), ← h.chars, Phrase.chars]
  | true =>
    refine ⟨.mk (.group q) [], by rw [← h.tree, Operand.tree, suffixTree, Base.tree], ?_⟩
    rw [parenthesized, hany, hop, if_pos rfl]
    simp [Operand.chars, Base.chars, suffixChars, h.chars]

/-- Parts that are written one by one. -/
theorem exists_parts {α : Type} {tree : α → Tree} {chars : α → List Char} {f : NodeId → Except RenderError String}
    {ks : List Tree} {texts : List String} (h : (ks.map Tree.id).mapM f = .ok texts)
    (hk : ∀ k ∈ ks, ∀ x, f k.id = .ok x → ∃ a, tree a = k.outline ∧ chars a = x.toList) :
    ∃ as : List α, as.map tree = ks.map Tree.outline ∧ as.map chars = texts.map String.toList := by
  induction ks generalizing texts with
  | nil =>
    obtain rfl : [] = texts := pure_eq_ok.1 h
    exact ⟨[], rfl, rfl⟩
  | cons k ks ih =>
    rw [List.map_cons, List.mapM_cons, bind_eq_ok] at h
    obtain ⟨x, hx, h⟩ := h
    obtain ⟨xs, hxs, h⟩ := bind_eq_ok.1 h
    obtain rfl := pure_eq_ok.1 h
    obtain ⟨a, htree, hchars⟩ := hk k List.mem_cons_self x hx
    obtain ⟨as, htrees, hall⟩ := ih hxs fun j hj => hk j (List.mem_cons_of_mem _ hj)
    exact ⟨a :: as, by simp [htree, htrees], by simp [hchars, hall]⟩

theorem outline_expr {i : NodeId} {ty : Option Ty} {l : Label} {ks : List Tree} :
    (Tree.node i ty l ks [] []).outline = exprNode l (ks.map Tree.outline) := by
  rw [Tree.outline, Tree.outlineAll_eq, Tree.outlineAll, exprNode]

/-- A number, a word or a literal is a phrase by itself. -/
theorem writes_base {b : Base} {i : NodeId} {ty : Option Ty} {l : Label} (htree : b.tree = exprNode l [])
    (hchars : b.chars = text.toList) : Writes (.plain (.mk b [])) (.node i ty l [] [] []) text where
  tree := by rw [Phrase.tree, Operand.tree, suffixTree, htree, outline_expr, List.map_nil]
  chars := by rw [Phrase.chars, Operand.chars, suffixChars, List.append_nil, hchars]
  plain _ := ⟨_, rfl⟩

/-- A suffix behind an operand. -/
theorem writes_suffix {o : Operand} {x : Suffix} {i : NodeId} {ty : Option Ty} {l : Label} {ks : List Tree}
    (htree : x.tree o.tree = exprNode l (ks.map Tree.outline)) (hchars : o.chars ++ x.chars = text.toList) :
    Writes (.plain (o.extend x)) (.node i ty l ks [] []) text where
  tree := by rw [Phrase.tree, Operand.tree_extend, htree, outline_expr]
  chars := by rw [Phrase.chars, Operand.chars_extend, hchars]
  plain _ := ⟨_, rfl⟩

theorem writes_joined {w : Word} {o o' : Operand} {os : List Operand} {i : NodeId} {ty : Option Ty} {a b : Tree}
    {ks : List Tree} (ho : o.tree = a.outline) (ho' : o'.tree = b.outline)
    (hos : os.map Operand.tree = ks.map Tree.outline) (hchars : (Phrase.joined w o o' os).chars = text.toList) :
    Writes (.joined w o o' os) (.node i ty w.label (a :: b :: ks) [] []) text where
  tree := by rw [Phrase.tree, outline_expr, ho, ho', operandTrees_eq, hos, List.map_cons, List.map_cons]
  chars := hchars
  plain h := by cases w <;> cases h

theorem exists_writes_binary {w : Word} {symbol : String} {i : NodeId} {ty : Option Ty} {a b : Tree}
    {f : NodeId → Except RenderError String}
    (hf : ∀ k ∈ [a, b], ∀ x, f k.id = .ok x → ∃ o : Operand, o.tree = k.outline ∧ o.chars = x.toList)
    (hw : w.chars = symbol.toList) (he : (do return (← f a.id) ++ " " ++ symbol ++ " " ++ (← f b.id)) = .ok text) :
    ∃ q, Writes q (.node i ty w.label [a, b] [] []) text := by
  obtain ⟨x, hx, he⟩ := bind_eq_ok.1 he
  obtain ⟨y, hy, he⟩ := bind_eq_ok.1 he
  obtain rfl := pure_eq_ok.1 he
  obtain ⟨o, ho, hchars⟩ := hf a (by simp) x hx
  obtain ⟨o', ho', hchars'⟩ := hf b (by simp) y hy
  exact ⟨.joined w o o' [], writes_joined ho ho' rfl (by simp [Phrase.chars, hchars, hchars', joinedChars, hw])⟩

theorem exists_writes_chain {op : BoolOp} {i : NodeId} {ty : Option Ty} {ks : List Tree} {texts : List String}
    {f : NodeId → Except RenderError String}
    (hf : ∀ k ∈ ks, ∀ x, f k.id = .ok x → ∃ o : Operand, o.tree = k.outline ∧ o.chars = x.toList)
    (hlength : 2 ≤ ks.length) (htexts : (ks.map Tree.id).mapM f = .ok texts) :
    ∃ q, Writes q (.node i ty (.boolOp op) ks [] []) ((" " ++ op.symbol ++ " ").intercalate texts) := by
  obtain ⟨os, htrees, hchars⟩ := exists_parts htexts hf
  match ks, os, texts, hlength, htrees, hchars with
  | _ :: _ :: _, [_], _, _, htrees, _ => simp at htrees
  | _ :: _ :: _, _ :: _ :: _, [_], _, _, hchars => simp at hchars
  | a :: b :: ks, o :: o' :: os, x :: y :: texts, _, htrees, hchars =>
    simp only [List.map_cons, List.cons.injEq] at htrees hchars
    refine ⟨.joined (.bool op) o o' os, writes_joined htrees.1 htrees.2.1 htrees.2.2 ?_⟩
    rw [toList_intercalate_cons, Phrase.chars, joinedChars_eq, hchars.1, hchars.2.1, hchars.2.2]
    simp [Word.chars]

theorem chars_args {ps : List Phrase} {texts : List String} (h : ps.map Phrase.chars = texts.map String.toList) :
    (Suffix.args ps).chars = '(' :: ((", ".intercalate texts).toList ++ [')']) := by
  cases ps with
  | nil =>
    obtain rfl : texts = [] := List.map_eq_nil_iff.1 h.symm
    rw [Suffix.chars]
    rfl
  | cons p ps =>
    cases texts with
    | nil => cases h
    | cons x texts =>
      rw [List.map_cons, List.map_cons, List.cons.injEq] at h
      rw [Suffix.chars, argChars_eq, toList_intercalate_cons, h.1, h.2, List.append_assoc]
      rfl

/-- **Every legible expression is written as a phrase** that tells the tree. -/
theorem exists_phrase (ht : s.Holds p t) (hf : t.Fits) (hl : Legible t) (he : exprWithin s fuel t.id = .ok text) :
    ∃ q, Writes q t text := by
  induction t generalizing p fuel text with
  | step t ih =>
    cases fuel with
    | zero => cases he
    | succ fuel =>
      have hrole : t.label.role = .expression := by
        rw [← hf.label_kind]
        exact (IsExpr.parts ⟨_, _, he⟩ ht.top).1
      have hsub : ∀ k ∈ t.kids, ∀ x, exprWithin s fuel k.id = .ok x → ∃ q, Writes q k x :=
        fun k hk x hx => ih k hk (ht.kid hk) (hf.kid hk) (hl.kid hk) hx
      let operand (id : NodeId) : Except RenderError String :=
        do return parenthesized s id (← exprWithin s fuel id)
      have hoperand : ∀ k ∈ t.kids, ∀ x, operand k.id = .ok x → ∃ o : Operand, o.tree = k.outline ∧
          o.chars = x.toList := by
        intro k hk x hx
        obtain ⟨y, hy, hx⟩ := bind_eq_ok.1 hx
        obtain rfl := pure_eq_ok.1 hx
        obtain ⟨q, hq⟩ := hsub k hk y hy
        exact hq.operand (ht.kid hk) (hf.kid hk)
      obtain ⟨k, hkind, he⟩ := bind_eq_ok.1 he
      rw [kindOf_eq ht.top] at hkind
      obtain rfl := Except.ok.inj hkind
      have hlegible := hl.top
      have htop := ((Tree.fits_iff t).1 hf).1
      obtain ⟨i, ty, l, ks, bs, es⟩ := t
      obtain ⟨hbs, hes⟩ := htop.no_blocks hrole
      obtain rfl : bs = [] := List.length_eq_zero_iff.1 hbs
      obtain rfl : es = [] := List.length_eq_zero_iff.1 hes
      simp only [Tree.kids_node, List.append_nil] at hsub hoperand
      cases l with
      | name x =>
        obtain rfl : ks = [] := List.length_eq_zero_iff.1 htop.1
        obtain rfl := pure_eq_ok.1 he
        exact ⟨_, writes_base (b := .name ⟨x, hlegible⟩) (by rw [Base.tree]) (by rw [Base.chars])⟩
      | int n =>
        obtain rfl : ks = [] := List.length_eq_zero_iff.1 htop.1
        obtain rfl := pure_eq_ok.1 he
        obtain ⟨m, rfl⟩ := Int.eq_ofNat_of_zero_le hlegible
        exact ⟨_, writes_base (b := .nat m) (by rw [Base.tree])
          (by rw [Base.chars, ofInt_natCast, String.toList_ofList])⟩
      | bool b =>
        obtain rfl : ks = [] := List.length_eq_zero_iff.1 htop.1
        obtain rfl := pure_eq_ok.1 he
        exact ⟨_, writes_base (b := .bool b) (by rw [Base.tree]) (by rw [Base.chars])⟩
      | str x =>
        obtain rfl : ks = [] := List.length_eq_zero_iff.1 htop.1
        obtain rfl := pure_eq_ok.1 he
        exact ⟨_, writes_base (b := .str x) (by rw [Base.tree]) (by rw [Base.chars])⟩
      | member attr =>
        obtain ⟨v, rfl⟩ := List.length_eq_one_iff.1 htop.1
        obtain ⟨x, hx, he⟩ := bind_eq_ok.1 he
        obtain rfl := pure_eq_ok.1 he
        obtain ⟨o, ho, hchars⟩ := hoperand v (by simp) x hx
        exact ⟨_, writes_suffix (x := .attr ⟨attr, hlegible⟩) (by rw [Suffix.tree, ho]; rfl)
          (by simp [Suffix.chars, hchars])⟩
      | subscript =>
        obtain ⟨v, k, rfl⟩ := List.length_eq_two.1 htop.1
        obtain ⟨x, hx, he⟩ := bind_eq_ok.1 he
        obtain ⟨y, hy, he⟩ := bind_eq_ok.1 he
        obtain rfl := pure_eq_ok.1 he
        obtain ⟨o, ho, hchars⟩ := hoperand v (by simp) x hx
        obtain ⟨q, hq⟩ := hsub k (by simp) y hy
        exact ⟨_, writes_suffix (x := .index q) (by rw [Suffix.tree, ho, hq.tree]; rfl)
          (by simp [Suffix.chars, hchars, hq.chars])⟩
      | unaryOp op =>
        obtain ⟨v, rfl⟩ := List.length_eq_one_iff.1 htop.1
        obtain ⟨x, hx, he⟩ := bind_eq_ok.1 he
        obtain rfl := pure_eq_ok.1 he
        obtain ⟨o, ho, hchars⟩ := hoperand v (by simp) x hx
        exact ⟨.unary op o, by rw [Phrase.tree, ho, outline_expr]; rfl, by simp [Phrase.chars, hchars], nofun⟩
      | binOp op =>
        obtain ⟨v, k, rfl⟩ := List.length_eq_two.1 htop.1
        exact exists_writes_binary (w := .bin op) (f := operand) hoperand rfl he
      | compare op =>
        obtain ⟨v, k, rfl⟩ := List.length_eq_two.1 htop.1
        exact exists_writes_binary (w := .compare op) (f := operand) hoperand rfl he
      | boolOp op =>
        obtain ⟨texts, htexts, he⟩ := bind_eq_ok.1 he
        obtain rfl := pure_eq_ok.1 he
        exact exists_writes_chain hoperand hlegible htexts
      | call =>
        match ks, htop with
        | f :: ks, _ =>
          obtain ⟨x, hx, he⟩ := bind_eq_ok.1 he
          obtain ⟨texts, htexts, he⟩ := bind_eq_ok.1 he
          obtain rfl := pure_eq_ok.1 he
          obtain ⟨q, hq⟩ := hsub f (by simp) x hx
          obtain ⟨o, rfl⟩ := hq.plain (hlegible f rfl)
          obtain ⟨ps, htrees, hchars⟩ := exists_parts htexts fun k hk y hy =>
            (hsub k (by simp [hk]) y hy).imp fun q hq => ⟨hq.tree, hq.chars⟩
          have hfunc : o.tree = f.outline := by rw [← hq.tree, Phrase.tree]
          have hfuncChars : o.chars = x.toList := by rw [← hq.chars, Phrase.chars]
          refine ⟨_, writes_suffix (o := o) (x := .args ps) ?_ ?_⟩
          · rw [Suffix.tree, phraseTrees_eq, htrees, hfunc, List.map_cons]
          · rw [chars_args hchars, hfuncChars]
            simp
      | _ => cases hrole

/-! ## Texts tell trees -/

theorem exists_writes {i : NodeId} (hi : s.Linked i) (ht : s.tree? i = some t) (hl : Legible t)
    (he : expr s i = .ok text) : ∃ q, Writes q t text := by
  obtain ⟨u, rfl, hf, hn, hu⟩ := Store.linked_iff.1 hi
  obtain rfl : u = t := Option.some.inj ((hu.tree?_eq hf hn).symm.trans ht)
  exact exists_phrase hu hf hl he

/-- **Expressions with one text are one expression**: two legible expression trees that are written alike differ in
identities, links upwards and types at most. -/
theorem expr_unambiguous {s s' : Store} {i i' : NodeId} {t t' : Tree} {text : String} (hi : s.Linked i)
    (hi' : s'.Linked i') (ht : s.tree? i = some t) (ht' : s'.tree? i' = some t') (hl : Legible t)
    (hl' : Legible t') (he : expr s i = .ok text) (he' : expr s' i' = .ok text) : t.outline = t'.outline := by
  obtain ⟨q, hq⟩ := exists_writes hi ht hl he
  obtain ⟨q', hq'⟩ := exists_writes hi' ht' hl' he'
  have hsame : q.chars ++ [] = q'.chars ++ [] := by rw [hq.chars, hq'.chars]
  obtain ⟨rfl, -⟩ := Phrase.chars_append_inj q q' (by simp [Closes]) (by simp [Closes]) hsame
  rw [← hq.tree, hq'.tree]

/-- A negated entry of a sum. -/
def negatedEntry (f : Nat → NodeId) (ty : Option Ty) : Tree :=
  .node (f 0) ty (.unaryOp .neg)
    [.node (f 1) ty .subscript
      [.node (f 2) none (.binOp .add) [.leaf (f 3) none (.name "a"), .leaf (f 4) none (.name "not_b")] [] [],
        .leaf (f 5) ty (.int 30)] [] []] [] []

theorem legible_negatedEntry (f : Nat → NodeId) (ty : Option Ty) : Legible (negatedEntry f ty) := by
  have ha : IsIdentifier "a" := ⟨List.all_eq_true.1 rfl, ⟨_, _, rfl, rfl⟩, by decide⟩
  have hb : IsIdentifier "not_b" := ⟨List.all_eq_true.1 rfl, ⟨_, _, rfl, rfl⟩, by decide⟩
  simp [negatedEntry, Legible, Tree.leaf, Tree.All, Tree.AllOf, LegibleAt, ha, hb]

theorem fits_negatedEntry (f : Nat → NodeId) (ty : Option Ty) : (negatedEntry f ty).Fits := by
  simp [negatedEntry, Tree.leaf, Tree.Fits, Tree.FitsAll, Label.Fits]

theorem expr_unambiguous_negatedEntry :
    ∃ s s' : Store, ∃ t t' : Tree, s.Linked ⟨0⟩ ∧ s'.Linked ⟨9⟩ ∧ s.tree? ⟨0⟩ = some t ∧ s'.tree? ⟨9⟩ = some t' ∧
      t ≠ t' ∧
      expr s ⟨0⟩ = .ok "-(a + not_b)[30]" ∧ expr s' ⟨9⟩ = .ok "-(a + not_b)[30]" ∧ t.outline = t'.outline := by
  let t := negatedEntry (fun i => ⟨.ofNat i⟩) none
  let t' := negatedEntry (fun i => ⟨.ofNat (9 - i)⟩) (some (.uint 8))
  have hn : t.ids.Nodup := by decide
  have hn' : t'.ids.Nodup := by decide
  have hs : (Store.ofTree t ⟨10⟩).Holds none t := Store.holds_ofTree hn
  have hs' : (Store.ofTree t' ⟨10⟩).Holds none t' := Store.holds_ofTree hn'
  have hlinked : (Store.ofTree t ⟨10⟩).Linked ⟨0⟩ := Store.linked_iff.2 ⟨t, rfl, fits_negatedEntry _ _, hn, hs⟩
  have hlinked' : (Store.ofTree t' ⟨10⟩).Linked ⟨9⟩ :=
    Store.linked_iff.2 ⟨t', rfl, fits_negatedEntry _ _, hn', hs'⟩
  have ht := hs.tree?_eq (fits_negatedEntry _ _) hn
  have ht' := hs'.tree?_eq (fits_negatedEntry _ _) hn'
  have he : expr (.ofTree t ⟨10⟩) ⟨0⟩ = .ok "-(a + not_b)[30]" := by decide +kernel
  have he' : expr (.ofTree t' ⟨10⟩) ⟨9⟩ = .ok "-(a + not_b)[30]" := by decide +kernel
  exact ⟨_, _, t, t', hlinked, hlinked', ht, ht', fun h => absurd (congrArg Tree.id h) (by decide), he, he',
    expr_unambiguous hlinked hlinked' ht ht' (legible_negatedEntry _ _) (legible_negatedEntry _ _) he he'⟩

end Print

end ContractTree
