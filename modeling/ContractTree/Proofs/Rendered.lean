import ContractTree.Print.Source
import ContractTree.Proofs.Walkable

/-!
What has a source text. Every node is a statement, an argument or an expression by its label (`Label.role`), and
the place of a child says which of them it takes: statement lists take statements, the heads of a function are its
arguments, and all other heads are expressions. A tree is rendered exactly when each of its nodes is what its place
takes (`Print.exists_render_iff`).
-/

namespace ContractTree

/-! ## What stands where -/

inductive Role where
  | statement
  | argument
  | expression
  deriving DecidableEq

/-- What a node with this label is. -/
def Label.role : Label → Role
  | .arg _ => .argument
  | .name _ | .member _ | .subscript | .binOp _ | .boolOp _ | .compare _ | .unaryOp _ | .call | .int _ | .bool _
  | .str _ => .expression
  | _ => .statement

/-- What the heads of a node with this label are. -/
def Label.headRole : Label → Role
  | .functionDef _ _ _ => .argument
  | _ => .expression

theorem Label.isStatement_iff_role {l : Label} : l.isStatement = true ↔ l.role = .statement := by
  cases l <;> simp [isStatement, role]

theorem Label.headRole_ne_statement {l : Label} : l.headRole ≠ .statement := by
  cases l <;> simp [headRole]

theorem Label.headRole_of_expression {l : Label} (h : l.role = .expression) : l.headRole = .expression := by
  cases l <;> first | rfl | cases h

/-- Whether every node below the top is what its place takes. -/
def Tree.Grammatical (t : Tree) : Prop :=
  t.All fun u => (∀ k ∈ u.heads, k.label.role = u.label.headRole) ∧
    ∀ k ∈ u.body ++ u.orelse, k.label.role = .statement

theorem Tree.Grammatical.proper {t : Tree} (h : t.Grammatical) : t.Proper := by
  refine All.mono h fun u hu => ⟨fun k hk => ?_, fun k hk => Label.isStatement_iff_role.2 (hu.2 k hk)⟩
  rw [← Bool.not_eq_true, Label.isStatement_iff_role, hu.1 k hk]
  exact Label.headRole_ne_statement

namespace Print

variable {s : Store} {c : Config} {i : NodeId} {n : Node} {text : String} {fuel : Nat} {l : Layout}

/-! ## Texts that come from parts -/

theorem bind_eq_ok {ε α β : Type} {x : Except ε α} {f : α → Except ε β} {b : β} :
    x >>= f = .ok b ↔ ∃ a, x = .ok a ∧ f a = .ok b := by
  cases x with
  | error e => simp [bind, Except.bind]
  | ok a => simp [bind, Except.bind]

theorem pure_eq_ok {ε α : Type} {a b : α} : (pure a : Except ε α) = .ok b ↔ a = b := by simp [pure, Except.pure]

theorem exists_of_mapM_eq_ok {ε α β : Type} {f : α → Except ε β} {as : List α} {bs : List β}
    (h : as.mapM f = .ok bs) : ∀ a ∈ as, ∃ b, f a = .ok b := by
  induction as generalizing bs with
  | nil => simp
  | cons a as ih =>
    rw [List.mapM_cons, bind_eq_ok] at h
    obtain ⟨b, hb, h⟩ := h
    obtain ⟨bs, hbs, -⟩ := bind_eq_ok.1 h
    exact List.forall_mem_cons.2 ⟨⟨b, hb⟩, ih hbs⟩

theorem kindOf_eq (hn : s.find? i = some n) : kindOf s i = .ok n.kind := by rw [kindOf, hn]

/-! ## Expressions -/

/-- The node has a text as an expression. -/
def IsExpr (s : Store) (i : NodeId) : Prop := ∃ fuel text, exprWithin s fuel i = .ok text

theorem isExpr_of_expr (h : expr s i = .ok text) : IsExpr s i := ⟨_, _, h⟩

theorem isExpr_of_exprList {is : List NodeId} (h : exprList s is = .ok text) : ∀ i ∈ is, IsExpr s i := by
  obtain ⟨texts, htexts, -⟩ := bind_eq_ok.1 h
  intro i hi
  obtain ⟨t, ht⟩ := exists_of_mapM_eq_ok htexts i hi
  exact isExpr_of_expr ht

theorem isExpr_of_keyList {is : List NodeId} (h : keyList s is = .ok text) : ∀ i ∈ is, IsExpr s i := by
  cases is with
  | nil => simp
  | cons i is =>
    obtain ⟨t, ht, -⟩ := bind_eq_ok.1 h
    exact isExpr_of_exprList ht

theorem isExpr_of_initializer {value : Option NodeId} (h : initializer s value = .ok text) :
    ∀ i ∈ value, IsExpr s i := by
  cases value with
  | none => simp
  | some i =>
    obtain ⟨t, ht, -⟩ := bind_eq_ok.1 h
    simpa using isExpr_of_expr ht

theorem IsExpr.parts (h : IsExpr s i) (hn : s.find? i = some n) :
    n.kind.label.role = .expression ∧ ∀ j ∈ n.kind.children, IsExpr s j := by
  obtain ⟨fuel, text, h⟩ := h
  cases fuel with
  | zero => cases h
  | succ fuel =>
    obtain ⟨k, hkind, h⟩ := bind_eq_ok.1 h
    rw [kindOf_eq hn] at hkind
    obtain rfl := Except.ok.inj hkind
    cases hk : n.kind <;> simp only [hk, bind_eq_ok, pure_eq_ok] at h
    case member value attr =>
      obtain ⟨_, ⟨t, ht, -⟩, -⟩ := h
      exact ⟨rfl, by simpa [Kind.children] using ⟨fuel, t, ht⟩⟩
    case subscript value slice =>
      obtain ⟨_, ⟨t, ht, -⟩, u, hu, -⟩ := h
      exact ⟨rfl, by simpa [Kind.children] using ⟨⟨fuel, t, ht⟩, fuel, u, hu⟩⟩
    case binOp left op right =>
      obtain ⟨_, ⟨t, ht, -⟩, _, ⟨u, hu, -⟩, -⟩ := h
      exact ⟨rfl, by simpa [Kind.children] using ⟨⟨fuel, t, ht⟩, fuel, u, hu⟩⟩
    case compare left op right =>
      obtain ⟨_, ⟨t, ht, -⟩, _, ⟨u, hu, -⟩, -⟩ := h
      exact ⟨rfl, by simpa [Kind.children] using ⟨⟨fuel, t, ht⟩, fuel, u, hu⟩⟩
    case unaryOp op value =>
      obtain ⟨_, ⟨t, ht, -⟩, -⟩ := h
      exact ⟨rfl, by simpa [Kind.children] using ⟨fuel, t, ht⟩⟩
    case boolOp op values =>
      obtain ⟨texts, htexts, -⟩ := h
      refine ⟨rfl, fun j hj => ?_⟩
      obtain ⟨_, hv⟩ := exists_of_mapM_eq_ok htexts j hj
      obtain ⟨t, ht, -⟩ := bind_eq_ok.1 hv
      exact ⟨fuel, t, ht⟩
    case call func args =>
      obtain ⟨t, ht, texts, htexts, -⟩ := h
      refine ⟨rfl, List.forall_mem_cons.2 ⟨⟨fuel, t, ht⟩, fun j hj => ?_⟩⟩
      obtain ⟨u, hu⟩ := exists_of_mapM_eq_ok htexts j hj
      exact ⟨fuel, u, hu⟩
    case name => exact ⟨rfl, by simp [Kind.children]⟩
    case int => exact ⟨rfl, by simp [Kind.children]⟩
    case bool => exact ⟨rfl, by simp [Kind.children]⟩
    case str => exact ⟨rfl, by simp [Kind.children]⟩
    all_goals cases h

/-! ## Statements -/

/-- The node is an argument of a function. -/
def IsArg (s : Store) (i : NodeId) : Prop := ∃ name, s.kind? i = some (.arg name)

theorem isArg_of_argument (h : argument s i = .ok text) : IsArg s i := by
  obtain ⟨k, hk, h⟩ := bind_eq_ok.1 h
  unfold kindOf at hk
  split at hk
  · next n hn =>
    obtain rfl := Except.ok.inj hk
    cases hkind : n.kind <;> simp only [hkind] at h <;> cases h
    exact ⟨_, by rw [Store.kind?, hn, Option.map_some, hkind]⟩
  · cases hk

/-- The node has a text as a statement. -/
def IsStmt (s : Store) (c : Config) (i : NodeId) : Prop := ∃ fuel l text, emitWithin s c fuel l i = .ok text

/-- The node has a text in this role. -/
def HasRole (s : Store) (c : Config) (i : NodeId) : Role → Prop
  | .statement => IsStmt s c i
  | .argument => IsArg s i
  | .expression => IsExpr s i

theorem heads_of_simpleStatement (hn : s.find? i = some n) (h : simpleStatement s l i = .ok text) :
    n.kind.label.role = .statement ∧ n.kind.label.headRole = .expression ∧ n.kind.body ++ n.kind.orelse = [] ∧
      ∀ j ∈ n.kind.heads, IsExpr s j := by
  obtain ⟨k, hkind, h⟩ := bind_eq_ok.1 h
  rw [kindOf_eq hn] at hkind
  obtain rfl := Except.ok.inj hkind
  cases hk : n.kind <;> simp only [hk, bind_eq_ok, pure_eq_ok] at h
  case variableDecl target value p c i =>
    obtain ⟨t, ht, u, hu, -⟩ := h
    refine ⟨rfl, rfl, rfl, List.forall_mem_cons.2 ⟨isExpr_of_expr ht, ?_⟩⟩
    simpa using isExpr_of_initializer hu
  case annAssign target value =>
    obtain ⟨t, ht, u, hu, -⟩ := h
    refine ⟨rfl, rfl, rfl, List.forall_mem_cons.2 ⟨isExpr_of_expr ht, ?_⟩⟩
    simpa using isExpr_of_initializer hu
  case assign target value =>
    obtain ⟨t, ht, u, hu, -⟩ := h
    exact ⟨rfl, rfl, rfl, by simpa [Kind.heads, Kind.children] using ⟨isExpr_of_expr ht, isExpr_of_expr hu⟩⟩
  case augAssign target op value =>
    obtain ⟨t, ht, u, hu, -⟩ := h
    exact ⟨rfl, rfl, rfl, by simpa [Kind.heads, Kind.children] using ⟨isExpr_of_expr ht, isExpr_of_expr hu⟩⟩
  case ret value =>
    cases value with
    | none => exact ⟨rfl, rfl, rfl, by simp [Kind.heads, Kind.children]⟩
    | some value =>
      simp only [bind_eq_ok, pure_eq_ok] at h
      obtain ⟨t, ht, -⟩ := h
      exact ⟨rfl, rfl, rfl, by simpa [Kind.heads, Kind.children] using isExpr_of_expr ht⟩
  case exprStmt value => exact ⟨rfl, rfl, rfl, by simpa [Kind.heads, Kind.children] using isExpr_of_expr h⟩
  case assert test =>
    obtain ⟨t, ht, -⟩ := h
    exact ⟨rfl, rfl, rfl, by simpa [Kind.heads, Kind.children] using isExpr_of_expr ht⟩
  case pass => exact ⟨rfl, rfl, rfl, by simp [Kind.heads, Kind.children]⟩
  case storageRead target slot keys =>
    obtain ⟨t, ht, u, hu, ks, hks, -⟩ := h
    exact ⟨rfl, rfl, rfl, List.forall_mem_cons.2 ⟨isExpr_of_expr ht,
      List.forall_mem_cons.2 ⟨isExpr_of_expr hu, isExpr_of_keyList hks⟩⟩⟩
  case storageWrite slot keys value =>
    obtain ⟨t, ht, ks, hks, u, hu, -⟩ := h
    refine ⟨rfl, rfl, rfl, List.forall_mem_cons.2 ⟨isExpr_of_expr ht,
      List.forall_mem_append.2 ⟨isExpr_of_keyList hks, ?_⟩⟩⟩
    simpa using isExpr_of_expr hu
  all_goals cases h

/-- Statements that are written one below the other. -/
theorem isStmt_of_block {is : List NodeId} (h : (if is.isEmpty then pure (l.line (l.paint .blue "pass")) else do
    return String.join (← is.mapM (emitWithin s c fuel l)) : Except RenderError String) = .ok text) :
    ∀ i ∈ is, IsStmt s c i := by
  cases is with
  | nil => simp
  | cons i is =>
    obtain ⟨texts, htexts, -⟩ := bind_eq_ok.1 h
    intro j hj
    obtain ⟨t, ht⟩ := exists_of_mapM_eq_ok htexts j hj
    exact ⟨fuel, l, t, ht⟩

theorem IsStmt.parts (h : IsStmt s c i) (hn : s.find? i = some n) :
    n.kind.label.role = .statement ∧ (∀ j ∈ n.kind.heads, HasRole s c j n.kind.label.headRole) ∧
      ∀ j ∈ n.kind.body ++ n.kind.orelse, IsStmt s c j := by
  obtain ⟨fuel, l, text, h⟩ := h
  cases fuel with
  | zero => cases h
  | succ fuel =>
    obtain ⟨k, hkind, h⟩ := bind_eq_ok.1 h
    rw [kindOf_eq hn] at hkind
    obtain rfl := Except.ok.inj hkind
    cases hk : n.kind <;> simp only [hk] at h
    case module body =>
      obtain ⟨items, hitems, -⟩ := bind_eq_ok.1 h
      refine ⟨rfl, by simp [Kind.heads], ?_⟩
      simp only [Kind.body, Kind.orelse, List.append_nil]
      intro j hj
      obtain ⟨k, hk, rfl⟩ := List.mem_iff_getElem.1 hj
      obtain ⟨t, ht⟩ := exists_of_mapM_eq_ok hitems (body[k], k) (List.mk_mem_zipIdx_iff_getElem?.2 (by simp))
      obtain ⟨_, -, ht⟩ := bind_eq_ok.1 ht
      obtain ⟨u, hu, -⟩ := bind_eq_ok.1 ht
      exact ⟨fuel, l, u, hu⟩
    case functionDef f args body visibility mutability =>
      obtain ⟨texts, htexts, h⟩ := bind_eq_ok.1 h
      obtain ⟨_, h, -⟩ := bind_eq_ok.1 h
      obtain ⟨t, ht, -⟩ := bind_eq_ok.1 h
      refine ⟨rfl, fun j hj => ?_, by simpa [Kind.body, Kind.orelse] using isStmt_of_block ht⟩
      obtain ⟨u, hu⟩ := exists_of_mapM_eq_ok htexts j hj
      exact isArg_of_argument hu
    case ifElse test body orelse =>
      obtain ⟨t, ht, h⟩ := bind_eq_ok.1 h
      obtain ⟨_, hthen, helse⟩ := bind_eq_ok.1 h
      obtain ⟨u, hu, -⟩ := bind_eq_ok.1 hthen
      refine ⟨rfl, List.forall_mem_singleton.2 (isExpr_of_expr ht), ?_⟩
      refine List.forall_mem_append.2 ⟨isStmt_of_block hu, ?_⟩
      cases orelse with
      | nil => simp [Kind.orelse]
      | cons j js =>
        obtain ⟨v, hv, -⟩ := bind_eq_ok.1 helse
        exact isStmt_of_block hv
    case forIn target iter body =>
      obtain ⟨t, ht, h⟩ := bind_eq_ok.1 h
      obtain ⟨u, hu, h⟩ := bind_eq_ok.1 h
      obtain ⟨v, hv, -⟩ := bind_eq_ok.1 h
      refine ⟨rfl, ?_, by simpa [Kind.body, Kind.orelse] using isStmt_of_block hv⟩
      exact List.forall_mem_cons.2 ⟨isExpr_of_expr ht, List.forall_mem_singleton.2 (isExpr_of_expr hu)⟩
    all_goals
      obtain ⟨t, ht, -⟩ := bind_eq_ok.1 h
      obtain ⟨h1, h2, h3, h4⟩ := heads_of_simpleStatement hn ht
      rw [hk] at h1 h2 h3 h4
      exact ⟨h1, fun j hj => h2 ▸ h4 j hj, by simp [h3]⟩

/-! ## Trees -/

variable {t : Tree} {p : Option NodeId}

theorem grammatical_of_isExpr (h : s.Holds p t) (hf : t.Fits) (he : IsExpr s t.id) :
    t.Grammatical ∧ t.label.role = .expression := by
  induction t generalizing p with
  | step t ih =>
    obtain ⟨hl, hchildren⟩ := he.parts h.top
    rw [Tree.root_kind, hf.label_kind] at hl
    rw [Tree.root_kind, hf.children_kind] at hchildren
    have hexpr : t.label.isStatement = false := by
      rw [← Bool.not_eq_true, Label.isStatement_iff_role, hl]
      simp
    obtain ⟨hb, ho⟩ := hf.no_lists hexpr
    have hhead := Label.headRole_of_expression hl
    have hkid : ∀ k ∈ t.kids, k.Grammatical ∧ k.label.role = .expression := fun k hk =>
      ih k hk (h.kid hk) (hf.kid hk) (hchildren k.id (List.mem_map_of_mem hk))
    refine ⟨Tree.all_iff.2 ⟨⟨fun k hk => hhead ▸ (hkid k (by simp [Tree.kids, hk])).2, by simp [hb, ho]⟩,
      fun k hk => (hkid k hk).1⟩, hl⟩

theorem grammatical_of_isArg (h : s.Holds p t) (hf : t.Fits) (ha : IsArg s t.id) :
    t.Grammatical ∧ t.label.role = .argument := by
  obtain ⟨name, hk⟩ := ha
  have hkind : t.kind = .arg name := Option.some.inj (h.kind?.symm.trans hk)
  have hl : t.label.role = .argument := by
    rw [← hf.label_kind, hkind]
    rfl
  have hkids : t.kids = [] := by
    have := hf.children_kind
    rwa [hkind, eq_comm, Kind.children, List.map_eq_nil_iff] at this
  have hno : (t.heads = [] ∧ t.body = []) ∧ t.orelse = [] := by
    rwa [Tree.kids, List.append_eq_nil_iff, List.append_eq_nil_iff] at hkids
  exact ⟨Tree.all_iff.2 ⟨by simp [hno], by simp [hkids]⟩, hl⟩

theorem grammatical_of_isStmt (h : s.Holds p t) (hf : t.Fits) (hs : IsStmt s c t.id) :
    t.Grammatical ∧ t.label.role = .statement := by
  induction t generalizing p with
  | step t ih =>
    obtain ⟨hl, hheads, hlists⟩ := hs.parts h.top
    obtain ⟨h0, h1, h2, h3⟩ := Label.parts_kind hf.top
    rw [Tree.root_kind, Tree.kind] at hl hheads hlists
    rw [h0] at hl
    rw [h0, h1] at hheads
    rw [h2, h3, ← List.map_append] at hlists
    have hhead : ∀ k ∈ t.heads, k.Grammatical ∧ k.label.role = t.label.headRole := by
      intro k hk
      have hkid : k ∈ t.kids := by simp [Tree.kids, hk]
      have hrole := hheads k.id (List.mem_map_of_mem hk)
      cases hr : t.label.headRole <;> rw [hr] at hrole
      · exact absurd hr Label.headRole_ne_statement
      · exact grammatical_of_isArg (h.kid hkid) (hf.kid hkid) hrole
      · exact grammatical_of_isExpr (h.kid hkid) (hf.kid hkid) hrole
    have hstmt : ∀ k ∈ t.body ++ t.orelse, k.Grammatical ∧ k.label.role = .statement := by
      intro k hk
      have hkid : k ∈ t.kids := by
        rw [Tree.kids, List.append_assoc]
        exact List.mem_append_right _ hk
      exact ih k hkid (h.kid hkid) (hf.kid hkid) (hlists k.id (List.mem_map_of_mem hk))
    refine ⟨Tree.all_iff.2 ⟨⟨fun k hk => (hhead k hk).2, fun k hk => (hstmt k hk).2⟩, fun k hk => ?_⟩, hl⟩
    rw [Tree.kids, List.append_assoc] at hk
    exact (List.mem_append.1 hk).elim (fun hk => (hhead k hk).1) fun hk => (hstmt k hk).1

/-- A list of texts is made if each of them is. -/
theorem exists_mapM_eq_ok {ε α β : Type} {f : α → Except ε β} {as : List α} (h : ∀ a ∈ as, ∃ b, f a = .ok b) :
    ∃ bs, as.mapM f = .ok bs := by
  induction as with
  | nil => exact ⟨[], rfl⟩
  | cons a as ih =>
    obtain ⟨b, hb⟩ := h a List.mem_cons_self
    obtain ⟨bs, hbs⟩ := ih fun a' ha' => h a' (List.mem_cons_of_mem _ ha')
    exact ⟨b :: bs, by rw [List.mapM_cons, hb, hbs]; rfl⟩

/-- An expression has a text. -/
theorem exists_exprWithin (h : s.Holds p t) (hf : t.Fits) (hg : t.Grammatical) (hr : t.label.role = .expression)
    (hfuel : t.ids.length ≤ fuel) : ∃ text, exprWithin s fuel t.id = .ok text := by
  induction t generalizing p fuel with
  | step t ih =>
    cases fuel with
    | zero => simp [Tree.ids_eq t] at hfuel
    | succ fuel =>
      have hhead := Label.headRole_of_expression hr
      have hexpr : t.label.isStatement = false := by
        rw [← Bool.not_eq_true, Label.isStatement_iff_role, hr]
        simp
      obtain ⟨hb, ho⟩ := hf.no_lists hexpr
      have hsub : ∀ i ∈ t.kind.children, ∃ text, exprWithin s fuel i = .ok text := by
        rw [hf.children_kind, List.forall_mem_map]
        intro k hk
        have hlt := Store.length_ids_kid_lt hk
        have hrole : k.label.role = .expression := by
          rw [Tree.kids, hb, ho, List.append_nil, List.append_nil] at hk
          rw [← hhead]
          exact hg.top.1 k hk
        exact ih k hk (h.kid hk) (hf.kid hk) (hg.kid hk) hrole (by omega)
      have hkind : kindOf s t.id = .ok t.kind := kindOf_eq h.top
      have hl := hf.label_kind
      refine (exists_congr fun _ => bind_eq_ok).2 ?_
      rw [hkind]
      cases hk : t.kind <;> rw [hk] at hsub hl <;> simp only [Kind.children, List.forall_mem_cons] at hsub
      case member value attr =>
        obtain ⟨⟨x, hx⟩, -⟩ := hsub
        exact ⟨_, _, rfl, bind_eq_ok.2 ⟨_, bind_eq_ok.2 ⟨x, hx, rfl⟩, rfl⟩⟩
      case subscript value slice =>
        obtain ⟨⟨x, hx⟩, ⟨y, hy⟩, -⟩ := hsub
        exact ⟨_, _, rfl, bind_eq_ok.2 ⟨_, bind_eq_ok.2 ⟨x, hx, rfl⟩, bind_eq_ok.2 ⟨y, hy, rfl⟩⟩⟩
      case binOp left op right =>
        obtain ⟨⟨x, hx⟩, ⟨y, hy⟩, -⟩ := hsub
        exact ⟨_, _, rfl, bind_eq_ok.2 ⟨_, bind_eq_ok.2 ⟨x, hx, rfl⟩,
          bind_eq_ok.2 ⟨_, bind_eq_ok.2 ⟨y, hy, rfl⟩, rfl⟩⟩⟩
      case compare left op right =>
        obtain ⟨⟨x, hx⟩, ⟨y, hy⟩, -⟩ := hsub
        exact ⟨_, _, rfl, bind_eq_ok.2 ⟨_, bind_eq_ok.2 ⟨x, hx, rfl⟩,
          bind_eq_ok.2 ⟨_, bind_eq_ok.2 ⟨y, hy, rfl⟩, rfl⟩⟩⟩
      case unaryOp op operand =>
        obtain ⟨⟨x, hx⟩, -⟩ := hsub
        exact ⟨_, _, rfl, bind_eq_ok.2 ⟨_, bind_eq_ok.2 ⟨x, hx, rfl⟩, rfl⟩⟩
      case boolOp op values =>
        obtain ⟨xs, hxs⟩ := exists_mapM_eq_ok (f := fun i => do return parenthesized s i (← exprWithin s fuel i))
          fun i hi => (hsub i hi).imp' (parenthesized s i) fun x hx => bind_eq_ok.2 ⟨x, hx, rfl⟩
        exact ⟨_, _, rfl, bind_eq_ok.2 ⟨xs, hxs, rfl⟩⟩
      case call func args =>
        obtain ⟨⟨x, hx⟩, hargs⟩ := hsub
        obtain ⟨xs, hxs⟩ := exists_mapM_eq_ok hargs
        exact ⟨_, _, rfl, bind_eq_ok.2 ⟨x, hx, bind_eq_ok.2 ⟨xs, hxs, rfl⟩⟩⟩
      case name => exact ⟨_, _, rfl, rfl⟩
      case int => exact ⟨_, _, rfl, rfl⟩
      case bool => exact ⟨_, _, rfl, rfl⟩
      case str => exact ⟨_, _, rfl, rfl⟩
      all_goals
        rw [← hl] at hr
        cases hr

theorem exists_initializer {value : Option NodeId} (h : ∀ i ∈ value.toList, ∃ text, expr s i = .ok text) :
    ∃ text, initializer s value = .ok text := by
  cases value with
  | none => exact ⟨_, rfl⟩
  | some i =>
    obtain ⟨x, hx⟩ := h i (by simp)
    exact ⟨_, bind_eq_ok.2 ⟨x, hx, rfl⟩⟩

theorem exists_keyList {is : List NodeId} (h : ∀ i ∈ is, ∃ text, expr s i = .ok text) :
    ∃ text, keyList s is = .ok text := by
  cases is with
  | nil => exact ⟨_, rfl⟩
  | cons i is =>
    obtain ⟨xs, hxs⟩ := exists_mapM_eq_ok h
    exact ⟨_, bind_eq_ok.2 ⟨_, bind_eq_ok.2 ⟨xs, hxs, rfl⟩, rfl⟩⟩

/-- A statement that takes one line has a text if its heads are expressions. -/
theorem exists_simpleStatement {k : Kind} (hkind : kindOf s i = .ok k) (hrole : k.label.role = .statement)
    (hhead : k.label.headRole = .expression) (hlists : k.statementLists = [])
    (h : ∀ j ∈ k.heads, ∃ text, expr s j = .ok text) : ∃ text, simpleStatement s l i = .ok text := by
  refine (exists_congr fun _ => bind_eq_ok).2 ?_
  rw [hkind]
  cases k <;> simp only [Kind.heads, Kind.children, List.forall_mem_cons] at h
  case variableDecl target value a b d =>
    obtain ⟨⟨x, hx⟩, hvalue⟩ := h
    obtain ⟨y, hy⟩ := exists_initializer hvalue
    exact ⟨_, _, rfl, bind_eq_ok.2 ⟨x, hx, bind_eq_ok.2 ⟨y, hy, rfl⟩⟩⟩
  case annAssign target value =>
    obtain ⟨⟨x, hx⟩, hvalue⟩ := h
    obtain ⟨y, hy⟩ := exists_initializer hvalue
    exact ⟨_, _, rfl, bind_eq_ok.2 ⟨x, hx, bind_eq_ok.2 ⟨y, hy, rfl⟩⟩⟩
  case assign target value =>
    obtain ⟨⟨x, hx⟩, ⟨y, hy⟩, -⟩ := h
    exact ⟨_, _, rfl, bind_eq_ok.2 ⟨x, hx, bind_eq_ok.2 ⟨y, hy, rfl⟩⟩⟩
  case augAssign target op value =>
    obtain ⟨⟨x, hx⟩, ⟨y, hy⟩, -⟩ := h
    exact ⟨_, _, rfl, bind_eq_ok.2 ⟨x, hx, bind_eq_ok.2 ⟨y, hy, rfl⟩⟩⟩
  case ret value =>
    cases value with
    | none => exact ⟨_, _, rfl, rfl⟩
    | some value =>
      obtain ⟨x, hx⟩ := h value (by simp)
      exact ⟨_, _, rfl, bind_eq_ok.2 ⟨x, hx, rfl⟩⟩
  case exprStmt value =>
    obtain ⟨⟨x, hx⟩, -⟩ := h
    exact ⟨x, _, rfl, hx⟩
  case assert test =>
    obtain ⟨⟨x, hx⟩, -⟩ := h
    exact ⟨_, _, rfl, bind_eq_ok.2 ⟨x, hx, rfl⟩⟩
  case pass => exact ⟨_, _, rfl, rfl⟩
  case storageRead target slot keys =>
    obtain ⟨⟨x, hx⟩, ⟨y, hy⟩, hkeys⟩ := h
    obtain ⟨z, hz⟩ := exists_keyList hkeys
    exact ⟨_, _, rfl, bind_eq_ok.2 ⟨x, hx, bind_eq_ok.2 ⟨y, hy, bind_eq_ok.2 ⟨z, hz, rfl⟩⟩⟩⟩
  case storageWrite slot keys value =>
    obtain ⟨⟨x, hx⟩, hrest⟩ := h
    rw [List.forall_mem_append] at hrest
    obtain ⟨y, hy⟩ := exists_keyList hrest.1
    obtain ⟨z, hz⟩ := hrest.2 value (by simp)
    exact ⟨_, _, rfl, bind_eq_ok.2 ⟨x, hx, bind_eq_ok.2 ⟨y, hy, bind_eq_ok.2 ⟨z, hz, rfl⟩⟩⟩⟩
  all_goals first | (cases hrole; done) | (cases hhead; done) | cases hlists

/-- Statements that have texts have one as a block. -/
theorem exists_block {f : NodeId → Except RenderError String} {is : List NodeId}
    (h : ∀ i ∈ is, ∃ text, f i = .ok text) :
    ∃ text, (if is.isEmpty then pure (l.line (l.paint .blue "pass")) else do
      return String.join (← is.mapM f) : Except RenderError String) = .ok text := by
  cases is with
  | nil => exact ⟨_, rfl⟩
  | cons i is =>
    obtain ⟨xs, hxs⟩ := exists_mapM_eq_ok h
    exact ⟨_, bind_eq_ok.2 ⟨xs, hxs, rfl⟩⟩

theorem exists_argument (h : s.Holds p t) (hf : t.Fits) (hrole : t.label.role = .argument) :
    ∃ text, argument s t.id = .ok text := by
  rw [← hf.label_kind] at hrole
  simp only [argument, kindOf_eq h.top, Tree.root_kind, bind_eq_ok]
  cases hkind : t.kind <;> rw [hkind] at hrole <;> first | exact ⟨_, _, rfl, rfl⟩ | cases hrole

/-- A statement has a text. -/
theorem exists_emitWithin (h : s.Holds p t) (hf : t.Fits) (hg : t.Grammatical) (hr : t.label.role = .statement)
    (hfuel : t.ids.length ≤ fuel) (hsize : t.ids.length ≤ s.size) :
    ∃ text, emitWithin s c fuel l t.id = .ok text := by
  induction t generalizing p fuel l with
  | step t ih =>
    cases fuel with
    | zero => simp [Tree.ids_eq t] at hfuel
    | succ fuel =>
      obtain ⟨h0, h1, h2, h3⟩ := Label.parts_kind hf.top
      rw [← Tree.kind] at h0 h1 h2 h3
      have hhead : ∀ k ∈ t.heads, k.label.role = t.label.headRole := hg.top.1
      have hkids : ∀ k ∈ t.heads, k ∈ t.kids ∧ k.ids.length < t.ids.length := fun k hk =>
        have hkid : k ∈ t.kids := by simp [Tree.kids, hk]
        ⟨hkid, Store.length_ids_kid_lt hkid⟩
      have hexpr : t.label.headRole = .expression → ∀ j ∈ t.kind.heads, ∃ text, expr s j = .ok text := by
        intro hrole
        rw [h1, List.forall_mem_map]
        intro k hk
        obtain ⟨hkid, hlt⟩ := hkids k hk
        exact exists_exprWithin (h.kid hkid) (hf.kid hkid) (hg.kid hkid) ((hhead k hk).trans hrole) (by omega)
      have hlist : ∀ j ∈ t.kind.body ++ t.kind.orelse, ∀ l, ∃ text, emitWithin s c fuel l j = .ok text := by
        rw [h2, h3, ← List.map_append, List.forall_mem_map]
        intro k hk l
        have hkid : k ∈ t.kids := by
          rw [Tree.kids, List.append_assoc]
          exact List.mem_append_right _ hk
        have hlt := Store.length_ids_kid_lt hkid
        exact ih k hkid (h.kid hkid) (hf.kid hkid) (hg.kid hkid) (hg.top.2 k hk) (by omega) (by omega)
      have hreg : ∀ j ∈ t.kind.children, ∃ k, kindOf s j = .ok k := by
        rw [hf.children_kind, List.forall_mem_map]
        exact fun k hk => ⟨_, kindOf_eq (h.kid hk).top⟩
      have hkind : kindOf s t.id = .ok t.kind := kindOf_eq h.top
      have harg : t.label.headRole = .argument → ∀ j ∈ t.kind.heads, ∃ text, argument s j = .ok text := by
        intro hrole
        rw [h1, List.forall_mem_map]
        intro k hk
        obtain ⟨hkid, -⟩ := hkids k hk
        exact exists_argument (h.kid hkid) (hf.kid hkid) ((hhead k hk).trans hrole)
      refine (exists_congr fun _ => bind_eq_ok).2 ?_
      rw [hkind]
      rw [← h0] at hr hexpr harg
      cases hk : t.kind <;> rw [hk] at hr hexpr harg hlist hreg hkind <;>
        simp only [Kind.body, Kind.orelse, List.append_nil] at hlist
      case module body =>
        have hitem : ∀ x ∈ body.zipIdx, ∃ text, (do
            let isFunction := (← kindOf s x.1).tag = .functionDef
            return (if 0 < x.2 && isFunction then Layout.blank else "") ++ (← emitWithin s c fuel l x.1) :
              Except RenderError String) = .ok text := by
          intro x hx
          have hmem : x.1 ∈ body := List.fst_mem_of_mem_zipIdx hx
          obtain ⟨k, hk⟩ := hreg x.1 hmem
          obtain ⟨y, hy⟩ := hlist x.1 hmem l
          exact ⟨_, bind_eq_ok.2 ⟨k, hk, bind_eq_ok.2 ⟨y, hy, rfl⟩⟩⟩
        obtain ⟨xs, hxs⟩ := exists_mapM_eq_ok hitem
        exact ⟨_, _, rfl, bind_eq_ok.2 ⟨xs, hxs, rfl⟩⟩
      case functionDef f args body visibility mutability =>
        obtain ⟨xs, hxs⟩ := exists_mapM_eq_ok (harg rfl)
        obtain ⟨y, hy⟩ := exists_block (l := l.indent) fun j hj => hlist j hj l.indent
        exact ⟨_, _, rfl, bind_eq_ok.2 ⟨xs, hxs, bind_eq_ok.2 ⟨_, bind_eq_ok.2 ⟨y, hy, rfl⟩, rfl⟩⟩⟩
      case ifElse test body orelse =>
        rw [List.forall_mem_append] at hlist
        obtain ⟨x, hx⟩ := hexpr rfl test List.mem_cons_self
        obtain ⟨y, hy⟩ := exists_block (l := l.indent) fun j hj => hlist.1 j hj l.indent
        cases hor : orelse with
        | nil => exact ⟨_, _, rfl, bind_eq_ok.2 ⟨x, hx, bind_eq_ok.2 ⟨_, bind_eq_ok.2 ⟨y, hy, rfl⟩, rfl⟩⟩⟩
        | cons j js =>
          obtain ⟨zs, hzs⟩ := exists_mapM_eq_ok (f := emitWithin s c fuel l.indent)
            fun j hj => hlist.2 j hj l.indent
          rw [hor] at hzs
          exact ⟨_, _, rfl, bind_eq_ok.2 ⟨x, hx, bind_eq_ok.2 ⟨_, bind_eq_ok.2 ⟨y, hy, rfl⟩,
            bind_eq_ok.2 ⟨_, bind_eq_ok.2 ⟨zs, hzs, rfl⟩, rfl⟩⟩⟩⟩
      case forIn target iter body =>
        obtain ⟨x, hx⟩ := hexpr rfl target List.mem_cons_self
        obtain ⟨y, hy⟩ := hexpr rfl iter (List.mem_cons_of_mem _ List.mem_cons_self)
        obtain ⟨z, hz⟩ := exists_block (l := l.indent) fun j hj => hlist j hj l.indent
        exact ⟨_, _, rfl, bind_eq_ok.2 ⟨x, hx, bind_eq_ok.2 ⟨y, hy, bind_eq_ok.2 ⟨z, hz, rfl⟩⟩⟩⟩
      all_goals
        first
        | (cases hr; done)
        | (obtain ⟨x, hx⟩ := exists_simpleStatement (l := l) hkind hr rfl rfl (hexpr rfl)
           exact ⟨_, _, rfl, bind_eq_ok.2 ⟨x, hx, rfl⟩⟩)

/-- What is rendered has its statements in their places. -/
theorem proper_of_render (h : s.Holds p t) (hf : t.Fits) (hr : render s c t.id = .ok text) :
    t.Proper ∧ t.label.isStatement = true := by
  obtain ⟨hg, hrole⟩ := grammatical_of_isStmt h hf ⟨_, _, _, hr⟩
  exact ⟨hg.proper, Label.isStatement_iff_role.2 hrole⟩

/-- **A tree has a source text exactly when each of its nodes is what its place takes.** -/
theorem exists_render_iff (h : s.Holds p t) (hf : t.Fits) (hn : t.ids.Nodup) :
    (∃ text, render s c t.id = .ok text) ↔ t.Grammatical ∧ t.label.role = .statement := by
  constructor
  · rintro ⟨text, hr⟩
    exact grammatical_of_isStmt h hf ⟨_, _, _, hr⟩
  · rintro ⟨hg, hrole⟩
    have hsize := h.length_le hn
    exact exists_emitWithin h hf hg hrole (by omega) hsize

/-! ## Texts in two stores -/

theorem mapM_congr {ε α β : Type} {f g : α → Except ε β} {as : List α} (h : ∀ a ∈ as, f a = g a) :
    as.mapM f = as.mapM g := by
  induction as with
  | nil => rfl
  | cons a as ih =>
    rw [List.mapM_cons, List.mapM_cons, h a List.mem_cons_self, ih fun b hb => h b (List.mem_cons_of_mem _ hb)]

theorem ok_bind {ε α β : Type} {a : α} {f : α → Except ε β} : (Except.ok a >>= f) = f a := rfl

section Congr

variable {s' : Store} {p' : Option NodeId} {fuel' : Nat}

/-- The text of an expression depends on its tree alone. -/
theorem exprWithin_congr (h : s.Holds p t) (h' : s'.Holds p' t) (hf : t.Fits) (hfuel : t.ids.length ≤ fuel)
    (hfuel' : t.ids.length ≤ fuel') : exprWithin s fuel t.id = exprWithin s' fuel' t.id := by
  induction t generalizing p p' fuel fuel' with
  | step t ih =>
    have hpos : 0 < t.ids.length := by simp [Tree.ids_eq t]
    obtain ⟨fuel, rfl⟩ : ∃ n, fuel = n + 1 := ⟨fuel - 1, by omega⟩
    obtain ⟨fuel', rfl⟩ : ∃ n, fuel' = n + 1 := ⟨fuel' - 1, by omega⟩
    have hsub : ∀ i ∈ t.kind.children, exprWithin s fuel i = exprWithin s' fuel' i := by
      rw [hf.children_kind, List.forall_mem_map]
      intro k hk
      have hlt := Store.length_ids_kid_lt hk
      exact ih k hk (h.kid hk) (h'.kid hk) (hf.kid hk) (by omega) (by omega)
    have hparens : ∀ i ∈ t.kind.children, parenthesized s i = parenthesized s' i := by
      rw [hf.children_kind, List.forall_mem_map]
      intro k hk
      funext text
      simp only [parenthesized, Store.kind?, (h.kid hk).top, (h'.kid hk).top]
    simp only [exprWithin, kindOf_eq h.top, kindOf_eq h'.top, Tree.root_kind, ok_bind]
    cases hk : t.kind <;> rw [hk] at hsub hparens <;>
      simp only [Kind.children, List.forall_mem_cons] at hsub hparens
    case boolOp op values =>
      simp only [mapM_congr (f := fun i => do return parenthesized s i (← exprWithin s fuel i)) fun i hi => by
        rw [hsub i hi, hparens i hi]]
    case call func args => simp only [hsub.1, mapM_congr hsub.2]
    all_goals simp only [hsub, hparens]

theorem keyList_congr {is : List NodeId} (h : ∀ i ∈ is, expr s i = expr s' i) : keyList s is = keyList s' is := by
  simp only [keyList, exprList, mapM_congr h]

theorem initializer_congr {value : Option NodeId} (h : ∀ i ∈ value.toList, expr s i = expr s' i) :
    initializer s value = initializer s' value := by
  cases value with
  | none => rfl
  | some i => simp only [initializer, h i (by simp)]

/-- The line of a statement depends on what the statement is, the texts of its heads and the types noted there. -/
theorem simpleStatement_congr {k : Kind} (hkind : kindOf s i = .ok k) (hkind' : kindOf s' i = .ok k)
    (hty : s.ty? i = s'.ty? i) (h : ∀ j ∈ k.children, expr s j = expr s' j)
    (htys : ∀ j ∈ k.children, s.ty? j = s'.ty? j) : simpleStatement s l i = simpleStatement s' l i := by
  simp only [simpleStatement, hkind, hkind', ok_bind, hty]
  cases k <;> simp only [Kind.children, List.forall_mem_cons, List.forall_mem_append] at h htys
  case variableDecl => simp only [h.1, initializer_congr h.2]
  case annAssign => simp only [h.1, htys.1, initializer_congr h.2]
  case ret value =>
    cases value with
    | none => rfl
    | some value => simp only [h value (by simp)]
  case storageRead => simp only [h.1, h.2.1, keyList_congr h.2.2]
  case storageWrite => simp only [h.1, keyList_congr h.2.1, h.2.2]
  all_goals simp only [h]

theorem argument_congr (h : s.Holds p t) (h' : s'.Holds p' t) : argument s t.id = argument s' t.id := by
  simp only [argument, kindOf_eq h.top, kindOf_eq h'.top, Tree.root_kind, ok_bind, Store.ty?, h.top, h'.top]
  rfl

/-- The text of a statement depends on its tree alone. -/
theorem emitWithin_congr (h : s.Holds p t) (h' : s'.Holds p' t) (hf : t.Fits) (hfuel : t.ids.length ≤ fuel)
    (hfuel' : t.ids.length ≤ fuel') (hsize : t.ids.length ≤ s.size) (hsize' : t.ids.length ≤ s'.size) :
    emitWithin s c fuel l t.id = emitWithin s' c fuel' l t.id := by
  induction t generalizing p p' fuel fuel' l with
  | step t ih =>
    have hpos : 0 < t.ids.length := by simp [Tree.ids_eq t]
    obtain ⟨fuel, rfl⟩ : ∃ n, fuel = n + 1 := ⟨fuel - 1, by omega⟩
    obtain ⟨fuel', rfl⟩ : ∃ n, fuel' = n + 1 := ⟨fuel' - 1, by omega⟩
    have hsub : ∀ i ∈ t.kind.children, ∀ l, emitWithin s c fuel l i = emitWithin s' c fuel' l i := by
      rw [hf.children_kind, List.forall_mem_map]
      intro k hk l
      have hlt := Store.length_ids_kid_lt hk
      exact ih k hk (h.kid hk) (h'.kid hk) (hf.kid hk) (by omega) (by omega) (by omega) (by omega)
    have hexpr : ∀ i ∈ t.kind.children, expr s i = expr s' i := by
      rw [hf.children_kind, List.forall_mem_map]
      intro k hk
      have hlt := Store.length_ids_kid_lt hk
      exact exprWithin_congr (h.kid hk) (h'.kid hk) (hf.kid hk) (by omega) (by omega)
    have hrest : ∀ i ∈ t.kind.children, kindOf s i = kindOf s' i ∧ s.ty? i = s'.ty? i ∧
        argument s i = argument s' i := by
      rw [hf.children_kind, List.forall_mem_map]
      intro k hk
      refine ⟨?_, ?_, argument_congr (h.kid hk) (h'.kid hk)⟩
      · rw [kindOf_eq (h.kid hk).top, kindOf_eq (h'.kid hk).top]
      · rw [Store.ty?, Store.ty?, (h.kid hk).top, (h'.kid hk).top]
    have hty : s.ty? t.id = s'.ty? t.id := by
      rw [Store.ty?, Store.ty?, h.top, h'.top]
      rfl
    have hkind : kindOf s t.id = .ok t.kind := kindOf_eq h.top
    have hkind' : kindOf s' t.id = .ok t.kind := kindOf_eq h'.top
    have hline := simpleStatement_congr (l := l) hkind hkind' hty hexpr fun j hj => (hrest j hj).2.1
    have hnotes : annotated s c t.id = annotated s' c t.id := by
      funext line
      rw [annotated, annotated, hty]
    simp only [emitWithin, hkind, hkind', ok_bind, hline, hnotes, hty]
    cases hk : t.kind <;> rw [hk] at hsub hexpr hrest <;> simp only [Kind.children, List.forall_mem_cons,
      List.forall_mem_append] at hsub hexpr hrest
    case module body =>
      refine congrArg (· >>= _) (mapM_congr fun x hx => ?_)
      have hmem : x.1 ∈ body := List.fst_mem_of_mem_zipIdx hx
      rw [(hrest x.1 hmem).1, hsub x.1 hmem l]
    case functionDef f args body visibility mutability =>
      simp only [mapM_congr fun i hi => (hrest.1 i hi).2.2, mapM_congr fun i hi => hsub.2 i hi l.indent]
    case ifElse test body orelse =>
      simp only [hexpr.1, mapM_congr fun i hi => hsub.2.1 i hi l.indent, mapM_congr
        fun i hi => hsub.2.2 i hi l.indent]
    case forIn target iter body =>
      simp only [hexpr.1, hexpr.2.1, mapM_congr fun i hi => hsub.2.2 i hi l.indent]

/-- **The source text depends on the tree alone**, in whatever store the tree is, and so does the reason for there
being none. -/
theorem render_congr (h : s.Holds p t) (h' : s'.Holds p' t) (hf : t.Fits) (hn : t.ids.Nodup) :
    render s c t.id = render s' c t.id := by
  have hsize := h.length_le hn
  have hsize' := h'.length_le hn
  exact emitWithin_congr h h' hf (by omega) (by omega) hsize hsize'

end Congr

end Print

end ContractTree
