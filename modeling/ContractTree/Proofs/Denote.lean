import ContractTree.Proofs.Lowered
import ContractTree.Proofs.Walked

/-!
The programs that trees stand for. `Tree.expr?` and `Tree.stmt?` read expressions and statements off trees: a
member of `self` with its subscripts is a load, and so are reads and writes of slots the statements that lowering
makes.

What hoisting does to trees is lifting on the expressions that they stand for (`Hoisted.lift`), and what the walk
does to the statements of a function is lowering on its program (`Walked.lowered`). Both need that all accesses are
complete.
-/

namespace ContractTree

namespace Tree

def callee? : Tree → Option Callee
  | .node _ _ (.name x) [] [] [] => some (.name x)
  | .node _ _ (.member f) [.node _ _ (.name "self") [] [] []] [] [] => some (.member f)
  | _ => none

mutual

/-- The expression that a tree stands for. -/
def expr? : Tree → Option Expr
  | .node _ _ (.int value) [] [] [] => some (.int value)
  | .node _ _ (.name x) [] [] [] => some (.name x)
  | .node _ _ (.member x) [.node _ _ (.name "self") [] [] []] [] [] => some (.load x [])
  | .node _ _ .subscript [value, key] [] [] => do
    match ← expr? value with
    | .load x keys => return .load x (keys ++ [← expr? key])
    | _ => none
  | .node _ _ (.binOp op) [left, right] [] [] => return .binOp op (← expr? left) (← expr? right)
  | .node _ _ .call (f :: args) [] [] => return .call (← f.callee?) (← exprs? args)
  | _ => none

def exprs? : List Tree → Option (List Expr)
  | [] => some []
  | t :: ts => return (← expr? t) :: (← exprs? ts)

end

/-- The local that a tree names. -/
def local? (t : Tree) : Option String := t.expr?.bind Expr.name?

/-- The place that a tree stands for as a target. -/
def place? (t : Tree) : Option Place :=
  match t.expr? with
  | some (.name x) => some (.var x)
  | some (.load x keys) => some (.slot x keys)
  | _ => none

mutual

/-- The statement that a tree stands for. -/
def stmt? : Tree → Option Stmt
  | .node _ _ .assign [target, value] [] [] => return .assign (← target.place?) (← value.expr?)
  | .node _ _ (.augAssign op) [target, value] [] [] => return .augAssign (← target.place?) op (← value.expr?)
  | .node _ _ .ifElse [test] body orelse => return .ifElse (← test.expr?) (← stmts? body) (← stmts? orelse)
  | .node _ _ .forIn [target, iter] body [] => return .forIn (← target.local?) (← iter.expr?) (← stmts? body)
  | .node _ _ .pass [] [] [] => some .pass
  | .node _ _ .storageRead (target :: slot :: keys) [] [] =>
    return .read (← target.local?) (← slot.local?) (← exprs? keys)
  | .node _ _ .storageWrite (slot :: operands) [] [] => do
    let es ← exprs? operands
    return .write (← slot.local?) es.dropLast (← es.getLast?)
  | _ => none

def stmts? : List Tree → Option (List Stmt)
  | [] => some []
  | t :: ts => return (← stmt? t) :: (← stmts? ts)

end

/-- The program that the tree of a function stands for. -/
def program? : Tree → Option (List Stmt)
  | .node _ _ (.functionDef _ _ _) _ body [] => stmts? body
  | _ => none

end Tree

/-- How an expression is read off the top of a tree. -/
inductive ExprAt : Tree → Expr → Prop where
  | int {i : NodeId} {ty : Option Ty} (value : Int) : ExprAt (.node i ty (.int value) [] [] []) (.int value)
  | name {i : NodeId} {ty : Option Ty} (x : String) : ExprAt (.node i ty (.name x) [] [] []) (.name x)
  | member {i j : NodeId} {ty ty' : Option Ty} (x : String) :
      ExprAt (.node i ty (.member x) [.node j ty' (.name "self") [] [] []] [] []) (.load x [])
  | subscript {i : NodeId} {ty : Option Ty} {value key : Tree} {x : String} {keys : List Expr} {k : Expr}
      (hv : value.expr? = some (.load x keys)) (hk : key.expr? = some k) :
      ExprAt (.node i ty .subscript [value, key] [] []) (.load x (keys ++ [k]))
  | binOp {i : NodeId} {ty : Option Ty} {op : BinOp} {left right : Tree} {l r : Expr} (hl : left.expr? = some l)
      (hr : right.expr? = some r) : ExprAt (.node i ty (.binOp op) [left, right] [] []) (.binOp op l r)
  | call {i : NodeId} {ty : Option Ty} {f : Tree} {callee : Callee} {args : List Tree} {es : List Expr}
      (hf : f.callee? = some callee) (ha : Tree.exprs? args = some es) :
      ExprAt (.node i ty .call (f :: args) [] []) (.call callee es)

namespace Tree

variable {t : Tree} {ts us : List Tree} {e : Expr} {es es' : List Expr} {c : Catalog} {ν : NodeId}

theorem exprAt_of_expr? (h : t.expr? = some e) : ExprAt t e := by
  unfold expr? at h
  split at h
  · cases h
    exact .int _
  · cases h
    exact .name _
  · cases h
    exact .member _
  · obtain ⟨v, hv, h⟩ := Option.bind_eq_some_iff.1 h
    split at h
    · obtain ⟨k, hk, h⟩ := Option.bind_eq_some_iff.1 h
      cases h
      exact .subscript hv hk
    · cases h
  · obtain ⟨l, hl, h⟩ := Option.bind_eq_some_iff.1 h
    obtain ⟨r, hr, h⟩ := Option.bind_eq_some_iff.1 h
    cases h
    exact .binOp hl hr
  · obtain ⟨callee, hf, h⟩ := Option.bind_eq_some_iff.1 h
    obtain ⟨es, ha, h⟩ := Option.bind_eq_some_iff.1 h
    cases h
    exact .call hf ha
  · cases h

theorem expr?_binOp {i : NodeId} {ty : Option Ty} {u : Tree} {d : Expr} (op : BinOp) (ht : t.expr? = some d)
    (hu : u.expr? = some e) : (Tree.node i ty (.binOp op) [t, u] [] []).expr? = some (.binOp op d e) := by
  rw [expr?, ht, hu]
  rfl

theorem exprs?_cons (h : exprs? (t :: ts) = some es) :
    ∃ e es', t.expr? = some e ∧ exprs? ts = some es' ∧ es = e :: es' := by
  rw [exprs?] at h
  obtain ⟨e, he, h⟩ := Option.bind_eq_some_iff.1 h
  obtain ⟨es', hes, h⟩ := Option.bind_eq_some_iff.1 h
  cases h
  exact ⟨e, es', he, hes, rfl⟩

theorem exprs?_of_cons (h : t.expr? = some e) (hs : exprs? ts = some es) : exprs? (t :: ts) = some (e :: es) := by
  rw [exprs?, h, hs]
  rfl

theorem exprs?_singleton : exprs? [t] = some es ↔ ∃ e, t.expr? = some e ∧ es = [e] := by
  constructor
  · intro h
    obtain ⟨e, es', he, hnil, rfl⟩ := exprs?_cons h
    cases hnil
    exact ⟨e, he, rfl⟩
  · rintro ⟨e, he, rfl⟩
    exact exprs?_of_cons he rfl

theorem exprs?_append (h : exprs? ts = some es) (hs : exprs? us = some es') :
    exprs? (ts ++ us) = some (es ++ es') := by
  induction ts generalizing es with
  | nil =>
    cases h
    exact hs
  | cons t ts ih =>
    obtain ⟨e, es, he, hes, rfl⟩ := exprs?_cons h
    exact exprs?_of_cons he (ih hes)

theorem length_of_exprs? (h : exprs? ts = some es) : es.length = ts.length := by
  induction ts generalizing es with
  | nil =>
    cases h
    rfl
  | cons t ts ih =>
    obtain ⟨e, es, he, hes, rfl⟩ := exprs?_cons h
    simp [ih hes]

theorem stmts?_cons {ps : List Stmt} (h : stmts? (t :: ts) = some ps) :
    ∃ p ps', t.stmt? = some p ∧ stmts? ts = some ps' ∧ ps = p :: ps' := by
  rw [stmts?] at h
  obtain ⟨p, hp, h⟩ := Option.bind_eq_some_iff.1 h
  obtain ⟨ps', hps, h⟩ := Option.bind_eq_some_iff.1 h
  cases h
  exact ⟨p, ps', hp, hps, rfl⟩

theorem stmts?_of_cons {p : Stmt} {ps : List Stmt} (h : t.stmt? = some p) (hs : stmts? ts = some ps) :
    stmts? (t :: ts) = some (p :: ps) := by
  rw [stmts?, h, hs]
  rfl

theorem stmts?_append {ps qs : List Stmt} (h : stmts? ts = some ps) (hs : stmts? us = some qs) :
    stmts? (ts ++ us) = some (ps ++ qs) := by
  induction ts generalizing ps with
  | nil =>
    cases h
    exact hs
  | cons t ts ih =>
    obtain ⟨p, ps, hp, hps, rfl⟩ := stmts?_cons h
    exact stmts?_of_cons hp (ih hps)

theorem place?_eq_some {p : Place} (h : t.place? = some p) :
    (∃ x, t.expr? = some (.name x) ∧ p = .var x) ∨ ∃ x keys, t.expr? = some (.load x keys) ∧ p = .slot x keys := by
  unfold place? at h
  split at h
  · cases h
    exact .inl ⟨_, ‹_›, rfl⟩
  · cases h
    exact .inr ⟨_, _, ‹_›, rfl⟩
  · cases h

theorem local?_eq_some {x : String} (h : t.local? = some x) : t.expr? = some (.name x) := by
  obtain ⟨e, he, h⟩ := Option.bind_eq_some_iff.1 h
  cases e with
  | name y =>
    cases h
    exact he
  | int | load | binOp | call => cases h

/-- A load is read off a chain of subscripts around a member of `self`. -/
theorem load_of_expr? {x : String} {keys : List Expr} (h : t.expr? = some (.load x keys)) :
    (∀ c, t.reach c = c.find? x) ∧ exprs? (t.links.map Link.key) = some keys := by
  induction t generalizing keys with
  | step t ih =>
    cases exprAt_of_expr? h with
    | member => exact ⟨fun c => rfl, rfl⟩
    | @subscript i ty value key x keys k hv hk =>
      obtain ⟨hr, hl⟩ := ih value (by simp) hv
      refine ⟨hr, ?_⟩
      rw [links, List.map_append]
      exact exprs?_append hl (exprs?_of_cons hk rfl)

/-- What is no load reaches no variable. -/
theorem reach_of_expr? (h : t.expr? = some e) (he : e.isLoad = false) : t.reach c = none := by
  cases exprAt_of_expr? h with
  | member | subscript => cases he
  | int | name | binOp | call => rfl

end Tree

/-- How a statement of the source language is read off the top of a tree. -/
inductive StmtAt : Tree → Stmt → Prop where
  | assign {i : NodeId} {ty : Option Ty} {target value : Tree} {place : Place} {e : Expr}
      (ht : target.place? = some place) (hv : value.expr? = some e) :
      StmtAt (.node i ty .assign [target, value] [] []) (.assign place e)
  | augAssign {i : NodeId} {ty : Option Ty} {op : BinOp} {target value : Tree} {place : Place} {e : Expr}
      (ht : target.place? = some place) (hv : value.expr? = some e) :
      StmtAt (.node i ty (.augAssign op) [target, value] [] []) (.augAssign place op e)
  | ifElse {i : NodeId} {ty : Option Ty} {test : Tree} {body orelse : List Tree} {e : Expr} {ps qs : List Stmt}
      (ht : test.expr? = some e) (hb : Tree.stmts? body = some ps) (ho : Tree.stmts? orelse = some qs) :
      StmtAt (.node i ty .ifElse [test] body orelse) (.ifElse e ps qs)
  | forIn {i : NodeId} {ty : Option Ty} {target iter : Tree} {body : List Tree} {x : String} {e : Expr}
      {ps : List Stmt} (ht : target.expr? = some (.name x)) (hi : iter.expr? = some e)
      (hb : Tree.stmts? body = some ps) : StmtAt (.node i ty .forIn [target, iter] body []) (.forIn x e ps)
  | pass {i : NodeId} {ty : Option Ty} : StmtAt (.node i ty .pass [] [] []) .pass

/-! ## Complete accesses -/

/-- Whether an expression refers to the state variables as it should: loads have as many keys as the variable
takes, and no member is called that is a variable. -/
def Expr.fitsIn (c : Catalog) : Expr → Bool
  | .load x keys => (c.find? x).any (·.depth = keys.length)
  | .call (.member f) _ => (c.find? f).isNone
  | _ => true

/-- Whether all accesses in the expressions are complete. -/
def Expr.complete (c : Catalog) (es : List Expr) : Bool := (subsAll es).all (fitsIn c)

namespace Stmt

mutual

/-- Whether all accesses in a statement are complete, and it is one of the source language. -/
def complete (c : Catalog) : Stmt → Bool
  | .assign (.var _) value => Expr.complete c [value]
  | .assign (.slot x keys) value => Expr.complete c [.load x keys, value]
  | .augAssign (.var _) _ value => Expr.complete c [value]
  | .augAssign (.slot x keys) _ value => Expr.complete c [.load x keys, value]
  | .ifElse test body orelse => Expr.complete c [test] && completeAll c body && completeAll c orelse
  | .forIn _ iter body => Expr.complete c [iter] && completeAll c body
  | .pass => true
  | .read _ _ _ | .write _ _ _ => false

def completeAll (c : Catalog) : List Stmt → Bool
  | [] => true
  | p :: ps => complete c p && completeAll c ps

end

end Stmt

theorem Tree.stmtAt_of_stmt? {c : Catalog} {t : Tree} {p : Stmt} (h : t.stmt? = some p)
    (hc : p.complete c = true) :
    StmtAt t p := by
  unfold stmt? at h
  split at h
  · obtain ⟨place, ht, h⟩ := Option.bind_eq_some_iff.1 h
    obtain ⟨e, hv, h⟩ := Option.bind_eq_some_iff.1 h
    cases h
    exact .assign ht hv
  · obtain ⟨place, ht, h⟩ := Option.bind_eq_some_iff.1 h
    obtain ⟨e, hv, h⟩ := Option.bind_eq_some_iff.1 h
    cases h
    exact .augAssign ht hv
  · obtain ⟨e, ht, h⟩ := Option.bind_eq_some_iff.1 h
    obtain ⟨ps, hb, h⟩ := Option.bind_eq_some_iff.1 h
    obtain ⟨qs, ho, h⟩ := Option.bind_eq_some_iff.1 h
    cases h
    exact .ifElse ht hb ho
  · obtain ⟨x, ht, h⟩ := Option.bind_eq_some_iff.1 h
    obtain ⟨e, hi, h⟩ := Option.bind_eq_some_iff.1 h
    obtain ⟨ps, hb, h⟩ := Option.bind_eq_some_iff.1 h
    cases h
    exact .forIn (local?_eq_some ht) hi hb
  · cases h
    exact .pass
  · obtain ⟨x, -, h⟩ := Option.bind_eq_some_iff.1 h
    obtain ⟨y, -, h⟩ := Option.bind_eq_some_iff.1 h
    obtain ⟨es, -, h⟩ := Option.bind_eq_some_iff.1 h
    cases h
    cases hc
  · obtain ⟨es, -, h⟩ := Option.bind_eq_some_iff.1 h
    obtain ⟨x, -, h⟩ := Option.bind_eq_some_iff.1 h
    obtain ⟨e, -, h⟩ := Option.bind_eq_some_iff.1 h
    cases h
    cases hc
  · cases h

theorem Expr.complete_cons {c : Catalog} {e : Expr} {es : List Expr} :
    complete c (e :: es) = true ↔ e.fitsIn c = true ∧ complete c e.args = true ∧ complete c es = true := by
  simp [complete, subsAll_cons]

theorem Catalog.name_of_find? {c : Catalog} {x : String} {v : StorageVar} (h : c.find? x = some v) :
    v.name = x := by
  simpa using List.find?_some h

/-- A callee that is no state variable does not refer to storage. -/
theorem Tree.clean_of_callee? {c : Catalog} {t : Tree} {f : Callee} {args : List Expr} (h : t.callee? = some f)
    (hc : (Expr.call f args).fitsIn c = true) : t.Clean c := by
  unfold callee? at h
  split at h
  · exact all_leaf.2 rfl
  · cases h
    refine all_iff.2 ⟨Option.isNone_iff_eq_none.1 hc, fun k hk => ?_⟩
    obtain rfl := List.mem_singleton.1 hk
    exact all_leaf.2 rfl
  · cases h

/-! ## Expressions -/

open Stmt (binds)

/-- The statements bind temporaries with identities in the trees. -/
def BoundIn (ts : List Tree) (ss : List Stmt) : Prop :=
  ∃ is : List NodeId, binds ss = is.map tempName ∧ is.Sublist (ts.flatMap Tree.ids)

theorem BoundIn.append {ts us : List Tree} {ss ss' : List Stmt} (h : BoundIn ts ss) (h' : BoundIn us ss') :
    BoundIn (ts ++ us) (ss ++ ss') := by
  obtain ⟨is, hb, hs⟩ := h
  obtain ⟨is', hb', hs'⟩ := h'
  refine ⟨is ++ is', by rw [Stmt.binds_append, hb, hb', List.map_append], ?_⟩
  rw [List.flatMap_append]
  exact hs.append hs'

theorem Tree.Alike.eq_node {t t' : Tree} (h : t.Alike t') (hb : t.body = []) (ho : t.orelse = []) :
    t' = .node t.id t.ty t.label t'.kids [] [] := by
  obtain ⟨i, ty, l, hs, bs, os⟩ := t
  obtain ⟨i', ty', l', hs', bs', os'⟩ := t'
  obtain ⟨rfl, rfl, rfl, -, h2, h3⟩ := h
  obtain rfl : bs = [] := hb
  obtain rfl : os = [] := ho
  obtain rfl : bs' = [] := List.length_eq_zero_iff.1 h2
  obtain rfl : os' = [] := List.length_eq_zero_iff.1 h3
  simp

theorem stmt?_readTree {i temp slot : NodeId} {v : StorageVar} {ty : Option Ty} {ks : List Tree} {xs : List Expr}
    (h : Tree.exprs? ks = some xs) : (readTree i temp slot v ty ks).stmt? =
      some (.read (tempName temp) v.slotName xs) := by
  rw [readTree, Tree.stmt?, h]
  rfl

theorem boundIn_readTree {i temp slot : NodeId} {v : StorageVar} {ty : Option Ty} {ks : List Tree}
    (xs : List Expr) : BoundIn [readTree i temp slot v ty ks] [.read (tempName temp) v.slotName xs] :=
  ⟨[temp], rfl, List.singleton_sublist.2 (by simp [readTree, tempLeaf, Tree.leaf, Tree.ids, Tree.idsAll])⟩

namespace Hoisted

variable {c : Catalog} {ν : NodeId} {t : Tree} {ts ts' es : List Tree}

/-- A chain that is too short stands in a longer one. -/
theorem not_short (h : Hoisted c ν (t :: ts) es ts') {x : String} {keys : List Expr}
    (ht : t.expr? = some (.load x keys)) {v : StorageVar} (hv : c.find? x = some v) : ¬ keys.length < v.depth := by
  induction t generalizing ts es ts' keys with
  | step t ih =>
    cases h with
    | access i temp slot read hnew ha hk hts =>
      obtain ⟨hr, hl⟩ := Tree.load_of_expr? ht
      obtain ⟨hreach, hd⟩ := Tree.access?_eq_some_iff.1 ha
      rw [hr, hv] at hreach
      cases hreach
      have hlen := Tree.length_of_exprs? hl
      rw [List.length_map] at hlen
      omega
    | inner hr ha hk hts =>
      cases Tree.exprAt_of_expr? ht with
      | member => cases hv.symm.trans hr
      | @subscript i ty value key x keys k hvalue hkey =>
        rw [List.length_append]
        exact fun h => ih value (by simp) hk hvalue (Nat.lt_of_le_of_lt (Nat.le_add_right ..) h)

/-- **Hoisting is lifting.** In front of the expressions there may be trees that do not refer to storage. -/
theorem lift_append (h : Hoisted c ν ts es ts') {us vs : List Tree} (hts : ts = us ++ vs)
    (hus : ∀ u ∈ us, u.Clean c) {xs : List Expr} (hxs : Tree.exprs? vs = some xs)
    (hc : Expr.complete c xs = true) :
    ∃ vs' xs' ss, ts' = us ++ vs' ∧ Tree.exprs? vs' = some xs' ∧ Tree.stmts? es = some ss ∧ Lift xs ss xs' ∧
      BoundIn es ss := by
  induction h generalizing us vs xs with
  | nil =>
    obtain ⟨rfl, rfl⟩ := List.append_eq_nil_iff.1 hts.symm
    cases hxs
    exact ⟨[], [], [], rfl, rfl, rfl, .nil, [], rfl, .slnil⟩
  | @access t v es ks ts es' ts' i temp slot read hnew ht hk hts' ihk ihts =>
    rcases List.cons_eq_append_iff.1 hts with ⟨rfl, rfl⟩ | ⟨us, rfl, rfl⟩
    · obtain ⟨e, xs, he, hrs, rfl⟩ := Tree.exprs?_cons hxs
      obtain ⟨hfit, hargs, hrest⟩ := Expr.complete_cons.1 hc
      obtain ⟨hreach, hd⟩ := Tree.access?_eq_some_iff.1 ht
      cases e with
      | int | name | binOp | call =>
        rw [Tree.reach_of_expr? he rfl] at hreach
        cases hreach
      | load x keys =>
        obtain ⟨hr, hkeys⟩ := Tree.load_of_expr? he
        rw [hr] at hreach
        obtain ⟨ks, ys, ss, rfl, hks, hss, hlift, hb⟩ := @ihk [] _ rfl (by simp) _ hkeys hargs
        obtain ⟨ts', zs, ss', rfl, hts', hss', hlift', hb'⟩ := @ihts [] _ rfl (by simp) _ hrs hrest
        refine ⟨_, _, _, rfl, Tree.exprs?_of_cons rfl hts', Tree.stmts?_append hss (Tree.stmts?_of_cons
          (stmt?_readTree hks) hss'), ?_, hb.append ((boundIn_readTree _).append hb')⟩
        rw [StorageVar.slotName, Catalog.name_of_find? hreach]
        exact hlift.load hlift'
    · rw [(hus t List.mem_cons_self).access?] at ht
      cases ht
  | @inner t t' es ts es' ts' ht ha hk hts' ihk ihts =>
    rcases List.cons_eq_append_iff.1 hts with ⟨rfl, rfl⟩ | ⟨us, rfl, rfl⟩
    · obtain ⟨e, xs, he, hrs, rfl⟩ := Tree.exprs?_cons hxs
      obtain ⟨hfit, hargs, hrest⟩ := Expr.complete_cons.1 hc
      obtain ⟨ts', zs, ss', rfl, hts', hss', hlift', hb'⟩ := @ihts [] _ rfl (by simp) _ hrs hrest
      -- it is enough to deal with the first tree
      suffices hhead : ∃ ss args', e.isLoad = false ∧ t'.expr? = some (e.withArgs args') ∧
          Tree.stmts? es = some ss ∧ Lift e.args ss args' ∧ BoundIn es ss by
        obtain ⟨ss, args', hl, he', hss, hlift, hb⟩ := hhead
        exact ⟨_, _, _, rfl, Tree.exprs?_of_cons he' hts', Tree.stmts?_append hss hss', hlift.inner hl hlift',
          hb.append hb'⟩
      cases Tree.exprAt_of_expr? he with
      | int value =>
        obtain ⟨rfl, hkids⟩ := hk.eq_of_clean (by simp)
        refine ⟨[], [], rfl, ?_, rfl, .nil, [], rfl, .slnil⟩
        rw [ha.eq_node rfl rfl, hkids]
        rfl
      | name x =>
        obtain ⟨rfl, hkids⟩ := hk.eq_of_clean (by simp)
        refine ⟨[], [], rfl, ?_, rfl, .nil, [], rfl, .slnil⟩
        rw [ha.eq_node rfl rfl, hkids]
        rfl
      | member x =>
        rw [Expr.fitsIn, show c.find? x = none from ht] at hfit
        cases hfit
      | @subscript i ty value key x keys k hv hkey =>
        rw [Expr.fitsIn] at hfit
        cases hfind : c.find? x with
        | none =>
          rw [hfind] at hfit
          cases hfit
        | some v =>
          have hd : v.depth = keys.length + 1 := by simpa [hfind] using hfit
          exact absurd (by omega) (not_short hk hv hfind)
      | @binOp i ty op left right l r hl hr =>
        obtain ⟨ks, ys, ss, hkids, hks, hss, hlift, hb⟩ := @ihk [] _ rfl (by simp) _
          (Tree.exprs?_of_cons hl (Tree.exprs?_of_cons hr rfl)) hargs
        refine ⟨ss, ys, rfl, ?_, hss, hlift, hb⟩
        obtain ⟨left', right', rfl⟩ := List.length_eq_two.1
          ((Tree.length_of_exprs? hks).symm.trans hlift.length_eq)
        obtain ⟨l', zs, hl', hzs, rfl⟩ := Tree.exprs?_cons hks
        obtain ⟨r', hr', rfl⟩ := Tree.exprs?_singleton.1 hzs
        rw [ha.eq_node rfl rfl, hkids]
        exact Tree.expr?_binOp op hl' hr'
      | @call i ty f callee args zs hf ha' =>
        obtain ⟨ks, ys, ss, hkids, hks, hss, hlift, hb⟩ := @ihk [f] args (by simp)
          (by simpa using Tree.clean_of_callee? hf hfit) _ ha' hargs
        refine ⟨ss, ys, rfl, ?_, hss, hlift, hb⟩
        rw [ha.eq_node rfl rfl, hkids]
        show (do return Expr.call (← f.callee?) (← Tree.exprs? ks)) = _
        rw [hf, hks]
        rfl
    · obtain ⟨hes, heq⟩ := eq_of_clean (inner ht ha hk .nil) (by simpa using hus t List.mem_cons_self)
      obtain ⟨vs', xs', ss, rfl, hvs, hss, hl, hb⟩ :=
        ihts rfl (fun u hu => hus u (List.mem_cons_of_mem _ hu)) hxs hc
      rw [List.append_nil] at hes
      obtain rfl := hes
      obtain rfl := (List.cons.inj heq).1
      exact ⟨vs', xs', ss, rfl, hvs, hss, hl, hb⟩

theorem lift (h : Hoisted c ν ts es ts') {xs : List Expr} (hxs : Tree.exprs? ts = some xs)
    (hc : Expr.complete c xs = true) :
    ∃ xs' ss, Tree.exprs? ts' = some xs' ∧ Tree.stmts? es = some ss ∧ Lift xs ss xs' ∧ BoundIn es ss := by
  obtain ⟨ts', xs', ss, rfl, h⟩ := @lift_append c ν ts ts' es h [] ts rfl (by simp) xs hxs hc
  exact ⟨xs', ss, h⟩

end Hoisted

end ContractTree
