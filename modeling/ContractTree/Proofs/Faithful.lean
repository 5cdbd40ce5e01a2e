import ContractTree.Proofs.Denote

/-!
What the walk does to a function is lowering on the program that the function stands for: `Walked.lowered`.
-/

namespace ContractTree

open Stmt (binds)

theorem isTemp_tempName (i : NodeId) : IsTemp (tempName i) := by
  rw [IsTemp, tempName, String.toList_append]
  exact List.prefix_append _ _

/-- Temporaries with identities in trees that share no node are distinct. -/
theorem BoundIn.temps {ts : List Tree} {ss : List Stmt} (h : BoundIn ts ss) (hn : (ts.flatMap Tree.ids).Nodup) :
    Temps (binds ss) := by
  obtain ⟨is, hb, hs⟩ := h
  rw [hb]
  refine ⟨(hn.sublist hs).map tempName_injective, fun x hx => ?_⟩
  obtain ⟨i, -, rfl⟩ := List.mem_map.1 hx
  exact isTemp_tempName i

/-! ## Expressions -/

/-- Whether a tree has no statements in it. -/
def Tree.IsExpr (t : Tree) : Prop :=
  t.All fun u => u.body = [] ∧ u.orelse = [] ∧ u.label ≠ .assign ∧ ∀ op, u.label ≠ .augAssign op

theorem Tree.expr?_of_mem {ts : List Tree} {es : List Expr} (h : exprs? ts = some es) {t : Tree} (ht : t ∈ ts) :
    ∃ e, t.expr? = some e := by
  induction ts generalizing es with
  | nil => cases ht
  | cons u ts ih =>
    obtain ⟨e, es, he, hes, rfl⟩ := exprs?_cons h
    rcases List.mem_cons.1 ht with rfl | ht
    · exact ⟨e, he⟩
    · exact ih hes ht

theorem Tree.isExpr_of_expr? {t : Tree} {e : Expr} (h : t.expr? = some e) : t.IsExpr := by
  induction t generalizing e with
  | step t ih =>
    cases exprAt_of_expr? h with
    | int | name => exact all_leaf.2 (by simp [leaf])
    | member =>
      refine all_iff.2 ⟨by simp, fun k hk => ih k hk (e := .name "self") ?_⟩
      obtain rfl := List.mem_singleton.1 hk
      rfl
    | subscript hv hk =>
      refine all_iff.2 ⟨by simp, fun k hk' => ?_⟩
      simp only [kids_node, List.append_nil, List.mem_cons, List.not_mem_nil, or_false] at hk'
      rcases hk' with rfl | rfl
      · exact ih _ (by simp) hv
      · exact ih _ (by simp) hk
    | binOp hl hr =>
      refine all_iff.2 ⟨by simp, fun k hk' => ?_⟩
      simp only [kids_node, List.append_nil, List.mem_cons, List.not_mem_nil, or_false] at hk'
      rcases hk' with rfl | rfl
      · exact ih _ (by simp) hl
      · exact ih _ (by simp) hr
    | @call i ty f callee args es hf ha =>
      refine all_iff.2 ⟨by simp, fun k hk => ?_⟩
      simp only [kids_node, List.append_nil, List.mem_cons] at hk
      rcases hk with rfl | hk
      · unfold callee? at hf
        split at hf
        · exact ih _ (by simp) (e := .name _) rfl
        · exact ih _ (by simp) (e := .load _ []) rfl
        · cases hf
      · obtain ⟨e, he⟩ := expr?_of_mem ha hk
        exact ih k (by simp [hk]) he

theorem Walked.hoisted {c : Catalog} {ν : NodeId} {ts es ts' : List Tree} (h : Walked c ν false ts es ts')
    (hx : ∀ t ∈ ts, t.IsExpr) :
    Hoisted c ν ts es ts' := by
  generalize hb : false = inList at h
  induction h with
  | nil => exact .nil
  | rewrite ht hts ih =>
    have hrest := ih (fun t ht => hx t (List.mem_cons_of_mem _ ht)) hb
    cases ht with
    | read i temp ty ht h => exact h.cons hrest
    | store h =>
      cases h
      exact absurd rfl (hx _ List.mem_cons_self).top.2.2.1
    | combine h =>
      cases h
      exact absurd rfl ((hx _ List.mem_cons_self).top.2.2.2 _)
  | @inner i ty l hs bs os es hs' bs' os' ts es' ts' hr ht hh hb' ho hts ihh ihb iho ihts =>
    have hkids : ∀ k ∈ hs, k.IsExpr := fun k hk => (hx _ List.mem_cons_self).kid (by simp [hk])
    obtain ⟨hbs, hos, -, -⟩ := (hx _ List.mem_cons_self).top
    obtain rfl : bs = [] := hbs
    obtain rfl : os = [] := hos
    obtain ⟨-, rfl⟩ := hb'.eq_of_clean (by simp)
    obtain ⟨-, rfl⟩ := ho.eq_of_clean (by simp)
    refine .inner hr ⟨rfl, rfl, rfl, hh.length_eq, rfl, rfl⟩ ?_
      (ihts (fun t ht => hx t (List.mem_cons_of_mem _ ht)) hb)
    simpa using ihh hkids rfl
  | stmt => cases hb

theorem Hoisted.lift_one {c : Catalog} {ν : NodeId} {t t' : Tree} {es : List Tree} {e : Expr}
    (h : Hoisted c ν [t] es [t']) (he : t.expr? = some e) (hc : Expr.complete c [e] = true) :
    ∃ e' ss, t'.expr? = some e' ∧ Tree.stmts? es = some ss ∧ Lift [e] ss [e'] ∧ BoundIn es ss := by
  obtain ⟨xs, ss, hxs, hss, hl, hb⟩ := h.lift (Tree.exprs?_singleton.2 ⟨e, he, rfl⟩) hc
  obtain ⟨e', he', rfl⟩ := Tree.exprs?_singleton.1 hxs
  exact ⟨e', ss, he', hss, hl, hb⟩

theorem Walked.lift {c : Catalog} {ν : NodeId} {ts es ts' : List Tree} {xs : List Expr}
    (h : Walked c ν false ts es ts') (hxs : Tree.exprs? ts = some xs) (hc : Expr.complete c xs = true) :
    ∃ xs' ss, Tree.exprs? ts' = some xs' ∧ Tree.stmts? es = some ss ∧ Lift xs ss xs' ∧ BoundIn es ss := by
  refine (h.hoisted fun t ht => ?_).lift hxs hc
  obtain ⟨e, he⟩ := Tree.expr?_of_mem hxs ht
  exact Tree.isExpr_of_expr? he

/-! ## Stores -/

section Stores

variable {c : Catalog} {ν : NodeId} {t t' : Tree} {es ks bs rs ws : List Tree} {i temp slot : NodeId}
  {ty : Option Ty} {v : StorageVar} {x : Tree} {e : Expr} {xs : List Expr} {p : Stmt}

theorem stmt?_writeTree (hk : Tree.exprs? ks = some xs) (hx : x.expr? = some e) :
    (writeTree i slot v ty ks x).stmt? = some (.write v.slotName xs e) := by
  have hall := Tree.exprs?_append hk (Tree.exprs?_singleton.2 ⟨e, hx, rfl⟩)
  rw [writeTree, Tree.stmt?, hall]
  simp [Tree.local?, slotLeaf, Tree.leaf, Tree.expr?, Expr.name?]

theorem stmt?_assignTree (hx : x.expr? = some e) :
    (assignTree i (tempLeaf temp ty) x).stmt? = some (.assign (.var (tempName temp)) e) := by
  rw [assignTree, Tree.stmt?, hx]
  rfl

theorem boundIn_assignTree (e : Expr) : BoundIn [assignTree i (tempLeaf temp ty) x]
    [.assign (.var (tempName temp)) e] :=
  ⟨[temp], rfl, List.singleton_sublist.2 (by simp [assignTree, tempLeaf, Tree.leaf, Tree.ids, Tree.idsAll])⟩

/-- A target that is an access stands for a slot. -/
theorem Tree.slot_of_access {place : Place} (ht : t.access? c = some v) (hp : t.place? = some place) :
    ∃ keys, place = .slot v.name keys ∧ t.expr? = some (.load v.name keys) ∧
      exprs? (t.links.map Link.key) = some keys := by
  obtain ⟨hreach, -⟩ := access?_eq_some_iff.1 ht
  rcases place?_eq_some hp with ⟨x, he, rfl⟩ | ⟨x, keys, he, rfl⟩
  · rw [reach_of_expr? he rfl] at hreach
    cases hreach
  · obtain ⟨hr, hk⟩ := load_of_expr? he
    rw [hr] at hreach
    obtain rfl := Catalog.name_of_find? hreach
    exact ⟨keys, rfl, he, hk⟩

theorem Stored.lowered (h : Stored c ν t es t') (hp : t.stmt? = some p) (hc : p.complete c = true)
    (hn : (es.flatMap Tree.ids).Nodup) :
    ∃ qs q, Tree.stmts? es = some qs ∧ t'.stmt? = some q ∧ Lowered [p] (qs ++ [q]) := by
  obtain ⟨bind, temp, slot, operand, write, -, ht, hval, hks⟩ := h
  cases Tree.stmtAt_of_stmt? hp hc with
  | @assign i ty target value place e hplace hv =>
    obtain ⟨keys, rfl, htarget, hkeys⟩ := Tree.slot_of_access ht hplace
    obtain ⟨-, hck, hcv⟩ := Expr.complete_cons.1 hc
    obtain ⟨e', ss, he', hss, hl, hb⟩ := hval.lift_one hv hcv
    obtain ⟨keys', ss', hkeys', hss', hl', hb'⟩ := hks.lift hkeys hck
    refine ⟨_, _, Tree.stmts?_append (Tree.stmts?_append hss hss')
      (Tree.stmts?_of_cons (stmt?_assignTree he') rfl), stmt?_writeTree hkeys' rfl, ?_⟩
    have htemps := ((hb.append hb').append (boundIn_assignTree e')).temps hn
    rw [Stmt.binds_append] at htemps
    simpa [StorageVar.slotName] using Lowered.assignSlot (hl.cons hl') htemps .nil

theorem SharedAll.share (h : SharedAll ν ks bs rs ws) (hk : Tree.exprs? ks = some xs) :
    ∃ ss ys, Tree.stmts? bs = some ss ∧ Tree.exprs? rs = some ys ∧ Tree.exprs? ws = some ys ∧ Share xs ss ys ∧
      BoundIn bs ss := by
  induction h generalizing xs with
  | nil =>
    cases hk
    exact ⟨[], [], rfl, rfl, rfl, .nil, [], rfl, .slnil⟩
  | @cons k r w bs ks bs' rs ws hone hs ih =>
    obtain ⟨e, xs, he, hxs, rfl⟩ := Tree.exprs?_cons hk
    obtain ⟨ss, ys, hss, hrs, hws, hsh, hb⟩ := ih hxs
    cases hone with
    | @atom i ty l copy hnew hl =>
      have hcopy : (Tree.leaf copy ty l).expr? = some e ∧ Expr.reads [e] = false ∧ Expr.calls [e] = false := by
        cases Tree.exprAt_of_expr? he with
        | int | name => exact ⟨rfl, rfl, rfl⟩
      exact ⟨ss, e :: ys, hss, Tree.exprs?_of_cons he hrs, Tree.exprs?_of_cons hcopy.1 hws,
        .copied hcopy.2.1 hcopy.2.2 hsh, hb⟩
    | bound bind temp forRead forWrite hnew hl =>
      exact ⟨_, _, Tree.stmts?_of_cons (stmt?_assignTree he) hss, Tree.exprs?_of_cons rfl hrs,
        Tree.exprs?_of_cons rfl hws, .bound hsh, (boundIn_assignTree e).append hb⟩

theorem Combined.lowered (h : Combined c ν t es t') (hp : t.stmt? = some p) (hc : p.complete c = true)
    (hn : (es.flatMap Tree.ids).Nodup) :
    ∃ qs q, Tree.stmts? es = some qs ∧ t'.stmt? = some q ∧ Lowered [p] (qs ++ [q]) := by
  cases h with
  | @mk i ty op target value value' v e₁ e₂ ks bs rs ws current combined readSlot writeSlot read currentRef
      combination compute combinedRef write _ ht hval hks hsh =>
    obtain ⟨place, e, hplace, hv, rfl⟩ : ∃ place e, target.place? = some place ∧ value.expr? = some e ∧
        p = .augAssign place op e := by
      cases Tree.stmtAt_of_stmt? hp hc with
      | augAssign hplace hv => exact ⟨_, _, hplace, hv, rfl⟩
    obtain ⟨keys, rfl, htarget, hkeys⟩ := Tree.slot_of_access ht hplace
    obtain ⟨-, hck, hcv⟩ := Expr.complete_cons.1 hc
    obtain ⟨e', ss, he', hss, hl, hb⟩ := hval.lift_one hv hcv
    obtain ⟨keys', ss', hkeys', hss', hl', hb'⟩ := hks.lift hkeys hck
    obtain ⟨ds, ys, hds, hrs, hws, hshare, hb''⟩ := hsh.share hkeys'
    refine ⟨_, _, Tree.stmts?_append (Tree.stmts?_append (Tree.stmts?_append hss hss') hds) (Tree.stmts?_of_cons
      (stmt?_readTree hrs) (Tree.stmts?_of_cons (stmt?_assignTree (Tree.expr?_binOp op rfl he')) rfl)),
        stmt?_writeTree hws rfl, ?_⟩
    have htemps := (((hb.append hb').append hb'').append ((boundIn_readTree ys).append
      (boundIn_assignTree (.binOp op (.name (tempName current)) e')))).temps hn
    simp only [Stmt.binds_append] at htemps
    simpa [StorageVar.slotName] using Lowered.augSlot hl hl' hshare htemps .nil

end Stores

/-! ## Statements -/

/-- What is walked in a statement list is lowered. -/
def LowersList (c : Catalog) (ts ts' : List Tree) : Prop :=
  ∀ ps, Tree.stmts? ts = some ps → Stmt.completeAll c ps = true → ∃ ps', Tree.stmts? ts' = some ps' ∧
    Lowered ps ps'

/-- What is walked in the place of one statement is lowered, with statements in front. -/
def LowersOne (c : Catalog) (ts es ts' : List Tree) : Prop :=
  ∀ t p, ts = [t] → t.stmt? = some p → p.complete c = true →
    ∃ t' qs q, ts' = [t'] ∧ Tree.stmts? es = some qs ∧ t'.stmt? = some q ∧ Lowered [p] (qs ++ [q])

/-- A target that is walked on its own names a local. -/
theorem Tree.var_of_reach {c : Catalog} {t : Tree} {place : Place} {e : Expr} (hr : t.reach c = none)
    (hp : t.place? = some place) (hc : ∀ x keys, place = .slot x keys → Expr.complete c [.load x keys, e] = true) :
    ∃ x, place = .var x ∧ t.expr? = some (.name x) := by
  rcases place?_eq_some hp with ⟨x, he, rfl⟩ | ⟨x, keys, he, rfl⟩
  · exact ⟨x, rfl, he⟩
  · obtain ⟨hfit, -⟩ := Expr.complete_cons.1 (hc x keys rfl)
    rw [(load_of_expr? he).1] at hr
    rw [Expr.fitsIn, hr] at hfit
    cases hfit

theorem Walked.lift_second {c : Catalog} {ν : NodeId} {target value : Tree} {es hs : List Tree} {x : String}
    {e : Expr} (h : Walked c ν false [target, value] es hs) (ht : target.expr? = some (.name x))
    (hv : value.expr? = some e) (hc : Expr.complete c [e] = true) :
    ∃ target' value' e' ss, hs = [target', value'] ∧ target'.expr? = some (.name x) ∧
      value'.expr? = some e' ∧ Tree.stmts? es = some ss ∧ Lift [e] ss [e'] ∧ BoundIn es ss := by
  obtain ⟨xs, ss, hxs, hss, hboth, hb⟩ := h.lift (Tree.exprs?_of_cons ht (Tree.exprs?_singleton.2 ⟨e, hv, rfl⟩))
    (Expr.complete_cons.2 ⟨rfl, rfl, hc⟩)
  obtain ⟨ys, rfl, hl⟩ := hboth.name_cons
  obtain ⟨target', value', rfl⟩ := List.length_eq_two.1 h.length_eq
  obtain ⟨_, zs, ht', hzs, heq⟩ := Tree.exprs?_cons hxs
  obtain ⟨e', hv', rfl⟩ := Tree.exprs?_singleton.1 hzs
  cases heq
  exact ⟨target', value', e', ss, rfl, ht', hv', hss, hl, hb⟩

theorem Walked.lowersOne_inner {c : Catalog} {ν i : NodeId} {ty : Option Ty} {l : Label}
    {hs bs os es hs' bs' os' : List Tree} (ht : (l = .assign ∨ ∃ op, l = .augAssign op) →
      ∀ target ∈ hs.head?, target.reach c = none)
    (hh : Walked c ν false hs es hs') (hb : Walked c ν true bs [] bs') (ho : Walked c ν true os [] os')
    (hlb : LowersList c bs bs') (hlo : LowersList c os os') (hn : (es.flatMap Tree.ids).Nodup) :
    LowersOne c [.node i ty l hs bs os] es [.node i ty l hs' bs' os'] := by
  rintro t p heq hp hc
  obtain rfl := (List.cons.inj heq).1
  suffices hstep : ∃ qs q, Tree.stmts? es = some qs ∧ (Tree.node i ty l hs' bs' os').stmt? = some q ∧
    Lowered [p] (qs ++ [q]) by
    obtain ⟨qs, q, h⟩ := hstep
    exact ⟨_, qs, q, rfl, h⟩
  cases Tree.stmtAt_of_stmt? hp hc with
  | @assign _ _ target value place e hplace hv =>
    obtain ⟨x, rfl, htarget⟩ := Tree.var_of_reach (e := e) (ht (.inl rfl) target rfl) hplace
      (by rintro x keys rfl; exact hc)
    obtain ⟨target', value', e', ss, rfl, ht', hv', hss, hl, hbound⟩ := hh.lift_second htarget hv hc
    obtain ⟨-, rfl⟩ := hb.eq_of_clean (by simp)
    obtain ⟨-, rfl⟩ := ho.eq_of_clean (by simp)
    refine ⟨ss, .assign (.var x) e', hss, ?_, by simpa using Lowered.assignVar hl (hbound.temps hn) .nil⟩
    rw [Tree.stmt?, Tree.place?, ht', hv']
    rfl
  | @augAssign _ _ op target value place e hplace hv =>
    obtain ⟨x, rfl, htarget⟩ := Tree.var_of_reach (e := e) (ht (.inr ⟨op, rfl⟩) target rfl) hplace
      (by rintro x keys rfl; exact hc)
    obtain ⟨target', value', e', ss, rfl, ht', hv', hss, hl, hbound⟩ := hh.lift_second htarget hv hc
    obtain ⟨-, rfl⟩ := hb.eq_of_clean (by simp)
    obtain ⟨-, rfl⟩ := ho.eq_of_clean (by simp)
    refine ⟨ss, .augAssign (.var x) op e', hss, ?_, by simpa using Lowered.augVar hl (hbound.temps hn) .nil⟩
    rw [Tree.stmt?, Tree.place?, ht', hv']
    rfl
  | @ifElse _ _ test body orelse e ps qs htest hbs hos =>
    simp only [Stmt.complete, Bool.and_eq_true] at hc
    obtain ⟨test', rfl⟩ := List.length_eq_one_iff.1 hh.length_eq
    obtain ⟨xs, ss, hxs, hss, hl, hbound⟩ := hh.lift (Tree.exprs?_singleton.2 ⟨e, htest, rfl⟩) hc.1.1
    obtain ⟨e', htest', rfl⟩ := Tree.exprs?_singleton.1 hxs
    obtain ⟨ps', hbs', hlb⟩ := hlb ps hbs hc.1.2
    obtain ⟨qs', hos', hlo⟩ := hlo qs hos hc.2
    refine ⟨ss, .ifElse e' ps' qs', hss, ?_, by simpa using Lowered.ifElse hl (hbound.temps hn) hlb hlo .nil⟩
    rw [Tree.stmt?, htest', hbs', hos']
    rfl
  | @forIn _ _ target iter body x e ps htarget hiter hbs =>
    simp only [Stmt.complete, Bool.and_eq_true] at hc
    obtain ⟨target', iter', e', ss, rfl, ht', hi', hss, hl, hbound⟩ := hh.lift_second htarget hiter hc.1
    obtain ⟨ps', hbs', hlb⟩ := hlb ps hbs hc.2
    obtain ⟨-, rfl⟩ := ho.eq_of_clean (by simp)
    refine ⟨ss, .forIn x e' ps', hss, ?_, by simpa using Lowered.forIn hl (hbound.temps hn) hlb .nil⟩
    rw [Tree.stmt?, Tree.local?, ht', hi', hbs']
    rfl
  | pass =>
    obtain ⟨rfl, rfl⟩ := hh.eq_of_clean (by simp)
    obtain ⟨-, rfl⟩ := hb.eq_of_clean (by simp)
    obtain ⟨-, rfl⟩ := ho.eq_of_clean (by simp)
    exact ⟨[], .pass, rfl, rfl, .pass .nil⟩

theorem Walked.lowered {c : Catalog} {ν : NodeId} {inList : Bool} {ts es ts' : List Tree}
    (h : Walked c ν inList ts es ts') (hn : ((es ++ ts').flatMap Tree.ids).Nodup) :
    (inList = true → LowersList c ts ts') ∧ (inList = false → LowersOne c ts es ts') := by
  induction h with
  | nil =>
    refine ⟨fun _ ps hps _ => ?_, fun _ t p h => by cases h⟩
    cases hps
    exact ⟨[], rfl, .nil⟩
  | @rewrite t t' es ts es' ts' ht hts ih =>
    refine ⟨fun h => (by cases h), fun _ u p heq hp hc => ?_⟩
    obtain ⟨rfl, rfl⟩ := List.cons.inj heq
    obtain ⟨rfl, rfl⟩ := hts.eq_of_clean (by simp)
    rw [List.append_nil] at hn ⊢
    have hes : (es.flatMap Tree.ids).Nodup := hn.sublist (by simp)
    cases ht with
    | read i temp ty hacc h =>
      have hreach : t.reach c = none := by cases Tree.stmtAt_of_stmt? hp hc <;> rfl
      rw [Tree.access?, hreach] at hacc
      cases hacc
    | store h =>
      obtain ⟨qs, q, h⟩ := h.lowered hp hc hes
      exact ⟨_, qs, q, rfl, h⟩
    | combine h =>
      obtain ⟨qs, q, h⟩ := h.lowered hp hc hes
      exact ⟨_, qs, q, rfl, h⟩
  | @inner i ty l hs bs os es hs' bs' os' ts es' ts' hr ht hh hb ho hts ihh ihb iho ihts =>
    refine ⟨fun h => (by cases h), fun _ t p heq hp hc => ?_⟩
    obtain ⟨rfl, rfl⟩ := List.cons.inj heq
    obtain ⟨rfl, rfl⟩ := hts.eq_of_clean (by simp)
    simp only [List.append_nil, List.flatMap_append, List.flatMap_cons, List.flatMap_nil,
      Tree.ids_eq (Tree.node ..), Tree.kids_node, List.nodup_append', List.nodup_cons] at hn ⊢
    obtain ⟨hes, ⟨-, ⟨-, hbs, -⟩, hos, -⟩, -⟩ := hn
    exact lowersOne_inner ht hh hb ho ((ihb hbs).1 rfl) ((iho hos).1 rfl) hes _ _ rfl hp hc
  | @stmt t t' es ts ts' ht hts iht ihts =>
    refine ⟨fun _ ps hps hc => ?_, fun h => (by cases h)⟩
    obtain ⟨p, ps, hp, hrs, rfl⟩ := Tree.stmts?_cons hps
    simp only [Stmt.completeAll, Bool.and_eq_true] at hc
    obtain ⟨u, qs, q, heq, hqs, hq, hone⟩ := (iht (hn.sublist (by simp))).2 rfl t p rfl hp hc.1
    obtain ⟨ps', hps', hrest⟩ := (ihts (hn.sublist (by simp))).1 rfl ps hrs hc.2
    cases heq
    refine ⟨_, Tree.stmts?_append hqs (Tree.stmts?_of_cons hq hps'), ?_⟩
    rw [List.append_cons]
    exact hone.cons hrest

end ContractTree
