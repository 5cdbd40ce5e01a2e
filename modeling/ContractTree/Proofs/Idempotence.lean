import ContractTree.Pipeline.Basic
import ContractTree.Proofs.Completeness
import ContractTree.Proofs.Consistency

/-!
The pass is idempotent. What it leaves of a module declares the same state variables, of other types
(`DeclWalked.stateVar?_same`), and every declaration that the new catalog lists has the type of a slot; so there is
nothing left to lower (`Lowering.Ran.clean`), and a walk over what there is nothing to lower in leaves the store as
it is.
-/

namespace ContractTree

/-! ## Catalogs that differ in types -/

/-- The same variable, but for its type. -/
structure StorageVar.Same (v v' : StorageVar) : Prop where
  name : v'.name = v.name
  decl : v'.decl = v.decl
  isPublic : v'.isPublic = v.isPublic

theorem StorageVar.Same.refl (v : StorageVar) : v.Same v := ⟨rfl, rfl, rfl⟩

namespace Catalog

/-- The same variables in the same order, but for their types. -/
abbrev Same (c c' : Catalog) : Prop := List.Forall₂ StorageVar.Same c c'

variable {c c' : Catalog} {v v' : StorageVar}

theorem Same.any_name (h : Same c c') (x : String) : c'.any (·.name = x) = c.any (·.name = x) := by
  induction h with
  | nil => rfl
  | cons hv _ ih => rw [List.any_cons, List.any_cons, ih, hv.name]

theorem Same.insert (h : Same c c') (hv : v.Same v') : Same (c.insert v) (c'.insert v') := by
  unfold Catalog.insert
  rw [hv.name, h.any_name]
  split
  · refine List.forall₂_map_left_iff.2 (List.forall₂_map_right_iff.2 (h.imp fun x x' hx => ?_))
    rw [hx.name]
    split
    · exact hv
    · exact hx
  · exact List.rel_append h (.cons hv .nil)

theorem Same.foldl_insert {vs vs' : List StorageVar} (hvs : List.Forall₂ StorageVar.Same vs vs') (h : Same c c') :
    Same (vs.foldl Catalog.insert c) (vs'.foldl Catalog.insert c') := by
  induction hvs generalizing c c' with
  | nil => exact h
  | cons hv _ ih => exact ih (h.insert hv)

theorem Same.find? (h : Same c c') {x : String} (hx : c.find? x = none) : c'.find? x = none := by
  rw [Catalog.find?, List.find?_eq_none] at hx ⊢
  have hany := h.any_name x
  simp only [List.any_eq_false.2 hx] at hany
  simpa using hany

theorem Same.declaredAt? (h : Same c c') {i : NodeId} (hi : c.declaredAt? i = none) : c'.declaredAt? i = none := by
  unfold Catalog.declaredAt? at hi ⊢
  induction h with
  | nil => rfl
  | cons hv _ ih =>
    rw [List.find?_cons] at hi ⊢
    rw [hv.decl]
    split at hi
    · cases hi
    · exact ih hi

end Catalog

theorem Tree.Clean.same {c c' : Catalog} {t : Tree} (h : t.Clean c) (hc : Catalog.Same c c') : t.Clean c' := by
  refine All.mono h fun u hu => ?_
  unfold Tree.receiver? at hu ⊢
  split
  · split
    · next hself =>
      simp only [if_pos hself] at hu
      exact hc.find? hu
    · rfl
  · rfl

/-! ## What the walk leaves of the declarations -/

/-- A walk that puts nothing in front keeps the top of the first tree. -/
theorem Walked.inv_nil {c : Catalog} {ν : NodeId} {t : Tree} {ts us : List Tree}
    (h : Walked c ν false (t :: ts) [] us) :
    ∃ hs' bs' os' ts', us = .node t.id t.ty t.label hs' bs' os' :: ts' ∧ Walked c ν false t.heads [] hs' := by
  generalize hes : ([] : List Tree) = es at h
  cases h with
  | rewrite ht hts => exact absurd (List.append_eq_nil_iff.1 hes.symm).1 ht.ne_nil
  | inner hr ht hh hb ho hts =>
    obtain ⟨h1, h2⟩ := List.append_eq_nil_iff.1 hes.symm
    subst h1 h2
    exact ⟨_, _, _, _, rfl, hh⟩

/-- A walk that puts nothing in front keeps what the tree declares. -/
theorem Walked.stateVar? {c : Catalog} {ν : NodeId} {t t' : Tree} (h : Walked c ν false [t] [] [t']) :
    t'.stateVar? = t.stateVar? := by
  obtain ⟨hs', bs', os', ts', heq, hh⟩ := h.inv_nil
  obtain ⟨rfl, -⟩ := List.cons.inj heq
  obtain ⟨i, ty, l, hs, bs, os⟩ := t
  cases hs with
  | nil =>
    obtain rfl : hs' = [] := List.length_eq_zero_iff.1 hh.length_eq
    simp [Tree.stateVar?]
  | cons x hs =>
    obtain ⟨_, _, _, _, rfl, -⟩ := hh.inv_nil
    obtain ⟨j, ty', l', hs₁, bs₁, os₁⟩ := x
    cases l with
    | variableDecl isPublic isConstant isImmutable => cases isConstant <;> cases isImmutable <;> cases l' <;> rfl
    | _ => rfl

namespace DeclWalked

variable {c c' : Catalog} {names : List String} {d d' : Tree} {gs : List Tree}

/-- What a declaration is walked to declares the same variable, if any. -/
theorem stateVar?_same (h : DeclWalked c ν names d gs d') (hd : d.Declarable) :
    Option.Rel StorageVar.Same d.stateVar? d'.stateVar? := by
  cases h with
  | kept hset hw =>
    rw [hw.stateVar?]
    cases d.stateVar? with
    | none => exact .none
    | some v => exact .some (.refl v)
  | @declared _ _ v hl hv hty hgs hfree hw =>
    rw [hw.stateVar?]
    cases hvar : d.stateVar? with
    | none =>
      have hnone : (d.declareSlot v).stateVar? = none := by
        by_contra hsome
        obtain ⟨v', hv'⟩ := Option.ne_none_iff_exists'.1 hsome
        refine hd ?_ hvar
        rw [← Tree.label_declareSlot (v := v)]
        exact Tree.label_of_stateVar? hv'
      rw [hnone]
      exact .none
    | some v' =>
      unfold Tree.stateVar? at hvar
      split at hvar
      · obtain ⟨declared, -, rfl⟩ := Option.map_eq_some_iff.1 hvar
        exact .some ⟨rfl, rfl, rfl⟩
      · cases hvar

theorem declarable (h : DeclWalked c ν names d gs d') (hd : d.Declarable) : d'.Declarable := by
  rintro ⟨isPublic, hl⟩
  rw [h.label] at hl
  have hsome := hd ⟨isPublic, hl⟩
  have hsame := h.stateVar?_same hd
  intro hnone
  rw [hnone] at hsame
  cases hvar : d.stateVar? with
  | none => exact hsome hvar
  | some v =>
    rw [hvar] at hsame
    cases hsame

/-- A declaration that has been walked has the type of a slot, if a catalog of the same variables lists it. -/
theorem declSettled (h : DeclWalked c ν names d gs d') (hf : d'.Fits) (hc : Catalog.Same c c') :
    d'.DeclSettled c' := by
  intro hl v' hv'
  cases h with
  | kept hset hw =>
    obtain ⟨hs', bs', os', ts', heq, -⟩ := hw.inv_nil
    obtain ⟨rfl, -⟩ := List.cons.inj heq
    cases hv : c.declaredAt? d.id with
    | none =>
      have := hc.declaredAt? hv
      rw [Tree.id_node, this] at hv'
      cases hv'
    | some v => exact hset hl v hv
  | @declared _ _ v hl' hv hty hgs hfree hw =>
    obtain ⟨hs', bs', os', ts', heq, hh⟩ := hw.inv_nil
    obtain ⟨rfl, -⟩ := List.cons.inj heq
    obtain ⟨a, b, e, hl⟩ := hl
    rw [Tree.label_node] at hl
    -- the declaration has a name, as what it was walked to has one
    have hpos : 0 < (d.declareSlot v).heads.length := by
      have := ((Tree.fits_iff _).1 hf).1
      rw [Tree.label_node, hl] at this
      rw [← hh.length_eq]
      exact this.1
    obtain ⟨i, ty, l, hs, bs, os⟩ := d
    cases hs with
    | nil => simp [Tree.declareSlot] at hpos
    | cons x hs => rfl

end DeclWalked

theorem Getter.declares_nothing {v : StorageVar} {g : Tree} (h : Getter v g) :
    g.stateVar? = none ∧ g.Declarable := by
  cases h
  exact ⟨rfl, by simp [Tree.Declarable]⟩

theorem carries_label {c : Catalog} : Carries c (fun u => u.label ≠ .module) fun u => u.label ≠ .module where
  keep _ h := h
  atom {i ty l} h := by
    rintro rfl
    cases h
  read _ _ := by simp [readTree]
  write _ _ := by simp [writeTree]
  assign := by simp [assignTree]
  binOp := by simp

namespace Rooted

variable {c c' : Catalog} {names : List String} {ds ds' : List Tree}

theorem declarable (h : Rooted c ν names ds ds') (hd : ∀ d ∈ ds, d.Declarable) : ∀ d ∈ ds', d.Declarable := by
  induction h with
  | nil => simp
  | @cons names d d' gs ds ds' hw hds ih =>
    refine List.forall_mem_cons.2 ⟨hw.declarable (hd d List.mem_cons_self), ih fun e he => ?_⟩
    rcases List.mem_append.1 he with he | he
    · exact hd e (List.mem_cons_of_mem _ he)
    · obtain ⟨v, -, hg⟩ := hw.getter_mem e he
      exact hg.declares_nothing.2

/-- What the walk leaves of the body declares the same variables. -/
theorem stateVars_same (h : Rooted c ν names ds ds') (hd : ∀ d ∈ ds, d.Declarable) :
    List.Forall₂ StorageVar.Same (ds.filterMap Tree.stateVar?) (ds'.filterMap Tree.stateVar?) := by
  induction h with
  | nil => exact .nil
  | @cons names d d' gs ds ds' hw hds ih =>
    have hg : ∀ g ∈ gs, g.stateVar? = none ∧ g.Declarable := fun g hg =>
      (hw.getter_mem g hg).elim fun v hgv => hgv.2.declares_nothing
    have hgs : gs.filterMap Tree.stateVar? = [] := List.filterMap_eq_nil_iff.2 fun g h => (hg g h).1
    have hrest : ∀ e ∈ ds ++ gs, e.Declarable := fun e he =>
      (List.mem_append.1 he).elim (fun he => hd e (List.mem_cons_of_mem _ he)) fun he => (hg e he).2
    have ih := ih hrest
    rw [List.filterMap_append, hgs, List.append_nil] at ih
    have hsame := hw.stateVar?_same (hd d List.mem_cons_self)
    rw [List.filterMap_cons, List.filterMap_cons]
    cases hv : d.stateVar? <;> cases hv' : d'.stateVar? <;> rw [hv, hv'] at hsame <;> cases hsame
    · exact ih
    · next h => exact .cons h ih

theorem catalogOf_same (h : Rooted c ν names ds ds') (hd : ∀ d ∈ ds, d.Declarable) :
    Catalog.Same (Tree.catalogOf ds) (Tree.catalogOf ds') := Catalog.Same.foldl_insert (h.stateVars_same hd) .nil

/-- The walk makes no module. -/
theorem no_module (h : Rooted c ν names ds ds') (hds : ∀ d ∈ ds, d.All fun u => u.label ≠ .module) :
    ∀ d ∈ ds', d.All fun u => u.label ≠ .module := by
  induction h with
  | nil => simp
  | @cons names d d' gs ds ds' hw hds' ih =>
    have hd := hds d List.mem_cons_self
    refine List.forall_mem_cons.2 ⟨?_, ih fun e he => ?_⟩
    · cases hw with
      | kept hset hw => exact (carries_label.walked hw (by simpa using hd)).1 d' List.mem_cons_self
      | declared hl hv hty hgs hfree hw =>
        exact (carries_label.walked hw (by simpa using hd.declareSlot fun _ hl hu => hl ▸ hu)).1 d'
          List.mem_cons_self
    · rcases List.mem_append.1 he with he | he
      · exact hds e (List.mem_cons_of_mem _ he)
      · obtain ⟨v, -, hg⟩ := hw.getter_mem e he
        exact hg.all ⟨by simp [Tree.leaf], by simp [Tree.leaf]⟩ (fun _ => by simp [readTree]) (by simp) (by simp)

end Rooted

namespace Lowering

variable {w w' : Workspace Progress} {i m : NodeId} {ty : Option Ty} {body body' : List Tree}

/-- There is nothing to lower in what the pass leaves. -/
theorem Ran.clean (h : Ran w i ty body w' body') : (bodyTodo body').clean := by
  have hsame := h.rooted.catalogOf_same h.declarable
  have hfit : ∀ d ∈ body', d.Fits := fun d hd => h.has.fits.kid (by simpa using hd)
  have hall : ∀ {names : List String} {ds ds' : List Tree}, Rooted (Tree.catalogOf body)
      w.store.nextId names ds ds' → (∀ d ∈ ds', d.Fits) → ∀ d ∈ ds', d.DeclSettled (Tree.catalogOf body') := by
    intro names ds ds' hr hf
    induction hr with
    | nil => simp
    | cons hd hds ih =>
      refine List.forall_mem_cons.2 ⟨hd.declSettled (hf _ List.mem_cons_self) hsame, ih fun e he => ?_⟩
      exact hf e (List.mem_cons_of_mem _ he)
  exact fun d hd => ⟨hall h.rooted hfit d hd, (h.rooted.clean d hd).same hsame⟩

/-- Where there is nothing to lower, nothing is counted. -/
theorem stats_of_clean (h : (bodyTodo body).clean) : (bodyTodo body).stats = {} := by
  have hcharge : Tree.chargeAll (Tree.catalogOf body) body = {} :=
    Tree.chargeAll_eq_zero fun d hd => (h d hd).2.charge
  have hnames : Tree.getterNames (Tree.catalogOf body) body = [] := by
    rw [Tree.getterNames, List.map_eq_nil_iff, List.filterMap_eq_nil_iff]
    exact fun d hd => Tree.getterVar?_of_settled (h d hd).1
  show Tree.chargeAll (Tree.catalogOf body) body +
    { getters := (Tree.getterNames (Tree.catalogOf body) body).length } = _
  rw [hcharge, hnames]
  rfl

/-- **A second run changes nothing.** -/
theorem Ran.again (h : Ran w i ty body w' body') (hm : ∀ d ∈ body, d.All fun u => u.label ≠ .module)
    (o : Progress) : ∃ c, run i ⟨w'.store, o⟩ = .ok () ⟨w'.store, ⟨c, {}⟩⟩ := by
  have hkeeps := h.has.keeps
  have hends := run_spec (w := ⟨w'.store, o⟩) hkeeps.sound (hkeeps.fits _ List.mem_cons_self)
    (hkeeps.tree_nodup (p := none) List.mem_cons_self) (hkeeps.holds _ List.mem_cons_self) (h.rooted.no_module hm)
  obtain ⟨_, w'', hrun, body'', h''⟩ := hends.exists_ok fun e _ he => by
    rcases he with ⟨hno, -⟩ | ⟨-, hno, -⟩
    · exact hno (h.rooted.declarable h.declarable)
    · exact hno h.clean
  have hown := h''.has.own
  have hstore : w''.store = w'.store := h''.keeps h.clean
  rw [stats_of_clean h.clean] at hown
  exact ⟨Tree.catalogOf body', by rw [hrun, ← hown, ← hstore]⟩

end Lowering

/-! ## Pipelines -/

namespace Pipeline

variable {σ : Type} {p : Pipeline} {observe : Observer σ} {m : NodeId} {s s' : Store}

/-- The run ended with the store `s`, and if it failed, then because the observer refused what it was shown. -/
def EndsWith (x : EStateM PassError (State σ) Unit) (observe : Observer σ) (m : NodeId) (s : Store)
    (st : State σ) : Prop :=
  Ends x st (fun _ st' => st'.store = s) fun e st' => st'.store = s ∧
    ∃ seen seen', observe Lowering.pass s m seen = .error e seen'

theorem runPass_endsWith {st : State σ} (hrun : Lowering.runOnce m st.store = .ok () s)
    (hv : s.verify m = .ok ()) : EndsWith (p.runPass observe m Lowering.pass) observe m s st := by
  have hpass : Lowering.pass.run m st.store = .ok () s := hrun
  unfold EndsWith runPass
  rw [ends_bind, ends_get, hpass]
  simp only [hv]
  -- neither the check nor the report changes what the observer is shown, and it has the last word
  cases hseen : observe Lowering.pass s m st.seen with
  | ok _ seen =>
    cases p.verifyAfterEach <;> cases p.collectStats <;>
      simp [ends_set, hseen]
  | error e seen =>
    cases p.verifyAfterEach <;> cases p.collectStats <;>
      simpa [ends_bind, ends_get, ends_set, ends_modify, ends_throw, hseen] using ⟨_, _, hseen⟩

/-- Further runs of the pass change nothing. -/
theorem replicate_endsWith (n : Nat) {st : State σ} (hst : st.store = s) (hfix : Lowering.runOnce m s = .ok () s)
    (hv : s.verify m = .ok ()) :
    EndsWith ((List.replicate n Lowering.pass).forM (p.runPass observe m)) observe m s st := by
  induction n generalizing st with
  | zero => exact hst
  | succ n ih =>
    show EndsWith (p.runPass observe m Lowering.pass >>= fun _ => (List.replicate n Lowering.pass).forM
      (p.runPass observe m)) observe m s st
    rw [EndsWith, ends_bind]
    exact (runPass_endsWith (by rw [hst]; exact hfix) hv).mono (fun _ st' hst' => ih hst') fun _ _ he => he

end Pipeline

namespace Lowering

variable {w w' : Workspace Progress} {m : NodeId}

/-- **Lowering is idempotent.** In a tree whose only module is `m`, if the pass comes to its end, then a fresh run
on what it left succeeds, counts nothing, and leaves the store as it is, with the order of the nodes, the next
identity and the replacements. So a pipeline that has the pass once or more often ends with the same store, unless
its observer stops it. -/
theorem run_idempotent (hs : w.store.Sound) (hv : w.store.verify m = .ok ())
    (honly : ∀ n ∈ w.store.preorder m, n.kind.isModule = true → n.id = m) (hrun : run m w = .ok () w') :
    (∃ c, run m ⟨w'.store, {}⟩ = .ok () ⟨w'.store, ⟨c, {}⟩⟩) ∧
      ∀ (σ : Type) (p : Pipeline) (observe : Pipeline.Observer σ) (n : Nat) (st : Pipeline.State σ),
        p.passes = List.replicate (n + 1) pass → st.store = w.store →
        Pipeline.EndsWith (p.run observe m) observe m w'.store st := by
  obtain ⟨T, rfl, hf, hn, hT⟩ := (Store.verify_iff hs.nodup m).1 hv
  have hm := hT.no_module hf hn honly
  obtain ⟨ty, body, body', hbody, h⟩ := exists_ran hs hf hn hT hm hrun
  have hagain := h.again (fun d hd => hm d (by rw [hbody]; simpa using hd)) {}
  have hmod : ((T.root none).kind).isModule = true := hf.isModule_kind.2 (by rw [hbody]; rfl)
  have hfirst : runOnce T.id w.store = .ok () w'.store := by
    rw [runOnce, ← run_own hT.top hmod {}, hrun]
  have hfix : runOnce T.id w'.store = .ok () w'.store := by
    obtain ⟨c, hc⟩ := hagain
    rw [runOnce, hc]
  have hv' : w'.store.verify T.id = .ok () := by
    have hwhole : Whole T.id w' := (run_whole ⟨hs, T, rfl, hf, hn, hT⟩).of_ok hrun
    exact (Store.verify_iff hwhole.1.nodup T.id).2 hwhole.2
  refine ⟨hagain, fun σ p observe n st hp hst => ?_⟩
  rw [Pipeline.EndsWith, Pipeline.run, hp]
  show Ends (p.runPass observe T.id pass >>= fun _ => (List.replicate n pass).forM (p.runPass observe T.id)) st _ _
  rw [ends_bind]
  refine (Pipeline.runPass_endsWith (by rw [hst]; exact hfirst) hv').mono (fun _ st' hst' => ?_) fun _ _ he => he
  exact Pipeline.replicate_endsWith n hst' hfix hv'

theorem run_idempotent_ledger : ∃ w', run ⟨0⟩ ⟨ledger, {}⟩ = .ok () w' ∧
    (∃ c, run ⟨0⟩ ⟨w'.store, {}⟩ = .ok () ⟨w'.store, ⟨c, {}⟩⟩) ∧
    ∀ (p : Pipeline) (observe : Pipeline.Observer Unit), p.passes = [pass, pass, pass] →
      Pipeline.EndsWith (p.run observe ⟨0⟩) observe ⟨0⟩ w'.store ⟨ledger, [], ()⟩ := by
  obtain ⟨w', hw'⟩ := run_ledger
  have h := run_idempotent sound_ledger verify_ledger only_module_ledger hw'
  exact ⟨w', hw', h.1, fun p observe hp => h.2 Unit p observe 2 ⟨ledger, [], ()⟩ hp (Eq.refl ledger)⟩

end Lowering

end ContractTree
