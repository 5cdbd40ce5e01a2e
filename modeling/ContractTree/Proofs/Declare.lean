import ContractTree.Lowering.Declaration
import ContractTree.Proofs.Assign

/-!
How the catalog is made, and how declarations of state variables are lowered. The catalog of a module lists the
state variables that its body declares (`Tree.stateVar?`); a declaration that should have a slot and has no name or
no type stops the pass (`Tree.Declarable`). A declaration gets the type of the slot, and a public variable also
gets a getter at the end of the module (`Getter`), unless the module has a function of that name.
-/

namespace ContractTree

open Lowering (Progress Stats)

/-! ## The catalog -/

namespace Tree

/-- The state variable that a tree declares. -/
def stateVar? : Tree → Option StorageVar
  | .node i ty (.variableDecl isPublic false false) (.node _ ty' (.name x) _ _ _ :: _) _ _ =>
    (ty.or ty').map fun declared => { name := x, decl := i, declared, isPublic }
  | _ => none

/-- Whether a variable that is neither constant nor immutable has a name and a type. -/
def Declarable (t : Tree) : Prop := (∃ isPublic, t.label = .variableDecl isPublic false false) → t.stateVar? ≠ none

/-- The catalog of a list of declarations. -/
def catalogOf (ts : List Tree) : Catalog := (ts.filterMap stateVar?).foldl Catalog.insert []

theorem decl_of_stateVar? {t : Tree} {v : StorageVar} (h : t.stateVar? = some v) : v.decl = t.id := by
  unfold stateVar? at h
  split at h
  · obtain ⟨_, -, rfl⟩ := Option.map_eq_some_iff.1 h
    rfl
  · cases h

theorem label_of_stateVar? {t : Tree} {v : StorageVar} (h : t.stateVar? = some v) :
    ∃ isPublic, t.label = .variableDecl isPublic false false := by
  unfold stateVar? at h
  split at h
  · exact ⟨_, rfl⟩
  · cases h

/-- What the catalog lists is declared. -/
theorem exists_decl_of_mem_catalogOf {ts : List Tree} {v : StorageVar} (h : v ∈ catalogOf ts) :
    ∃ t ∈ ts, t.stateVar? = some v := by
  have hins : ∀ (c : Catalog) (x : StorageVar), v ∈ c.insert x → v ∈ c ∨ v = x := by
    intro c x hv
    unfold Catalog.insert at hv
    split at hv
    · obtain ⟨y, hy, rfl⟩ := List.mem_map.1 hv
      split
      · exact .inr rfl
      · exact .inl hy
    · simpa using hv
  have hfold : ∀ (vs : List StorageVar) (c : Catalog), v ∈ vs.foldl Catalog.insert c → v ∈ c ∨ v ∈ vs := by
    intro vs
    induction vs with
    | nil => exact fun c hv => .inl hv
    | cons x vs ih =>
      intro c hv
      rcases ih _ hv with hv | hv
      · exact (hins c x hv).imp_right fun h => by simp [h]
      · exact .inr (List.mem_cons_of_mem _ hv)
  rcases hfold _ _ h with h | h
  · cases h
  · exact List.mem_filterMap.1 h

end Tree

/-- Why a catalog cannot be made: a declaration has no type, or what it declares is not a name. -/
def PassError.Undeclared (e : PassError) : Prop :=
  (∃ cause, e = .lowering cause) ∨ ∃ decl, e = .structural (.inconsistent decl .targetNotName)

namespace Lower

variable {w : Workspace Progress} {c : Catalog} {F : Forest} {H : List Node} {G : Outside}

theorem collectDecl_spec {t : Tree} {p : Option NodeId} (h : w.store.Holds p t) (hf : t.Fits) :
    Ends (collectDecl t.id) w (fun _ w' => w'.store = w.store ∧
      w'.own = ⟨t.stateVar?.elim w.own.catalog w.own.catalog.insert, w.own.stats⟩ ∧ t.Declarable)
      (fun e w' => w'.store = w.store ∧ ¬ t.Declarable ∧ e.Undeclared) := by
  unfold collectDecl
  rw [node_then h.top]
  have hl := hf.label_kind
  obtain ⟨i, ty, l, hs, bs, os⟩ := t
  simp only [Tree.root_kind, Tree.label_node] at hl ⊢
  cases hk : Tree.kind (.node i ty l hs bs os) with
  | variableDecl target value isPublic isConstant isImmutable =>
    rw [hk] at hl
    obtain rfl : Label.variableDecl isPublic isConstant isImmutable = l := hl
    obtain ⟨h1, h2, hb, ho⟩ := ((Tree.fits_iff _).1 hf).1
    obtain ⟨x, hs', rfl⟩ := List.exists_cons_of_length_pos (show 0 < hs.length from h1)
    obtain rfl : x.id = target := by
      simp only [Tree.kind, Tree.label_node, Tree.heads_node, List.map_cons, Label.kind] at hk
      exact (Kind.variableDecl.inj hk).1
    simp only
    by_cases hc : isConstant || isImmutable
    · rw [if_pos hc]
      refine ⟨rfl, ?_, ?_⟩
      rotate_left
      · rintro ⟨isPublic, hl⟩
        cases hl
        simp at hc
      have : Tree.stateVar? (.node i ty (.variableDecl isPublic isConstant isImmutable) (x :: hs') bs os)
          = none := by
        unfold Tree.stateVar?
        split
        · next he => cases he; simp at hc
        · rfl
      rw [this]
      rfl
    · rw [if_neg hc]
      obtain ⟨rfl, rfl⟩ : isConstant = false ∧ isImmutable = false := by simpa using hc
      have hx := h.kid (k := x) (by simp)
      have hfx := hf.kid (k := x) (by simp)
      rw [node_then hx.top]
      have hlx := hfx.label_kind
      simp only [Tree.root_kind]
      cases hn : x.kind.name? with
      | none =>
        refine ⟨rfl, fun hd => ?_, .inr ⟨i, rfl⟩⟩
        refine hd ⟨isPublic, rfl⟩ ?_
        unfold Tree.stateVar?
        split
        · next he =>
          obtain ⟨rfl, -⟩ := List.cons.inj (Tree.node.inj he).2.2.2.1
          have : (Tree.kind (.node _ _ (.name _) _ _ _)).name? = none := hn
          simp [Tree.kind, Label.kind, Kind.name?] at this
        · rfl
      | some y =>
        have hxl : x.label = .name y := (Store.isName_kind hfx y).1 (by simp [Kind.isName, hn])
        rw [store_then]
        rw [h.ty?, hx.ty?, Tree.ty_node]
        have hvar : Tree.stateVar? (.node i ty (.variableDecl isPublic false false) (x :: hs') bs os) =
            (ty.or x.ty).map fun declared => { name := y, decl := i, declared, isPublic } := by
          obtain ⟨j, tyx, lx, hx1, hx2, hx3⟩ := x
          obtain rfl : lx = .name y := hxl
          rfl
        unfold Tree.Declarable
        rw [hvar]
        cases ty.or x.ty with
        | none => exact ⟨rfl, fun hd => hd ⟨isPublic, rfl⟩ rfl, .inl ⟨_, rfl⟩⟩
        | some declared => exact ⟨rfl, rfl, fun _ => by simp⟩
  | _ =>
    rw [hk] at hl
    refine ⟨rfl, ?_, ?_⟩
    rotate_left
    · rintro ⟨isPublic, rfl⟩
      cases hl
    have : Tree.stateVar? (.node i ty l hs bs os) = none := by
      unfold Tree.stateVar?
      split
      · next he => cases he; cases hl
      · rfl
    rw [this]
    rfl

/-- **The catalog of a module lists the state variables that its body declares.** -/
theorem collectCatalog_spec {t : Tree} {p : Option NodeId} (h : w.store.Holds p t) (hf : t.Fits) :
    Ends (collectCatalog t.id) w (fun _ w' => w'.store = w.store ∧ w'.own = ⟨Tree.catalogOf t.body, w.own.stats⟩ ∧
      ∀ d ∈ t.body, d.Declarable)
      (fun e w' => w'.store = w.store ∧ (t.label = .module → (¬ ∀ d ∈ t.body, d.Declarable) ∧ e.Undeclared)) := by
  unfold collectCatalog modifyCatalog
  rw [ends_bind, ends_modify]
  refine (node_then (n := t.root p) (by exact h.top)).2 ?_
  obtain ⟨h0, h1, h2, h3⟩ := Label.parts_kind hf.top
  rw [← Tree.kind] at h0 h1 h2 h3
  simp only [Tree.root_kind]
  have hloop : ∀ (ts : List Tree) (w₁ : Workspace Progress), (∀ k ∈ ts, k ∈ t.body) → w₁.store = w.store →
      Ends ((ts.map Tree.id).forM collectDecl) w₁ (fun _ w' => w'.store = w.store ∧
        w'.own = ⟨(ts.filterMap Tree.stateVar?).foldl Catalog.insert w₁.own.catalog, w₁.own.stats⟩ ∧
        ∀ d ∈ ts, d.Declarable)
        (fun e w' => w'.store = w.store ∧ (¬ ∀ d ∈ ts, d.Declarable) ∧ e.Undeclared) := by
    intro ts
    induction ts with
    | nil => exact fun w₁ _ hs => ⟨hs, rfl, by simp⟩
    | cons k ts ih =>
      intro w₁ hts hs
      have hk : k ∈ t.kids := by
        simp only [Tree.kids, List.mem_append]
        exact .inl (.inr (hts k List.mem_cons_self))
      show Ends (collectDecl k.id >>= fun _ => (ts.map Tree.id).forM collectDecl) w₁ _ _
      rw [ends_bind]
      refine (collectDecl_spec (by rw [hs]; exact h.kid hk) (hf.kid hk)).mono ?_
        fun e w₂ he => ⟨he.1.trans hs, ?_, he.2.2⟩
      · rintro _ w₂ ⟨hs₂, hc₂, hd₂⟩
        refine (ih w₂ (fun j hj => hts j (List.mem_cons_of_mem _ hj)) (hs₂.trans hs)).mono ?_ fun e w₃ he =>
          ⟨he.1, fun hall => he.2.1 fun d hd => hall d (List.mem_cons_of_mem _ hd), he.2.2⟩
        rintro _ w₃ ⟨hs₃, hc₃, hd₃⟩
        refine ⟨hs₃, ?_, List.forall_mem_cons.2 ⟨hd₂, hd₃⟩⟩
        rw [hc₃, hc₂, List.filterMap_cons]
        cases k.stateVar? <;> rfl
      · exact fun hall => he.2.1 (hall k List.mem_cons_self)
  cases hk : t.kind with
  | module body =>
    rw [hk] at h2
    obtain rfl : body = t.body.map Tree.id := h2
    have hall := hloop t.body ⟨w.store, ⟨[], w.own.stats⟩⟩ (fun _ h => h) rfl
    exact hall.mono (fun _ _ h => h) fun _ _ he => ⟨he.1, fun _ => he.2⟩
  | _ =>
    refine ⟨rfl, fun hm => ?_⟩
    rw [hk, hm] at h0
    cases h0

end Lower

/-! ## Getters -/

namespace Tree

/-- The name of a function. -/
def functionName? : Tree → Option String
  | .node _ _ (.functionDef f _ _) _ _ _ => some f
  | _ => none

/-- The names of the functions among the trees. -/
def functionNames (ts : List Tree) : List String := ts.filterMap functionName?

theorem functionName?_congr {t u : Tree} (h : t.label = u.label) : t.functionName? = u.functionName? := by
  obtain ⟨i, ty, l, hs, bs, os⟩ := t
  obtain ⟨i', ty', l', hs', bs', os'⟩ := u
  obtain rfl : l = l' := h
  cases l <;> rfl

end Tree

/-- An argument and a reference to it for each type of a key, from the `n`th on. -/
inductive GetterKeys : Nat → List Ty → List Tree → List Tree → Prop where
  | nil (n : Nat) : GetterKeys n [] [] []
  | cons {n : Nat} {ty : Ty} {tys : List Ty} {as rs : List Tree} (i j : NodeId)
      (h : GetterKeys (n + 1) tys as rs) :
      GetterKeys n (ty :: tys) (.leaf i (some ty) (.arg ("key" ++ toString n)) :: as)
        (.leaf j (some ty) (.name ("key" ++ toString n)) :: rs)

theorem GetterKeys.map_ty {n : Nat} {tys : List Ty} {as rs : List Tree} (h : GetterKeys n tys as rs) :
    as.map Tree.ty = tys.map some ∧ rs.length = tys.length := by
  induction h with
  | nil => exact ⟨rfl, rfl⟩
  | cons i j h ih =>
    refine ⟨?_, ?_⟩
    · rw [List.map_cons, List.map_cons, ih.1]
      rfl
    · rw [List.length_cons, List.length_cons, ih.2]

/-- The getter of a variable: it takes the keys, reads the slot, and returns what it read. -/
inductive Getter (v : StorageVar) : Tree → Prop where
  | mk {as rs : List Tree} (i read temp slot result reference : NodeId) (h : GetterKeys 0 v.keys as rs) :
      Getter v (.node i (some (.function v.keys (some v.value) .external .view))
        (.functionDef v.name .external .view) as [readTree read temp slot v (some v.value) rs,
          .node result none .ret [tempRef reference temp (some v.value)] [] []] [])

/-- A property of all nodes of a getter. -/
theorem Getter.all {v : StorageVar} {g : Tree} {P : Tree → Prop} (h : Getter v g)
    (hleaf : ∀ {i : NodeId} {ty : Option Ty} {x : String}, P (.leaf i ty (.arg x)) ∧ P (.leaf i ty (.name x)))
    (hread : ∀ {i temp slot : NodeId} {ty : Option Ty} {ks : List Tree}, ks.length = v.depth →
      P (readTree i temp slot v ty ks))
    (hret : ∀ {i : NodeId} {x : Tree}, P (.node i none .ret [x] [] []))
    (hfun : ∀ {i : NodeId} {ty : Option Ty} {as bs : List Tree},
      P (.node i ty (.functionDef v.name .external .view) as bs [])) : g.All P := by
  obtain ⟨i, read, temp, slot, result, reference, hkeys⟩ := h
  have hall : ∀ {n : Nat} {tys : List Ty} {as rs : List Tree}, GetterKeys n tys as rs →
      (∀ a ∈ as, a.All P) ∧ ∀ r ∈ rs, r.All P := by
    intro n tys as rs h
    induction h with
    | nil => simp
    | cons i j h ih =>
      exact ⟨List.forall_mem_cons.2 ⟨Tree.all_leaf.2 hleaf.1, ih.1⟩,
        List.forall_mem_cons.2 ⟨Tree.all_leaf.2 hleaf.2, ih.2⟩⟩
  have hname : ∀ {i : NodeId} {ty : Option Ty} {x : String}, (Tree.leaf i ty (.name x)).All P :=
    Tree.all_leaf.2 hleaf.2
  refine Tree.all_iff.2 ⟨hfun, fun k hk => ?_⟩
  simp only [Tree.kids_node, List.append_nil, List.mem_append, List.mem_cons, List.not_mem_nil, or_false] at hk
  rcases hk with hk | rfl | rfl
  · exact (hall hkeys).1 k hk
  · refine Tree.all_iff.2 ⟨hread hkeys.map_ty.2, fun k hk => ?_⟩
    simp only [readTree, Tree.kids_node, List.append_nil, List.mem_cons] at hk
    rcases hk with rfl | rfl | hk
    · exact hname
    · exact hname
    · exact (hall hkeys).2 k hk
  · refine Tree.all_iff.2 ⟨hret, fun k hk => ?_⟩
    simp only [Tree.kids_node, List.append_nil, List.mem_singleton] at hk
    rw [hk]
    exact hname

namespace Lower

variable {w : Workspace Progress} {c : Catalog} {g : Guard c} {st : Stats} {F : Forest} {H : List Node}
  {G : Outside} {m : NodeId} {T : Tree}

theorem getterKeys_course (tys : List Ty) (n : Nat) (h : w.store.Bears g F H G) (hT : (none, T) ∈ F)
    (hm : T.id = m) : Course (Store.Tends g m G) (getterKeys n tys) w (fun r w' => ∃ A R : Forest,
      GetterKeys n tys (A.map Prod.snd) (R.map Prod.snd) ∧ r.map Prod.fst = A.map (fun x => x.2.id) ∧
      r.map Prod.snd = R.map (fun x => x.2.id) ∧ w'.own = w.own ∧ w'.store.Bears g (A ++ (R ++ F)) H G)
      (PassError.Fault True True) := by
  induction tys generalizing w n F with
  | nil => exact .pure (h.tends hT hm) ⟨[], [], .nil n, rfl, rfl, rfl, h⟩
  | cons ty tys ih =>
    unfold getterKeys
    have harg := Edit.insertNew_does h _ (fun _ => .arg ("key" ++ toString n)) (some ty) (fun _ => rfl)
      (fun _ => by trivial) (fun _ => rfl) (.leaf (.arg ("key" ++ toString n)) (some ty)) rfl rfl
    refine course_make (h.tends hT hm) harg ?_
    rintro i w₁ ho₁ ⟨hk₁, -⟩
    refine course_make (hk₁.tends (List.mem_cons_of_mem _ hT) hm) (name_does hk₁ _ (some ty)) ?_
    rintro j w₂ ho₂ ⟨hk₂, -⟩
    refine (ih (n + 1) hk₂ (by simp [hT])).bind ?_
    rintro r w₃ ⟨A, R, hks, hA, hR, ho₃, hk₃⟩ hI₃
    refine .pure hI₃ ⟨(none, .leaf i (some ty) (.arg ("key" ++ toString n))) :: A,
      (none, .leaf j (some ty) (.name ("key" ++ toString n))) :: R, .cons i j hks, ?_, ?_, ?_, ?_⟩
    · rw [List.map_cons, hA]
      rfl
    · rw [List.map_cons, hR]
      rfl
    · rw [ho₃, ho₂, ho₁]
    · exact hk₃.reorder fun x => by simp only [List.count_cons, List.count_append]; omega

/-- What is done for a getter once its name is known to be free. -/
def makeGetter (v : StorageVar) (module : NodeId) : Lower Unit := do
  let temp ← edit (Edit.temp (some v.value))
  let slot ← slotName v
  let keys ← getterKeys 0 v.keys
  let read ← edit (Build.storageRead temp slot (keys.map Prod.snd))
  let returned ← edit (Build.name (tempName temp) (some v.value))
  let ret ← edit (Build.ret (some returned))
  let getter ← edit (Build.function v.name (keys.map Prod.fst) [read, ret] .external .view)
  edit (Build.setReturns getter v.value)
  edit (Edit.appendDeclaration module getter)
  count fun st => { st with getters := st.getters + 1 }

/-- A function over loose trees, with the types of its arguments in its type. -/
theorem function_does {s : Store} {A B : Forest} {tys : List Ty} (h : s.Bears g (A ++ B ++ F) H G) (f : String)
    (visibility : Visibility) (mutability : Mutability) (hA : (A.map Prod.snd).map Tree.ty = tys.map some) :
    Edit.Does (Build.function f (A.map fun x => x.2.id) (B.map fun x => x.2.id) visibility mutability) s
      (fun i s' =>
      s'.Bears g ((none, .node i (some (.function tys none visibility mutability))
        (.functionDef f visibility mutability)
        (A.map Prod.snd) (B.map Prod.snd) []) :: F) H G ∧ ¬ g.held i) (· = .idsExhausted) := by
  have hparams : (A.map fun x => x.2.id).filterMap s.ty? = tys := by
    have hty : ∀ x ∈ A, s.ty? x.2.id = x.2.ty := fun x hx => (h.holds x (by simp [hx])).ty?
    have : (A.map fun x => x.2.id).map s.ty? = tys.map some := by
      rw [← hA, List.map_map, List.map_map]
      exact List.map_congr_left hty
    have hid : ∀ l : List NodeId, l.filterMap s.ty? = (l.map s.ty?).filterMap id := by
      intro l
      rw [List.filterMap_map]
      rfl
    rw [hid, this, List.filterMap_map]
    exact List.filterMap_some
  refine Edit.Does.of_get ?_
  rw [hparams]
  refine (Edit.alloc_does (L := A ++ B) h (.functionDef f visibility mutability) (A.map Prod.snd)
    (B.map Prod.snd) [] (some (.function tys none visibility mutability)) ?_ ?_ rfl rfl).mono
      (fun _ _ h => ⟨h.1, h.2.2.2.1⟩) fun _ h => h
  · simp [Label.kind, Function.comp_def]
  · simp

theorem makeGetter_course (h : Has w c st [(none, T)] [] G) (hI : w.store.Tends g m G) (hm : T.id = m)
    (v : StorageVar) (hfree : T.label = .module → v.name ∉ Tree.functionNames T.body) :
    Course (Store.Tends g m G) (makeGetter v T.id) w (fun _ w' => ∃ i ty body g, T = .node i ty .module [] body
      [] ∧ Getter v g ∧ v.name ∉ Tree.functionNames T.body ∧
      Has w' c (st + { getters := 1 }) [(none, .node i ty .module [] (body ++ [g]) [])] [] G)
      fun e => T.label = .module → e.Fault True (v.name ∉ Tree.functionNames T.body) := by
  have tends : ∀ {w : Workspace Progress} {F : Forest}, w.store.Bears g F [] G → (none, T) ∈ F →
      w.store.Tends g m G :=
    fun hk hT => hk.tends hT hm
  have stop : ∀ cause, cause = StructuralError.idsExhausted → T.label = .module →
      PassError.Fault True (v.name ∉ Tree.functionNames T.body) (.structural cause) := fun cause hc _ =>
    PassError.Fault.of_exhausted cause hc
  have hb := hI.bears h.keeps hm
  unfold makeGetter
  refine course_edit hI (temp_does hb (some v.value)) stop ?_
  rintro temp w₁ ho₁ ⟨hk₁, -⟩
  refine course_slotName (tends hk₁ (by simp)) hk₁ v stop ?_
  rintro slot w₂ ho₂ hk₂ -
  refine ((getterKeys_course (T := T) v.keys 0 hk₂ (by simp) hm).mono (fun _ _ h => h) fun _ he _ =>
    he.mono (fun _ => trivial) fun _ => trivial).bind ?_
  rintro keys w₃ ⟨A, R, hkeys, hA, hR, ho₃, hk₃⟩ -
  rw [hA, hR]
  have hk₃ : w₃.store.Bears g ((none, tempLeaf temp (some v.value)) :: (none, slotLeaf slot v) :: R ++
      (A ++ [(none, T)]))
      [] G := hk₃.reorder fun x => by simp only [List.count_cons, List.count_append]; omega
  refine course_edit (tends hk₃ (by simp)) (storageRead_does hk₃) stop ?_
  rintro read w₄ ho₄ ⟨hk₄, -⟩
  refine course_edit (tends hk₄ (by simp)) (name_does hk₄ _ (some v.value)) stop ?_
  rintro reference w₅ ho₅ ⟨hk₅, -, -⟩
  refine course_edit (tends hk₅ (by simp)) (Edit.alloc_does (L := [(none, tempRef reference temp (some v.value))])
    hk₅ .ret [tempRef reference temp (some v.value)] [] [] none rfl rfl (by simp [Label.Fits]) rfl) stop ?_
  rintro result w₆ ho₆ ⟨hk₆, -, -⟩
  have hk₆ : w₆.store.Bears g (A ++ [(none, readTree read temp slot v (some v.value) (R.map Prod.snd)),
      (none, .node result none .ret [tempRef reference temp (some v.value)] [] [])] ++ [(none, T)]) [] G :=
    hk₆.reorder fun x => by simp only [List.count_cons, List.count_append, List.count_nil]; omega
  refine course_edit (tends hk₆ (by simp)) (function_does hk₆ v.name .external .view hkeys.map_ty.1) stop ?_
  rintro getter w₇ ho₇ ⟨hk₇, hnew⟩
  refine course_edit (tends hk₇ (by simp))
    (Edit.updateTy_does (C := []) hk₇ rfl (Option.map (Build.withReturns v.value)) hnew) (fun _ he => he.elim) ?_
  rintro _ w₈ ho₈ ⟨hk₈, -⟩
  refine course_edit (tends hk₈ (by simp))
    (Edit.appendDeclaration_does (hk₈.perm (List.Perm.swap _ _ _) (List.Perm.refl _)) rfl rfl)
    (fun _ he hmod => absurd hmod he) ?_
  rintro _ w₉ ho₉ ⟨i, ty, body, hT, hk₉, -⟩
  refine course_count (hk₉.tends List.mem_cons_self (by rw [← hm, hT]; rfl))
    ⟨i, ty, body, _, hT, Getter.mk getter read temp slot result reference hkeys, hfree (by rw [hT]; rfl), ?_,
      hk₉.toKeeps⟩
  show ({ w₉.own with stats := { w₉.own.stats with getters := w₉.own.stats.getters + 1 } } : Progress) = _
  rw [ho₉, ho₈, ho₇, ho₆, ho₅, ho₄, ho₃, ho₂, ho₁, h.own]
  rfl

/-- The names of the functions among the declarations of a module are read off their trees. -/
theorem hasFunction_iff {s : Store} {p : Option NodeId} {ts : List Tree} (h : ∀ t ∈ ts, s.Holds p t)
    (hf : ∀ t ∈ ts, t.Fits) (x : String) : hasFunction s (ts.map Tree.id) x = true ↔
      x ∈ Tree.functionNames ts := by
  rw [hasFunction, List.any_eq_true, Tree.functionNames]
  simp only [List.mem_map, exists_exists_and_eq_and, List.mem_filterMap]
  refine exists_congr fun t => and_congr_right fun ht => ?_
  rw [(h t ht).kind?]
  have hl := (hf t ht).label_kind
  obtain ⟨i, ty, l, hs, bs, os⟩ := t
  rw [Tree.label_node] at hl
  cases hk : Tree.kind (.node i ty l hs bs os) <;> rw [hk] at hl <;> subst hl <;>
    simp [Tree.functionName?, Kind.label]

/-- **A getter is put at the end of the module**, if no function of the module has its name. -/
theorem addGetter_course (h : Has w c st [(none, T)] [] G) (hI : w.store.Tends g m G) (hm : T.id = m)
    (v : StorageVar) :
    Course (Store.Tends g m G) (addGetter v T.id) w (fun _ w' => ∃ i ty body g, T = .node i ty .module [] body [] ∧
      Getter v g ∧ v.name ∉ Tree.functionNames T.body ∧
      Has w' c (st + { getters := 1 }) [(none, .node i ty .module [] (body ++ [g]) [])] [] G)
      fun e => T.label = .module → e.Fault True (v.name ∉ Tree.functionNames T.body) := by
  have hmain := h.holds
  have hfit := h.fits
  have hbody : ∀ k ∈ T.body, k ∈ T.kids := fun k hk => by simp [Tree.kids, hk]
  obtain ⟨h0, -, h2, -⟩ := Label.parts_kind (Tree.Fits.top hfit)
  rw [← Tree.kind] at h0 h2
  unfold addGetter
  rw [course_node hmain.top]
  simp only [Tree.root_kind]
  cases hk : T.kind with
  | module body =>
    rw [hk] at h2
    obtain rfl : body = T.body.map Tree.id := h2
    simp only
    have hiff := hasFunction_iff (s := w.store) (p := some T.id) (fun k hk => hmain.kid (hbody k hk))
      (fun k hk => Tree.Fits.kid hfit (hbody k hk)) v.name
    rw [course_store]
    split
    · next hhas => exact .throw hI fun _ => .lowering fun hfree => hfree (hiff.1 hhas)
    · next hhas => exact makeGetter_course h hI hm v fun _ hmem => hhas (hiff.2 hmem)
  | _ =>
    refine makeGetter_course h hI hm v fun hmod => ?_
    rw [hk, hmod] at h0
    cases h0

end Lower

/-! ## Declarations -/

/-- The getters of a variable: one if it is public. -/
inductive Getters (v : StorageVar) : List Tree → Prop where
  | none (h : v.isPublic = false) : Getters v []
  | one {g : Tree} (h : v.isPublic = true) (hg : Getter v g) : Getters v [g]

namespace Tree

/-- A declaration, and the name that it declares, with the type of the slot. -/
def declareSlot (v : StorageVar) : Tree → Tree
  | .node i _ l (target :: hs) bs os => .node i (some v.slotTy) l (target.withTy (some v.slotTy) :: hs) bs os
  | t => t

/-- Whether nothing is left to do about a declaration: the catalog does not list it, or it has the type of a slot.
-/
def Settled (c : Catalog) (t : Tree) : Prop := ∀ v, c.declaredAt? t.id = some v → t.ty.any Ty.isSlot = true

/-- Whether the variable that a node declares may have a getter beside these declarations. -/
def GetterFree (c : Catalog) (t : Tree) (body : List Tree) : Prop :=
  ∀ v, c.declaredAt? t.id = some v → v.isPublic = true → v.name ∉ functionNames body

/-- The tree with these trees at the end of its first statement list. -/
def addDecls (gs : List Tree) : Tree → Tree
  | .node i ty l hs bs os => .node i ty l hs (bs ++ gs) os

variable {t : Tree} {v : StorageVar} {gs : List Tree}

@[simp] theorem id_declareSlot : (t.declareSlot v).id = t.id := by
  unfold declareSlot
  split <;> rfl

@[simp] theorem label_declareSlot : (t.declareSlot v).label = t.label := by
  unfold declareSlot
  split <;> rfl

@[simp] theorem ids_declareSlot : (t.declareSlot v).ids = t.ids := by
  unfold declareSlot
  split
  · simp [ids_eq (.node ..)]
  · rfl

theorem Fits.declareSlot (h : t.Fits) : (t.declareSlot v).Fits := by
  unfold Tree.declareSlot
  split
  · rw [fits_iff] at h ⊢
    refine ⟨by simpa using h.1, fun k hk => ?_⟩
    simp only [kids_node, List.cons_append, List.mem_cons] at hk
    rcases hk with rfl | hk
    · exact fits_withTy.2 (h.2 _ (by simp))
    · exact h.2 k (by simpa using .inr (by simpa using hk))
  · exact h

/-- A property of identities and labels is kept below a declaration. -/
theorem all_kids_declareSlot {P : Tree → Prop} (hP : ∀ {t u : Tree}, u.id = t.id → u.label = t.label → P t → P u)
    (h : ∀ k ∈ t.kids, k.All P) : ∀ k ∈ (t.declareSlot v).kids, k.All P := by
  unfold declareSlot
  split
  · next i ty l target hs bs os =>
    intro k hk
    simp only [kids_node, List.cons_append, List.mem_cons] at hk h
    rcases hk with rfl | hk
    · have ht := h target (.inl rfl)
      exact all_iff.2 ⟨hP id_withTy label_withTy ht.top, fun j hj => ht.kid (by simpa using hj)⟩
    · exact h k (.inr hk)
  · exact h

theorem All.declareSlot {P : Tree → Prop} (hP : ∀ {t u : Tree}, u.id = t.id → u.label = t.label → P t → P u)
    (h : t.All P) : (t.declareSlot v).All P :=
  all_iff.2 ⟨hP id_declareSlot label_declareSlot h.top, all_kids_declareSlot hP fun _ hk => h.kid hk⟩

/-- A declaration that has the type of its slot is settled. -/
theorem settled_declareSlot {c : Catalog} (hf : t.Fits) (hl : ∃ a b d, t.label = .variableDecl a b d) :
    (t.declareSlot v).Settled c := by
  obtain ⟨i, ty, l, hs, bs, os⟩ := t
  obtain ⟨a, b, d, rfl⟩ := hl
  obtain ⟨x, hs, rfl⟩ := List.exists_cons_of_length_pos (show 0 < hs.length from ((fits_iff _).1 hf).1.1)
  exact fun _ _ => rfl

@[simp] theorem addDecls_nil : t.addDecls [] = t := by
  cases t
  simp [addDecls]

@[simp] theorem id_addDecls : (t.addDecls gs).id = t.id := by
  cases t
  rfl

@[simp] theorem label_addDecls : (t.addDecls gs).label = t.label := by
  cases t
  rfl

theorem ids_subset_addDecls : t.ids ⊆ (t.addDecls gs).ids := by
  intro i hi
  obtain ⟨j, ty, l, hs, bs, os⟩ := t
  simp only [addDecls, ids_eq, kids_node, id_node, List.flatMap_append, List.mem_cons, List.mem_append] at hi ⊢
  tauto

end Tree

namespace Lower

variable {w : Workspace Progress} {c : Catalog} {g : Guard c} {st : Stats} {G : Outside} {m : NodeId} {K : Ctx}
  {t : Tree}

/-- The pass at a declaration: what the catalog does not list is left alone, and so is what has the type of a slot.
-/
theorem lowerDeclaration_course {a b d : Bool} (hl : t.label = .variableDecl a b d)
    (h : Has w c st [(none, K.plug t)] [] G) (hI : w.store.Tends g m G) (hm : (K.plug t).id = m) :
    Course (Store.Tends g m G) (lowerDeclaration t.id m) w (fun _ w' => (w' = w ∧ t.Settled c) ∨
      ∃ v gs, c.declaredAt? t.id = some v ∧ t.ty.any Ty.isSlot = false ∧ Getters v gs ∧
        t.GetterFree c (K.plug (t.declareSlot v)).body ∧
        Has w' c (st + { getters := gs.length }) [(none, (K.plug (t.declareSlot v)).addDecls gs)] [] G)
      fun e => ¬ t.Settled c ∧ ((K.plug t).label = .module →
        e.Fault True (∀ v, t.GetterFree c (K.plug (t.declareSlot v)).body)) := by
  have hb := hI.bears h.keeps hm
  have hin : w.store.Holds K.parent t := h.holds.inside
  have hft : t.Fits := Ctx.fits_of_plug h.fits
  unfold lowerDeclaration
  rw [course_catalog, h.catalog]
  cases hv : c.declaredAt? t.id with
  | none => exact .pure hI (.inl ⟨rfl, fun v hv' => by simp [hv] at hv'⟩)
  | some v =>
    simp only
    rw [course_store, hin.ty?]
    split
    · next hslot => exact .pure hI (.inl ⟨rfl, fun _ _ => hslot⟩)
    · next hslot =>
      have hset : ¬ t.Settled c := fun hset => hslot (hset v hv)
      obtain ⟨hheld, hheads⟩ := hb.not_held_of_declared (p := none) List.mem_cons_self ⟨a, b, d, hl⟩ hv
      refine course_edit hI (Edit.updateTy_does hb rfl (fun _ => some v.slotTy) hheld) (fun _ he => he.elim) ?_
      rintro _ w₁ ho₁ ⟨hk₁, -⟩
      -- the name that is declared is the first head
      obtain ⟨i, ty, l, hs, bs, os⟩ := t
      obtain rfl : l = .variableDecl a b d := hl
      obtain ⟨h1, -, -, -⟩ := ((Tree.fits_iff _).1 hft).1
      obtain ⟨x, hs, rfl⟩ := List.exists_cons_of_length_pos (show 0 < hs.length from h1)
      have hk₁ : w₁.store.Bears g [(none, K.plug (.node i (some v.slotTy) (.variableDecl a b d) (x :: hs) bs os))]
        [] G := hk₁
      have hid : ∀ y : Tree, (K.plug (.node i (some v.slotTy) (.variableDecl a b d) (y :: hs) bs os)).id = m :=
        fun _ => hm ▸ Ctx.id_plug_congr rfl
      refine (course_node (i := i) (Store.Holds.inside (hk₁.holds _ List.mem_cons_self)).top).2 ?_
      have hk₂ : w₁.store.Bears g [(none,
          Ctx.plug (⟨i, some v.slotTy, .variableDecl a b d, .heads, [], hs, bs, os⟩ :: K) x)] [] G := hk₁
      refine course_edit (hk₁.tends List.mem_cons_self (hid x))
        (Edit.updateTy_does hk₂ rfl (fun _ => some v.slotTy) (hheads x rfl)) (fun _ he => he.elim) ?_
      rintro _ w₂ ho₂ ⟨hk₂, -⟩
      have hw₂ : Has w₂ c st [(none, K.plug (.node i (some v.slotTy) (.variableDecl a b d)
          (x.withTy (some v.slotTy) :: hs) bs os))] [] G := ⟨by rw [ho₂, ho₁, h.own], hk₂.toKeeps⟩
      have hI₂ : w₂.store.Tends g m G := hk₂.tends List.mem_cons_self (hid (x.withTy (some v.slotTy)))
      have hvar {v'} (hv' : c.declaredAt? i = some v') : v = v' := Option.some.inj (hv.symm.trans hv')
      split
      · next hpub =>
        have hadd := addGetter_course hw₂ hI₂ (hid _) v
        rw [hid] at hadd
        refine hadd.mono ?_ fun e he => ⟨hset, fun hmod => ?_⟩
        · rintro _ w₃ ⟨j, tyj, body, g, hT, hg, hfree, hw₃⟩
          refine .inr ⟨v, [g], rfl, by simpa using hslot, .one hpub hg, fun v' hv' _ => hvar hv' ▸ hfree, ?_⟩
          simp only [Tree.declareSlot]
          rw [hT]
          exact hw₃
        · refine (he ?_).mono (fun _ => trivial) fun hfree => hfree v v hv hpub
          cases K with
          | nil => exact hmod
          | cons f K => exact Ctx.label_plug_cons.trans hmod
      · next hpub =>
        refine .pure hI₂ (.inr ⟨v, [], rfl, by simpa using hslot, .none (by simpa using hpub),
          fun v' hv' hp => ?_, ?_⟩)
        · exact absurd (hvar hv' ▸ hp) hpub
        · rw [Tree.addDecls_nil]
          exact hw₂

end Lower

end ContractTree
